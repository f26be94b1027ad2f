import Foam.Proofs.Arena.Reach
import Foam.Proofs.Roles
import Foam.Unit

/-!
# Effects of evaluating a tree

Assignments, some calls and a few other instructions have an effect of their own, and so have calls of
some builtins. A procedure inside a tree is a value: what is in it is not evaluated. So a tree can have
an effect if and only if a path that meets no procedure leads to a node with an effect of its own
(`hasEffect_iff_evaluates`).
-/

namespace Foam

/-- Evaluating the node has an effect, whatever its operands are. -/
def Node.Acts (n : Node) : Prop :=
  n.tag ∈ [.set, .defn, .pcall, .ocall, .ccall, .catches, .eensure, .yield] ∨
    n.tag = .bcall ∧ ∃ v op, n.slots[0]? = some (.int v) ∧
      Builtin.ofOrdinal? v.toInt = some op ∧ op.hasEffect = true

theorem Node.Acts.ne_prog {n : Node} (h : n.Acts) : n.tag ≠ .prog := by
  intro htag
  rw [Acts, htag] at h
  rcases h with h | ⟨h, -⟩
  · exact absurd h (by decide)
  · cases h

theorem Node.acts_bcall {n : Node} {v : Int64} (htag : n.tag = .bcall)
    (hv : n.slots[0]? = some (.int v)) :
    n.Acts ↔ ∃ op, Builtin.ofOrdinal? v.toInt = some op ∧ op.hasEffect = true := by
  constructor
  · rintro (h | ⟨-, w, op, hw, hop⟩)
    · rw [htag] at h
      exact absurd h (by decide)
    · cases hv.symm.trans hw
      exact ⟨op, hop⟩
  · rintro ⟨op, hop⟩
    exact .inr ⟨htag, v, op, hv, hop⟩

namespace Arena

/-- Evaluating `x` comes to `y`: a path leads there that meets no procedure, at its ends or between. -/
inductive Evaluates (a : Arena) : (x y : NodeId) → Prop
  | here {x : NodeId} {n : Node} : a.get? x = some n → n.tag ≠ .prog → Evaluates a x x
  | operand {x y z : NodeId} {n : Node} : a.get? x = some n → n.tag ≠ .prog → y ∈ n.children →
      Evaluates a y z → Evaluates a x z

/-- Evaluating the node comes to one with an effect of its own. -/
def MayAct (a : Arena) (x : NodeId) : Prop := ∃ y n, a.Evaluates x y ∧ a.get? y = some n ∧ n.Acts

variable {a : Arena} {x : NodeId} {n : Node}

theorem mayAct_of_acts (hn : a.get? x = some n) (h : n.Acts) : a.MayAct x :=
  ⟨x, n, .here hn h.ne_prog, hn, h⟩

theorem not_mayAct_of_prog (hn : a.get? x = some n) (h : n.tag = .prog) : ¬a.MayAct x := by
  rintro ⟨y, m, hxy, -, -⟩
  cases hxy with
  | here hk hne =>
      cases hn.symm.trans hk
      exact hne h
  | operand hk hne _ _ =>
      cases hn.symm.trans hk
      exact hne h

/-- What has no effect of its own and is no procedure leaves it to its operands. -/
theorem mayAct_iff_operand (hn : a.get? x = some n) (hprog : n.tag ≠ .prog) (h : ¬n.Acts) :
    a.MayAct x ↔ ∃ c ∈ n.children, a.MayAct c := by
  constructor
  · rintro ⟨y, m, hxy, hm, hacts⟩
    cases hxy with
    | here _ _ =>
        cases hn.symm.trans hm
        exact absurd hacts h
    | operand hk _ hc hcy =>
        cases hn.symm.trans hk
        exact ⟨_, hc, y, m, hcy, hm, hacts⟩
  · rintro ⟨c, hc, y, m, hcy, hm, hacts⟩
    exact ⟨y, m, .operand hn hprog hc hcy, hm, hacts⟩

/-- A call of a builtin acts if the builtin is known and has an effect. -/
theorem callBuiltin?_acts (hw : a.WellFormed) (hn : a.get? x = some n) (htag : n.tag = .bcall) :
    ∃ o, a.callBuiltin? x = .ok o ∧ (n.Acts ↔ ∃ op, o = some op ∧ op.hasEffect = true) := by
  obtain ⟨hi, hkind⟩ := hw.fixed_slot (i := 0) (k := .builtin) hn (by rw [htag]; rfl)
  obtain ⟨v, hv⟩ := hw.int_at hn hi hkind rfl
  refine ⟨_, ?_, Node.acts_bcall htag hv⟩
  rw [callBuiltin?, int_of_get? hn hv]
  rfl

/-- What a node decides by itself. -/
theorem ownEffect?_answers (hw : a.WellFormed) (hn : a.get? x = some n) :
    Checked.Answers (fun o => (o = some true ∧ n.Acts) ∨ (o = some false ∧ n.tag = .prog) ∨
      o = none ∧ n.tag ≠ .prog ∧ ¬n.Acts) (a.ownEffect? x) := by
  unfold ownEffect?
  rw [tag_of_get? hn, Checked.ok_bind]
  split
  case h_9 htag =>
    have hprog : n.tag ≠ .prog := by
      rw [htag]
      decide
    obtain ⟨o, ho, hacts⟩ := callBuiltin?_acts hw hn htag
    rw [ho, Checked.ok_bind]
    cases o with
    | none => exact ⟨none, rfl, .inr (.inr ⟨rfl, hprog, by simp [hacts]⟩)⟩
    | some op =>
        by_cases heffect : op.hasEffect = true
        · refine ⟨some true, ?_, .inl ⟨rfl, hacts.mpr ⟨op, rfl, heffect⟩⟩⟩
          exact congrArg Except.ok (if_pos heffect)
        · refine ⟨none, ?_, .inr (.inr ⟨rfl, hprog, by simp [hacts, heffect]⟩)⟩
          exact congrArg Except.ok (if_neg heffect)
  case h_10 htag => exact ⟨some false, rfl, .inr (.inl ⟨rfl, htag⟩)⟩
  case h_11 =>
    refine ⟨none, rfl, .inr (.inr ⟨rfl, by assumption, ?_⟩)⟩
    rintro (h | ⟨h, -⟩)
    · simp only [List.mem_cons, List.not_mem_nil, or_false] at h
      rcases h with h | h | h | h | h | h | h | h <;> contradiction
    · contradiction
  all_goals
    rename_i htag
    exact ⟨some true, rfl, .inl ⟨rfl, .inl (by rw [htag]; decide)⟩⟩

theorem hasEffectFrom_answers (hw : a.WellFormed) {t : Tree NodeId} (ht : t.In a) {depth : Nat}
    (hd : t.height ≤ depth) :
    Checked.Answers (fun v => v = true ↔ a.MayAct t.label) (a.hasEffectFrom depth t.label) := by
  induction t generalizing depth with
  | node id tag fs ih =>
      obtain ⟨d, rfl⟩ : ∃ d, depth = d + 1 :=
        ⟨depth - 1, (Nat.sub_add_cancel ((Tree.height_pos _).trans_le hd)).symm⟩
      obtain ⟨n, hn, -⟩ := ht.get?
      rw [Tree.label, hasEffectFrom]
      obtain ⟨o, ho, hown⟩ := ownEffect?_answers hw hn
      rw [ho, Checked.ok_bind]
      rcases hown with ⟨rfl, hacts⟩ | ⟨rfl, hprog⟩ | ⟨rfl, hprog, hnot⟩
      · exact .ok (iff_of_true rfl (mayAct_of_acts hn hacts))
      · exact .ok (iff_of_false Bool.false_ne_true (not_mayAct_of_prog hn hprog))
      · show Checked.Answers _ (a.children id >>= fun cs => cs.anyM (a.hasEffectFrom d))
        rw [children_of_get? hn, Checked.ok_bind]
        refine (Checked.Answers.anyM (p := a.MayAct) fun c hc => ?_).imp fun v hv =>
          hv.trans (mayAct_iff_operand hn hprog hnot).symm
        rw [ht.children hn] at hc
        obtain ⟨u, hu, rfl⟩ := List.mem_map.mp hc
        have hchild : .child u ∈ fs := Tree.mem_subtrees.mp hu
        exact ih u hchild (ht.child hchild)
          (Nat.le_of_lt_succ ((Tree.height_lt id tag hchild).trans_le hd))

/-- For a graph of live nodes without a circle it is found whether evaluating it can have an effect:
it can if and only if a path that meets no procedure leads to a node with an effect of its own. -/
theorem hasEffect_iff_evaluates (hw : a.WellFormed) (hacyclic : a.Acyclic x)
    (hlive : ∀ z, a.Reaches x z → ∃ n, a.get? z = some n) :
    ∃ v, a.hasEffect x = .ok v ∧
      (v = true ↔ ∃ y n, a.Evaluates x y ∧ a.get? y = some n ∧ n.Acts) := by
  obtain ⟨t, ht, rfl⟩ := hacyclic.exists_in hw hlive
  exact hasEffectFrom_answers hw ht (Nat.le_of_lt ht.height_lt_depthBound)

/-- Two sequences share a procedure that assigns. One of them also has a call, below a cast, of the
builtin that stops the program, and only that one has an effect. -/
theorem hasEffect_iff_evaluates_beside_procedure :
    let a : Arena := .ofRows [some (.bare .set [.code .null, .code .null]),
      some (.bare .prog (List.replicate 8 (.int 0) ++ [.code ⟨0⟩])), some (.bare .sint [.int 0]),
      some (.bare .bcall [.int 191, .code ⟨2⟩]), some (.bare .cast [.int 8, .code ⟨3⟩]),
      some (.bare .seq [.code ⟨1⟩, .code .null, .code ⟨4⟩]),
      some (.bare .seq [.code ⟨1⟩, .code ⟨2⟩])] []
    a.WellFormed ∧ a.Acyclic ⟨5⟩ ∧ (∀ z, a.Reaches ⟨5⟩ z → ∃ n, a.get? z = some n) ∧
      a.Acyclic ⟨6⟩ ∧ (∀ z, a.Reaches ⟨6⟩ z → ∃ n, a.get? z = some n) ∧
      a.hasEffect ⟨5⟩ = .ok true ∧
      (∃ y n, a.Evaluates ⟨5⟩ y ∧ a.get? y = some n ∧ n.Acts) ∧
      a.hasEffect ⟨6⟩ = .ok false ∧ a.Reaches ⟨6⟩ ⟨0⟩ ∧
      ¬∃ y n, a.Evaluates ⟨6⟩ y ∧ a.get? y = some n ∧ n.Acts := by
  intro a
  let assign : Tree NodeId := .node ⟨0⟩ .set [.leaf (.code .null), .leaf (.code .null)]
  let prog : Tree NodeId :=
    .node ⟨1⟩ .prog (List.replicate 8 (.leaf (.int 0)) ++ [.child assign])
  let zero : Tree NodeId := .node ⟨2⟩ .sint [.leaf (.int 0)]
  let call : Tree NodeId := .node ⟨3⟩ .bcall [.leaf (.int 191), .child zero]
  let cast : Tree NodeId := .node ⟨4⟩ .cast [.leaf (.int 8), .child call]
  let t : Tree NodeId := .node ⟨5⟩ .seq [.child prog, .leaf (.code .null), .child cast]
  let u : Tree NodeId := .node ⟨6⟩ .seq [.child prog, .child zero]
  have hw : a.WellFormed := by decide
  have ht : t.In a := by decide
  have hu : u.In a := by decide
  have hlive : ∀ {t : Tree NodeId}, t.In a → ∀ z, a.Reaches t.label z → ∃ n, a.get? z = some n :=
    fun ht z hz => (Tree.mem_labels_live ht (ht.mem_labels hz)).2
  obtain ⟨v, hv, hiff⟩ := hasEffect_iff_evaluates hw ht.acyclic (hlive ht)
  obtain ⟨w, hw', hiff'⟩ := hasEffect_iff_evaluates hw hu.acyclic (hlive hu)
  have htrue : a.hasEffect ⟨5⟩ = .ok true := by rfl
  have hfalse : a.hasEffect ⟨6⟩ = .ok false := by rfl
  obtain rfl : v = true := Except.ok.inj (hv.symm.trans htrue)
  obtain rfl : w = false := Except.ok.inj (hw'.symm.trans hfalse)
  refine ⟨hw, ht.acyclic, hlive ht, hu.acyclic, hlive hu, htrue, hiff.mp rfl, hfalse, ?_, ?_⟩
  · exact hu.reaches (show ⟨0⟩ ∈ u.labels by decide)
  · exact mt hiff'.mpr Bool.false_ne_true

end Arena

end Foam
