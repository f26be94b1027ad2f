import Foam.Proofs.Codec.Recoded

/-!
# Declarations and types before and after

What is looked up in a unit is looked up as well in the unit that comes back, and expressions have the
same types. This asks that what stands for a declaration is one: a wide literal in its place would come
back as a call, whose slots are others.
-/

namespace Foam

namespace Tree

variable {α : Type}

/-- The declarations of a group come back with all that they hold. The group itself may be anything
but a wide literal. -/
def KeepsDecls (g : Tree α) : Prop := g.wide? = none ∧ ∀ d ∈ subtrees g.fields.tail, d.Steady

instance (g : Tree α) : Decidable g.KeepsDecls := inferInstanceAs (Decidable (_ ∧ _))

/-- So do the formats of a table and their declarations. -/
def KeepsFormats (f : Tree α) : Prop :=
  f.wide? = none ∧ ∀ g ∈ subtrees f.fields, g.Steady ∧ g.KeepsDecls

/-- So do the levels of a procedure, and the declarations of its parameters and locals. -/
def KeepsFrame (p : Tree α) : Prop :=
  (∀ g ∈ p.child? 8, g.KeepsDecls) ∧ (∀ g ∈ p.child? 9, g.KeepsDecls) ∧ ∀ l ∈ p.child? 11, l.Steady

instance (p : Tree α) : Decidable p.KeepsFrame := inferInstanceAs (Decidable (_ ∧ _))

end Tree

open Foam.Tree Checked

variable {a b : Arena} {x y : NodeId}

theorem mem_subtrees_tail_of_child? {α : Type} {t c : Tree α} {i : Nat}
    (h : t.child? (1 + i) = some c) : c ∈ subtrees t.fields.tail := by
  obtain ⟨f, hf, hfc⟩ := Option.bind_eq_some_iff.mp h
  refine List.mem_filterMap.mpr ⟨f, List.mem_of_getElem? (i := i) ?_, hfc⟩
  rw [List.getElem?_tail, Nat.add_comm, hf]

/-! ## Groups and formats -/

theorem groupSize_sim (hw : a.WellFormed) (h : Twin a b (·.wide? = none) x y) :
    Sim Eq (a.groupSize x) (b.groupSize y) := by
  cases h with
  | intro h hwide => exact (h.slotCount_sim hw hwide).bind_eq fun n => .ok rfl

theorem groupDecl?_sim (hw : a.WellFormed) (h : Twin a b Tree.KeepsDecls x y) (i : Int) :
    Sim (Option.Rel (Twin a b Tree.Steady)) (a.groupDecl? x i) (b.groupDecl? y i) := by
  have hsize := groupSize_sim hw (h.imp fun _ hg => hg.1)
  cases h with
  | intro h hg =>
      refine .ite Iff.rfl (fun _ => .ok .none) fun _ => hsize.bind_eq fun n => ?_
      refine .ite Iff.rfl (fun _ => (h.child_sim hw _).bind ?_) fun _ => .ok .none
      intro c d hcd
      refine .ok (hcd.imp ?_).present_rel
      exact fun t ht => hg.2 t (mem_subtrees_tail_of_child? ht)

theorem format?_sim (hw : a.WellFormed) (h : Twin? a b Tree.KeepsFormats x y) (i : Int) :
    Sim (Option.Rel (Twin a b fun g => g.Steady ∧ g.KeepsDecls)) (a.format? x i) (b.format? y i) := by
  unfold Arena.format?
  refine .ite (by rw [h.isNull_eq]) (fun _ => .ok .none) fun hx => ?_
  cases h with
  | absent => simp [NodeId.isNull] at hx
  | present h hf =>
      refine (h.slotCount_sim hw hf.1).bind_eq fun n => ?_
      refine .ite Iff.rfl (fun _ => (h.child_sim hw _).bind ?_) fun _ => .ok .none
      intro c d hcd
      refine .ok (hcd.imp ?_).present_rel
      exact fun t ht => hf.2 t (mem_subtrees_of_child? ht)

theorem formatSize_sim (hw : a.WellFormed) (h : Twin? a b Tree.KeepsFormats x y) (i : Int) :
    Sim Eq (a.formatSize x i) (b.formatSize y i) := by
  refine (format?_sim hw h i).bind ?_
  intro g g' hg
  cases hg with
  | none => exact .ok rfl
  | some hg => exact groupSize_sim hw (hg.imp fun _ hg => hg.1.1)

theorem formatDecl?_sim (hw : a.WellFormed) (h : Twin? a b Tree.KeepsFormats x y) (i j : Int) :
    Sim (Option.Rel (Twin a b Tree.Steady)) (a.formatDecl? x i j) (b.formatDecl? y i j) := by
  refine (format?_sim hw h i).bind ?_
  intro g g' hg
  cases hg with
  | none => exact .ok .none
  | some hg => exact groupDecl?_sim hw (hg.imp fun _ hg => hg.2) j

theorem steady_int (hw : a.WellFormed) (h : Twin a b Tree.Steady x y) (i : Nat) :
    Sim Eq (a.int x i) (b.int y i) := by
  cases h with
  | intro h hs => exact h.steady_int_sim hw hs i

theorem groupUsage?_sim (hw : a.WellFormed) (h : Twin a b Tree.Steady x y) :
    Sim Eq (a.groupUsage? x) (b.groupUsage? y) :=
  (steady_int hw h 0).bind_eq fun _ => .ok rfl

theorem formatUsage?_sim (hw : a.WellFormed) (h : Twin? a b Tree.KeepsFormats x y) (i : Int) :
    Sim Eq (a.formatUsage? x i) (b.formatUsage? y i) := by
  refine (format?_sim hw h i).bind ?_
  intro g g' hg
  cases hg with
  | none => exact .ok rfl
  | some hg => exact groupUsage?_sim hw (hg.imp fun _ hg => hg.1)

theorem declType?_sim (hw : a.WellFormed) (h : Twin a b Tree.Steady x y) :
    Sim Eq (a.declType? x) (b.declType? y) :=
  (steady_int hw h 0).bind_eq fun _ => .ok rfl

/-! ## Records that end in an array -/

theorem leadingCount?_sim (hw : a.WellFormed) (h : Twin a b Tree.KeepsDecls x y) :
    Sim Eq (a.leadingCount? x) (b.leadingCount? y) := by
  refine (groupDecl?_sim hw h 0).bind ?_
  intro d d' hd
  cases hd with
  | none => exact .ok rfl
  | some hd => exact (steady_int hw hd 3).bind_eq fun _ => .ok rfl

theorem leadingDecl?_sim (hw : a.WellFormed) (h : Twin a b Tree.KeepsDecls x y) (i : Int) :
    Sim (Option.Rel (Twin a b Tree.Steady)) (a.leadingDecl? x i) (b.leadingDecl? y i) := by
  refine .ite Iff.rfl (fun _ => .ok .none) fun _ => (leadingCount?_sim hw h).bind_eq fun n => ?_
  cases n with
  | none => exact .ok .none
  | some n => exact .ite Iff.rfl (fun _ => .ok .none) fun _ => groupDecl?_sim hw h _

theorem elementDecl?_sim (hw : a.WellFormed) (h : Twin a b Tree.KeepsDecls x y) (i : Int) :
    Sim (Option.Rel (Twin a b Tree.Steady)) (a.elementDecl? x i) (b.elementDecl? y i) := by
  refine .ite Iff.rfl (fun _ => .ok .none) fun _ => (leadingCount?_sim hw h).bind_eq fun n => ?_
  cases n with
  | none => exact .ok .none
  | some n => exact .ite Iff.rfl (fun _ => groupDecl?_sim hw h _) fun _ => .error _ _

/-! ## Procedures -/

theorem progParams_sim (hw : a.WellFormed) (h : Twin a b Tree.KeepsFrame x y) :
    Sim (Twin? a b Tree.KeepsDecls) (a.progParams x) (b.progParams y) := by
  cases h with
  | intro h hp => exact (h.child_sim hw 8).imp fun _ _ hg => hg.imp fun g hg => hp.1 g hg

theorem progLocals_sim (hw : a.WellFormed) (h : Twin a b Tree.KeepsFrame x y) :
    Sim (Twin? a b Tree.KeepsDecls) (a.progLocals x) (b.progLocals y) := by
  cases h with
  | intro h hp => exact (h.child_sim hw 9).imp fun _ _ hg => hg.imp fun g hg => hp.2.1 g hg

theorem progLevels_sim (hw : a.WellFormed) (h : Twin a b Tree.KeepsFrame x y) :
    Sim (Twin? a b Tree.Steady) (a.progLevels x) (b.progLevels y) := by
  cases h with
  | intro h hp => exact (h.child_sim hw 11).imp fun _ _ hl => hl.imp fun l hl => hp.2.2 l hl

theorem levelFormat?_sim (hw : a.WellFormed) (h : Twin a b Tree.KeepsFrame x y) (level : Int) :
    Sim Eq (a.levelFormat? x level) (b.levelFormat? y level) := by
  refine (progLevels_sim hw h).bind fun l l' hl => ?_
  refine .ite (by rw [hl.isNull_eq]) (fun _ => .ok rfl) fun hnull => ?_
  have hl : Twin a b Tree.Steady l l' := hl.of_not_null (by simp_all)
  have hint := steady_int hw hl level.toNat
  cases hl with
  | intro h hs =>
      refine (h.slotCount_sim hw hs.1).bind_eq fun n => ?_
      exact .ite Iff.rfl (fun _ => hint.bind_eq fun v => .ok rfl) fun _ => .ok rfl

/-! ## Lookups -/

/-- The declarations of the scopes stand in the same places. -/
structure Scope.Twin (a b : Arena) (s s' : Scope) : Prop where
  prog : Twin? a b Tree.KeepsFrame s.prog s'.prog
  formats : Twin? a b Tree.KeepsFormats s.formats s'.formats

variable {s s' : Scope} {t u : Tree NodeId}

theorem progDecl?_sim (hw : a.WellFormed) (h : s.Twin a b s')
    {part : Arena → NodeId → Checked NodeId}
    (hpart : ∀ {x y}, Twin a b Tree.KeepsFrame x y →
      Sim (Twin? a b Tree.KeepsDecls) (part a x) (part b y)) (i : Int) :
    Sim (Option.Rel (Twin a b Tree.Steady)) (s.progDecl? a part i) (s'.progDecl? b part i) := by
  refine .ite (by rw [h.prog.isNull_eq]) (fun _ => .ok .none) fun hnull => ?_
  refine (hpart (h.prog.of_not_null hnull)).bind fun g g' hg => ?_
  cases hg with
  | absent =>
      refine .ite Iff.rfl (fun _ => .ok .none) fun _ => ?_
      rw [Arena.groupSize, Arena.slotCount, Arena.slots, hw.node_null]
      exact .error _ _
  | present hg hdecls => exact groupDecl?_sim hw (.intro hg hdecls) i

/-- What a node looks up is the same declaration. -/
theorem lookup?_sim (hw : a.WellFormed) (h : s.Twin a b s') (ht : t.Recodes a b u) :
    Sim (Option.Rel (Twin a b Tree.Steady)) (s.lookup? a t.label) (s'.lookup? b u.label) := by
  unfold Scope.lookup?
  rw [ht.source.tag_eq, ht.target.tag_eq]
  cases hwide : t.wide? with
  | some v =>
      rw [tag_of_wide hwide]
      rcases (ht.of_wide hwide).tag_eq with htag | htag
      · rw [htag]
        exact .ok .none
      · rw [htag]
        exact .ok .none
  | none =>
      rw [(ht.node hw hwide).1]
      have hint : ∀ i, t.tag ≠ .prog → Sim Eq (a.int t.label i) (b.int u.label i) :=
        fun i hne => ht.num_sim hw hwide hne i
      cases htag : t.tag
      case loc =>
        exact (hint 0 (by simp [htag])).bind_eq fun v => progDecl?_sim hw h (progLocals_sim hw) _
      case par =>
        exact (hint 0 (by simp [htag])).bind_eq fun v => progDecl?_sim hw h (progParams_sim hw) _
      case glo =>
        exact (hint 0 (by simp [htag])).bind_eq fun v => formatDecl?_sim hw h.formats _ _
      case fluid =>
        exact (hint 0 (by simp [htag])).bind_eq fun v => formatDecl?_sim hw h.formats _ _
      case const =>
        exact (hint 0 (by simp [htag])).bind_eq fun v => formatDecl?_sim hw h.formats _ _
      case lex =>
        refine .ite (by rw [h.prog.isNull_eq]) (fun _ => .ok .none) fun hnull => ?_
        refine (hint 0 (by simp [htag])).bind_eq fun v => ?_
        refine (levelFormat?_sim hw (h.prog.of_not_null hnull) _).bind_eq fun f => ?_
        cases f with
        | none => exact .ok .none
        | some f =>
            exact (hint 1 (by simp [htag])).bind_eq fun i => formatDecl?_sim hw h.formats _ _
      case relt =>
        exact (hint 0 (by simp [htag])).bind_eq fun f => (hint 2 (by simp [htag])).bind_eq fun i =>
          formatDecl?_sim hw h.formats _ _
      case irelt =>
        refine (hint 0 (by simp [htag])).bind_eq fun f => ?_
        refine (format?_sim hw h.formats _).bind fun g g' hg => ?_
        cases hg with
        | none => exact .ok .none
        | some hg =>
            exact (hint 2 (by simp [htag])).bind_eq fun i =>
              leadingDecl?_sim hw (hg.imp fun _ hg => hg.2) _
      case trelt =>
        refine (hint 0 (by simp [htag])).bind_eq fun f => ?_
        refine (format?_sim hw h.formats _).bind fun g g' hg => ?_
        cases hg with
        | none => exact .ok .none
        | some hg =>
            exact (hint 3 (by simp [htag])).bind_eq fun i =>
              elementDecl?_sim hw (hg.imp fun _ hg => hg.2) _
      case eelt =>
        exact (hint 0 (by simp [htag])).bind_eq fun f => (hint 3 (by simp [htag])).bind_eq fun i =>
          formatDecl?_sim hw h.formats _ _
      all_goals exact .ok .none

/-! ## Types -/

open ExprType

theorem tag_sim (ht : t.Recodes a b u) : Sim (fun _ _ => True) (a.tag t.label) (b.tag u.label) := by
  rw [ht.source.tag_eq, ht.target.tag_eq]
  exact .ok trivial

theorem typeIn_sim (hw : a.WellFormed) (ht : t.Recodes a b u) (hwide : t.wide? = none) {i : Nat}
    (htag : t.tag ≠ .prog) : TypeM.Sim Eq (typeIn a t.label i) (typeIn b u.label i) := by
  refine .read_eq (ht.num_sim hw hwide htag _) fun v => ?_
  split
  · exact .pure rfl
  · exact .read (tag_sim ht) fun _ _ _ => .throw _ _

theorem resultOf_sim (hw : a.WellFormed) (ht : t.Recodes a b u) (hwide : t.wide? = none)
    (htag : t.tag ≠ .prog) : TypeM.Sim Eq (resultOf a t.label) (resultOf b u.label) := by
  refine .read_eq (ht.num_sim hw hwide htag _) fun v => ?_
  split
  · exact .pure rfl
  · exact .read (tag_sim ht) fun _ _ _ => .throw _ _

theorem declared_sim (hw : a.WellFormed) (h : s.Twin a b s') (ht : t.Recodes a b u)
    (hwide : t.wide? = none) :
    TypeM.Sim Eq (declared a (s.lookup? a) t.label) (declared b (s'.lookup? b) u.label) := by
  unfold declared
  rw [ht.source.tag_eq, ht.target.tag_eq, (ht.node hw hwide).1]
  refine .read_eq (.ok rfl) fun tag => ?_
  refine .read (lookup?_sim hw h ht) fun d d' hd => ?_
  cases hd with
  | none => exact .throw _ _
  | @some d d' hd =>
      refine .read_eq (declType?_sim hw hd) fun type => ?_
      have hint := steady_int hw hd
      cases type with
      | none =>
          cases hd with
          | intro hd _ =>
              exact .read (tag_sim hd) fun _ _ _ => .read (hint 0) fun _ _ _ => .throw _ _
      | some type =>
          refine .ite Iff.rfl (fun _ => ?_) fun _ => .pure rfl
          exact .read_eq (hint 3) fun _ => .pure rfl

theorem ofTag_sim (hw : a.WellFormed) (h : s.Twin a b s') (ht : t.Recodes a b u)
    (hwide : t.wide? = none) :
    TypeM.Sim Eq (ofTag a (s.lookup? a) t.label t.tag) (ofTag b (s'.lookup? b) u.label t.tag) := by
  have hint : t.tag ≠ .prog → Sim Eq (a.int t.label 0) (b.int u.label 0) :=
    fun hne => ht.num_sim hw hwide hne 0
  have htype : ∀ i, t.tag ≠ .prog → TypeM.Sim Eq (typeIn a t.label i) (typeIn b u.label i) :=
    fun i hne => typeIn_sim hw ht hwide hne
  have hresult : t.tag ≠ .prog → TypeM.Sim Eq (resultOf a t.label) (resultOf b u.label) :=
    fun hne => resultOf_sim hw ht hwide hne
  have hdeclared := declared_sim hw h ht hwide
  revert hint htype hresult
  generalize t.tag = tag
  intro hint htype hresult
  unfold ofTag
  cases tag
  case record | arr | rnew | mfmt | trnew | anew =>
    exact .read_eq (hint (by decide)) fun _ => .pure rfl
  case bval | bcall => exact (hresult (by decide)).bind_eq fun _ => .pure rfl
  case cast | aelt | ccall | ocall => exact (htype 0 (by decide)).bind_eq fun _ => .pure rfl
  case pcall => exact (htype 1 (by decide)).bind_eq fun _ => .pure rfl
  case par | loc | glo | fluid | const | lex | relt | irelt | trelt | eelt => exact hdeclared
  all_goals first
    | exact .pure rfl
    | exact .throw _ _

/-- An expression on integers is an integer. -/
theorem ofFrom_intExpr (hu : u.In b) (h : u.IsIntExpr) (lookup? : NodeId → Checked (Option NodeId))
    (depth : Nat) : ofFrom b lookup? (depth + 1) u.label = (pure (plain .sint) : TypeM ExprType) := by
  rw [ofFrom, hu.tag_eq]
  cases h with
  | sint => rfl
  | @bcall l op args hop =>
      have hint : b.int l 0 = .ok (Int64.ofNat (Table.ordinal op)) := hu.int_eq rfl
      have hresult : resultOf b l = (pure op.result : TypeM Tag) := by
        unfold resultOf
        rw [hint, show ((Except.ok _ : Checked Int64) : TypeM Int64) = pure _ from rfl, pure_bind,
          show Builtin.ofOrdinal? _ = some op from ofOrdinal?_row op]
      show (resultOf b l >>= fun tag => pure (plain tag)) = _
      rw [hresult, hop.2]
      rfl

/-- An expression has the type that it had. The bound on the depth need not be the same. -/
theorem ofFrom_sim (hw : a.WellFormed) (h : s.Twin a b s') (ht : t.Recodes a b u) (depth : Nat)
    {depth' : Nat} (hd : u.height < depth') :
    TypeM.Sim Eq (ofFrom a (s.lookup? a) depth t.label) (ofFrom b (s'.lookup? b) depth' u.label) := by
  induction depth generalizing t u depth' with
  | zero => exact .error _ _
  | succ depth ih =>
      obtain ⟨d, rfl⟩ : ∃ d, depth' = d + 1 := ⟨depth' - 1, by omega⟩
      cases hwide : t.wide? with
      | some v =>
          rw [ofFrom_intExpr ht.target (ht.of_wide hwide), ofFrom, ht.source.tag_eq,
            tag_of_wide hwide]
          exact .pure rfl
      | none =>
          rw [ofFrom, ofFrom, ht.source.tag_eq, ht.target.tag_eq, (ht.node hw hwide).1]
          refine .ite Iff.rfl (fun _ => ?_) fun _ => ofTag_sim hw h ht hwide
          -- an assignment, which has the type of what it assigns
          have hright : Sim (fun x y => TypeM.Sim Eq (ofFrom a (s.lookup? a) depth x)
              (ofFrom b (s'.lookup? b) d y)) (a.right t.label) (b.right u.label) := by
            intro x hx
            rcases ht.of_child_ok hw hx with ⟨rfl, hy⟩ | ⟨v, w, -, hw', hvw, rfl, hy⟩
            · refine ⟨.null, hy, ?_⟩
              cases depth with
              | zero => exact .error _ _
              | succ depth =>
                  rw [ofFrom, Arena.tag, hw.node_null]
                  exact .error _ _
            · refine ⟨w.label, hy, ih hvw ?_⟩
              have := height_lt_of_child? hw'
              omega
          exact .read hright fun _ _ hxy => hxy

theorem of_sim (hw : a.WellFormed) (h : s.Twin a b s') (ht : t.Recodes a b u) :
    Sim (Outcome Eq) (ExprType.of a (s.lookup? a) t.label) (ExprType.of b (s'.lookup? b) u.label) :=
  ofFrom_sim hw h ht _ ht.target.height_lt_depthBound

end Foam
