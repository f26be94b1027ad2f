import Foam.Proofs.Codec.RoundTrip
import Foam.Proofs.Simulation

/-!
# A tree and what comes back of it

A tree that has been encoded comes back in another arena with expressions for wide literals and
without the lengths of procedures. All else that its nodes hold comes back, so what is read from the
one tree can be read from the other.
-/

namespace Foam

namespace Tree

/-- The tree `u` in `b` is what comes back of the tree `t` in `a`. -/
structure Recodes (a b : Arena) (t u : Tree NodeId) : Prop where
  source : t.In a
  target : u.In b
  form_eq : u.form = t.form.recoded

end Tree

/-- The field as it comes back, given its kind. -/
inductive Field.Recodes (a b : Arena) (kind : FieldKind) :
    Field (Tree NodeId) → Field (Tree NodeId) → Prop
  | leaf {s : Slot} : s.fits kind = true → s.child? = none →
      Recodes a b kind (.leaf s) (.leaf (s.cleared kind))
  | child {t u : Tree NodeId} : t.Recodes a b u → Recodes a b kind (.child t) (.child u)

namespace Tree

variable {a b : Arena} {t u : Tree NodeId}

theorem fields_of_wide {α : Type} {t : Tree α} (h : t.Fits) {v : Int64} (hwide : t.wide? = some v) :
    t.fields = [.leaf (.int v)] := by
  obtain ⟨l, tag, fs⟩ := t
  obtain rfl : tag = .sint := tag_of_wide hwide
  obtain ⟨w, rfl⟩ := Fits.sint h
  rw [wide?] at hwide
  split at hwide
  · cases hwide
  · obtain rfl := Option.some.inj hwide
    rfl

theorem fields_recode {kinds : List FieldKind} {fs gs : List (Field (Tree NodeId))}
    (hfits : List.Forall₂ (Field.Obeys fun k s => s.fits k = true) kinds fs)
    (hleaf : ∀ s, .leaf s ∈ fs → s.child? = none) (hfs : ∀ t, .child t ∈ fs → t.In a)
    (hgs : ∀ u, .child u ∈ gs → u.In b)
    (h : gs.map (Field.map form) =
      clearedAll kinds ((fs.map (Field.map form)).map (Field.map narrowed))) :
    List.Forall₂ (fun p g => Field.Recodes a b p.1 p.2 g) (kinds.zip fs) gs := by
  induction hfits generalizing gs with
  | nil =>
      obtain rfl := List.map_eq_nil_iff.mp h
      exact .nil
  | @cons kind f kinds fs hf _ ih =>
      cases gs with
      | nil => cases f <;> cases h
      | cons g gs =>
          have hrest := @ih gs (fun s hs => hleaf s (List.mem_cons_of_mem _ hs))
            (fun t ht => hfs t (List.mem_cons_of_mem _ ht))
            (fun u hu => hgs u (List.mem_cons_of_mem _ hu))
          cases f with
          | leaf s =>
              obtain ⟨hg, htail⟩ := List.cons.inj h
              cases g with
              | child u => cases hg
              | leaf r =>
                  cases hg
                  exact .cons (.leaf hf (hleaf s List.mem_cons_self)) (hrest htail)
          | child t =>
              obtain ⟨hg, htail⟩ := List.cons.inj h
              cases g with
              | leaf r => cases hg
              | child u =>
                  refine .cons (.child ?_) (hrest htail)
                  exact ⟨hfs t List.mem_cons_self, hgs u List.mem_cons_self, Field.child.inj hg⟩

/-- A literal, or a call of an operator on integers whose arguments are again such expressions. -/
inductive IsIntExpr {α : Type} : Tree α → Prop
  | sint {l : α} {v : Int64} : IsIntExpr (node l .sint [.leaf (.int v)])
  | bcall {l : α} {op : Builtin} {args : List (Tree α)} : Literal.IsIntOp op args.length →
      (∀ t ∈ args, IsIntExpr t) → IsIntExpr (node l .bcall (.leaf (Instr.row op) :: args.map .child))

theorem IsIntExpr.tag_eq {α : Type} {t : Tree α} (h : t.IsIntExpr) :
    t.tag = .sint ∨ t.tag = .bcall := by
  cases h with
  | sint => exact .inl rfl
  | bcall => exact .inr rfl

theorem children_of_form {gs : List (Field (Tree NodeId))} {args : List Form}
    (h : gs.map (Field.map form) = args.map .child) :
    ∃ us : List (Tree NodeId), gs = us.map .child ∧ us.map form = args := by
  induction gs generalizing args with
  | nil => exact ⟨[], rfl, (List.map_eq_nil_iff.mp h.symm).symm⟩
  | cons g gs ih =>
      obtain ⟨arg, args, rfl, hg, htail⟩ := List.map_eq_cons_iff.mp h.symm
      obtain ⟨us, rfl, rfl⟩ := ih htail.symm
      cases g with
      | leaf s => cases hg
      | child u =>
          cases hg
          exact ⟨u :: us, rfl, rfl⟩

theorem IsIntExpr.of_form {f : Form} (h : f.IsIntExpr) (hu : u.form = f) : u.IsIntExpr := by
  induction h generalizing u with
  | @sint l v =>
      obtain ⟨id, tag, gs⟩ := u
      rw [form_node] at hu
      obtain ⟨-, rfl, hgs⟩ := Tree.node.inj hu
      obtain ⟨g, gs, rfl, hg, hnil⟩ := List.map_eq_cons_iff.mp hgs
      obtain rfl := List.map_eq_nil_iff.mp hnil
      cases g with
      | child c => cases hg
      | leaf s =>
          cases hg
          exact .sint
  | @bcall l op args hop _ ih =>
      obtain ⟨id, tag, gs⟩ := u
      rw [form_node] at hu
      obtain ⟨-, rfl, hgs⟩ := Tree.node.inj hu
      obtain ⟨g, gs, rfl, hg, htail⟩ := List.map_eq_cons_iff.mp hgs
      obtain ⟨us, rfl, rfl⟩ := children_of_form htail
      cases g with
      | child c => cases hg
      | leaf s =>
          cases hg
          refine .bcall (by rwa [List.length_map] at hop) fun t ht => ?_
          exact ih t.form (List.mem_map_of_mem ht) rfl

namespace Recodes

/-- A wide literal comes back as an expression on integers. -/
theorem of_wide (h : t.Recodes a b u) {v : Int64} (hwide : t.wide? = some v) : u.IsIntExpr := by
  have hform : t.form.wide? = some v := by
    obtain ⟨l, tag, fs⟩ := t
    rw [form_node, wide?_map form, hwide]
  have hplain : (Literal.form v).cleared = Literal.form v :=
    cleared_eq_self ((Literal.plain_form v).imp fun _ _ hs hk => absurd hk hs.2)
  have hexpr : (Literal.form v).IsIntExpr :=
    Literal.form_induct (fun _ _ => .sint) (fun _ _ hop h => .bcall hop h) v
  refine hexpr.of_form ?_
  rw [h.form_eq, recoded, narrowed_of_wide hform, hplain]

/-- Any other node comes back with its tag and its fields. -/
theorem node (h : t.Recodes a b u) (hw : a.WellFormed) (hwide : t.wide? = none) : u.tag = t.tag ∧
    List.Forall₂ (fun p g => Field.Recodes a b p.1 p.2 g)
      ((t.tag.layout.kinds t.fields.length).zip t.fields) u.fields := by
  obtain ⟨haccepts, hfits⟩ := (h.source.fits hw).here
  obtain ⟨ht, hu, hform⟩ := h
  obtain ⟨l, tag, fs⟩ := t
  obtain ⟨l', tag', gs⟩ := u
  rw [form_node, form_node, recoded, narrowed_of_not_wide ((wide?_map form).trans hwide),
    cleared_node, List.length_map, List.length_map] at hform
  obtain ⟨-, htag, hfields⟩ := Tree.node.inj hform
  exact ⟨htag, fields_recode hfits (fun _ hs => ht.leaf hs) (fun _ ht' => ht.child ht')
    (fun _ hu' => hu.child hu') hfields⟩

theorem length_eq (h : t.Recodes a b u) (hw : a.WellFormed) (hwide : t.wide? = none) :
    u.fields.length = t.fields.length := by
  obtain ⟨haccepts, -⟩ := (h.source.fits hw).here
  rw [← (h.node hw hwide).2.length_eq, List.length_zip, Layout.length_kinds haccepts, Nat.min_self]

theorem field (h : t.Recodes a b u) (hw : a.WellFormed) (hwide : t.wide? = none) {i : Nat}
    {f : Field (Tree NodeId)} (hf : t.fields[i]? = some f) : ∃ kind g,
      t.tag.layout.kindAt? i = some kind ∧ u.fields[i]? = some g ∧ Field.Recodes a b kind f g := by
  obtain ⟨haccepts, -⟩ := (h.source.fits hw).here
  have hi : i < t.fields.length := (List.getElem?_eq_some_iff.mp hf).1
  obtain ⟨kind, hkind⟩ := Option.isSome_iff_exists.mp (Layout.kindAt?_isSome_of_accepts haccepts hi)
  have hzip : ((t.tag.layout.kinds t.fields.length).zip t.fields)[i]? = some (kind, f) := by
    rw [List.getElem?_zip_eq_some, Layout.getElem?_kinds haccepts hi]
    exact ⟨hkind, hf⟩
  obtain ⟨hlt, hget⟩ := List.getElem?_eq_some_iff.mp hzip
  have hlt' : i < u.fields.length := h.length_eq hw hwide ▸ hi
  have hrel := (h.node hw hwide).2.get hlt hlt'
  rw [List.get_eq_getElem, hget] at hrel
  exact ⟨kind, _, hkind, List.getElem?_eq_getElem hlt', hrel⟩

theorem fields_forall₂ (h : t.Recodes a b u) (hw : a.WellFormed) (hwide : t.wide? = none)
    {Q : Field (Tree NodeId) → Field (Tree NodeId) → Prop}
    (hQ : ∀ i kind f g, t.tag.layout.kindAt? i = some kind → Field.Recodes a b kind f g → Q f g) :
    List.Forall₂ Q t.fields u.fields := by
  refine List.forall₂_iff_get.mpr ⟨(h.length_eq hw hwide).symm, fun i hi hi' => ?_⟩
  obtain ⟨kind, g, hkind, hg, hfg⟩ := h.field hw hwide (List.getElem?_eq_getElem hi)
  rw [List.getElem?_eq_getElem hi'] at hg
  obtain rfl := Option.some.inj hg
  exact hQ i kind _ _ hkind hfg

theorem subtrees_forall₂ (h : t.Recodes a b u) (hw : a.WellFormed) (hwide : t.wide? = none) :
    List.Forall₂ (Recodes a b) (subtrees t.fields) (subtrees u.fields) := by
  refine List.rel_filterMap (R := fun f g => Option.Rel (Recodes a b) f.child? g.child?)
    (fun _ _ hfg => hfg) (h.fields_forall₂ hw hwide ?_)
  intro i kind f g _ hfg
  cases hfg with
  | leaf => exact .none
  | child h => exact .some h

end Recodes

end Tree

/-! ## Nodes before and after -/

open Foam.Tree

/-- Roots of two trees of which the second is what comes back of the first. The first has the
property. -/
inductive Twin (a b : Arena) (P : Tree NodeId → Prop) : NodeId → NodeId → Prop
  | intro {t u : Tree NodeId} : t.Recodes a b u → P t → Twin a b P t.label u.label

/-- Roots of two trees in this relation, or two absent children. -/
inductive Twin? (a b : Arena) (P : Tree NodeId → Prop) : NodeId → NodeId → Prop
  | absent : Twin? a b P .null .null
  | present {t u : Tree NodeId} : t.Recodes a b u → P t → Twin? a b P t.label u.label

variable {a b : Arena} {P Q : Tree NodeId → Prop} {x y : NodeId}

theorem Twin.trees (h : Twin a b P x y) :
    ∃ t u : Tree NodeId, t.Recodes a b u ∧ P t ∧ x = t.label ∧ y = u.label := by
  cases h with
  | intro h hP => exact ⟨_, _, h, hP, rfl, rfl⟩

theorem Twin.imp (hPQ : ∀ t, P t → Q t) (h : Twin a b P x y) : Twin a b Q x y := by
  cases h with
  | intro h hP => exact .intro h (hPQ _ hP)

theorem Twin?.imp (hPQ : ∀ t, P t → Q t) (h : Twin? a b P x y) : Twin? a b Q x y := by
  cases h with
  | absent => exact .absent
  | present h hP => exact .present h (hPQ _ hP)

theorem Twin?.isNull_eq (h : Twin? a b P x y) : x.isNull = y.isNull := by
  cases h with
  | absent => rfl
  | present h => rw [h.source.label_not_null, h.target.label_not_null]

theorem Twin?.of_not_null (h : Twin? a b P x y) (hx : ¬x.isNull = true) : Twin a b P x y := by
  cases h with
  | absent => exact absurd rfl hx
  | present h hP => exact .intro h hP

theorem Twin?.present_rel (h : Twin? a b P x y) :
    Option.Rel (Twin a b P) (Arena.present x) (Arena.present y) := by
  cases h with
  | absent => exact .none
  | present h hP =>
      rw [Arena.present, Arena.present, h.source.label_not_null, h.target.label_not_null]
      exact .some (.intro h hP)

/-! ## Slots before and after -/

namespace Field.Recodes

variable {kind : FieldKind} {f g : Field (Tree NodeId)}

theorem code?_rel (h : Field.Recodes a b kind f g) :
    Option.Rel (Twin? a b fun _ => True) f.slot.code? g.slot.code? := by
  cases h with
  | child h => exact .some (.present h trivial)
  | @leaf s hfits hnull =>
      cases s with
      | code c =>
          obtain rfl := Arena.null_of_child? hnull
          have hkind : kind = .child := by simpa [Slot.fits] using hfits
          rw [hkind]
          exact .some .absent
      | _ =>
          unfold Slot.cleared
          split <;> exact .none

theorem int?_rel (h : Field.Recodes a b kind f g) (hkind : kind ≠ .treeLength) :
    Option.Rel Eq f.slot.int? g.slot.int? := by
  cases h with
  | child => exact .none
  | @leaf s =>
      rw [Slot.cleared, if_neg hkind]
      cases s with
      | int v => exact .some rfl
      | _ => exact .none

end Field.Recodes

/-- A length is the first slot of a procedure. -/
theorem Layout.kindAt?_treeLength {tag : Tag} {i : Nat}
    (h : tag.layout.kindAt? i = some .treeLength) : tag = .prog ∧ i = 0 := by
  have htail : ∀ tag : Tag, tag.layout.tail ≠ some .treeLength := by
    intro tag
    cases tag <;> decide
  have hfixed : ∀ tag : Tag, ∀ i < tag.layout.fixed.length,
      tag.layout.fixed[i]? = some .treeLength → tag = .prog ∧ i = 0 := by
    intro tag
    cases tag <;> decide
  unfold kindAt? at h
  rcases Option.or_eq_some_iff.mp h with hi | ⟨-, h⟩
  · exact hfixed tag i (List.getElem?_eq_some_iff.mp hi).1 hi
  · exact absurd h (htail tag)

/-! ## Reading before and after -/

namespace Tree

/-- The root comes back with all that it holds: it is no wide literal, and no length is noted in
it. -/
def Steady {α : Type} (t : Tree α) : Prop :=
  t.wide? = none ∧ (t.tag = .prog → t.fields.head?.map Field.blank = some (.int 0))

instance {α : Type} (t : Tree α) : Decidable t.Steady := inferInstanceAs (Decidable (_ ∧ _))

namespace Recodes

variable {t u : Tree NodeId}

/-- Tags other than those of literals and calls of builtins stay. -/
theorem tag_iff (h : t.Recodes a b u) (hw : a.WellFormed) {tag : Tag} (hsint : tag ≠ .sint)
    (hbcall : tag ≠ .bcall) : t.tag = tag ↔ u.tag = tag := by
  cases hwide : t.wide? with
  | none => rw [(h.node hw hwide).1]
  | some v =>
      rw [tag_of_wide hwide]
      rcases (h.of_wide hwide).tag_eq with htag | htag
      · rw [htag]
      · rw [htag]
        exact ⟨fun h => absurd h.symm hsint, fun h => absurd h.symm hbcall⟩

theorem tag_beq (h : t.Recodes a b u) (hw : a.WellFormed) {tag : Tag} (hsint : tag ≠ .sint)
    (hbcall : tag ≠ .bcall) : (t.tag == tag) = (u.tag == tag) := by
  rw [Bool.eq_iff_iff, beq_iff_eq, beq_iff_eq]
  exact h.tag_iff hw hsint hbcall

theorem isRef_eq (h : t.Recodes a b u) (hw : a.WellFormed) : t.tag.isRef = u.tag.isRef := by
  cases hwide : t.wide? with
  | none => rw [(h.node hw hwide).1]
  | some v =>
      rw [tag_of_wide hwide]
      rcases (h.of_wide hwide).tag_eq with htag | htag
      · rw [htag]
      · rw [htag]
        rfl

theorem slotCount_sim (h : t.Recodes a b u) (hw : a.WellFormed) (hwide : t.wide? = none) :
    Checked.Sim Eq (a.slotCount t.label) (b.slotCount u.label) := by
  rw [h.source.slotCount_eq, h.target.slotCount_eq]
  exact .ok (h.length_eq hw hwide).symm

/-- A child that can be read comes back, present or not. -/
theorem of_child_ok (h : t.Recodes a b u) (hw : a.WellFormed) {i : Nat} {x : NodeId}
    (hx : a.child t.label i = .ok x) :
    (x = .null ∧ b.child u.label i = .ok .null) ∨ ∃ c d, t.child? i = some c ∧
      u.child? i = some d ∧ c.Recodes a b d ∧ x = c.label ∧ b.child u.label i = .ok d.label := by
  have hread := h.source.of_child_ok hx
  have hwide : t.wide? = none := by
    by_contra hne
    obtain ⟨v, hv⟩ := Option.ne_none_iff_exists'.mp hne
    rw [fields_of_wide (h.source.fits hw) hv] at hread
    rcases hread with ⟨hf, -⟩ | ⟨c, hf, -⟩
    · cases List.mem_singleton.mp (List.mem_of_getElem? hf)
    · cases List.mem_singleton.mp (List.mem_of_getElem? hf)
  rcases hread with ⟨hf, rfl⟩ | ⟨c, hf, rfl⟩
  · obtain ⟨kind, g, -, hg, hfg⟩ := h.field hw hwide hf
    cases hfg with
    | leaf hfits hnull =>
        have hkind : kind = .child := by simpa [Slot.fits] using hfits
        rw [hkind] at hg
        obtain ⟨m, hm, -, hslots⟩ := h.target.node_eq
        refine .inl ⟨rfl, Arena.child_of_get? hm ?_⟩
        rw [hslots, List.getElem?_map, hg]
        rfl
  · obtain ⟨kind, g, -, hg, hfg⟩ := h.field hw hwide hf
    cases hfg with
    | @child _ d hcd =>
        have hd : u.child? i = some d := by
          rw [child?, hg]
          rfl
        have hc : t.child? i = some c := by
          rw [child?, hf]
          rfl
        exact .inr ⟨c, d, hc, hd, hcd, rfl, h.target.child_eq hd⟩

theorem child_sim (h : t.Recodes a b u) (hw : a.WellFormed) (i : Nat) :
    Checked.Sim (Twin? a b fun c => t.child? i = some c) (a.child t.label i)
      (b.child u.label i) := by
  intro x hx
  rcases h.of_child_ok hw hx with ⟨rfl, hy⟩ | ⟨c, d, hc, -, hcd, rfl, hy⟩
  · exact ⟨.null, hy, .absent⟩
  · exact ⟨d.label, hy, .present hcd hc⟩

/-- A number that can be read comes back, unless it is a length. -/
theorem int_sim (h : t.Recodes a b u) (hw : a.WellFormed) (hwide : t.wide? = none) {i : Nat}
    (hi : t.tag = .prog → i ≠ 0) : Checked.Sim Eq (a.int t.label i) (b.int u.label i) := by
  intro v hv
  obtain ⟨kind, g, hkind, hg, hfg⟩ := h.field hw hwide (h.source.int_eq_ok.mp hv)
  have hne : kind ≠ .treeLength := by
    rintro rfl
    obtain ⟨htag, rfl⟩ := Layout.kindAt?_treeLength hkind
    exact hi htag rfl
  cases hfg with
  | leaf =>
      rw [Slot.cleared, if_neg hne] at hg
      exact ⟨v, h.target.int_eq hg, rfl⟩

theorem num_sim (h : t.Recodes a b u) (hw : a.WellFormed) (hwide : t.wide? = none)
    (htag : t.tag ≠ .prog) (i : Nat) : Checked.Sim Eq (a.int t.label i) (b.int u.label i) :=
  h.int_sim hw hwide fun hprog => absurd hprog htag

/-- From a node that comes back with all that it holds every number can be read. -/
theorem steady_int_sim (h : t.Recodes a b u) (hw : a.WellFormed) (hs : t.Steady) (i : Nat) :
    Checked.Sim Eq (a.int t.label i) (b.int u.label i) := by
  by_cases hi : t.tag.layout.kindAt? i = some .treeLength
  · intro v hv
    obtain ⟨htag, rfl⟩ := Layout.kindAt?_treeLength hi
    have hf := h.source.int_eq_ok.mp hv
    -- the length is zero already
    obtain rfl : v = 0 := by
      have hzero := hs.2 htag
      rw [List.head?_eq_getElem?, hf] at hzero
      exact Slot.int.inj (Option.some.inj hzero)
    obtain ⟨kind, g, hkind, hg, hfg⟩ := h.field hw hs.1 hf
    obtain rfl := Option.some.inj (hi.symm.trans hkind)
    cases hfg with
    | leaf => exact ⟨0, h.target.int_eq hg, rfl⟩
  · refine h.int_sim hw hs.1 ?_
    rintro htag rfl
    exact hi (htag ▸ rfl)

theorem slotsFrom_sim (h : t.Recodes a b u) (hw : a.WellFormed) (hwide : t.wide? = none)
    {R : Slot → Slot → Prop} (hR : ∀ i kind f g, t.tag.layout.kindAt? i = some kind →
      Field.Recodes a b kind f g → R f.slot g.slot) (i : Nat) :
    Checked.Sim (List.Forall₂ R) (a.slotsFrom t.label i) (b.slotsFrom u.label i) := by
  obtain ⟨n, hn, -, hslots⟩ := h.source.node_eq
  obtain ⟨m, hm, -, hslots'⟩ := h.target.node_eq
  have hall : List.Forall₂ R n.slots m.slots := by
    rw [hslots, hslots', List.forall₂_map_left_iff, List.forall₂_map_right_iff]
    exact h.fields_forall₂ hw hwide hR
  unfold Arena.slotsFrom
  rw [Arena.slots_of_get? hn, Arena.slots_of_get? hm, Checked.ok_bind, Checked.ok_bind]
  refine .ite (by rw [hall.length_eq]) (fun _ => .ok (List.forall₂_drop i hall)) fun _ => ?_
  exact .error _ _

theorem childrenFrom_sim (h : t.Recodes a b u) (hw : a.WellFormed) (hwide : t.wide? = none)
    (i : Nat) : Checked.Sim (List.Forall₂ (Twin? a b fun _ => True)) (a.childrenFrom t.label i)
      (b.childrenFrom u.label i) := by
  refine (h.slotsFrom_sim (R := fun r s => Option.Rel (Twin? a b fun _ => True) r.code? s.code?)
    hw hwide (fun _ _ _ _ _ hfg => hfg.code?_rel) i).bind ?_
  intro ss ss' hss
  exact .ok (List.rel_filterMap (fun _ _ h => h) hss)

theorem intsFrom_sim (h : t.Recodes a b u) (hw : a.WellFormed) (hwide : t.wide? = none)
    (htag : t.tag ≠ .prog) (i : Nat) :
    Checked.Sim Eq (a.intsFrom t.label i) (b.intsFrom u.label i) := by
  refine (h.slotsFrom_sim (R := fun r s => Option.Rel Eq r.int? s.int?) hw hwide ?_ i).bind ?_
  · intro j kind f g hkind hfg
    have hne : kind ≠ .treeLength := by
      rintro rfl
      exact htag (Layout.kindAt?_treeLength hkind).1
    exact hfg.int?_rel hne
  · intro ss ss' hss
    refine .ok (List.forall₂_eq_eq_eq ▸ ?_)
    exact List.rel_filterMap (fun _ _ h => h) hss

end Recodes

end Tree

end Foam
