import Foam.Proofs.Arena.Equal

/-!
# Trees without wide literals

What encoding makes of a form: every wide literal gives way to the expression that stands for it.
The result has no wide literal, and equals the form up to encoding.
-/

namespace Foam

namespace Tree

variable {α : Type}

/-- The value of a wide literal. -/
def wide? : Tree α → Option Int64
  | node _ .sint (.leaf (.int v) :: _) => if Literal.isNarrow v then none else some v
  | _ => none

/-- No literal of the tree is wide. -/
def Narrow (t : Tree α) : Prop := t.Every fun u => u.wide? = none

mutual
/-- The form with expressions in place of wide literals. -/
def narrowed : Form → Form
  | node l tag fs =>
    match wide? (node l tag fs) with
    | some v => Literal.form v
    | none => node l tag (narrowedAll fs)
def narrowedAll : List (Field Form) → List (Field Form)
  | [] => []
  | .leaf s :: fs => .leaf s :: narrowedAll fs
  | .child t :: fs => .child t.narrowed :: narrowedAll fs
end

theorem narrowedAll_eq (fs : List (Field Form)) : narrowedAll fs = fs.map (Field.map narrowed) := by
  induction fs with
  | nil => rfl
  | cons f fs ih => cases f <;> simp [narrowedAll, ih, Field.map]

theorem narrowed_of_wide {t : Form} {v : Int64} (h : t.wide? = some v) :
    t.narrowed = Literal.form v := by
  obtain ⟨l, tag, fs⟩ := t
  rw [narrowed, h]

theorem narrowed_of_not_wide {l : Unit} {tag : Tag} {fs : List (Field Form)}
    (h : (node l tag fs).wide? = none) :
    (node l tag fs).narrowed = node l tag (fs.map (Field.map narrowed)) := by
  rw [narrowed, h, ← narrowedAll_eq]

theorem tag_of_wide {t : Tree α} {v : Int64} (h : t.wide? = some v) : t.tag = .sint := by
  unfold wide? at h
  split at h
  · rfl
  · cases h

theorem wide?_of_ne_sint {t : Tree α} (h : t.tag ≠ .sint) : t.wide? = none := by
  by_contra hwide
  obtain ⟨v, hv⟩ := Option.ne_none_iff_exists'.mp hwide
  exact h (tag_of_wide hv)

/-- Replacing children leaves a literal as it is. -/
theorem wide?_map {β : Type} {l : α} {l' : β} {tag : Tag} {fs : List (Field (Tree α))}
    (f : Tree α → Tree β) : (node l' tag (fs.map (Field.map f))).wide? = (node l tag fs).wide? := by
  by_cases htag : tag = .sint
  · subst htag
    cases fs with
    | nil => rfl
    | cons x fs =>
        cases x with
        | leaf s => cases s <;> rfl
        | child t => rfl
  · rw [wide?_of_ne_sint (t := node l' tag _) htag, wide?_of_ne_sint (t := node l tag fs) htag]

theorem narrow_of_form {t : Tree α} (h : t.form.Narrow) : t.Narrow := by
  induction t with
  | node l tag fs ih =>
      rw [form_node] at h
      obtain ⟨here, below⟩ := every_node.mp h
      refine .node ((wide?_map form).symm.trans here) fun t ht => ih t ht (below t.form ?_)
      exact child_mem_map.mpr ⟨t, ht, rfl⟩

theorem narrow_literal (v : Int64) : (Literal.form v).Narrow := by
  refine Literal.form_induct ?_ ?_ v
  · intro v hv
    refine .node (if_pos hv) ?_
    intro t ht
    simp at ht
  · intro op args _ h
    refine .node rfl ?_
    intro t ht
    rcases List.mem_cons.mp ht with ht | ht
    · cases ht
    · obtain ⟨u, hu, hut⟩ := List.mem_map.mp ht
      exact Field.child.inj hut ▸ h u hu

theorem narrowed_eq_self {t : Form} (h : t.Narrow) : t.narrowed = t := by
  induction t using induct with
  | node l tag fs ih =>
      obtain ⟨here, below⟩ := every_node.mp h
      rw [narrowed_of_not_wide here]
      congr 1
      refine (List.map_congr_left fun f hf => ?_).trans (List.map_id fs)
      cases f with
      | leaf s => rfl
      | child t => exact congrArg Field.child (ih t hf (below t hf))

/-- What holds of sound payloads still holds where literals have been replaced. -/
theorem Obeys.narrowed {P : FieldKind → Slot → Prop}
    (hP : ∀ k s, Slot.Sound k s ∧ k ≠ .treeLength → P k s) {t : Form} (h : t.Obeys P) :
    t.narrowed.Obeys P := by
  induction t using induct with
  | node l tag fs ih =>
      cases hw : (node l tag fs).wide? with
      | some v =>
          rw [narrowed_of_wide hw]
          exact (Literal.plain_form v).imp hP
      | none =>
          obtain ⟨haccepts, hfields, hbelow⟩ := obeys_node.mp h
          rw [narrowed_of_not_wide hw, obeys_node, List.length_map, List.forall₂_map_right_iff]
          simp only [Field.obeys_map]
          refine ⟨haccepts, hfields, ?_⟩
          intro u hu
          obtain ⟨t, ht, rfl⟩ := child_mem_map.mp hu
          exact ih t ht (hbelow t ht)

/-! ## Equality up to encoding -/

theorem equalAll_map {lax : Bool} {f : Form → Form} {fs : List (Field Form)}
    (h : ∀ t, .child t ∈ fs → t.equal lax (f t) = true) :
    equalAll lax fs (fs.map (Field.map f)) = true := by
  induction fs with
  | nil => rfl
  | cons x fs ih =>
      have ih := ih fun t ht => h t (List.mem_cons_of_mem _ ht)
      cases x with
      | leaf s => simp [Field.map, equalAll, ih]
      | child t => simp [Field.map, equalAll, ih, h t List.mem_cons_self]

/-- A form equals what encoding makes of it, up to encoding. -/
theorem equal_narrowed {t : Form} (h : t.Fits) : t.equal true t.narrowed = true := by
  induction t using induct with
  | node l tag fs ih =>
      by_cases htag : tag = .sint
      · subst htag
        obtain ⟨v, rfl⟩ := Fits.sint h
        have hv : (node l .sint [.leaf (.int v)]).narrowed.literal? = some v := by
          by_cases hn : Literal.isNarrow v = true
          · have hnone : wide? (node l .sint [.leaf (.int v)]) = none := if_pos hn
            rw [narrowed_of_not_wide hnone]
            rfl
          · have hsome : wide? (node l .sint [.leaf (.int v)]) = some v := if_neg hn
            rw [narrowed_of_wide hsome]
            exact Literal.literal?_form v
        -- a literal compares by value, whatever expression it is compared with
        generalize (node l .sint [.leaf (.int v)]).narrowed = u at hv
        obtain ⟨l', tag', gs⟩ := u
        rw [equal, if_pos (by rfl), hv]
        show (some v == some v) = true
        exact beq_self_eq_true _
      · have hw : (node l tag fs).wide? = none := wide?_of_ne_sint htag
        obtain ⟨-, -, hbelow⟩ := obeys_node.mp h
        have hall : equalAll true fs (fs.map (Field.map narrowed)) = true :=
          equalAll_map fun t ht => ih t ht (hbelow t ht)
        rw [narrowed_of_not_wide hw, equal]
        simp [htag, hall]

end Tree

end Foam
