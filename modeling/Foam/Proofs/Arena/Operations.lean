import Foam.Codec.Position
import Foam.Codec.Unit
import Foam.Literal
import Foam.Proofs.Arena.Step
import Foam.Proofs.Fields
import Foam.SExpr.Reader

/-!
# Operations are runs of steps

Each operation that changes an arena does so in steps. What an operation does between two steps, and
whether it fails, has no part in it: the facts follow the text of the operations.
-/

namespace Foam

namespace Arena

variable {a b : Arena} {id : NodeId}

/-! ## Making and changing nodes -/

theorem fits_of_misfit? {l : Layout} {ss : List Slot} {i : Nat} (h : misfit? l i ss = none) {j : Nat}
    {k : FieldKind} {s : Slot} (hk : l.kindAt? (i + j) = some k) (hs : ss[j]? = some s) :
    s.fits k = true := by
  induction ss generalizing i j with
  | nil => cases hs
  | cons s' ss ih =>
      unfold misfit? at h
      cases j with
      | zero =>
          cases hs
          rw [Nat.add_zero] at hk
          rw [hk] at h
          dsimp only at h
          split at h
          · assumption
          · cases h
      | succ j =>
          rw [List.getElem?_cons_succ] at hs
          rw [← Nat.add_assoc, Nat.add_right_comm] at hk
          split at h
          · split at h
            · exact ih h hk hs
            · cases h
          · exact ih h hk hs

/-- A node fits if its slots hold what the layout says of their positions. -/
theorem fits_iff {n : Node} : n.Fits ↔ n.tag.layout.accepts n.slots.length = true ∧
    ∀ i k s, n.tag.layout.kindAt? i = some k → n.slots[i]? = some s → s.fits k = true := by
  refine and_congr_right fun haccepts => ?_
  constructor
  · intro h i k s hk hs
    have hi : i < n.slots.length := (List.getElem?_eq_some_iff.mp hs).1
    refine h k s (List.mem_of_getElem? (i := i) ?_)
    rw [Node.fields, List.getElem?_zip_eq_some, Layout.getElem?_kinds haccepts hi]
    exact ⟨hk, hs⟩
  · intro h k s hmem
    obtain ⟨i, hi⟩ := List.mem_iff_getElem?.mp hmem
    obtain ⟨hk, hs⟩ := List.getElem?_zip_eq_some.mp hi
    have hi : i < n.slots.length := (List.getElem?_eq_some_iff.mp hs).1
    rw [Layout.getElem?_kinds haccepts hi] at hk
    exact h i k s hk hs

theorem push_eq_ok {tag : Tag} {slots : List Slot} (h : push tag slots a = .ok (id, b)) :
    (Node.bare tag slots).Fits ∧ insert tag slots a = .ok (id, b) := by
  unfold push at h
  split at h
  · next haccepts =>
      cases hmis : misfit? tag.layout 0 slots with
      | some p =>
          rw [hmis] at h
          cases h
      | none =>
          rw [hmis] at h
          refine ⟨fits_iff.mpr ⟨haccepts, ?_⟩, h⟩
          intro i k s hk hs
          rw [← Nat.zero_add i] at hk
          exact fits_of_misfit? hmis hk hs
  · cases h

theorem zeros_fit {tag : Tag} {count : Nat} (h : tag.layout.accepts count = true) :
    (Node.bare tag ((tag.layout.kinds count).map Slot.zero)).Fits := by
  have hlength : (tag.layout.kinds count).length = count :=
    (Layout.getElem?_kinds_of_isSome fun _ hj => Layout.kindAt?_isSome_of_accepts h hj).1
  rw [fits_iff]
  change tag.layout.accepts ((tag.layout.kinds count).map Slot.zero).length = true ∧ ∀ i k s,
    tag.layout.kindAt? i = some k → ((tag.layout.kinds count).map Slot.zero)[i]? = some s → _
  rw [List.length_map, hlength]
  refine ⟨h, ?_⟩
  intro i k s hk hs
  rw [List.getElem?_map, Option.map_eq_some_iff] at hs
  obtain ⟨k', hk', rfl⟩ := hs
  have hi : i < count := hlength ▸ (List.getElem?_eq_some_iff.mp hk').1
  rw [Layout.getElem?_kinds h hi, hk] at hk'
  cases hk'
  exact Slot.zero_fits k

theorem alloc_eq_ok {tag : Tag} {count : Nat} (h : alloc tag count a = .ok (id, b)) :
    tag.layout.accepts count = true ∧
      insert tag ((tag.layout.kinds count).map Slot.zero) a = .ok (id, b) := by
  unfold alloc at h
  split at h
  · next haccepts => exact ⟨haccepts, h⟩
  · cases h

theorem set_fits {n : Node} {i : Nat} {k : FieldKind} {s : Slot} (h : n.Fits)
    (hk : n.tag.layout.kindAt? i = some k) (hs : s.fits k = true) :
    Node.Fits { n with slots := n.slots.set i s } := by
  rw [fits_iff] at h ⊢
  refine ⟨by simpa using h.1, ?_⟩
  intro j k' s' hk' hs'
  rw [List.getElem?_set] at hs'
  split at hs'
  · next hij =>
      subst hij
      split at hs'
      · cases hs'
        cases hk.symm.trans hk'
        exact hs
      · cases hs'
  · exact h.2 j k' s' hk' hs'

/-- The slot that is written is of the kind that the node has there. -/
theorem setSlot_eq_ok {i : Nat} {s : Slot} {v : Unit} (h : setSlot id i s a = .ok (v, b)) :
    ∃ n k, a.get? id = some n ∧ n.tag.layout.kindAt? i = some k ∧ s.fits k = true ∧
      modifyNode id (fun n => { n with slots := n.slots.set i s }) a = .ok ((), b) := by
  rw [setSlot, Checked.get_bind] at h
  obtain ⟨tag, htag, h⟩ := Checked.run_lift_bind_eq_ok.mp h
  obtain ⟨k, hk, h⟩ := Checked.run_lift_bind_eq_ok.mp h
  cases hn : a.get? id with
  | none =>
      rw [Arena.tag, node, hn] at htag
      cases htag
  | some n =>
      rw [kindAt, tag_of_get? hn, Checked.ok_bind] at hk
      cases hkind : n.tag.layout.kindAt? i with
      | none =>
          rw [hkind] at hk
          cases hk
      | some k' =>
          rw [hkind] at hk
          cases hk
          split at h
          · next hfits =>
              obtain ⟨count, -, h⟩ := Checked.run_lift_bind_eq_ok.mp h
              split at h
              · rw [writeSlots_eq] at h
                exact ⟨n, k, rfl, hkind, hfits, h⟩
              · cases h
          · cases h

theorem setSlot_stepwise (id : NodeId) (i : Nat) (s : Slot) : Stepwise (setSlot id i s) := by
  refine .of_step fun a v b h => ?_
  obtain ⟨n, k, hn, hk, hs, h⟩ := setSlot_eq_ok h
  refine .modify (fun m hm hfits => ?_) h
  cases hn.symm.trans hm
  exact set_fits hfits hk hs

theorem push_stepwise (tag : Tag) (slots : List Slot) : Stepwise (push tag slots) :=
  .of_step fun _ _ _ h => .insert (push_eq_ok h).1 (push_eq_ok h).2

theorem alloc_stepwise (tag : Tag) (count : Nat) : Stepwise (alloc tag count) :=
  .of_step fun _ _ _ h => .insert (zeros_fit (alloc_eq_ok h).1) (alloc_eq_ok h).2

theorem release_stepwise (id : NodeId) : Stepwise (release id) :=
  .of_step fun _ _ _ h => .release h

theorem modifyNode_stepwise {f : Node → Node} (hf : ∀ n, n.Fits → (f n).Fits) (id : NodeId) :
    Stepwise (modifyNode id f) :=
  .of_step fun _ _ _ h => .modify (fun n _ => hf n) h

theorem setSpan_stepwise (id : NodeId) (s : Span) : Stepwise (setSpan id s) := by
  rw [setSpan_eq]
  apply modifyNode_stepwise
  exact fun _ hn => hn

theorem setSymbol_stepwise (id : NodeId) (s : Option UInt32) : Stepwise (setSymbol id s) := by
  rw [setSymbol_eq]
  apply modifyNode_stepwise
  exact fun _ hn => hn

theorem setOptInfo_stepwise (id : NodeId) (o : Option UInt32) : Stepwise (setOptInfo id o) := by
  rw [setOptInfo_eq]
  apply modifyNode_stepwise
  exact fun _ hn => hn

/-! ## Walks -/

theorem freeFrom_stepwise (depth : Nat) (id : NodeId) : Stepwise (freeFrom depth id) := by
  induction depth generalizing id with
  | zero => exact .throw _
  | succ depth ih =>
      exact .bind .get fun _ => .bind (.lift _) fun cs =>
        .bind (release_stepwise id) fun _ => .forM ih _

theorem free_stepwise (id : NodeId) : Stepwise (free id) :=
  .ite (.pure _) (.bind .get fun _ => freeFrom_stepwise _ id)

theorem freeSlots_stepwise (slots : List Slot) : Stepwise (freeSlots slots) := by
  refine .forM (fun s => ?_) slots
  cases s with
  | code c => exact free_stepwise c
  | _ => exact .pure _

theorem copyHeader_stepwise (id : NodeId) (tag : Tag) (slots : List Slot) :
    Stepwise (copyHeader id tag slots) := by
  refine .bind .get fun _ => .bind (.lift _) fun source => .bind (push_stepwise tag slots) fun new =>
    .bind (setSpan_stepwise new _) fun _ => .bind (setSymbol_stepwise new _) fun _ => ?_
  exact .ite (.bind (setOptInfo_stepwise new _) fun _ => .pure _) (.pure _)

theorem copyNode_stepwise (id : NodeId) : Stepwise (copyNode id) :=
  .bind .get fun _ => .bind (.lift _) fun _ => copyHeader_stepwise _ _ _

theorem copyFrom_stepwise (depth : Nat) (id : NodeId) : Stepwise (copyFrom depth id) := by
  induction depth generalizing id with
  | zero => exact .throw _
  | succ depth ih =>
      refine .ite (.pure _) (.bind .get fun _ => .bind (.lift _) fun source =>
        .bind (.mapM (fun s => ?_) _) fun slots => copyHeader_stepwise _ _ _)
      cases s with
      | code c => exact .bind (ih c) fun _ => .pure _
      | _ => exact .pure _

theorem copy_stepwise (id : NodeId) : Stepwise (copy id) :=
  .bind .get fun _ => copyFrom_stepwise _ id

theorem copyIntoFrom_stepwise (source : Arena) (depth : Nat) (id : NodeId) :
    Stepwise (copyIntoFrom source depth id) := by
  induction depth generalizing id with
  | zero => exact .throw _
  | succ depth ih =>
      refine .ite (.pure _) (.bind (.lift _) fun n => .bind (.mapM (fun s => ?_) _) fun slots =>
        .bind (push_stepwise _ _) fun new => .bind (setSpan_stepwise _ _) fun _ =>
          .bind (setSymbol_stepwise _ _) fun _ => .pure _)
      cases s with
      | code c => exact .bind (ih c) fun _ => .pure _
      | _ => exact .pure _

/-! ## Instructions and literals -/

theorem build_stepwise (i : Instr) : Stepwise (build i) := push_stepwise _ _

theorem appendDigit_stepwise (acc : NodeId) (digit : Nat) : Stepwise (appendDigit acc digit) :=
  .bind (build_stepwise _) fun _ => .bind (build_stepwise _) fun _ =>
    .bind (build_stepwise _) fun _ => build_stepwise _

theorem buildNarrow_stepwise (v : Int64) : Stepwise (buildNarrow v) := by
  unfold buildNarrow
  refine .ite (build_stepwise _) ?_
  split
  · exact build_stepwise _
  · exact .bind (build_stepwise _) fun first => .bind (.foldlM appendDigit_stepwise _ _) fun acc =>
      .ite (build_stepwise _) (.pure _)

end Arena

/-! ## Reading a text -/

namespace SExpr

open Arena

theorem peek_stepwise : StepwiseOn peek := .bind (.modify _) fun _ => .bind .get fun _ => .pure _

theorem advance_stepwise : StepwiseOn advance := .modify _

theorem unexpected_stepwise {α : Type} (found : Option Char) :
    StepwiseOn (unexpected found : ReadM α) := by
  cases found with
  | none => exact .throw _
  | some c => exact .bind .get fun _ => .throw _

theorem expect_stepwise (want : Char) : StepwiseOn (expect want) :=
  .bind peek_stepwise fun _ => .ite advance_stepwise (unexpected_stepwise _)

theorem atom_stepwise : StepwiseOn atom :=
  .bind peek_stepwise fun _ => .bind .get fun _ =>
    .ite (unexpected_stepwise _) (.bind (.set _) fun _ => .pure _)

theorem string_stepwise : StepwiseOn string := by
  refine .bind (expect_stepwise _) fun _ => .bind .get fun start => ?_
  split
  · exact .bind (.set _) fun _ => .pure _
  · exact .throw _

theorem literal_stepwise {α : Type} (sort : LiteralSort) (read? : List Char → Option α) :
    StepwiseOn (literal sort read?) := by
  refine .bind atom_stepwise fun p => ?_
  dsimp only
  split
  · exact .pure _
  · exact .throw _

theorem row_stepwise (α : Type) [Table α] (sort : NameSort) : StepwiseOn (row α sort) := by
  refine .bind atom_stepwise fun p => ?_
  dsimp only
  split
  · exact .pure _
  · split
    · exact .pure _
    · exact .throw _

theorem slot_stepwise {child : ReadM NodeId} (hchild : StepwiseOn child) (kind : FieldKind) :
    StepwiseOn (slot child kind) := by
  cases kind with
  | child => exact .bind hchild fun _ => .pure _
  | str => exact .bind string_stepwise fun _ => .pure _
  | typeTag | builtin | protocol | declUsage => exact row_stepwise _ _
  | _ => exact .bind (literal_stepwise _ _) fun _ => .pure _

theorem abandon_stepwise {α : Type} (slots : List Slot) (e : SExprError) :
    StepwiseOn (abandon slots e : ReadM α) :=
  .bind (.lift (freeSlots_stepwise slots)) fun _ => .throw _

theorem fields_stepwise {child : ReadM NodeId} (hchild : StepwiseOn child) (tag : Tag) (fuel : Nat)
    (slots : List Slot) : StepwiseOn (fields child tag fuel slots) := by
  induction fuel generalizing slots with
  | zero => exact abandon_stepwise _ _
  | succ fuel ih =>
      refine .bind peek_stepwise fun c => ?_
      split
      · exact abandon_stepwise _ _
      · exact .bind advance_stepwise fun _ => .ite (.pure _) (abandon_stepwise _ _)
      · split
        · exact abandon_stepwise _ _
        · exact .bind (.tryCatch (slot_stepwise hchild _) fun e => abandon_stepwise _ _) fun s => ih _

theorem node_stepwise (fuel : Nat) : StepwiseOn (node fuel) := by
  induction fuel with
  | zero => exact .throw _
  | succ fuel ih =>
      refine .bind (expect_stepwise _) fun _ => .bind peek_stepwise fun _ =>
        .ite (.bind advance_stepwise fun _ => .pure _) (.bind atom_stepwise fun p => ?_)
      dsimp only
      split
      · exact .throw _
      · exact .bind (fields_stepwise ih _ _ _) fun _ => .lift (push_stepwise _ _)

theorem whole_stepwise (fuel : Nat) : StepwiseOn (whole fuel) := by
  refine .bind (node_stepwise fuel) fun id => .bind peek_stepwise fun c => ?_
  split
  · exact .pure _
  · exact .bind (.lift (free_stepwise id)) fun _ => .bind .get fun _ => .throw _

end SExpr

/-! ## Reading bytes -/

namespace Codec

open Arena

theorem reading_stepwise {α : Type} (x : GetM α) : StepwiseOn (reading x) :=
  .of_input fun b => ⟨x b, rfl⟩

theorem decodeSlots_stepwise {child : IntFormat → DecodeM NodeId}
    (hchild : ∀ labels, StepwiseOn (child labels)) (head : Head) (labels : IntFormat) (i : Nat)
    (slots : List Slot) (kinds : List FieldKind) :
    StepwiseOn (decodeSlots child head labels i slots kinds) := by
  induction kinds generalizing labels i slots with
  | nil => exact .pure _
  | cons kind kinds ih =>
      refine .bind (.tryCatch ?_ fun e => .bind (.lift (freeSlots_stepwise _)) fun _ => .throw e)
        fun s => ih _ _ _
      exact .ite (.bind (hchild labels) fun _ => .pure _) (reading_stepwise _)

theorem decodeFrom_stepwise (fuel : Nat) (labels : IntFormat) :
    StepwiseOn (decodeFrom fuel labels) := by
  induction fuel generalizing labels with
  | zero => exact .bind .get fun _ => .throw _
  | succ fuel ih =>
      exact .bind (reading_stepwise _) fun head =>
        .bind (decodeSlots_stepwise ih head labels 0 [] _) fun slots => .lift (push_stepwise _ _)

theorem decode_stepwise : StepwiseOn decode :=
  .bind .get fun _ => decodeFrom_stepwise _ _

theorem decodeHeader?_stepwise : StepwiseOn decodeHeader? :=
  .bind (reading_stepwise _) fun _ => .ite
    (.bind (reading_stepwise _) fun _ => .bind (.lift (push_stepwise _ _)) fun _ => .pure _)
    (.pure _)

theorem decodeHeaderAt?_stepwise (pos : Nat) : StepwiseOn (decodeHeaderAt? pos) :=
  .bind (.modify _) fun _ => decodeHeader?_stepwise

theorem decodeAt_stepwise (pos : Nat) : StepwiseOn (decodeAt pos) :=
  .bind (.modify _) fun _ => decode_stepwise

theorem decodeFormats_stepwise : StepwiseOn decodeFormats :=
  .bind (reading_stepwise _) fun _ => decode_stepwise

theorem placeStatement_stepwise (seq : NodeId) (i : Nat) : StepwiseOn (placeStatement seq i) :=
  .bind (reading_stepwise _) fun _ => .bind (.lift .get) fun _ => .bind (.lift (.lift _)) fun _ =>
    .ite (.lift (setSpan_stepwise _ _)) (.pure _)

theorem placeFrom_stepwise (depth : Nat) (id : NodeId) : StepwiseOn (placeFrom depth id) := by
  induction depth generalizing id with
  | zero => exact .lift (.throw _)
  | succ depth ih =>
      refine .bind (.lift .get) fun _ => .bind (.lift (.lift _)) fun n =>
        .ite (.forM (placeStatement_stepwise id) _) (.ite ?_ (.forM ih _))
      exact .bind (reading_stepwise _) fun _ => .bind (.lift (setSpan_stepwise id _)) fun _ =>
        .forM ih _

theorem placePositions_stepwise (id : NodeId) : StepwiseOn (placePositions id) :=
  .ite (.pure _) (.bind (.lift .get) fun _ => .bind .get fun _ => placeFrom_stepwise _ id)

end Codec

end Foam
