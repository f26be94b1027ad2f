import Foam.Proofs.Arena.Equal
import Foam.Proofs.SExpr.Token

/-!
# The text of a tree

What is written for a node depends on the form of its tree alone. `Tree.text` is that text; every
field of it comes after a blank.
-/

namespace Foam

namespace SExpr

/-- The text of a payload, where a child is absent. -/
def leafText (kind : FieldKind) : Slot → List Char
  | .code _ => ['(', ')']
  | .int v => ((nameOf? kind v.toInt).getD (toString v.toInt)).toList
  | .sflo b => (Slot.singleText b).toList
  | .dflo b => (Slot.doubleText b).toList
  | .arb v => (toString v.toNat).toList
  | .bint b => b.text.toList
  | .str s => quoteChars s.toList

end SExpr

open SExpr

namespace Tree

mutual
/-- The characters that are written for a form. -/
def text : Form → List Char
  | node _ tag fs => '(' :: (tag.name.toList ++ (textAll (tag.layout.kinds fs.length) fs ++ [')']))
def textAll : List FieldKind → List (Field Form) → List Char
  | kind :: kinds, .leaf s :: fs => ' ' :: (leafText kind s ++ textAll kinds fs)
  | _ :: kinds, .child t :: fs => ' ' :: (t.text ++ textAll kinds fs)
  | _, _ => []
end

/-- The text of one field. -/
def fieldText (kind : FieldKind) : Field Form → List Char
  | .leaf s => leafText kind s
  | .child t => t.text

theorem textAll_cons (kind : FieldKind) (kinds : List FieldKind) (f : Field Form)
    (fs : List (Field Form)) :
    textAll (kind :: kinds) (f :: fs) = ' ' :: (fieldText kind f ++ textAll kinds fs) := by
  cases f with
  | leaf s => rw [textAll, fieldText]
  | child t => rw [textAll, fieldText]

theorem text_node {l : Unit} {tag : Tag} {fs : List (Field Form)} : (node l tag fs).text =
    '(' :: (tag.name.toList ++ (textAll (tag.layout.kinds fs.length) fs ++ [')'])) := by
  rw [text]

theorem text_eq_cons (t : Form) : ∃ cs, t.text = '(' :: cs := by
  obtain ⟨l, tag, fs⟩ := t
  exact ⟨_, text_node⟩

/-- A tree takes a character or more for each of its fields, and two for the parentheses. -/
theorem length_textAll {kinds : List FieldKind} {fs : List (Field Form)}
    (h : kinds.length = fs.length) : fs.length ≤ (textAll kinds fs).length := by
  induction kinds generalizing fs with
  | nil => rw [← h]; exact Nat.zero_le _
  | cons kind kinds ih =>
      obtain ⟨f, fs, rfl⟩ := List.exists_cons_of_length_eq_add_one h.symm
      have ih := ih (Nat.succ.inj h)
      rw [textAll_cons, List.length_cons, List.length_cons, List.length_append]
      omega

theorem length_text_le_textAll {kinds : List FieldKind} {fs : List (Field Form)} {t : Form}
    (h : kinds.length = fs.length) (ht : .child t ∈ fs) :
    t.text.length < (textAll kinds fs).length := by
  induction kinds generalizing fs with
  | nil =>
      rw [List.length_eq_zero_iff.mp h.symm] at ht
      cases ht
  | cons kind kinds ih =>
      obtain ⟨f, fs, rfl⟩ := List.exists_cons_of_length_eq_add_one h.symm
      rw [textAll_cons, List.length_cons, List.length_append]
      rcases List.mem_cons.mp ht with rfl | ht
      · rw [fieldText]
        omega
      · have := ih (Nat.succ.inj h) ht
        omega

end Tree

/-! ## What is written is the text -/

namespace SExpr

variable {a : Arena}

theorem renderFrom_null {depth : Nat} (hd : 0 < depth) :
    renderFrom a depth .null = .ok "()" := by
  obtain ⟨d, rfl⟩ := Nat.exists_eq_add_of_lt hd
  rw [Nat.zero_add, renderFrom]
  rfl

theorem renderSlot_leaf {child : NodeId → Checked String} {kind : FieldKind} {s : Slot}
    (hnull : child .null = .ok "()") (hs : s.child? = none) :
    renderSlot child kind s = .ok (String.ofList (leafText kind s)) := by
  cases s with
  | code c =>
      rw [Arena.null_of_child? hs, renderSlot, hnull]
      rfl
  | str s => rfl
  | _ =>
      simp only [renderSlot, leafText, String.ofList_toList]
      rfl

/-- The fields of a node are written one by one. -/
theorem renderFields_eq {child : NodeId → Checked String} (kinds : List FieldKind)
    {fs : List (Field (Tree NodeId))} (hnull : child .null = .ok "()")
    (hleaf : ∀ s, .leaf s ∈ fs → s.child? = none)
    (hchild : ∀ t, .child t ∈ fs → child t.label = .ok (String.ofList t.form.text)) :
    ∃ texts : List String,
      (kinds.zip (fs.map Field.slot)).mapM (fun (kind, s) => renderSlot child kind s) = .ok texts ∧
      (texts.flatMap fun s => ' ' :: s.toList) =
        Tree.textAll kinds (fs.map (Field.map Tree.form)) := by
  induction fs generalizing kinds with
  | nil => exact ⟨[], by rw [List.map_nil, List.zip_nil_right]; rfl, by cases kinds <;> rfl⟩
  | cons f fs ih =>
      cases kinds with
      | nil => exact ⟨[], rfl, rfl⟩
      | cons kind kinds =>
          obtain ⟨texts, hrun, htexts⟩ := ih kinds
            (fun s hs => hleaf s (List.mem_cons_of_mem _ hs))
            (fun t ht => hchild t (List.mem_cons_of_mem _ ht))
          have hfield : renderSlot child kind f.slot =
              .ok (String.ofList (Tree.fieldText kind (f.map Tree.form))) := by
            cases f with
            | leaf s => exact renderSlot_leaf hnull (hleaf s List.mem_cons_self)
            | child t => exact hchild t List.mem_cons_self
          refine ⟨String.ofList (Tree.fieldText kind (f.map Tree.form)) :: texts, ?_, ?_⟩
          · rw [List.map_cons, List.zip_cons_cons, List.mapM_cons]
            simp only [hfield, hrun]
            rfl
          · rw [List.flatMap_cons, htexts, String.toList_ofList, List.map_cons, Tree.textAll_cons]
            rfl

theorem toList_intercalate_cons (s : String) (texts : List String) :
    (" ".intercalate (s :: texts)).toList =
      s.toList ++ texts.flatMap fun s => ' ' :: s.toList := by
  rw [String.toList_intercalate]
  induction texts generalizing s with
  | nil => simp
  | cons t texts ih =>
      rw [List.map_cons, List.map_cons, List.intercalate_cons_cons, ← List.map_cons, ih,
        List.flatMap_cons, List.append_assoc]
      rfl

theorem renderFrom_eq {t : Tree NodeId} (ht : t.In a) {depth : Nat} (hd : t.height < depth) :
    renderFrom a depth t.label = .ok (String.ofList t.form.text) := by
  induction t generalizing depth with
  | node id tag fs ih =>
      obtain ⟨d, rfl⟩ : ∃ d, depth = d + 1 := ⟨depth - 1, by omega⟩
      have hpos : 0 < d := by
        have : (Tree.node id tag fs).height = Tree.heightAll fs + 1 := rfl
        omega
      obtain ⟨n, hn, htag, hslots⟩ := ht.get?
      have hid : id.isNull = false := ht.label_not_null
      obtain ⟨texts, hrun, htexts⟩ := renderFields_eq (tag.layout.kinds fs.length)
        (renderFrom_null hpos) (fun s hs => ht.leaf hs) fun t h => by
          refine ih t h (ht.child h) ?_
          have := Tree.height_lt id tag h
          omega
      have hfields : n.fields = (tag.layout.kinds fs.length).zip (fs.map Field.slot) := by
        rw [Node.fields, htag, hslots, List.length_map]
      rw [Tree.label, renderFrom, hid, if_neg Bool.false_ne_true, Arena.node_of_get? hn]
      change (n.fields.mapM (fun (kind, s) => renderSlot (renderFrom a d) kind s) >>= fun fields =>
        pure ("(" ++ " ".intercalate (n.tag.name :: fields) ++ ")")) = _
      rw [hfields, hrun, htag]
      refine congrArg Except.ok (String.toList_injective ?_)
      rw [String.toList_ofList, Tree.form_node, Tree.text_node, String.toList_append,
        String.toList_append, toList_intercalate_cons, htexts, List.length_map, List.append_assoc,
        List.append_assoc]
      rfl

end SExpr

/-- The text of a node is that of its tree. -/
theorem Arena.render_eq {a : Arena} {t : Tree NodeId} (ht : t.In a) :
    a.render t.label = .ok (String.ofList t.form.text) :=
  renderFrom_eq ht ht.height_lt_depthBound

theorem Arena.render_null (a : Arena) : a.render .null = .ok "()" :=
  renderFrom_null (Nat.succ_pos _)

end Foam
