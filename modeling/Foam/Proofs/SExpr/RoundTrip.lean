import Foam.Proofs.Arena.Growth
import Foam.Proofs.SExpr.Text

/-!
# The text form read back

What is written for a tree is read back as a tree of the same form, unless there are floating numbers
in it. Reading goes along the text, and the induction along the tree it was written for: whatever
comes after the text of a node is left, so the fields of a node are read one after the other.
-/

namespace Foam

namespace Tree

/-- There is no floating literal in the tree. -/
def FloatFree {α : Type} (t : Tree α) : Prop := t.Every fun u => u.tag ≠ .sflo ∧ u.tag ≠ .dflo

instance {α : Type} (t : Tree α) : Decidable t.FloatFree :=
  inferInstanceAs (Decidable (t.Every _))

end Tree

/-- Only a floating literal has a floating number. -/
theorem Tag.kind_of_not_float {tag : Tag} (h : tag ≠ .sflo ∧ tag ≠ .dflo) {n : Nat} {k : FieldKind}
    (hk : k ∈ tag.layout.kinds n) : k ≠ .sflo ∧ k ≠ .dflo := by
  have hfixed : ∀ tag : Tag, tag ≠ .sflo ∧ tag ≠ .dflo →
      ∀ k ∈ tag.layout.fixed, k ≠ .sflo ∧ k ≠ .dflo := by
    intro tag
    cases tag <;> decide
  rcases Layout.kind_of_mem hk with hk | hk
  · exact hfixed tag h k hk
  · cases tag <;> cases hk <;> decide

namespace SExpr

variable {child : ReadM NodeId} {kind : FieldKind} {rest : List Char}

/-! ## Fields -/

/-- Reading the text makes a tree of the form and leaves what comes after. -/
def Makes (x : ReadM NodeId) (l rest : List Char) (f : Form) : Prop :=
  ∀ pos dst, dst.WellFormed → dst.Room f.size → ∃ (u : Tree NodeId) (dst' : Arena) (pos' : Nat),
    x ⟨l ++ rest, pos⟩ dst = .ok ((.ok u.label, ⟨rest, pos'⟩), dst') ∧ u.form = f ∧
      dst.Grows [u] dst'

/-- The text is not taken for a blank or the end of a node. -/
def Opens (l : List Char) : Prop := ∃ c cs, l = c :: cs ∧ Text.isBlank c = false ∧ c ≠ ')'

theorem IsAtom.opens {l : List Char} (h : IsAtom l) : Opens l := by
  obtain ⟨c, cs, rfl⟩ := List.exists_cons_of_ne_nil h.ne_nil
  have hc : endsAtom c = false := h.not_endsAtom c List.mem_cons_self
  refine ⟨c, cs, rfl, isBlank_of_not_endsAtom hc, ?_⟩
  rintro rfl
  cases hc

theorem isAtom_nameOf?_getD (kind : FieldKind) (v : Int) :
    IsAtom ((nameOf? kind v).getD (toString v)).toList := by
  have hrow : ∀ {ρ : Type} [Table ρ], Table.Spelled ρ →
      IsAtom (((Table.ofOrdinal? v : Option ρ).map Table.name).getD (toString v)).toList := by
    intro ρ _ h
    cases (Table.ofOrdinal? v : Option ρ) with
    | none => exact isAtom_toString_int v
    | some r => exact isAtom_word (h.word r)
  cases kind with
  | typeTag => exact hrow Tag.spelled
  | builtin => exact hrow Builtin.spelled
  | protocol => exact hrow Protocol.spelled
  | declUsage => exact hrow Usage.spelled
  | _ => exact isAtom_toString_int v

/-- A payload of a field that is no floating number is read back from its text. -/
theorem slot_takes {s : Slot} (hfits : s.fits kind = true) (hs : s.child? = none)
    (hfloat : kind ≠ .sflo ∧ kind ≠ .dflo) (hnull : Takes child ['(', ')'] rest .null)
    (hrest : Stops rest) : Takes (slot child kind) (leafText kind s) rest s := by
  cases s with
  | code c =>
      obtain rfl : kind = .child := by simpa [Slot.fits] using hfits
      rw [Arena.null_of_child? hs]
      exact hnull.map Slot.code
  | int v =>
      cases kind with
      | typeTag => exact row_takes Tag.spelled v hrest
      | builtin => exact row_takes Builtin.spelled v hrest
      | protocol => exact row_takes Protocol.spelled v hrest
      | declUsage => exact row_takes Usage.spelled v hrest
      | str | sflo | dflo | bint | child | arb => cases hfits
      | _ =>
          exact (literal_takes (readInt64?_toString v) (isAtom_toString_int v.toInt) hrest).map
            Slot.int
  | sflo b => exact absurd (by simpa [Slot.fits] using hfits) hfloat.1
  | dflo b => exact absurd (by simpa [Slot.fits] using hfits) hfloat.2
  | str s =>
      obtain rfl : kind = .str := by simpa [Slot.fits] using hfits
      exact (string_takes s rest).map Slot.str
  | bint b =>
      obtain rfl : kind = .bint := by simpa [Slot.fits] using hfits
      exact (literal_takes b.read?_text (isAtom_bignum b) hrest).map Slot.bint
  | arb v =>
      obtain rfl : kind = .arb := by simpa [Slot.fits] using hfits
      exact (literal_takes (readUInt64?_toString v) (isAtom_toString_nat v.toNat) hrest).map Slot.arb

theorem opens_leafText (kind : FieldKind) {s : Slot} (hs : s.fits kind = true)
    (hfloat : kind ≠ .sflo ∧ kind ≠ .dflo) : Opens (leafText kind s) := by
  cases s with
  | code c => exact ⟨'(', [')'], rfl, by decide, by decide⟩
  | int v => exact (isAtom_nameOf?_getD kind v.toInt).opens
  | sflo b => exact absurd (by simpa [Slot.fits] using hs) hfloat.1
  | dflo b => exact absurd (by simpa [Slot.fits] using hs) hfloat.2
  | str s => exact ⟨'"', _, rfl, by decide, by decide⟩
  | bint b => exact (isAtom_bignum b).opens
  | arb v => exact (isAtom_toString_nat v.toNat).opens

/-- The field is read back from its text, and what it holds has been made. -/
structure Recovers (child : ReadM NodeId) (kind : FieldKind) (f : Field Form) : Prop where
  opens : Opens (Tree.fieldText kind f)
  makes : ∀ rest, Stops rest → ∀ pos dst, dst.WellFormed → dst.Room (Tree.sizeAll [f]) →
    ∃ (g : Field (Tree NodeId)) (dst' : Arena) (pos' : Nat),
      slot child kind ⟨Tree.fieldText kind f ++ rest, pos⟩ dst =
          .ok ((.ok g.slot, ⟨rest, pos'⟩), dst') ∧ g.map Tree.form = f ∧
        (∀ s, g = .leaf s → s.child? = none) ∧ dst.Grows (Tree.subtrees [g]) dst'

theorem Recovers.leaf {s : Slot} (hfits : s.fits kind = true) (hs : s.child? = none)
    (hfloat : kind ≠ .sflo ∧ kind ≠ .dflo) (hnull : ∀ rest, Takes child ['(', ')'] rest .null) :
    Recovers child kind (.leaf s) where
  opens := opens_leafText kind hfits hfloat
  makes rest hrest pos dst hdst _ := by
    obtain ⟨pos', hrun⟩ := slot_takes hfits hs hfloat (hnull rest) hrest pos dst
    refine ⟨.leaf s, dst, pos', hrun, rfl, ?_, .nil hdst⟩
    rintro _ ⟨⟩
    exact hs

theorem Recovers.subtree {t : Form} (h : ∀ rest, Makes child t.text rest t) :
    Recovers child .child (.child t) where
  opens := by
    obtain ⟨cs, hcs⟩ := t.text_eq_cons
    exact ⟨'(', cs, hcs, by decide, by decide⟩
  makes rest _ pos dst hdst hroom := by
    obtain ⟨u, dst', pos', hrun, hform, hgrows⟩ :=
      h rest pos dst hdst (by simpa [Tree.sizeAll] using hroom)
    refine ⟨.child u, dst', pos', ReadM.bind_ok hrun, congrArg Field.child hform, ?_, hgrows⟩
    rintro _ ⟨⟩

/-- The text of the fields, up to the closing parenthesis. -/
theorem stops_textAll (kinds : List FieldKind) (fs : List (Field Form)) (rest : List Char) :
    Stops (Tree.textAll kinds fs ++ ')' :: rest) := by
  cases kinds with
  | nil => cases fs <;> exact .close rest
  | cons kind kinds =>
      cases fs with
      | nil => exact .close rest
      | cons f fs =>
          rw [Tree.textAll_cons]
          exact .blank _

/-- A character other than the closing parenthesis begins one more field. -/
theorem fields_next {tag : Tag} {slots : List Slot} {c : Char} (hblank : Text.isBlank c = false)
    (hclose : c ≠ ')') (hkind : tag.layout.kindAt? slots.length = some kind) (fuel pos : Nat)
    (l : List Char) (a : Arena) :
    fields child tag (fuel + 1) slots ⟨' ' :: c :: l, pos⟩ a =
      (tryCatch (slot child kind) (abandon slots) >>= fun s =>
        fields child tag fuel (slots ++ [s])) ⟨c :: l, pos + 1⟩ a := by
  rw [fields, ReadM.bind_ok (peek_blank hblank l pos a)]
  simp only [hkind]

/-- The fields that are left are read, after those in `done`. -/
theorem fields_recover {tag : Tag} {kinds : List FieldKind} {fs : List (Field Form)}
    {a₀ a : Arena} (done : List (Field (Tree NodeId))) (rest : List Char) (fuel pos : Nat)
    (hfields : List.Forall₂ (Recovers child) kinds fs) (hfuel : fs.length < fuel)
    (haccepts : tag.layout.accepts (done.length + fs.length) = true)
    (hkinds : ∀ i < fs.length, tag.layout.kindAt? (done.length + i) = kinds[i]?)
    (hg : a₀.Grows (Tree.subtrees done) a) (hleaf : ∀ s, .leaf s ∈ done → s.child? = none)
    (hroom : a.Room (Tree.sizeAll fs)) :
    ∃ (gs : List (Field (Tree NodeId))) (a' : Arena) (pos' : Nat),
      fields child tag fuel (done.map Field.slot) ⟨Tree.textAll kinds fs ++ ')' :: rest, pos⟩ a =
          .ok ((.ok ((done ++ gs).map Field.slot), ⟨rest, pos'⟩), a') ∧
        gs.map (Field.map Tree.form) = fs ∧ (∀ s, .leaf s ∈ done ++ gs → s.child? = none) ∧
        a₀.Grows (Tree.subtrees (done ++ gs)) a' := by
  induction hfields generalizing done a fuel pos with
  | nil =>
      obtain ⟨fuel, rfl⟩ := Nat.exists_eq_add_of_lt hfuel
      refine ⟨[], a, pos + 1, ?_, rfl, by simpa using hleaf, by simpa using hg⟩
      have hlen : tag.layout.accepts (done.map Field.slot).length = true := by
        simpa using haccepts
      rw [List.append_nil, fields, Tree.textAll.eq_def]
      rw [List.nil_append, ReadM.bind_ok (peek_cons (by decide) rest pos a)]
      show (advance >>= fun _ => if tag.layout.accepts (done.map Field.slot).length then _ else _) _ _ = _
      rw [ReadM.bind_ok (advance_cons ..), if_pos hlen]
      rfl
  | @cons kind f kinds fs hf hfs ih =>
      obtain ⟨fuel, rfl⟩ : ∃ n, fuel = n + 1 := ⟨fuel - 1, by omega⟩
      obtain ⟨c, cs, hopen, hblank, hclose⟩ := hf.opens
      obtain ⟨hhere, hrest⟩ : a.Room (Tree.sizeAll [f]) ∧ ∀ c : Arena,
          c.liveCount = a.liveCount + Tree.sizeAll [f] → c.Room (Tree.sizeAll fs) := by
        rw [Tree.sizeAll_cons] at hroom
        unfold Arena.Room at hroom ⊢
        exact ⟨by omega, fun c hc => by omega⟩
      have hkind : tag.layout.kindAt? (done.map Field.slot).length = some kind := by
        have := hkinds 0 (Nat.succ_pos _)
        rwa [Nat.add_zero, List.getElem?_cons_zero, ← List.length_map (f := Field.slot)] at this
      obtain ⟨g, a', pos₁, hslot, hform, hgleaf, hgrows⟩ := hf.makes
        (Tree.textAll kinds fs ++ ')' :: rest) (stops_textAll _ _ _) (pos + 1) a hg.wellFormed hhere
      have hlive : a'.liveCount = a.liveCount + Tree.sizeAll [f] := by
        rw [hgrows.liveCount, Tree.length_labelsAll, ← hform, ← Tree.sizeAll_map_form]
        rfl
      -- so `done` grows by one field and the induction goes on from there
      have hleaf' : ∀ s, .leaf s ∈ done ++ [g] → s.child? = none := by
        intro s hs
        rcases List.mem_append.mp hs with hs | hs
        · exact hleaf s hs
        · exact hgleaf s (List.mem_singleton.mp hs).symm
      have hgrows' : a₀.Grows (Tree.subtrees (done ++ [g])) a' := by
        rw [Tree.subtrees_append]
        exact hg.append hgrows
      obtain ⟨gs, a'', pos₂, hrun, hforms, hleaf'', hgrows''⟩ := ih (done ++ [g]) fuel pos₁
        (by simpa using hfuel) (by simpa [Nat.add_assoc, Nat.add_comm 1] using haccepts)
        (fun i hi => by
          have := hkinds (i + 1) (Nat.succ_lt_succ hi)
          rw [List.length_append, List.length_singleton, Nat.add_assoc, Nat.add_comm 1]
          simpa using this)
        hgrows' hleaf' (hrest a' hlive)
      rw [List.append_assoc] at hrun hleaf'' hgrows''
      refine ⟨g :: gs, a'', pos₂, ?_, by rw [List.map_cons, hform, hforms], hleaf'', hgrows''⟩
      have htext : Tree.textAll (kind :: kinds) (f :: fs) ++ ')' :: rest =
          ' ' :: c :: (cs ++ (Tree.textAll kinds fs ++ ')' :: rest)) := by
        rw [Tree.textAll_cons, hopen, List.cons_append, List.append_assoc]
        rfl
      rw [hopen, List.cons_append] at hslot
      rw [htext, fields_next hblank hclose hkind, ReadM.bind_ok (ReadM.tryCatch_ok hslot)]
      rw [List.map_append] at hrun
      exact hrun

/-! ## Trees -/

theorem node_null (fuel : Nat) (rest : List Char) :
    Takes (node (fuel + 1)) ['(', ')'] rest .null := by
  intro pos a
  obtain ⟨pos₁, hopen⟩ := expect_takes (c := '(') (by decide) (')' :: rest) pos a
  refine ⟨pos₁ + 1, ?_⟩
  show node (fuel + 1) ⟨['('] ++ ')' :: rest, pos⟩ a = _
  rw [node, ReadM.bind_ok hopen, ReadM.bind_ok (peek_cons (by decide) rest pos₁ a), if_pos rfl,
    ReadM.bind_ok (advance_cons ..)]
  rfl

/-- After the name of a tag, reading goes on with the fields of a node. -/
theorem node_enter (tag : Tag) (fuel : Nat) {l : List Char} (hl : Stops l) (pos : Nat) (a : Arena) :
    ∃ pos', node (fuel + 1) ⟨'(' :: (tag.name.toList ++ l), pos⟩ a =
      (fields (node fuel) tag fuel [] >>= fun slots => (Arena.push tag slots : ArenaM NodeId) :
        ReadM NodeId) ⟨l, pos'⟩ a := by
  have hword : Text.IsWord tag.name := Tag.spelled.word tag
  obtain ⟨c, cs, hname, hblank, hclose⟩ := (isAtom_word hword).opens
  obtain ⟨pos₁, hopen⟩ := expect_takes (c := '(') (by decide) (tag.name.toList ++ l) pos a
  obtain ⟨pos₂, hatom⟩ := atom_apply (isAtom_word hword) hl pos₁ a
  have hpeek : peek ⟨tag.name.toList ++ l, pos₁⟩ a =
      .ok ((.ok (some c), ⟨tag.name.toList ++ l, pos₁⟩), a) := by
    rw [hname]
    exact peek_cons hblank (cs ++ l) pos₁ a
  have hfound : Tag.ofName? (String.ofList tag.name.toList) = some tag := by
    rw [String.ofList_toList]
    exact Tag.spelled.ofName?_name tag
  refine ⟨pos₂, ?_⟩
  rw [← List.singleton_append, node, ReadM.bind_ok hopen, ReadM.bind_ok hpeek,
    if_neg (by simpa using hclose), ReadM.bind_ok hatom]
  simp only [hfound]

theorem push_of_fits {a b : Arena} {tag : Tag} {gs : List (Field (Tree NodeId))}
    (hg : a.Grows (Tree.subtrees gs) b) (hleaf : ∀ s, .leaf s ∈ gs → s.child? = none)
    (hfits : (Tree.node () tag (gs.map (Field.map Tree.form))).Fits)
    (hroom : a.Room (Tree.sizeAll gs + 1)) :
    ∃ id c, Arena.push tag (gs.map Field.slot) b = .ok (id, c) ∧ a.Grows [.node id tag gs] c := by
  obtain ⟨haccepts, hfields, -⟩ := Tree.obeys_node.mp hfits
  rw [List.length_map] at haccepts hfields
  have hnode : (Node.bare tag (gs.map Field.slot)).Fits :=
    Field.node_fits (fun _ _ h => h) haccepts
      ((List.forall₂_map_right_iff.mp hfields).imp fun _ _ => Field.obeys_map.mp)
  have hone : b.Room 1 := by
    have hlive := hg.liveCount
    rw [Tree.length_labelsAll] at hlive
    unfold Arena.Room at hroom ⊢
    omega
  obtain ⟨id, c, hc, hgrows, -⟩ := Arena.Grows.push [] hg hone hleaf hnode
  exact ⟨id, c, hc, hgrows⟩

/-- The text of a tree is read back as a tree of its form. -/
theorem node_makes {a : Arena} {t : Tree NodeId} (ht : t.In a) (hfits : t.Fits)
    (hplain : t.FloatFree) {fuel : Nat} (hfuel : t.form.text.length < fuel) (rest : List Char) :
    Makes (node fuel) t.form.text rest t.form := by
  induction t generalizing fuel rest with
  | node id tag fs ih =>
      intro pos dst hdst hroom
      obtain ⟨haccepts, hfields, hbelow⟩ := Tree.obeys_node.mp hfits
      obtain ⟨hfloat, hplain⟩ := Tree.every_node.mp hplain
      have hform : (Tree.node id tag fs).form.Fits := (Tree.obeys_form _).mpr hfits
      rw [Tree.form_node] at hform
      rw [Tree.form_node, Tree.text_node, List.length_map] at hfuel ⊢
      have hkinds := Layout.length_kinds haccepts
      have hlen : (tag.layout.kinds fs.length).length = (fs.map (Field.map Tree.form)).length := by
        rw [hkinds, List.length_map]
      -- the parentheses are two characters, which leaves some of the fuel for what is between them
      rw [List.length_cons, List.length_append, List.length_append, List.length_singleton] at hfuel
      obtain ⟨fuel, rfl⟩ : ∃ n, fuel = n + 2 := ⟨fuel - 2, by omega⟩
      have hrecovers : List.Forall₂ (Recovers (node (fuel + 1))) (tag.layout.kinds fs.length)
          (fs.map (Field.map Tree.form)) := by
        refine List.forall₂_map_right_iff.mpr (List.forall₂_iff_zip.mpr ⟨hkinds, ?_⟩)
        intro k f hkf
        obtain ⟨hk, hf⟩ := List.of_mem_zip hkf
        have hobeys := (List.forall₂_iff_zip.mp hfields).2 hkf
        cases f with
        | leaf s =>
            exact .leaf hobeys (ht.leaf hf) (Tag.kind_of_not_float hfloat hk) (node_null fuel)
        | child u =>
            obtain rfl : k = .child := hobeys
            refine .subtree fun rest => ih u hf (ht.child hf) (hbelow u hf) (hplain u hf) ?_ rest
            have := Tree.length_text_le_textAll hlen (Tree.child_mem_map.mpr ⟨u, hf, rfl⟩)
            omega
      rw [Tree.form_node] at hroom
      obtain ⟨pos₁, henter⟩ := node_enter tag (fuel + 1) (stops_textAll (tag.layout.kinds fs.length)
        (fs.map (Field.map Tree.form)) rest) pos dst
      obtain ⟨gs, dst₁, pos₂, hrun, hforms, hleaf, hgrows⟩ := fields_recover [] rest (fuel + 1) pos₁
        hrecovers
        (by
          have := Tree.length_textAll hlen
          omega)
        (by simpa using haccepts)
        (by
          intro i hi
          rw [List.length_map] at hi
          rw [List.length_nil, Nat.zero_add, Layout.getElem?_kinds haccepts hi])
        (.nil hdst) (fun s hs => absurd hs List.not_mem_nil)
        (Nat.le_trans (Nat.le_succ _) hroom)
      rw [List.nil_append, List.map_nil] at hrun
      rw [List.nil_append] at hleaf hgrows
      obtain ⟨new, dst₂, hpush, hgrows'⟩ := push_of_fits hgrows hleaf (by rwa [hforms]) (by
        rw [← Tree.sizeAll_map_form, hforms]
        exact hroom)
      refine ⟨.node new tag gs, dst₂, pos₂, ?_, by rw [Tree.form_node, hforms], hgrows'⟩
      rw [List.cons_append, List.append_assoc, List.append_assoc, List.singleton_append, henter,
        ReadM.bind_ok hrun, ReadM.lift_ok hpush]
      rfl

/-- A text is read to its end. -/
theorem whole_of_node {fuel : Nat} {l : List Char} {pos' : Nat} {a b : Arena} {y : NodeId}
    (h : node fuel ⟨l, 0⟩ a = .ok ((.ok y, ⟨[], pos'⟩), b)) :
    whole fuel ⟨l, 0⟩ a = .ok ((.ok y, ⟨[], pos'⟩), b) := by
  rw [whole, ReadM.bind_ok h, ReadM.bind_ok (peek_nil pos' b)]
  rfl

end SExpr

open SExpr

theorem Arena.read_of_whole {text : String} {i : Input} {a b : Arena} {y : NodeId}
    (h : whole (text.toList.length + 1) ⟨text.toList, 0⟩ a = .ok ((.ok y, i), b)) :
    (Arena.read text).run a = .ok (.ok y, b) := by
  show ((whole (text.toList.length + 1) ⟨text.toList, 0⟩ a) >>= fun p => _) = _
  rw [h]
  rfl

/-- Printing a tree without floating numbers, or an absent one, and reading the text gives an equal
tree. Children may be absent, nodes may be shared, and numbers may lie outside their tables. What was
live in the arena that the text is read into stays as it was. -/
theorem Arena.read_render {a dst : Arena} (hw : a.WellFormed) (hdst : dst.WellFormed)
    (t : Option (Tree NodeId)) (ht : ∀ u ∈ t, u.In a ∧ u.FloatFree ∧ dst.Room u.size) :
    ∃ (text : String) (y : NodeId) (dst' : Arena),
      a.render (t.elim .null Tree.label) = .ok text ∧
      (Arena.read text).run dst = .ok (.ok y, dst') ∧
      a.equal (t.elim .null Tree.label) dst' y = .ok true ∧
      dst'.WellFormed ∧ ∀ x n, dst.get? x = some n → dst'.get? x = some n := by
  cases t with
  | none =>
      obtain ⟨pos', hnode⟩ := node_null 2 [] 0 dst
      exact ⟨"()", .null, dst, a.render_null, Arena.read_of_whole (whole_of_node hnode),
        equalFrom_null (Nat.mul_pos (Nat.succ_pos _) (Nat.succ_pos _)) (.inl rfl), hdst,
        fun _ _ h => h⟩
  | some u =>
      obtain ⟨hu, hplain, hroom⟩ := ht u rfl
      obtain ⟨v, dst', pos', hnode, hform, hgrows⟩ := node_makes hu (hu.fits hw) hplain
        (Nat.lt_succ_self _) [] 0 dst hdst (by rwa [Tree.size_form])
      have hv : v.In dst' := hgrows.placed v List.mem_cons_self
      refine ⟨String.ofList u.form.text, v.label, dst', Arena.render_eq hu, ?_, ?_,
        hgrows.wellFormed, ?_⟩
      · apply Arena.read_of_whole
        rw [String.toList_ofList]
        rw [List.append_nil] at hnode
        exact whole_of_node hnode
      · show a.equal u.label dst' v.label = _
        rw [Arena.equal_eq hw hgrows.wellFormed hu hv, hform, Tree.equal_false_iff.mpr rfl]
      · intro x n hx
        rw [hgrows.kept x ?_]
        · exact hx
        · intro hmem
          rw [hgrows.fresh x hmem] at hx
          cases hx

/-- A sequence of a string with quotes, a call whose builtin is not in the table and whose argument is
absent, and the string once more, read into an arena with a vacant row. -/
theorem Arena.read_render_shared :
    let a : Arena := .ofRows [some (.bare .unimp [.str "a\"\\b"]),
      some (.bare .bcall [.int 999, .code .null]),
      some (.bare .seq [.code ⟨0⟩, .code ⟨1⟩, .code ⟨0⟩])] []
    let dst : Arena := .ofRows [some (.bare .nil []), none] [⟨1⟩]
    let word : Tree NodeId := .node ⟨0⟩ .unimp [.leaf (.str "a\"\\b")]
    let call : Tree NodeId := .node ⟨1⟩ .bcall [.leaf (.int 999), .leaf (.code .null)]
    let t : Option (Tree NodeId) := some (.node ⟨2⟩ .seq [.child word, .child call, .child word])
    a.WellFormed ∧ dst.WellFormed ∧ (∀ u ∈ t, u.In a ∧ u.FloatFree ∧ dst.Room u.size) ∧
    ∃ (text : String) (y : NodeId) (dst' : Arena),
      a.render (t.elim .null Tree.label) = .ok text ∧
      (Arena.read text).run dst = .ok (.ok y, dst') ∧
      a.equal (t.elim .null Tree.label) dst' y = .ok true ∧
      dst'.WellFormed ∧ ∀ x n, dst.get? x = some n → dst'.get? x = some n := by
  intro a dst word call t
  have hw : a.WellFormed := by decide
  have hdst : dst.WellFormed := by decide
  have ht : ∀ u ∈ t, u.In a ∧ u.FloatFree ∧ dst.Room u.size := by
    intro u hu
    obtain rfl := Option.mem_some.mp hu
    decide
  exact ⟨hw, hdst, ht, Arena.read_render hw hdst t ht⟩

end Foam
