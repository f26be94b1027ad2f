import Foam.Proofs.Tree

/-!
# What the fields of a tree hold

The layout of a tag gives every field a kind. A tree obeys `P` if at every node there are as many
fields as the layout admits, children stand where children are asked for, and every payload has `P`
at its kind. Trees in a well-formed arena fit in this sense; those that come from bytes are sound,
which leaves no child absent and no ordinal out of its table.
-/

namespace Foam

/-- The payload fits the kind, and is an ordinal of the table if the kind names one. -/
def Slot.Valid (k : FieldKind) (s : Slot) : Prop := s.fits k = true ∧ s.inTable k = true

/-- The payload is valid, and no absent child. -/
def Slot.Sound (k : FieldKind) (s : Slot) : Prop := k ≠ .child ∧ s.Valid k

theorem Slot.Sound.fits {k : FieldKind} {s : Slot} (h : s.Sound k) : s.fits k = true := h.2.1

theorem Slot.Sound.ne_code {k : FieldKind} {s : Slot} (h : s.Sound k) (c : NodeId) :
    s ≠ .code c := by
  rintro rfl
  exact h.1 (by simpa [Slot.fits] using h.2.1)

theorem Slot.Sound.child? {k : FieldKind} {s : Slot} (h : s.Sound k) : s.child? = none := by
  cases s with
  | code c => exact absurd rfl (h.ne_code c)
  | _ => rfl

theorem Slot.code_of_fits {s : Slot} (h : s.fits .child = true) : ∃ c, s = .code c := by
  cases s with
  | code c => exact ⟨c, rfl⟩
  | _ => cases h

theorem Slot.int_of_fits {s : Slot} {k : FieldKind} (hk : k.isIntegral = true) (h : s.fits k = true) :
    ∃ v, s = .int v := by
  cases s with
  | int v => exact ⟨v, rfl⟩
  | _ =>
      simp only [Slot.fits, beq_iff_eq] at h
      subst h
      cases hk

def Field.Obeys {τ : Type} (P : FieldKind → Slot → Prop) (k : FieldKind) : Field τ → Prop
  | leaf s => P k s
  | child _ => k = .child

namespace Field

variable {τ σ : Type} {P : FieldKind → Slot → Prop} {k : FieldKind}

theorem obeys_map {f : τ → σ} {x : Field τ} : (x.map f).Obeys P k ↔ x.Obeys P k := by
  cases x <;> rfl

theorem Obeys.imp {Q : FieldKind → Slot → Prop} (h : ∀ k s, P k s → Q k s) {x : Field τ}
    (hx : x.Obeys P k) : x.Obeys Q k := by
  cases x with
  | leaf s => exact h k s hx
  | child t => exact hx

theorem Obeys.fits (hP : ∀ k s, P k s → s.fits k = true) {x : Field (Tree NodeId)}
    (h : x.Obeys P k) : x.slot.fits k = true := by
  cases x with
  | leaf s => exact hP k s h
  | child t =>
      rw [show k = .child from h]
      rfl

theorem exists_obeys {kinds : List FieldKind} {fs : List (Field τ)} {f : Field τ}
    (h : List.Forall₂ (Obeys P) kinds fs) (hf : f ∈ fs) : ∃ k ∈ kinds, f.Obeys P k := by
  induction h with
  | nil => cases hf
  | @cons k g _ _ hg _ ih =>
      rcases List.mem_cons.mp hf with rfl | hf
      · exact ⟨k, List.mem_cons_self, hg⟩
      · obtain ⟨j, hj, hfj⟩ := ih hf
        exact ⟨j, List.mem_cons_of_mem _ hj, hfj⟩

theorem exists_of_kind {kinds : List FieldKind} {fs : List (Field τ)}
    (h : List.Forall₂ (Obeys P) kinds fs) (hk : k ∈ kinds) :
    ∃ f, (k, f) ∈ kinds.zip fs ∧ f.Obeys P k := by
  induction h with
  | nil => cases hk
  | @cons j g _ _ hg _ ih =>
      rcases List.mem_cons.mp hk with rfl | hk
      · exact ⟨g, List.mem_cons_self, hg⟩
      · obtain ⟨f, hf, hfk⟩ := ih hk
        exact ⟨f, List.mem_cons_of_mem _ hf, hfk⟩

theorem exists_of_mem_zip {kinds : List FieldKind} {fs : List (Field τ)} {g : Field τ → Slot}
    {s : Slot} (h : List.Forall₂ (Obeys P) kinds fs) (hs : (k, s) ∈ kinds.zip (fs.map g)) :
    ∃ f ∈ fs, f.Obeys P k ∧ g f = s := by
  rw [List.zip_map_right] at hs
  obtain ⟨⟨k', f⟩, hmem, heq⟩ := List.mem_map.mp hs
  obtain ⟨rfl, rfl⟩ := Prod.mk.inj heq
  exact ⟨f, (List.of_mem_zip hmem).2, (List.forall₂_iff_zip.mp h).2 hmem, rfl⟩

theorem node_fits (hP : ∀ k s, P k s → s.fits k = true) {tag : Tag}
    {fs : List (Field (Tree NodeId))} (haccepts : tag.layout.accepts fs.length = true)
    (h : List.Forall₂ (Obeys P) (tag.layout.kinds fs.length) fs) :
    (Node.bare tag (fs.map Field.slot)).Fits := by
  refine ⟨by simpa [Node.bare] using haccepts, ?_⟩
  intro k s hs
  rw [Node.fields, Node.bare, List.length_map] at hs
  obtain ⟨f, -, hf, rfl⟩ := exists_of_mem_zip h hs
  exact hf.fits hP

end Field

namespace Tree

variable {α : Type} {P Q : FieldKind → Slot → Prop}

def Obeys (P : FieldKind → Slot → Prop) (t : Tree α) : Prop :=
  t.Every fun u => u.tag.layout.accepts u.fields.length = true ∧
    List.Forall₂ (Field.Obeys P) (u.tag.layout.kinds u.fields.length) u.fields

/-- Payloads are of the sort that their kinds ask for. -/
abbrev Fits (t : Tree α) : Prop := t.Obeys fun k s => s.fits k = true

abbrev Valid (t : Tree α) : Prop := t.Obeys fun k s => s.Valid k

abbrev Sound (t : Tree α) : Prop := t.Obeys fun k s => s.Sound k

/-- Every payload of the tree has the property at its kind. An absent child and one that is present
count as the same payload. -/
def Payloads (P : FieldKind → Slot → Prop) (t : Tree α) : Prop := t.Every fun u => ∀ k s,
  (k, s) ∈ (u.tag.layout.kinds u.fields.length).zip (u.fields.map Field.blank) → P k s

instance [∀ k, DecidablePred (P k)] (t : Tree α) : Decidable (t.Payloads P) :=
  have : DecidablePred fun u : Tree α => ∀ k s,
      (k, s) ∈ (u.tag.layout.kinds u.fields.length).zip (u.fields.map Field.blank) → P k s :=
    fun u => decidable_of_iff (∀ p ∈ (u.tag.layout.kinds u.fields.length).zip
      (u.fields.map Field.blank), P p.1 p.2) Prod.forall
  inferInstanceAs (Decidable (t.Every _))

/-- At every node, slots for rows of tables hold ordinals of them. -/
abbrev InTable (t : Tree α) : Prop := t.Payloads fun k s => s.inTable k = true

/-- The lengths of the procedures in the tree are all zero. -/
abbrev EndOffsetsZero (t : Tree α) : Prop := t.Payloads fun k s => k = .treeLength → s = .int 0

theorem obeys_node {l : α} {tag : Tag} {fs : List (Field (Tree α))} :
    (node l tag fs).Obeys P ↔ tag.layout.accepts fs.length = true ∧
      List.Forall₂ (Field.Obeys P) (tag.layout.kinds fs.length) fs ∧
      ∀ t, .child t ∈ fs → t.Obeys P := by
  rw [Obeys, every_node, and_assoc]
  rfl

theorem Obeys.imp (h : ∀ k s, P k s → Q k s) {t : Tree α} (ht : t.Obeys P) : t.Obeys Q :=
  Every.imp (fun _ => And.imp_right fun hu => hu.imp fun _ _ => Field.Obeys.imp h) ht

/-- A reference by one index holds a number. -/
theorem index_of_fits {fs : List (Field (Tree α))}
    (h : List.Forall₂ (Field.Obeys fun k s => s.fits k = true) [.index] fs) :
    ∃ v, fs = [.leaf (.int v)] := by
  cases h with
  | @cons _ f _ fs hf hnil =>
      cases hnil
      cases f with
      | child t => cases hf
      | leaf s =>
          obtain ⟨v, rfl⟩ := Slot.int_of_fits rfl hf
          exact ⟨v, rfl⟩

theorem obeys_form (t : Tree α) : t.form.Obeys P ↔ t.Obeys P := by
  induction t with
  | node l tag fs ih =>
      rw [form_node, obeys_node, obeys_node, List.length_map, List.forall₂_map_right_iff]
      simp only [Field.obeys_map, child_mem_map]
      refine and_congr_right fun _ => and_congr_right fun _ => ?_
      constructor
      · intro h t ht
        exact (ih t ht).mp (h t.form ⟨t, ht, rfl⟩)
      · rintro h u ⟨t, ht, rfl⟩
        exact (ih t ht).mpr (h t ht)

theorem payloads_form (t : Tree α) : t.form.Payloads P ↔ t.Payloads P := by
  induction t with
  | node l tag fs ih =>
      unfold Payloads at ih ⊢
      rw [form_node, every_node, every_node]
      simp only [Tree.tag, Tree.fields, List.length_map, List.map_map, Field.blank_comp_map,
        child_mem_map]
      refine and_congr_right fun _ => ?_
      constructor
      · intro h t ht
        exact (ih t ht).mp (h t.form ⟨t, ht, rfl⟩)
      · rintro h u ⟨t, ht, rfl⟩
        exact (ih t ht).mpr (h t ht)

/-- What fits and has a property of payloads obeys both. -/
theorem Fits.obeys {t : Tree α} (h : t.Fits) (ht : t.Payloads P) :
    t.Obeys fun k s => s.fits k = true ∧ P k s := by
  induction t with
  | node l tag fs ih =>
      obtain ⟨haccepts, hfits, hbelow⟩ := obeys_node.mp h
      obtain ⟨hhere, htbelow⟩ := every_node.mp ht
      obtain ⟨hlen, hzip⟩ := List.forall₂_iff_zip.mp hfits
      refine obeys_node.mpr ⟨haccepts, List.forall₂_iff_zip.mpr ⟨hlen, ?_⟩,
        fun t ht => ih t ht (hbelow t ht) (htbelow t ht)⟩
      intro k f hkf
      have hfit := hzip hkf
      cases f with
      | leaf s =>
          refine ⟨hfit, hhere k s ?_⟩
          rw [List.zip_map_right]
          exact List.mem_map.mpr ⟨(k, .leaf s), hkf, rfl⟩
      | child t => exact hfit

theorem Fits.valid {t : Tree α} (h : t.Fits) (ht : t.InTable) : t.Valid := h.obeys ht

theorem Valid.inTable {t : Tree α} (h : t.Valid) : t.InTable := by
  induction t with
  | node l tag fs ih =>
      obtain ⟨-, hvalid, hbelow⟩ := obeys_node.mp h
      refine .node ?_ fun t ht => ih t ht (hbelow t ht)
      intro k s hs
      obtain ⟨f, -, hf, rfl⟩ := Field.exists_of_mem_zip hvalid hs
      cases f with
      | leaf s => exact hf.2
      | child t =>
          rw [show k = .child from hf]
          rfl

/-! ## Trees in an arena -/

/-- What stands in a well-formed arena fits. -/
theorem In.fits {t : Tree NodeId} {a : Arena} (hw : a.WellFormed) (h : t.In a) : t.Fits := by
  induction t with
  | node id tag fs ih =>
      obtain ⟨n, hg, rfl, hslots⟩ := h.get?
      obtain ⟨haccepts, hfits⟩ := hw.fits id n hg
      rw [hslots, List.length_map] at haccepts
      refine obeys_node.mpr ⟨haccepts, List.forall₂_iff_zip.mpr ⟨Layout.length_kinds haccepts, ?_⟩,
        fun t ht => ih t ht (h.child ht)⟩
      intro k f hkf
      have hs : f.slot.fits k = true := by
        apply hfits k f.slot
        rw [Node.fields, hslots, List.length_map, List.zip_map_right]
        exact List.mem_map_of_mem hkf
      cases f with
      | leaf s => exact hs
      | child t => simpa [Slot.fits, Field.slot, Field.Obeys] using hs

/-- The nodes of a sound tree have all their children, and their ordinals are in their tables. -/
theorem In.node_of_sound {t : Tree NodeId} {a : Arena} (h : t.In a) (hs : t.Sound) {x : NodeId}
    (hx : x ∈ t.labels) : ∃ n, a.get? x = some n ∧ n.Complete ∧ n.InTable := by
  induction t with
  | node id tag fs ih =>
      obtain ⟨-, hsound, hbelow⟩ := obeys_node.mp hs
      rw [labels_node] at hx
      rcases List.mem_cons.mp hx with rfl | hx
      · obtain ⟨n, hg, htag, hslots⟩ := h.get?
        refine ⟨n, hg, ?_, ?_⟩
        · intro c hc
          rw [hslots] at hc
          obtain ⟨f, hf, hfc⟩ := List.mem_map.mp hc
          cases f with
          | leaf s =>
              obtain ⟨k, -, hk⟩ := Field.exists_obeys hsound hf
              exact absurd hfc (Slot.Sound.ne_code hk c)
          | child t =>
              obtain rfl : t.label = c := Slot.code.inj hfc
              exact (h.child hf).label_not_null
        · intro k s hks
          rw [Node.fields, htag, hslots, List.length_map] at hks
          obtain ⟨f, -, hf, rfl⟩ := Field.exists_of_mem_zip hsound hks
          cases f with
          | leaf s => exact hf.2.2
          | child t =>
              rw [show k = .child from hf]
              rfl
      · obtain ⟨t, ht, hx⟩ := List.mem_flatMap.mp hx
        have ht : .child t ∈ fs := mem_subtrees.mp ht
        exact ih t ht (h.child ht) (hbelow t ht) hx

end Tree

end Foam
