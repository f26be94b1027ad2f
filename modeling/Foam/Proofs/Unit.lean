import Foam.Proofs.Sound
import Foam.Unit
import Mathlib.Data.Set.List

/-!
# The constants of a unit

A unit is a format table and definitions. The second format declares the constants, and so says how
many there are; a definition gives one of them its value, or concerns a global. If every constant is
defined once, what the arena says of the values is a list filled place by place (`Filled`).
-/

namespace Foam

/-! ## Lists filled by number -/

/-- The list has `n` places. Those with a number in `es` hold what stands there beside it, the
others `x₀`, and no number stands in `es` twice. -/
structure Filled {β : Type} (x₀ : β) (n : Nat) (es : List (Int × β)) (xs : List β) : Prop where
  length_eq : xs.length = n
  range : ∀ e ∈ es, 0 ≤ e.1 ∧ e.1 < n
  nodup : (es.map Prod.fst).Nodup
  get? : ∀ e ∈ es, xs[e.1.toNat]? = some e.2
  vacant : ∀ i < n, (i : Int) ∉ es.map Prod.fst → xs[i]? = some x₀

namespace Filled

variable {β : Type} {x₀ x : β} {n : Nat} {es : List (Int × β)} {xs : List β} {v : Int}

theorem nil (x₀ : β) (n : Nat) : Filled x₀ n [] (List.replicate n x₀) where
  length_eq := List.length_replicate
  range := by simp
  nodup := List.nodup_nil
  get? := by simp
  vacant := fun i hi _ => by simp [hi]

theorem set (h : Filled x₀ n es xs) (hv : 0 ≤ v) (hn : v < n) (hnew : v ∉ es.map Prod.fst) (x : β) :
    Filled x₀ n (es ++ [(v, x)]) (xs.set v.toNat x) where
  length_eq := by rw [List.length_set, h.length_eq]
  range := by
    intro e he
    rcases List.mem_append.mp he with he | he
    · exact h.range e he
    · obtain rfl := List.mem_singleton.mp he
      exact ⟨hv, hn⟩
  nodup := by
    rw [List.map_append, List.map_singleton, List.nodup_append]
    refine ⟨h.nodup, List.nodup_singleton _, ?_⟩
    intro w hw y hy
    rintro rfl
    rw [List.mem_singleton.mp hy] at hw
    exact hnew hw
  get? := by
    intro e he
    rcases List.mem_append.mp he with he | he
    · have hne : v.toNat ≠ e.1.toNat := by
        intro heq
        have := (h.range e he).1
        exact hnew (List.mem_map.mpr ⟨e, he, by omega⟩)
      rw [List.getElem?_set_ne hne]
      exact h.get? e he
    · obtain rfl := List.mem_singleton.mp he
      have hlen := h.length_eq
      exact List.getElem?_set_self (by omega)
  vacant := by
    intro i hi hout
    rw [List.map_append, List.mem_append, not_or] at hout
    have hne : v.toNat ≠ i := by
      rintro rfl
      exact hout.2 (by simp [Int.toNat_of_nonneg hv])
    rw [List.getElem?_set_ne hne]
    exact h.vacant i hi hout.1

end Filled

namespace Tree

variable {α : Type}

/-! ## Definitions -/

/-- The child in field `i`. -/
def child? (t : Tree α) (i : Nat) : Option (Tree α) := t.fields[i]?.bind Field.child?

/-- The number of the constant that a definition has on its left. -/
def constNumber? (d : Tree α) : Option Int :=
  match d.child? 0 with
  | some (node _ .const (.leaf (.int v) :: _)) => some v.toInt
  | _ => none

/-- The numbers of the constants that are defined, in order. -/
def constNumbers (defs : Tree α) : List Int := (subtrees defs.fields).filterMap constNumber?

/-- A unit with a format table, in it a group of declarations for the constants, and definitions of
constants and globals. -/
structure UnitOf (u formats consts defs : Tree α) : Prop where
  tag_eq : u.tag = .unit
  formats_eq : u.child? 0 = some formats
  formats_tag : formats.tag = .dfmt
  consts_eq : formats.child? 1 = some consts
  consts_tag : consts.tag = .ddecl
  defs_eq : u.child? 1 = some defs
  defs_tag : defs.tag = .ddef
  definitions : ∀ d, .child d ∈ defs.fields → d.tag = .defn ∧
    ∃ l, d.child? 0 = some l ∧ (l.tag = .const ∨ l.tag = .glo)

end Tree

/-- The parts of a definition. -/
structure Definition (α : Type) where
  label : α
  leftLabel : α
  isConst : Bool
  index : Int64
  right : Tree α

namespace Definition

variable {α : Type}

def left (d : Definition α) : Tree α :=
  .node d.leftLabel (if d.isConst then .const else .glo) [.leaf (.int d.index)]

def tree (d : Definition α) : Tree α := .node d.label .defn [.child d.left, .child d.right]

def number? (d : Definition α) : Option Int := if d.isConst then some d.index.toInt else none

theorem constNumber?_tree (d : Definition α) : d.tree.constNumber? = d.number? := by
  obtain ⟨l, l', c, v, r⟩ := d
  cases c <;> rfl

end Definition

namespace Tree

variable {α : Type}

/-! ## The shape of a sound unit -/

theorem child_of_sound {f : Field (Tree α)} (h : f.Obeys (fun k s => s.Sound k) .child) :
    ∃ t, f = .child t := by
  cases f with
  | leaf s => exact absurd rfl h.1
  | child t => exact ⟨t, rfl⟩

theorem children_of_sound {n : Nat} {fs : List (Field (Tree α))}
    (h : List.Forall₂ (Field.Obeys fun k s => s.Sound k) (List.replicate n .child) fs) :
    ∃ ts : List (Tree α), fs = ts.map .child := by
  induction n generalizing fs with
  | zero =>
      cases h
      exact ⟨[], rfl⟩
  | succ n ih =>
      cases h with
      | cons hf hfs =>
          obtain ⟨t, rfl⟩ := child_of_sound hf
          obtain ⟨ts, rfl⟩ := ih hfs
          exact ⟨t :: ts, rfl⟩

theorem fields_of_fixed {l : α} {tag : Tag} {fs : List (Field (Tree α))}
    {P : FieldKind → Slot → Prop} (h : (node l tag fs).Obeys P) (hl : tag.layout.tail = none) :
    List.Forall₂ (Field.Obeys P) tag.layout.fixed fs := by
  obtain ⟨haccepts, hfields, -⟩ := obeys_node.mp h
  have hlen : fs.length = tag.layout.minSlots := by
    simpa [Layout.accepts, Layout.isVariadic, hl] using haccepts
  rwa [hlen, Layout.kinds_minSlots] at hfields

theorem fields_of_tail {l : α} {tag : Tag} {fs : List (Field (Tree α))}
    (h : (node l tag fs).Sound) (hl : tag.layout = ⟨[], some .child⟩) :
    ∃ ts : List (Tree α), fs = ts.map .child := by
  obtain ⟨-, hfields, -⟩ := obeys_node.mp h
  rw [Layout.kinds_children hl] at hfields
  exact children_of_sound hfields

/-- A sound definition of a constant or a global has the parts of one. -/
theorem definition_of_sound {d l : Tree α} (h : d.Sound) (htag : d.tag = .defn)
    (hl : d.child? 0 = some l) (hleft : l.tag = .const ∨ l.tag = .glo) :
    ∃ e : Definition α, e.tree = d := by
  obtain ⟨label, tag, fs⟩ := d
  obtain rfl : tag = .defn := htag
  have hfields := fields_of_fixed h rfl
  obtain ⟨-, -, hbelow⟩ := obeys_node.mp h
  -- two children, of which the first holds a number
  cases hfields with
  | cons hf hrest =>
      cases hrest with
      | cons hg hnil =>
          cases hnil
          obtain ⟨t, rfl⟩ := child_of_sound hf
          obtain ⟨r, rfl⟩ := child_of_sound hg
          obtain rfl : t = l := Option.some.inj hl
          obtain ⟨label', tag', gs⟩ := t
          have hsound := hbelow _ List.mem_cons_self
          obtain ⟨v, rfl⟩ : ∃ v, gs = [.leaf (.int v)] := by
            have hfits := hsound.imp fun _ _ => Slot.Sound.fits
            rcases hleft with rfl | rfl <;> exact index_of_fits (fields_of_fixed hfits rfl)
          rcases hleft with rfl | rfl
          · exact ⟨⟨label, label', true, v, r⟩, rfl⟩
          · exact ⟨⟨label, label', false, v, r⟩, rfl⟩

/-- A sound unit has two formats or more, and its definitions have their parts. -/
theorem UnitOf.shape {u formats consts defs : Tree α} (h : u.UnitOf formats consts defs)
    (hs : u.Sound) : u.fields = [.child formats, .child defs] ∧
      (∃ first more, formats.fields = (first :: consts :: more).map .child) ∧
      ∃ ds : List (Definition α), defs.fields = ds.map fun d => .child d.tree := by
  obtain ⟨label, tag, fs⟩ := u
  obtain rfl : tag = .unit := h.tag_eq
  obtain ⟨-, -, hbelow⟩ := obeys_node.mp hs
  have hfields : fs = [.child formats, .child defs] := by
    have hfields := fields_of_fixed hs rfl
    cases hfields with
    | cons hf hrest =>
        cases hrest with
        | cons hg hnil =>
            cases hnil
            obtain ⟨t, rfl⟩ := child_of_sound hf
            obtain ⟨r, rfl⟩ := child_of_sound hg
            rw [show t = formats from Option.some.inj h.formats_eq,
              show r = defs from Option.some.inj h.defs_eq]
  subst hfields
  have hformats := hbelow formats (by simp)
  have hdefs := hbelow defs (by simp)
  refine ⟨rfl, ?_, ?_⟩
  · obtain ⟨label', tag', gs⟩ := formats
    obtain rfl : tag' = .dfmt := h.formats_tag
    obtain ⟨ts, rfl⟩ := fields_of_tail hformats rfl
    have hconsts := h.consts_eq
    match ts with
    | [] => cases hconsts
    | [_] => cases hconsts
    | first :: second :: more =>
        obtain rfl : second = consts := Option.some.inj hconsts
        exact ⟨first, more, rfl⟩
  · obtain ⟨label', tag', gs⟩ := defs
    obtain rfl : tag' = .ddef := h.defs_tag
    obtain ⟨ts, rfl⟩ := fields_of_tail hdefs rfl
    obtain ⟨-, -, hbelow⟩ := obeys_node.mp hdefs
    have hparts : ∀ t ∈ ts, ∃ d : Definition α, d.tree = t := by
      intro t ht
      have hmem : Field.child t ∈ ts.map Field.child := List.mem_map_of_mem ht
      obtain ⟨htag, l, hl, hleft⟩ := h.definitions t hmem
      exact definition_of_sound (hbelow t hmem) htag hl hleft
    -- a list of trees that are each a definition is the list of trees of some definitions
    obtain ⟨ds, rfl⟩ : ts ∈ Set.range (List.map (Definition.tree (α := α))) := by
      rw [Set.range_list_map]
      exact hparts
    exact ⟨ds, List.map_map⟩

theorem subtrees_map_tree (ds : List (Definition α)) :
    subtrees (ds.map fun d => .child d.tree) = ds.map Definition.tree := by
  rw [subtrees, List.filterMap_map]
  exact congrFun List.filterMap_eq_map ds

theorem exists_child?_of_mem {defs : Tree α} {ds : List (Definition α)}
    (h : defs.fields = ds.map fun d => .child d.tree) {d : Definition α} (hd : d ∈ ds) :
    ∃ i, defs.child? i = some d.tree := by
  obtain ⟨i, hi⟩ := List.mem_iff_getElem?.mp hd
  refine ⟨i, ?_⟩
  rw [child?, h, List.getElem?_map, hi]
  rfl

theorem constNumbers_eq {defs : Tree α} {ds : List (Definition α)}
    (h : defs.fields = ds.map fun d => .child d.tree) :
    defs.constNumbers = ds.filterMap Definition.number? := by
  rw [constNumbers, h, subtrees_map_tree, List.filterMap_map]
  exact List.filterMap_congr fun d _ => d.constNumber?_tree

end Tree

/-! ## In an arena -/

namespace Tree

variable {a : Arena} {t c : Tree NodeId}

theorem In.node_eq (ht : t.In a) : ∃ n, a.get? t.label = some n ∧ n.tag = t.tag ∧
    n.slots = t.fields.map Field.slot := ht.here.2.2

theorem In.tag_eq (ht : t.In a) : a.tag t.label = .ok t.tag := by
  obtain ⟨n, hg, htag, -⟩ := ht.node_eq
  rw [Arena.tag_of_get? hg, htag]

theorem In.slotCount_eq (ht : t.In a) : a.slotCount t.label = .ok t.fields.length := by
  obtain ⟨n, hg, -, hslots⟩ := ht.node_eq
  rw [Arena.slotCount, Arena.slots_of_get? hg, hslots, ← List.length_map (f := Field.slot)]
  rfl

theorem In.child_eq (ht : t.In a) {i : Nat} (hc : t.child? i = some c) :
    a.child t.label i = .ok c.label := by
  obtain ⟨n, hg, -, hslots⟩ := ht.node_eq
  obtain ⟨f, hf, hfc⟩ := Option.bind_eq_some_iff.mp hc
  have hslot : n.slots[i]? = some (.code c.label) := by
    rw [hslots, List.getElem?_map, hf]
    cases f with
    | leaf s => cases hfc
    | child u => cases hfc; rfl
  exact Arena.child_of_get? hg hslot

theorem In.of_child? (ht : t.In a) {i : Nat} (hc : t.child? i = some c) : c.In a := by
  obtain ⟨f, hf, hfc⟩ := Option.bind_eq_some_iff.mp hc
  obtain ⟨l, tag, fs⟩ := t
  cases f with
  | leaf s => cases hfc
  | child u =>
      cases hfc
      exact ht.child (List.mem_of_getElem? hf)

theorem In.int_eq (ht : t.In a) {i : Nat} {v : Int64} (hv : t.fields[i]? = some (.leaf (.int v))) :
    a.int t.label i = .ok v := by
  obtain ⟨n, hg, -, hslots⟩ := ht.node_eq
  apply Arena.int_of_get? hg
  rw [hslots, List.getElem?_map, hv]
  rfl

theorem In.children_eq (ht : t.In a) :
    a.children t.label = .ok ((subtrees t.fields).map label) := by
  obtain ⟨l, tag, fs⟩ := t
  obtain ⟨n, hg, -, -⟩ := ht.node_eq
  rw [Arena.children_of_get? hg, ht.children hg]
  rfl

end Tree

namespace Arena

variable {a : Arena} {u formats consts defs : Tree NodeId}

/-- The number of constants, which is that of the declarations in their group. -/
theorem formatSize_consts (hformats : formats.In a) (h : formats.child? 1 = some consts) :
    a.formatSize formats.label Format.consts = .ok (consts.fields.length - 1) := by
  have hconsts := hformats.of_child? h
  have hlt : 1 < formats.fields.length := by
    obtain ⟨f, hf, -⟩ := Option.bind_eq_some_iff.mp h
    exact (List.getElem?_eq_some_iff.mp hf).1
  have hformat : a.format? formats.label Format.consts = .ok (some consts.label) := by
    unfold format?
    rw [hformats.label_not_null, hformats.slotCount_eq]
    simp [Format.consts, hlt, hformats.child_eq h, present, hconsts.label_not_null, bind,
      Except.bind, pure, Except.pure]
  rw [formatSize, hformat]
  show a.groupSize consts.label = _
  rw [groupSize, hconsts.slotCount_eq]
  rfl

theorem enterConst_eq {d : Definition NodeId} (hd : d.tree.In a) (xs : List NodeId) :
    a.enterConst xs d.label = .ok (match d.number? with
      | some v => if 0 ≤ v ∧ v < xs.length then xs.set v.toNat d.right.label else xs
      | none => xs) := by
  have hleft : a.left d.label = .ok d.left.label := hd.child_eq (i := 0) rfl
  have hright : a.right d.label = .ok d.right.label := hd.child_eq (i := 1) rfl
  have hin : d.left.In a := hd.of_child? (i := 0) rfl
  have hint : a.int d.left.label 0 = .ok d.index := hin.int_eq rfl
  unfold enterConst
  rw [hleft]
  show (a.tag d.left.label >>= _) = _
  rw [hin.tag_eq]
  show (if d.left.tag = .const then _ else _ : Checked _) = _
  cases hc : d.isConst with
  | false => simp [Definition.left, Definition.number?, hc, Tree.tag, pure, Except.pure]
  | true =>
      rw [hint, hright]
      simp only [Definition.left, Definition.number?, hc, Tree.tag, if_true]
      by_cases hv : 0 ≤ d.index.toInt ∧ d.index.toInt < xs.length
      · simp [hv, bind, Except.bind, pure, Except.pure]
      · simp [hv, bind, Except.bind, pure, Except.pure]

/-- The constants among some definitions, each with the id of its value. -/
def constEntries (ds : List (Definition NodeId)) : List (Int × NodeId) :=
  ds.filterMap fun d => d.number?.map (·, d.right.label)

theorem foldlM_enterConst {ds : List (Definition NodeId)} (hds : ∀ d ∈ ds, d.tree.In a) {n : Nat}
    {es : List (Int × NodeId)} {xs : List NodeId} (hfill : Filled .null n es xs)
    (hrange : ∀ v ∈ ds.filterMap Definition.number?, 0 ≤ v ∧ v < n)
    (hnodup : (es.map Prod.fst ++ ds.filterMap Definition.number?).Nodup) :
    ∃ ys, (ds.map Definition.label).foldlM a.enterConst xs = .ok ys ∧
      Filled .null n (es ++ constEntries ds) ys := by
  induction ds generalizing es xs with
  | nil => exact ⟨xs, rfl, by rwa [constEntries, List.filterMap_nil, List.append_nil]⟩
  | cons d ds ih =>
      have hstep := enterConst_eq (hds d List.mem_cons_self) xs
      have ih := @ih fun e he => hds e (List.mem_cons_of_mem _ he)
      rw [List.map_cons, List.foldlM_cons, hstep, constEntries]
      cases hnum : d.number? with
      | none =>
          rw [List.filterMap_cons_none hnum] at hrange hnodup
          rw [List.filterMap_cons_none (by rw [hnum]; rfl)]
          exact ih hfill hrange hnodup
      | some v =>
          rw [List.filterMap_cons_some hnum] at hrange hnodup
          rw [List.filterMap_cons_some (by rw [hnum]; rfl)]
          obtain ⟨hv, hlt⟩ := hrange v List.mem_cons_self
          -- the number has not been entered, so its place is still vacant
          have hnew : v ∉ es.map Prod.fst := by
            intro hmem
            exact (List.nodup_append.mp hnodup).2.2 v hmem v List.mem_cons_self rfl
          have hfill := hfill.set hv hlt hnew d.right.label
          have hcond : 0 ≤ v ∧ v < xs.length := by
            have := hfill.length_eq
            rw [List.length_set] at this
            omega
          obtain ⟨ys, hys, hfill'⟩ := ih hfill (fun w hw => hrange w (List.mem_cons_of_mem _ hw))
            (by rwa [List.map_append, List.map_singleton, List.append_assoc])
          refine ⟨ys, ?_, by rwa [List.append_assoc] at hfill'⟩
          simp only [hcond]
          exact hys

/-- If no constant is defined twice and none is out of range, the values are those on the right of
the definitions, each in its place. -/
theorem constValues_filled (hu : u.UnitOf formats consts defs) (ht : u.In a)
    {ds : List (Definition NodeId)} (hds : defs.fields = ds.map fun d => .child d.tree)
    (hrange : ∀ v ∈ defs.constNumbers, 0 ≤ v ∧ v < (consts.fields.length - 1 : Nat))
    (hnodup : defs.constNumbers.Nodup) : ∃ xs, a.constValues u.label = .ok xs ∧
      Filled .null (consts.fields.length - 1) (constEntries ds) xs := by
  have hin : defs.In a := ht.of_child? hu.defs_eq
  have hformats : a.unitFormats u.label = .ok formats.label := ht.child_eq hu.formats_eq
  have hdefs : a.unitDefs u.label = .ok defs.label := ht.child_eq hu.defs_eq
  have hcount := formatSize_consts (ht.of_child? hu.formats_eq) hu.consts_eq
  have hchildren : a.children defs.label = .ok (ds.map Definition.label) := by
    rw [hin.children_eq, hds, Tree.subtrees_map_tree, List.map_map]
    rfl
  rw [Tree.constNumbers_eq hds] at hrange hnodup
  have hparts : ∀ d ∈ ds, d.tree.In a := by
    intro d hd
    obtain ⟨i, hi⟩ := Tree.exists_child?_of_mem hds hd
    exact hin.of_child? hi
  obtain ⟨xs, hxs, hfill⟩ := foldlM_enterConst hparts
    (Filled.nil NodeId.null (consts.fields.length - 1)) hrange hnodup
  refine ⟨xs, ?_, hfill⟩
  unfold constValues
  rw [hformats, hdefs]
  show (a.formatSize formats.label Format.consts >>= fun count =>
    a.children defs.label >>= fun ids =>
      ids.foldlM a.enterConst (List.replicate count .null)) = _
  rw [hcount, hchildren]
  exact hxs

end Arena

end Foam
