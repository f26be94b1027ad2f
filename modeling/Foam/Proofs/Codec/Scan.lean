import Foam.Codec.Unit
import Foam.Proofs.Codec.Skip
import Foam.Proofs.Unit

/-!
# Scanning an encoded unit

The readers of a unit go through its bytes in step with the encoder. The scan of the definitions
enters the place of every constant, and comes to its end exactly if no constant is out of range or
defined twice. If none is missing either, the places are where the values stand.
-/

namespace Foam

namespace Codec

/-! ## Heads of given tags -/

theorem expectHead_ok {b b' : Buffer} {head : Head} (h : getHead b = (.ok head, b')) :
    expectHead head.tag b = (.ok head, b') := by
  unfold expectHead
  rw [GetM.bind_ok h, if_pos rfl]
  rfl

/-- A buffer with the given bytes, at a given position. -/
theorem Buffer.seek_eq_mid {b : Buffer} {before after : List UInt8}
    (h : b.toList = before ++ after) : b.seek before.length = .mid before after := by
  have hbytes : b.bytes = (before ++ after).toArray := by
    rw [← h]
    simp [toList]
  apply ext hbytes
  simp [seek, mid, hbytes]

end Codec

namespace Tree

open Codec

/-- The head of a node that has children only is read back, and leaves these to be read. -/
theorem enter_children (ts : List Form) {l : Unit} {tag : Tag} {bytes : List UInt8}
    (ht : (node l tag (ts.map .child)).Valid)
    (hkinds : tag.layout.kinds ts.length = List.replicate ts.length .child)
    (h : (node l tag (ts.map .child)).encode .word = pure bytes) :
    ∃ head ls, bytes = head ++ ls.flatten ∧
      List.Forall₂ (fun t l => t.encode .word = pure l) ts ls ∧ ∀ before after, ∃ f,
        getHead (.mid before (head ++ (ls.flatten ++ after))) =
          (.ok ⟨tag, f, ts.length, before.length⟩,
            .mid (before ++ head) (ls.flatten ++ after)) := by
  obtain ⟨head, rest, rfl, hwritten, hhead⟩ := enter ht (by decide) h
  rw [List.length_map, hkinds] at hwritten
  obtain ⟨ls, hls, rfl⟩ := hwritten.children
  rw [List.length_map] at hhead
  exact ⟨head, ls, rfl, hls, fun before after => ⟨_, hhead before after⟩⟩

theorem Written.reads_index {p : Place} {v : Int64} {bytes : List UInt8}
    (h : Written p [.index] [.leaf (.int v)] bytes) : Reads p.format.get bytes v.toInt := by
  cases h with
  | leaf _ _ hown hrest =>
      cases hrest
      obtain ⟨hholds, rfl⟩ := Place.formatted_eq_pure.mp hown
      rw [List.append_nil]
      exact get_bytes hholds

end Tree

namespace Codec

open Foam.Tree

/-! ## Scanning definitions -/

/-- The bytes of the form stand at a position. -/
def Stands (bytes : List UInt8) (t : Form) (pos : Nat) : Prop :=
  ∃ before l after, bytes = before ++ (l ++ after) ∧ before.length = pos ∧ t.encode .word = pure l

/-- The left side of a definition is its tag and its number. -/
theorem left_reads {d : Definition Unit} (hd : d.left.Valid) {l : List UInt8}
    (h : d.left.encode .word = pure l) : ∃ head own f, l = head ++ own ∧
      (∀ before after, getHead (.mid before (head ++ (own ++ after))) =
        (.ok ⟨d.left.tag, f, 1, before.length⟩, .mid (before ++ head) (own ++ after))) ∧
      Reads f.get own d.index.toInt := by
  obtain ⟨head, rest, rfl, hwritten, hhead⟩ := enter hd (by decide) h
  refine ⟨head, rest, _, rfl, hhead, ?_⟩
  have hkinds : (if d.isConst then Tag.const else .glo).layout.kinds 1 = [.index] := by
    split <;> rfl
  rw [List.length_singleton, hkinds] at hwritten
  exact hwritten.reads_index

theorem enterOffset_apply (offsets : List (Option Nat)) (index : Int) (pos : Nat) (b : Buffer) :
    enterOffset offsets index pos b =
      if 0 ≤ index ∧ offsets[index.toNat]? = some none then
        (.ok (offsets.set index.toNat (some pos)), b)
      else (.error (.badConstIndex index), b) := by
  unfold enterOffset
  split <;> rfl

/-- One definition. A constant is entered with the place of its right side. -/
theorem scanDefs_step {d : Definition Unit} (hd : d.tree.Valid) {l : List UInt8}
    (h : d.tree.encode .word = pure l) (hlt : l.length < 2 ^ 32) : ∃ m r, l = m ++ r ∧
      d.right.encode .word = pure r ∧ ∀ count offsets before after,
        scanDefs (count + 1) offsets (.mid before (l ++ after)) =
          match d.number? with
          | none => scanDefs count offsets (.mid (before ++ l) after)
          | some v =>
            if 0 ≤ v ∧ offsets[v.toNat]? = some none then
              scanDefs count (offsets.set v.toNat (some (before.length + m.length)))
                (.mid (before ++ l) after)
            else (.error (.badConstIndex v), .mid (before ++ m) (r ++ after)) := by
  obtain ⟨-, -, hbelow⟩ := obeys_node.mp hd
  have hleft : d.left.Valid := hbelow _ List.mem_cons_self
  have hright : d.right.Valid := hbelow _ (List.mem_cons_of_mem _ List.mem_cons_self)
  obtain ⟨hb, ls, rfl, hls, hhead⟩ := enter_children [d.left, d.right] hd rfl h
  obtain ⟨ll, ls₁, hll, hls₁, rfl⟩ := List.forall₂_cons_left_iff.mp hls
  obtain ⟨lr, ls₂, hlr, hls₂, rfl⟩ := List.forall₂_cons_left_iff.mp hls₁
  obtain rfl := List.forall₂_nil_left_iff.mp hls₂
  obtain ⟨hl, own, f, rfl, hlhead, hindex⟩ := left_reads hleft hll
  simp only [List.flatten_cons, List.flatten_nil, List.append_nil, List.length_append] at hlt hhead
  have hskip : Reads skip lr () := skip_encode hright hlr (by omega)
  refine ⟨hb ++ (hl ++ own), lr, by simp, hlr, ?_⟩
  intro count offsets before after
  obtain ⟨g, hg⟩ := hhead before after
  -- the head of the definition, the head on its left, the number there, and what is on the right
  have h1 := expectHead_ok hg
  have h2 := hlhead (before ++ hb) (lr ++ after)
  have h3 := hindex (before ++ hb ++ hl) (lr ++ after)
  have h4 := hskip (before ++ hb ++ hl ++ own) after
  simp only [List.append_assoc] at h1 h2 h3 h4
  simp only [List.flatten_cons, List.flatten_nil, List.append_nil, List.append_assoc]
  rw [scanDefs, GetM.bind_ok h1, GetM.bind_ok h2, GetM.bind_ok h3]
  cases hc : d.isConst with
  | false =>
      have htag : d.left.tag = .glo := by simp [Definition.left, hc, Tree.tag]
      have hnum : d.number? = none := by simp [Definition.number?, hc]
      rw [htag, hnum]
      exact GetM.bind_ok h4
  | true =>
      have htag : d.left.tag = .const := by simp [Definition.left, hc, Tree.tag]
      have hnum : d.number? = some d.index.toInt := by simp [Definition.number?, hc]
      rw [htag, hnum]
      have hpos : position (.mid (before ++ (hb ++ (hl ++ own))) (lr ++ after)) =
          (.ok (before.length + (hb ++ (hl ++ own)).length),
            .mid (before ++ (hb ++ (hl ++ own))) (lr ++ after)) := by
        rw [← List.length_append]
        rfl
      have hentered := enterOffset_apply offsets d.index.toInt
        (before.length + (hb ++ (hl ++ own)).length)
        (.mid (before ++ (hb ++ (hl ++ own))) (lr ++ after))
      dsimp only
      rw [GetM.bind_ok hpos]
      by_cases hfree : 0 ≤ d.index.toInt ∧ offsets[d.index.toInt.toNat]? = some none
      · rw [if_pos hfree] at hentered ⊢
        exact (GetM.bind_ok hentered).trans (GetM.bind_ok h4)
      · rw [if_neg hfree] at hentered ⊢
        exact GetM.bind_error hentered

/-- No number is out of range, and none occurs twice. -/
def Admissible (n : Nat) (numbers : List Int) : Prop :=
  (∀ v ∈ numbers, 0 ≤ v ∧ v < n) ∧ numbers.Nodup

/-- Places by number, as a scan enters them. -/
def placed (es : List (Int × Nat)) : List (Int × Option Nat) := es.map fun e => (e.1, some e.2)

theorem fst_placed (es : List (Int × Nat)) : (placed es).map Prod.fst = es.map Prod.fst := by
  rw [placed, List.map_map]
  rfl

theorem admissible_of_filled {n : Nat} {es : List (Int × Nat)} {offsets : List (Option Nat)}
    (h : Filled none n (placed es) offsets) : Admissible n (es.map Prod.fst) := by
  refine ⟨?_, fst_placed es ▸ h.nodup⟩
  intro v hv
  obtain ⟨e, he, rfl⟩ := List.mem_map.mp hv
  exact h.range (e.1, some e.2) (List.mem_map_of_mem he)

/-- A place is free exactly if the number is in range and has not been met. -/
theorem free_iff {n : Nat} {es : List (Int × Nat)} {offsets : List (Option Nat)}
    (h : Filled none n (placed es) offsets) {v : Int} :
    (0 ≤ v ∧ offsets[v.toNat]? = some none) ↔ 0 ≤ v ∧ v < n ∧ v ∉ es.map Prod.fst := by
  constructor
  · rintro ⟨hv, hget⟩
    have hlt := (List.getElem?_eq_some_iff.mp hget).1
    rw [h.length_eq] at hlt
    refine ⟨hv, by omega, ?_⟩
    intro hmem
    obtain ⟨e, he, rfl⟩ := List.mem_map.mp hmem
    have htaken := h.get? (e.1, some e.2) (List.mem_map_of_mem he)
    rw [hget] at htaken
    cases htaken
  · rintro ⟨hv, hlt, hnew⟩
    refine ⟨hv, h.vacant v.toNat (by omega) ?_⟩
    rwa [Int.toNat_of_nonneg hv, fst_placed]

/-- The outcome of a scan of `ds` after `es` have been entered. If it comes to its end, it has
entered the constants among the definitions, each with a place where its value stands in `bytes`. If
it fails, the numbers are not admissible. -/
def Scans (bytes : List UInt8) (stop : Buffer) (n : Nat) (es : List (Int × Nat))
    (ds : List (Definition Unit)) : Except DecodeError (List (Option Nat)) × Buffer → Prop
  | (.ok offsets, b) => b = stop ∧ ∃ es', Filled none n (placed (es ++ es')) offsets ∧
      es'.map Prod.fst = ds.filterMap Definition.number? ∧
      ∀ e ∈ es', ∃ d ∈ ds, d.number? = some e.1 ∧ Stands bytes d.right e.2
  | (.error _, _) => ¬Admissible n (es.map Prod.fst ++ ds.filterMap Definition.number?)

namespace Scans

variable {bytes : List UInt8} {stop : Buffer} {n : Nat} {es : List (Int × Nat)}
  {d : Definition Unit} {ds : List (Definition Unit)}
  {outcome : Except DecodeError (List (Option Nat)) × Buffer}

theorem nil {offsets : List (Option Nat)} (h : Filled none n (placed es) offsets) :
    Scans bytes stop n es [] (.ok offsets, stop) := by
  refine ⟨rfl, [], ?_, rfl, by simp⟩
  rwa [List.append_nil]

/-- A definition of a global comes before the others. -/
theorem global (hnum : d.number? = none) (h : Scans bytes stop n es ds outcome) :
    Scans bytes stop n es (d :: ds) outcome := by
  rcases outcome with ⟨err | offsets, b⟩
  · unfold Scans at h ⊢
    rwa [List.filterMap_cons_none hnum]
  · obtain ⟨hb, es', hfill, hnums, hstands⟩ := h
    refine ⟨hb, es', hfill, ?_, ?_⟩
    · rwa [List.filterMap_cons_none hnum]
    · intro e he
      obtain ⟨d', hd', hplace⟩ := hstands e he
      exact ⟨d', List.mem_cons_of_mem _ hd', hplace⟩

/-- A definition of a constant comes before the others, and has been entered. -/
theorem const {v : Int} {pos : Nat} (hnum : d.number? = some v) (hpos : Stands bytes d.right pos)
    (h : Scans bytes stop n (es ++ [(v, pos)]) ds outcome) :
    Scans bytes stop n es (d :: ds) outcome := by
  rcases outcome with ⟨err | offsets, b⟩
  · unfold Scans at h ⊢
    rw [List.map_append, List.append_assoc] at h
    rwa [List.filterMap_cons_some hnum]
  · obtain ⟨hb, es', hfill, hnums, hstands⟩ := h
    rw [List.append_assoc] at hfill
    refine ⟨hb, (v, pos) :: es', hfill, ?_, ?_⟩
    · rw [List.map_cons, hnums, List.filterMap_cons_some hnum]
    · intro e he
      rcases List.mem_cons.mp he with rfl | he
      · exact ⟨d, List.mem_cons_self, hnum, hpos⟩
      · obtain ⟨d', hd', hplace⟩ := hstands e he
        exact ⟨d', List.mem_cons_of_mem _ hd', hplace⟩

end Scans

/-- A scan comes to its end, or fails on a number that is not admissible. -/
theorem scanDefs_run {n : Nat} {ds : List (Definition Unit)} {ls : List (List UInt8)}
    (hls : List.Forall₂ (fun d l => d.tree.encode .word = pure l) ds ls)
    (hds : ∀ d ∈ ds, d.tree.Valid) (hlt : ls.flatten.length < 2 ^ 32) {es : List (Int × Nat)}
    {offsets : List (Option Nat)} (hfill : Filled none n (placed es) offsets)
    (before after : List UInt8) :
    Scans (before ++ (ls.flatten ++ after)) (.mid (before ++ ls.flatten) after) n es ds
      (scanDefs ds.length offsets (.mid before (ls.flatten ++ after))) := by
  induction hls generalizing es offsets before with
  | nil =>
      rw [List.flatten_nil, List.append_nil]
      exact .nil hfill
  | @cons d l ds ls hdl _ ih =>
      rw [List.flatten_cons, List.length_append] at hlt
      obtain ⟨m, r, rfl, hr, hstep⟩ := scanDefs_step (hds d List.mem_cons_self) hdl (by omega)
      have hstep := hstep ds.length offsets before (ls.flatten ++ after)
      have ih := fun {es : List (Int × Nat)} {offsets : List (Option Nat)} h =>
        @ih (fun e he => hds e (List.mem_cons_of_mem _ he)) (by omega) es offsets h
          (before ++ (m ++ r))
      simp only [List.append_assoc] at hstep ih
      simp only [List.flatten_cons, List.append_assoc, List.length_cons]
      rw [hstep]
      cases hnum : d.number? with
      | none => exact .global hnum (ih hfill)
      | some v =>
          dsimp only
          by_cases hfree : 0 ≤ v ∧ offsets[v.toNat]? = some none
          · rw [if_pos hfree]
            obtain ⟨hv, hn, hnew⟩ := (free_iff hfill).mp hfree
            have hpos : Stands (before ++ (m ++ (r ++ (ls.flatten ++ after)))) d.right
                (before.length + m.length) :=
              ⟨before ++ m, r, ls.flatten ++ after, by simp, List.length_append, hr⟩
            have hset := hfill.set hv hn (by rwa [fst_placed]) (some (before.length + m.length))
            refine .const hnum hpos (ih ?_)
            rwa [placed, List.map_append]
          · rw [if_neg hfree]
            -- the number is out of range, or among those entered before
            rintro ⟨hrange, hnodup⟩
            rw [List.filterMap_cons_some hnum] at hrange hnodup
            refine hfree ((free_iff hfill).mpr ?_)
            obtain ⟨hv, hn⟩ := hrange v (by simp)
            refine ⟨hv, hn, ?_⟩
            intro hmem
            exact (List.nodup_append.mp hnodup).2.2 v hmem v List.mem_cons_self rfl

/-! ## The parts of the bytes -/

section

variable {formats defs first : Form} {more : List Form} {cfs : List (Field Form)}
  {ds : List (Definition Unit)} {bytes : List UInt8} {b : Buffer}

theorem unit_bytes (hu : (node () .unit [.child formats, .child defs]).Valid)
    (h : (node () .unit [.child formats, .child defs]).encode .word = pure bytes) :
    ∃ hb lf ld head, bytes = hb ++ (lf ++ ld) ∧ formats.encode .word = pure lf ∧
      defs.encode .word = pure ld ∧
      expectHead .unit (.mid [] bytes) = (.ok head, .mid hb (lf ++ ld)) := by
  obtain ⟨hb, ls, rfl, hls, hhead⟩ := enter_children [formats, defs] hu rfl h
  obtain ⟨lf, ls₁, hlf, hls₁, rfl⟩ := List.forall₂_cons_left_iff.mp hls
  obtain ⟨ld, ls₂, hld, hls₂, rfl⟩ := List.forall₂_cons_left_iff.mp hls₁
  obtain rfl := List.forall₂_nil_left_iff.mp hls₂
  obtain ⟨f, hf⟩ := hhead [] []
  have hread := expectHead_ok hf
  simp only [List.flatten_cons, List.flatten_nil, List.append_nil, List.nil_append] at hread ⊢
  exact ⟨hb, lf, ld, _, rfl, hlf, hld, hread⟩

theorem modify_rewind (hb : b.toList = bytes) :
    (modify Buffer.rewind : GetM Unit) b = (.ok (), .mid [] bytes) := by
  have hseek : b.rewind = .mid [] bytes := Buffer.seek_eq_mid (show b.toList = [] ++ bytes from hb)
  show (_, b.rewind) = _
  rw [hseek]

theorem skips_of_encode {t : Form} (ht : t.Valid) {l : List UInt8} (h : t.encode .word = pure l)
    (hlt : l.length < 2 ^ 32) (before after : List UInt8) :
    skip (.mid before (l ++ after)) = (.ok (), .mid (before ++ l) after) :=
  skip_encode ht h hlt before after

/-- A format table with a group of declarations in second place, whose fields are given. -/
def tableForm (first : Form) (cfs : List (Field Form)) (more : List Form) : Form :=
  node () .dfmt ((first :: node () .ddecl cfs :: more).map .child)

def bodyForm (ds : List (Definition Unit)) : Form := node () .ddef (ds.map fun d => .child d.tree)

theorem constCount_run
    (hu : (node () .unit [.child (tableForm first cfs more), .child defs]).Valid)
    (h : (node () .unit [.child (tableForm first cfs more), .child defs]).encode .word = pure bytes)
    (hlt : bytes.length < 2 ^ 32) (hb : b.toList = bytes) :
    ∃ b', constCount b = (.ok (cfs.length - 1), b') ∧ b'.toList = bytes := by
  obtain ⟨-, -, hbelow⟩ := obeys_node.mp hu
  have htable : (tableForm first cfs more).Valid := hbelow _ List.mem_cons_self
  obtain ⟨-, -, hbelow⟩ := obeys_node.mp htable
  have hfirst : first.Valid := hbelow _ (by simp)
  have hconsts : (node () .ddecl cfs).Valid := hbelow _ (by simp)
  obtain ⟨hb₁, lf, ld, head, rfl, hlf, -, hunit⟩ := unit_bytes hu h
  obtain ⟨hb₂, ls, rfl, hls, hdfmt⟩ :=
    enter_children _ htable (Layout.kinds_children rfl _) hlf
  obtain ⟨l₁, ls₁, hl₁, hls₁, rfl⟩ := List.forall₂_cons_left_iff.mp hls
  obtain ⟨lc, ls₂, hlc, -, rfl⟩ := List.forall₂_cons_left_iff.mp hls₁
  obtain ⟨hb₃, rc, rfl, -, hddecl⟩ := enter hconsts (by decide) hlc
  obtain ⟨f, hf⟩ := hdfmt hb₁ ld
  have hformats := expectHead_ok hf
  -- the bytes are cut into the heads of unit, table and group, the format between, and the rest
  simp only [List.flatten_cons, List.length_append] at hlt
  have hskip := skips_of_encode hfirst hl₁ (by omega) (hb₁ ++ hb₂)
    (hb₃ ++ rc ++ ls₂.flatten ++ ld)
  have hgroup := expectHead_ok (hddecl (hb₁ ++ hb₂ ++ l₁) (ls₂.flatten ++ ld))
  simp only [List.flatten_cons, List.append_assoc] at hunit hformats hskip hgroup ⊢
  refine ⟨.mid (hb₁ ++ (hb₂ ++ (l₁ ++ hb₃))) (rc ++ (ls₂.flatten ++ ld)), ?_, by simp⟩
  have hrewind := modify_rewind hb
  simp only [List.flatten_cons, List.append_assoc] at hrewind
  unfold constCount
  rw [GetM.bind_ok hrewind, GetM.bind_ok hunit, GetM.bind_ok hformats, if_neg (by simp)]
  exact (GetM.bind_ok hskip).trans (GetM.bind_ok hgroup)

/-! ## Places of the constants -/

theorem map_some_filterMap {β : Type} {xs : List (Option β)} (h : ∀ x ∈ xs, x.isSome = true) :
    (xs.filterMap id).map some = xs := by
  induction xs with
  | nil => rfl
  | cons x xs ih =>
      obtain ⟨y, rfl⟩ := Option.isSome_iff_exists.mp (h x List.mem_cons_self)
      rw [List.filterMap_cons_some (by rfl), List.map_cons,
        ih fun z hz => h z (List.mem_cons_of_mem _ hz)]

/-- All places are entered exactly if every number occurs. -/
theorem complete_iff {n : Nat} {es : List (Int × Nat)} {offsets : List (Option Nat)}
    (h : Filled none n (placed es) offsets) :
    (offsets.filterMap id).length = n ↔ ∀ i < n, (i : Int) ∈ es.map Prod.fst := by
  rw [List.length_filterMap_eq_countP, ← h.length_eq, List.countP_eq_length, h.length_eq]
  constructor
  · intro hall i hi
    by_contra hout
    have hnone := h.vacant i hi (by rwa [fst_placed])
    have := hall none (List.mem_of_getElem? hnone)
    cases this
  · intro hall x hx
    obtain ⟨i, hi⟩ := List.mem_iff_getElem?.mp hx
    have hlt := (List.getElem?_eq_some_iff.mp hi).1
    rw [h.length_eq] at hlt
    obtain ⟨e, he, hei⟩ := List.mem_map.mp (hall i hlt)
    have hget := h.get? (e.1, some e.2) (List.mem_map_of_mem he)
    rw [hei, Int.toNat_natCast, hi] at hget
    rw [Option.some.inj hget]
    rfl

/-- The outcome of looking for the constants among `ds`, whose values stand in `bytes`: a place for
each, or an error if not each is defined once and within range. -/
def Locates (bytes : List UInt8) (n : Nat) (ds : List (Definition Unit)) :
    Except DecodeError (List Nat) × Buffer → Prop
  | (.ok offs, b) => b.toList = bytes ∧ ∃ es, Filled none n (placed es) (offs.map some) ∧
      es.map Prod.fst = ds.filterMap Definition.number? ∧
      (∀ i < n, (i : Int) ∈ es.map Prod.fst) ∧
      ∀ e ∈ es, ∃ d ∈ ds, d.number? = some e.1 ∧ Stands bytes d.right e.2
  | (.error _, _) => ¬(Admissible n (ds.filterMap Definition.number?) ∧
      ∀ i < n, (i : Int) ∈ ds.filterMap Definition.number?)

/-- After a scan it remains to see whether a constant is missing. -/
theorem Scans.locates {n : Nat} {stop : Buffer} {x : GetM (List (Option Nat))}
    (h : Scans bytes stop n [] ds (x b)) (hstop : stop.toList = bytes) :
    Locates bytes n ds ((x >>= fun offsets =>
      if (offsets.filterMap id).length = n then pure (offsets.filterMap id)
      else throw (.constCountMismatch n (offsets.filterMap id).length) : GetM _) b) := by
  rcases hx : x b with ⟨err | offsets, b'⟩
  · rw [hx] at h
    rw [GetM.bind_error hx]
    rintro ⟨hgood, -⟩
    exact h hgood
  · rw [hx] at h
    rw [GetM.bind_ok hx]
    obtain ⟨rfl, es, hfill, hnums, hstands⟩ := h
    rw [List.nil_append] at hfill
    have hcomplete := complete_iff hfill
    by_cases hdefined : (offsets.filterMap id).length = n
    · rw [if_pos hdefined]
      have hsome : (offsets.filterMap id).map some = offsets := by
        apply map_some_filterMap
        intro x hx
        rw [List.length_filterMap_eq_countP, ← hfill.length_eq, List.countP_eq_length] at hdefined
        exact hdefined x hx
      exact ⟨hstop, es, by rwa [hsome], hnums, hcomplete.mp hdefined, hstands⟩
    · rw [if_neg hdefined]
      rintro ⟨-, hall⟩
      rw [← hnums] at hall
      exact hdefined (hcomplete.mpr hall)

theorem constOffsets_run
    (hu : (node () .unit [.child (tableForm first cfs more), .child (bodyForm ds)]).Valid)
    (h : (node () .unit [.child (tableForm first cfs more), .child (bodyForm ds)]).encode .word =
      pure bytes)
    (hlt : bytes.length < 2 ^ 32) (hb : b.toList = bytes) :
    Locates bytes (cfs.length - 1) ds (constOffsets b) := by
  obtain ⟨b₁, hcount, hb₁⟩ := constCount_run hu h hlt hb
  obtain ⟨-, -, hbelow⟩ := obeys_node.mp hu
  have htable : (tableForm first cfs more).Valid := hbelow _ List.mem_cons_self
  have hbody : (bodyForm ds).Valid := hbelow _ (List.mem_cons_of_mem _ List.mem_cons_self)
  obtain ⟨-, -, hbelow⟩ := obeys_node.mp hbody
  have hds : ∀ d ∈ ds, d.tree.Valid := by
    intro d hd
    exact hbelow _ (List.mem_map_of_mem hd)
  obtain ⟨hu₁, lf, ld, head, rfl, hlf, hld, hunit⟩ := unit_bytes hu h
  have hbody' : bodyForm ds = node () .ddef ((ds.map Definition.tree).map .child) := by
    rw [List.map_map]
    rfl
  rw [hbody'] at hbody hld
  obtain ⟨hd₁, ls, rfl, hls, hddef⟩ :=
    enter_children _ hbody (Layout.kinds_children rfl _) hld
  rw [List.forall₂_map_left_iff] at hls
  simp only [List.length_append] at hlt
  have hskip := skips_of_encode htable hlf (by omega) hu₁ (hd₁ ++ ls.flatten)
  obtain ⟨f, hf⟩ := hddef (hu₁ ++ lf) []
  have hdefs := expectHead_ok hf
  simp only [List.append_nil, List.length_map] at hdefs
  have hrewind := modify_rewind hb₁
  have hempty : Filled none (cfs.length - 1) (placed []) _ := Filled.nil none (cfs.length - 1)
  have hscan := scanDefs_run hls hds (by omega) hempty (hu₁ ++ lf ++ hd₁) []
  simp only [List.append_nil] at hscan
  unfold constOffsets
  rw [GetM.bind_ok hcount, GetM.bind_ok hrewind, GetM.bind_ok hunit, GetM.bind_ok hskip,
    GetM.bind_ok hdefs]
  simpa using hscan.locates (by simp)

end

end Codec

end Foam
