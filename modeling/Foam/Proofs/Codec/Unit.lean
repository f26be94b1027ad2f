import Foam.Proofs.Codec.Scan

/-!
# Random access to an encoded unit

The parts of a unit that are read on their own are those that decoding all of it would give: the
number of its constants, the value of each, its formats.
-/

namespace Foam

/-! ## What encoding makes of a unit -/

namespace Tree

theorem narrowed_form {α : Type} {t : Tree α} (h : t.tag ≠ .sint) :
    t.form.narrowed = node () t.tag (t.fields.map (Field.map fun c => c.form.narrowed)) := by
  obtain ⟨l, tag, fs⟩ := t
  rw [form_node, narrowed_of_not_wide (wide?_of_ne_sint h), List.map_map]
  congr 2
  funext f
  cases f <;> rfl

end Tree

namespace Definition

variable {α : Type}

/-- The definition as it is encoded. -/
def coded (d : Definition α) : Definition Unit :=
  ⟨(), (), d.isConst, d.index, d.right.form.narrowed⟩

theorem number?_coded (d : Definition α) : d.coded.number? = d.number? := rfl

theorem tree_coded (d : Definition α) : d.tree.form.narrowed = d.coded.tree := by
  have hleft : d.left.form.narrowed = d.coded.left := by
    rw [Tree.narrowed_form (by rw [left, Tree.tag]; split <;> decide)]
    rfl
  rw [Tree.narrowed_form (t := d.tree) (show Tag.defn ≠ .sint by decide)]
  show Tree.node () .defn [.child d.left.form.narrowed, .child d.right.form.narrowed] = _
  rw [hleft]
  rfl

end Definition

namespace Tree

open Codec

variable {u formats consts defs : Tree NodeId}

/-- A unit is encoded as a unit, with the same number of constants and the same definitions. -/
theorem UnitOf.narrowed (h : u.UnitOf formats consts defs) (hs : u.Sound) :
    u.form.narrowed = node () .unit [.child formats.form.narrowed, .child defs.form.narrowed] ∧
      (∃ first cfs more, formats.form.narrowed = tableForm first cfs more ∧
        cfs.length = consts.fields.length) ∧
      ∃ ds : List (Definition NodeId), defs.fields = (ds.map fun d => .child d.tree) ∧
        defs.form.narrowed = bodyForm (ds.map Definition.coded) := by
  obtain ⟨hfields, ⟨first, more, hformats⟩, ds, hdefs⟩ := h.shape hs
  have hconsts : consts.form.narrowed = node () .ddecl
      (consts.fields.map (Field.map fun c => c.form.narrowed)) := by
    rw [narrowed_form (by rw [h.consts_tag]; decide), h.consts_tag]
  refine ⟨?_, ⟨first.form.narrowed, consts.fields.map (Field.map fun c => c.form.narrowed),
    more.map fun t => t.form.narrowed, ?_, List.length_map _⟩, ds, hdefs, ?_⟩
  · rw [narrowed_form (by rw [h.tag_eq]; decide), h.tag_eq, hfields]
    rfl
  · rw [narrowed_form (by rw [h.formats_tag]; decide), h.formats_tag, hformats, tableForm,
      ← hconsts]
    simp [Field.map]
  · rw [narrowed_form (by rw [h.defs_tag]; decide), h.defs_tag, hdefs, bodyForm]
    simp [Field.map, Definition.tree_coded]

theorem Payloads.child? {P : FieldKind → Slot → Prop} {t c : Tree NodeId} (h : t.Payloads P)
    {i : Nat} (hc : t.child? i = some c) : c.Payloads P := by
  obtain ⟨f, hf, hfc⟩ := Option.bind_eq_some_iff.mp hc
  obtain ⟨l, tag, fs⟩ := t
  cases f with
  | leaf s => cases hfc
  | child u =>
      cases hfc
      exact (every_node.mp h).2 _ (List.mem_of_getElem? hf)

end Tree

namespace Codec

open Foam.Tree

/-! ## Parts -/

/-- The reader makes, in any arena with room for it, the tree that comes back from `v`. Up to
encoding that equals `v` but for the lengths of procedures, which are zero. -/
def Recovers (x : DecodeM NodeId) (b : Buffer) (a : Arena) (v : Tree NodeId) : Prop :=
  ∀ dst : Arena, dst.WellFormed → dst.Room v.form.recoded.size →
    ∃ (w : Tree NodeId) (b' : Buffer) (dst' : Arena),
      (x.run.run b).run dst = .ok ((.ok w.label, b'), dst') ∧ b'.toList = b.toList ∧
      w.form = v.form.recoded ∧ dst.Grows [w] dst' ∧
      (∀ (d : Arena) (y : Tree NodeId), d.WellFormed → y.In d → y.form = v.form.cleared →
        d.equalUpToEncoding y.label dst' w.label = .ok true) ∧
      (v.EndOffsetsZero → a.equalUpToEncoding v.label dst' w.label = .ok true)

section

variable {a : Arena} {v : Tree NodeId} {b : Buffer} {bytes : List UInt8}

theorem recovers_decode (hw : a.WellFormed) (hv : v.In a) (htable : v.InTable)
    (h : v.form.narrowed.encode .word = pure bytes) (before after : List UInt8) :
    Recovers decode (.mid before (bytes ++ after)) a v := by
  intro dst hdst hroom
  obtain ⟨w, dst', hrun, hform, hgrows⟩ :=
    decode_narrowed hw hv htable h hdst hroom before after
  have hw' : w.In dst' := hgrows.placed w List.mem_cons_self
  have hfits : v.form.Fits := v.obeys_form.mpr (hv.fits hw)
  refine ⟨w, _, dst', hrun, by simp, hform, hgrows, ?_, ?_⟩
  · intro d y hd hy hyform
    exact hy.equal_recoded hd hgrows.wellFormed hw' hfits hyform hform
  · intro hz
    exact hv.equal_recoded hw hgrows.wellFormed hw' hfits
      (cleared_of_zero hfits (v.payloads_form.mpr hz)).symm hform

/-- Where the bytes of a tree stand it is decoded. -/
theorem recovers_decodeAt (hw : a.WellFormed) (hv : v.In a) (htable : v.InTable) {pos : Nat}
    (h : Stands bytes v.form.narrowed pos) (hb : b.toList = bytes) :
    Recovers (decodeAt pos) b a v := by
  obtain ⟨before, l, after, rfl, rfl, hl⟩ := h
  have hseek := Buffer.seek_eq_mid hb
  intro dst hdst hroom
  obtain ⟨w, b', dst', hrun, hbytes, hmade⟩ :=
    recovers_decode hw hv htable hl before after dst hdst hroom
  rw [← hseek] at hrun
  exact ⟨w, b', dst', hrun, by rw [hbytes, hb, Buffer.toList_mid], hmade⟩

theorem recovers_decodeFormats {defs : Form} (hw : a.WellFormed) (hv : v.In a) (htable : v.InTable)
    (hu : (node () .unit [.child v.form.narrowed, .child defs]).Valid)
    (h : (node () .unit [.child v.form.narrowed, .child defs]).encode .word = pure bytes)
    (hb : b.toList = bytes) : Recovers decodeFormats b a v := by
  obtain ⟨head, lf, ld, hd, rfl, hlf, -, hunit⟩ := unit_bytes hu h
  have hreading : ∀ dst : Arena, reading (do modify Buffer.rewind; let _ ← expectHead .unit) b dst =
      .ok ((.ok (), .mid head (lf ++ ld)), dst) := by
    intro dst
    rw [reading_apply, GetM.bind_ok (modify_rewind hb), GetM.bind_ok hunit]
    rfl
  intro dst hdst hroom
  obtain ⟨w, b', dst', hrun, hbytes, hmade⟩ :=
    recovers_decode hw hv htable hlf head ld dst hdst hroom
  exact ⟨w, b', dst', (DecodeM.bind_ok (hreading dst)).trans hrun,
    by rw [hbytes, hb, Buffer.toList_mid], hmade⟩

/-- Every number below `n` occurs once, and no other. -/
theorem admissible_iff {n : Nat} {vs : List Int} :
    (Admissible n vs ∧ ∀ i < n, (i : Int) ∈ vs) ↔
      (∀ v ∈ vs, 0 ≤ v ∧ v < n) ∧ ∀ i < n, vs.count (i : Int) = 1 := by
  constructor
  · rintro ⟨⟨hrange, hnodup⟩, hall⟩
    exact ⟨hrange, fun i hi => List.count_eq_one_of_mem hnodup (hall i hi)⟩
  · rintro ⟨hrange, hcount⟩
    refine ⟨⟨hrange, List.nodup_iff_count_le_one.mpr ?_⟩, ?_⟩
    · intro v
      by_cases hv : v ∈ vs
      · obtain ⟨hpos, hlt⟩ := hrange v hv
        have hone := hcount v.toNat (by omega)
        rw [Int.toNat_of_nonneg hpos] at hone
        exact Nat.le_of_eq hone
      · rw [List.count_eq_zero_of_not_mem hv]
        exact Nat.zero_le 1
    · intro i hi
      apply List.count_pos_iff.mp
      rw [hcount i hi]
      exact Nat.one_pos

/-- The places that a scan has entered are those of the values of the constants. -/
theorem stands_of_filled {n : Nat} {ds : List (Definition NodeId)} {es : List (Int × Nat)}
    {offs : List Nat} {values : List NodeId}
    (hoffs : Filled none n (placed es) (offs.map some))
    (hvalues : Filled .null n (Arena.constEntries ds) values)
    (hes : ∀ e ∈ es, ∃ d ∈ ds.map Definition.coded, d.number? = some e.1 ∧ Stands bytes d.right e.2)
    (hall : ∀ i < n, (i : Int) ∈ es.map Prod.fst) (i : Nat) (hi : i < offs.length) :
    ∃ d ∈ ds, values[i]? = some d.right.label ∧ Stands bytes d.right.form.narrowed offs[i] := by
  have hlen := hoffs.length_eq
  rw [List.length_map] at hlen
  obtain ⟨e, he, hei⟩ := List.mem_map.mp (hall i (by omega))
  obtain ⟨_, hcoded, hnum, hstands⟩ := hes e he
  obtain ⟨d, hd, rfl⟩ := List.mem_map.mp hcoded
  rw [Definition.number?_coded, hei] at hnum
  have hplace : offs[i] = e.2 := by
    have hget := hoffs.get? (e.1, some e.2) (List.mem_map_of_mem he)
    rw [hei, Int.toNat_natCast, List.getElem?_map, List.getElem?_eq_getElem hi] at hget
    exact Option.some.inj (Option.some.inj hget)
  have hentry : ((i : Int), d.right.label) ∈ Arena.constEntries ds :=
    List.mem_filterMap.mpr ⟨d, hd, by rw [hnum]; rfl⟩
  refine ⟨d, hd, ?_, by rwa [hplace]⟩
  have hget := hvalues.get? _ hentry
  rwa [Int.toNat_natCast] at hget

end

/-! ## The unit -/

/-- Reading the parts of an encoded unit agrees with the unit: the number of its constants, whether
each is defined once and none out of range, the value of each at the place found for it, and the
formats. -/
theorem parts_agree_with_unit {a : Arena} {u formats consts defs : Tree NodeId} {b : Buffer}
    {bytes : List UInt8} (hw : a.WellFormed) (ht : u.In a) (htable : u.InTable)
    (hu : u.UnitOf formats consts defs) (h : encode a u.label = pure bytes)
    (hlt : bytes.length < 2 ^ 32) (hb : b.toList = bytes) :
    ∃ n, a.formatSize formats.label Format.consts = .ok n ∧
      (∃ b', constCount b = (.ok n, b') ∧ b'.toList = bytes) ∧
      ((∃ offs b', constOffsets b = (.ok offs, b')) ↔
        (∀ v ∈ defs.constNumbers, 0 ≤ v ∧ v < n) ∧ ∀ i < n, defs.constNumbers.count (i : Int) = 1) ∧
      (∀ offs b', constOffsets b = (.ok offs, b') → b'.toList = bytes ∧ offs.length = n ∧
        ∃ values, a.constValues u.label = .ok values ∧ values.length = n ∧
          ∀ (i : Nat) (hi : i < offs.length), ∃ v : Tree NodeId,
            values[i]? = some v.label ∧ v.In a ∧
            ∀ c : Buffer, c.toList = bytes → Recovers (decodeAt offs[i]) c a v) ∧
      Recovers decodeFormats b a formats := by
  have hvalid := ht.valid_narrowed hw htable
  rw [encode_eq ht] at h
  -- what has bytes lacks no child, so the unit has the shape that the readers expect
  have hsound : u.Sound :=
    u.obeys_form.mp (sound_of_encode (u.obeys_form.mpr ((ht.fits hw).valid htable)) h)
  obtain ⟨hunit, ⟨first, cfs, more, htable', hlen⟩, ds, hds, hbody⟩ := hu.narrowed hsound
  rw [hunit] at h hvalid
  have hformats : Recovers decodeFormats b a formats := recovers_decodeFormats hw
    (ht.of_child? hu.formats_eq) (htable.child? hu.formats_eq) hvalid h hb
  rw [htable', hbody] at h hvalid
  obtain ⟨b₁, hcount, hb₁⟩ := constCount_run hvalid h hlt hb
  have hscan := constOffsets_run hvalid h hlt hb
  have hnums : (ds.map Definition.coded).filterMap Definition.number? = defs.constNumbers := by
    rw [constNumbers_eq hds, List.filterMap_map]
    rfl
  rw [hlen] at hcount hscan
  have hsize := Arena.formatSize_consts (ht.of_child? hu.formats_eq) hu.consts_eq
  refine ⟨_, hsize, ⟨b₁, hcount, hb₁⟩, ?_⟩
  rw [← admissible_iff]
  rcases hrun : constOffsets b with ⟨err | offs, b₂⟩
  · rw [hrun, Locates, hnums] at hscan
    have hfails : ∀ offs b', ((.error err, b₂) : Except DecodeError (List Nat) × Buffer) ≠
        (.ok offs, b') := by
      rintro _ _ ⟨⟩
    exact ⟨⟨fun ⟨offs, b', hok⟩ => absurd hok (hfails offs b'), fun hgood => absurd hgood hscan⟩,
      fun offs b' hok => absurd hok (hfails offs b'), hformats⟩
  · rw [hrun] at hscan
    obtain ⟨hb₂, es, hoffs, hfst, hall, hes⟩ := hscan
    -- the scan and the arena's own list are filled from the same numbers
    have hgood := admissible_of_filled hoffs
    rw [hfst, hnums] at hgood
    obtain ⟨values, hvalues, hfill⟩ := Arena.constValues_filled hu ht hds hgood.1 hgood.2
    have hlen' := hoffs.length_eq
    rw [List.length_map] at hlen'
    refine ⟨⟨fun _ => ⟨hgood, ?_⟩, fun _ => ⟨offs, b₂, rfl⟩⟩, ?_, hformats⟩
    · rwa [hfst, hnums] at hall
    · rintro _ _ ⟨⟩
      refine ⟨hb₂, hlen', values, hvalues, hfill.length_eq, ?_⟩
      intro i hi
      obtain ⟨d, hd, hvalue, hstands⟩ := stands_of_filled hoffs hfill hes hall i hi
      obtain ⟨j, hj⟩ := exists_child?_of_mem hds hd
      have hin : d.tree.In a := (ht.of_child? hu.defs_eq).of_child? hj
      have hintable : d.tree.InTable := (htable.child? hu.defs_eq).child? hj
      have hright : d.tree.child? 1 = some d.right := rfl
      exact ⟨d.right, hvalue, hin.of_child? hright, fun c hc =>
        recovers_decodeAt hw (hin.of_child? hright) (hintable.child? hright) hstands hc⟩

/-- A unit of two constants, of which the second is defined first. Both have the same value. -/
theorem parts_of_two_constants :
    let a : Arena := .ofRows [some (.bare .ddecl [.int 0]),
      some (.bare .decl [.int 5, .str "f", .int (-1), .int 0]),
      some (.bare .ddecl [.int 1, .code ⟨1⟩, .code ⟨1⟩]), some (.bare .dfmt [.code ⟨0⟩, .code ⟨2⟩]),
      some (.bare .const [.int 1]), some (.bare .sint [.int 7]),
      some (.bare .defn [.code ⟨4⟩, .code ⟨5⟩]), some (.bare .const [.int 0]),
      some (.bare .defn [.code ⟨7⟩, .code ⟨5⟩]), some (.bare .ddef [.code ⟨6⟩, .code ⟨8⟩]),
      some (.bare .unit [.code ⟨3⟩, .code ⟨9⟩])] []
    let decl : Tree NodeId := .node ⟨1⟩ .decl
      [.leaf (.int 5), .leaf (.str "f"), .leaf (.int (-1)), .leaf (.int 0)]
    let consts : Tree NodeId := .node ⟨2⟩ .ddecl [.leaf (.int 1), .child decl, .child decl]
    let formats : Tree NodeId := .node ⟨3⟩ .dfmt
      [.child (.node ⟨0⟩ .ddecl [.leaf (.int 0)]), .child consts]
    let value : Tree NodeId := .node ⟨5⟩ .sint [.leaf (.int 7)]
    let defs : Tree NodeId := .node ⟨9⟩ .ddef
      [.child (.node ⟨6⟩ .defn [.child (.node ⟨4⟩ .const [.leaf (.int 1)]), .child value]),
        .child (.node ⟨8⟩ .defn [.child (.node ⟨7⟩ .const [.leaf (.int 0)]), .child value])]
    let u : Tree NodeId := .node ⟨10⟩ .unit [.child formats, .child defs]
    let bytes : List UInt8 := [39, 234, 191, 0, 113, 3, 1, 92, 5, 1, 102, 255, 255, 255, 255, 0, 92,
      5, 1, 102, 255, 255, 255, 255, 0, 233, 32, 176, 5, 0, 0, 0, 7, 32, 137, 5, 0, 0, 0, 7]
    a.WellFormed ∧ u.In a ∧ u.InTable ∧ u.UnitOf formats consts defs ∧
      encode a u.label = pure bytes ∧ bytes.length < 2 ^ 32 ∧
      ∃ offs b', constOffsets (.mid bytes []) = (.ok offs, b') ∧ b'.toList = bytes ∧
        ∃ n, offs.length = n ∧ a.formatSize formats.label Format.consts = .ok n ∧
          Recovers decodeFormats (.mid bytes []) a formats := by
  intro a decl consts formats value defs u bytes
  have hw : a.WellFormed := by decide
  have ht : u.In a := by decide
  have htable : u.InTable := by decide
  have hu : u.UnitOf formats consts defs := by
    refine ⟨rfl, rfl, rfl, rfl, rfl, rfl, rfl, ?_⟩
    intro d hd
    simp only [defs, Tree.fields, List.mem_cons, Field.child.injEq, List.not_mem_nil,
      or_false] at hd
    rcases hd with rfl | rfl <;> exact ⟨rfl, _, rfl, .inl rfl⟩
  have hbytes : encode a u.label = pure bytes := by decide +kernel
  have hlt : bytes.length < 2 ^ 32 := by decide
  obtain ⟨n, hn, -, hdefined, hoffsets, hformats⟩ :=
    parts_agree_with_unit (b := .mid bytes []) hw ht htable hu hbytes hlt (by simp)
  have htwo : n = 2 := Except.ok.inj (hn.symm.trans (by rfl))
  obtain ⟨offs, b', hok⟩ := hdefined.mpr (by rw [htwo]; decide)
  obtain ⟨hkept, hlen, -⟩ := hoffsets offs b' hok
  exact ⟨hw, ht, htable, hu, hbytes, hlt, offs, b', hok, hkept, n, hlen, hn, hformats⟩

end Codec

end Foam
