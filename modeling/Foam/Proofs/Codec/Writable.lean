import Foam.Proofs.Codec.RoundTrip

/-!
# What is read can be written

Reading takes more than the encoder writes: any format that holds the integers of a node, places of
bignums that do not count, any length of a procedure. Whatever has been read has an encoding all the
same. Each payload fits the bytes that its kind has, and the integers of a node fit four bytes, so
the format that the encoder selects for them holds them all. No literal is wide and no length is
kept, so the encoding is that of the form itself.
-/

namespace Foam

namespace Codec

theorem Consumes.and {α : Type} {x : GetM α} {P Q : α → Nat → Prop} (h : Consumes x P)
    (h' : Consumes x Q) : Consumes x fun v k => P v k ∧ Q v k := by
  intro b v b' hx
  obtain ⟨hbytes, k, hpos, hP⟩ := h b v b' hx
  obtain ⟨-, k', hpos', hQ⟩ := h' b v b' hx
  obtain rfl : k = k' := by omega
  exact ⟨hbytes, k, hpos, hP, hQ⟩

/-! ## Formats -/

theorem IntFormat.fits_of_holds {f : IntFormat} {v : Int} (h : f.holds v = true) :
    Word.fitsSigned 4 v = true := by
  cases f with
  | word => exact h
  | byte =>
      rw [holds, Word.fitsUnsigned_iff] at h
      rw [Word.fitsSigned_iff]
      omega
  | immediate k =>
      obtain rfl : v = k.val := by simpa [holds] using h
      rw [Word.fitsSigned_iff]
      have := k.isLt
      omega

/-- The format for some values holds those of them that four bytes can. -/
theorem IntFormat.ofValues_holds_iff {vs : List Int} {v : Int} (hv : v ∈ vs) :
    (ofValues vs).holds v = true ↔ Word.fitsSigned 4 v = true := by
  refine ⟨fits_of_holds, fun h => ?_⟩
  unfold ofValues
  split
  · cases hv
  · rw [List.mem_singleton.mp hv]
    rfl
  · rw [List.mem_singleton.mp hv]
    rfl
  · rw [List.mem_singleton.mp hv]
    rfl
  · split
    · next hall => exact List.all_eq_true.mp hall v hv
    · exact h

theorem IntFormat.ofNode_holds_iff {n : Node} {v : Int} (hv : v ∈ compressibles n) :
    (ofNode n).holds v = true ↔ Word.fitsSigned 4 v = true := by
  unfold ofNode
  split
  · exact ofValues_holds_iff hv
  · exact Iff.rfl

/-! ## Numbers -/

theorem Word.ofBytes_lt (bytes : List UInt8) : Word.ofBytes bytes < 256 ^ bytes.length := by
  induction bytes using List.reverseRecOn with
  | nil => decide
  | append_singleton bytes b ih =>
      rw [Word.ofBytes_append_singleton, List.length_append, List.length_singleton, Nat.pow_succ]
      have := b.toNat_lt
      omega

theorem Word.signed_fits {width n : Nat} (hw : 0 < width) (hn : n < 256 ^ width) :
    Word.fitsSigned width (Word.signed width n) = true := by
  have hhalf : 256 ^ width = 2 * 2 ^ (8 * width - 1) := by
    rw [← Nat.pow_succ', show 256 = 2 ^ 8 from rfl, ← Nat.pow_mul]
    congr 1
    omega
  have hcast : ((2 ^ (8 * width - 1) : Nat) : Int) = 2 ^ (8 * width - 1) := by norm_cast
  have hfull : (2 : Int) ^ (8 * width) = 2 * 2 ^ (8 * width - 1) := by
    rw [← Int.pow_succ']
    congr 1
    omega
  rw [Word.fitsSigned_iff, Word.signed_eq]
  split
  · omega
  · omega

theorem getUnsigned_lt (width : Nat) :
    Consumes (getUnsigned width) fun n _ => n < 256 ^ width := by
  refine (take_consumes width).bind fun bytes _ h => .pure ?_
  rw [← h.1]
  exact Word.ofBytes_lt bytes

theorem getSigned_fits {width : Nat} (hw : 0 < width) :
    Consumes (getSigned width) fun v _ => Word.fitsSigned width v = true :=
  (getUnsigned_lt width).bind fun _ _ hn => .pure (Word.signed_fits hw hn)

theorem get_holds (f : IntFormat) : Consumes f.get fun v _ => f.holds v = true := by
  cases f with
  | word => exact getSigned_fits (by decide)
  | byte =>
      refine (getUnsigned_lt 1).bind fun n _ hn => .pure ?_
      rw [IntFormat.holds, Word.fitsUnsigned_iff]
      omega
  | immediate k => exact .pure (beq_self_eq_true _)

/-- A number that has been read fits the slot that it is kept in. -/
theorem toInt_ofInt_of_fits {v : Int} (h : Word.fitsSigned 4 v = true) :
    (Int64.ofInt v).toInt = v := by
  rw [Word.fitsSigned_iff] at h
  exact Int64.toInt_ofInt_of_le (by omega) (by omega)

/-! ## Payloads -/

/-- What reading leaves of a payload: no literal word is wide, and no length is kept. -/
def Normal (kind : FieldKind) (s : Slot) : Prop :=
  (kind = .word → ∀ v, s = .int v → Literal.isNarrow v = true) ∧ (kind = .treeLength → s = .int 0)

/-- The payload has bytes wherever the labels have the given format and the format of the node holds
its integer, and that takes four bytes at most. -/
structure Writable (labels : IntFormat) (kind : FieldKind) (s : Slot) : Prop where
  leaf : kind ≠ .treeLength → ∀ p : Place, p.labels = labels →
    (∀ v, compressible? (kind, s) = some v → p.format.holds v = true) → ∃ own, p.leaf kind s = pure own
  fits : ∀ v, compressible? (kind, s) = some v → Word.fitsSigned 4 v = true
  normal : Normal kind s

theorem Place.ranged_of_fits {p : Place} {kind : FieldKind} {v : Int} {fits : Bool}
    {bytes : List UInt8} (h : fits = true) : ∃ own, p.ranged kind v fits bytes = pure own :=
  ⟨bytes, ranged_eq_pure.mpr ⟨h, rfl⟩⟩

/-- An integer is writable if its kind alone bounds it. -/
theorem writable_int {labels : IntFormat} {kind : FieldKind} {v : Int64}
    (hleaf : ∀ p : Place, p.labels = labels → ∃ own, p.int kind v.toInt = pure own)
    (hindex : kind ≠ .index) (hword : kind = .word → Literal.isNarrow v = true)
    (hlength : kind ≠ .treeLength) : Writable labels kind (.int v) where
  leaf _ p hp _ := hleaf p hp
  fits w hw := by
    cases kind <;> first | exact absurd rfl hindex | cases hw
  normal := ⟨fun hk w hw => Slot.int.inj hw ▸ hword hk, fun hk => absurd hk hlength⟩

theorem fitsUnsigned_of_lt {width n : Nat} (h : n < 256 ^ width) (hw : width ≤ 2) :
    Word.fitsUnsigned width (Int64.ofNat n).toInt = true := by
  have hpow : 256 ^ width ≤ 256 ^ 2 := Nat.pow_le_pow_right (by decide) hw
  rw [Int64.toInt_ofNat_of_lt (by omega), Word.fitsUnsigned_iff]
  refine ⟨Int.natCast_nonneg n, ?_⟩
  rw [Int.pow_mul]
  exact_mod_cast h

theorem getOrdinal_writable {α : Type} [Table α] {sort : NameSort} {width : Nat} {tag : Tag}
    {i : Nat} {labels : IntFormat} {kind : FieldKind} (hw : width ≤ 2)
    (hleaf : ∀ v : Int64, Word.fitsUnsigned width v.toInt = true → ∀ p : Place,
      ∃ own, p.int kind v.toInt = pure own)
    (hkind : kind ≠ .index ∧ kind ≠ .word ∧ kind ≠ .treeLength) :
    Consumes (getOrdinal α sort width tag i) fun s _ => Writable labels kind s :=
  (getUnsigned_lt width).bind fun _ _ hn => .ite
    (fun _ => .pure (writable_int (fun p _ => hleaf _ (fitsUnsigned_of_lt hn hw) p) hkind.1
      (fun h => absurd h hkind.2.1) hkind.2.2))
    fun _ => .throw _

theorem getLength_holds (f : IntFormat) :
    Consumes (getLength f) fun n _ => f.holds n = true := by
  refine Consumes.position.bind fun _ _ _ => (get_holds f).bind fun v _ hv =>
    .ite (fun _ => .throw _) fun hneg => .pure ?_
  rwa [Int.toNat_of_nonneg (by omega)]

/-- A string is as long as the bytes that it is read from. -/
theorem utf8ByteSize_of_fromUTF8? {bytes : List UInt8} {s : String}
    (h : String.fromUTF8? ⟨bytes.toArray⟩ = some s) : s.utf8ByteSize = bytes.length := by
  unfold String.fromUTF8? at h
  split at h
  · cases h
    rfl
  · cases h

theorem getString_holds (f : IntFormat) :
    Consumes (getString f) fun s _ => f.holds s.utf8ByteSize = true := by
  refine (getLength_holds f).bind fun n _ hn => Consumes.position.bind fun _ _ _ =>
    (take_consumes n).bind fun bytes _ hbytes => ?_
  cases hs : String.fromUTF8? ⟨bytes.toArray⟩ with
  | none => exact .throw _
  | some s =>
      refine .pure ?_
      rwa [utf8ByteSize_of_fromUTF8? hs, hbytes.1]

theorem length_dropHigh_le (ps : List UInt16) : (Bignum.dropHigh ps).length ≤ ps.length := by
  induction ps with
  | nil => exact Nat.le_refl _
  | cons p ps ih =>
      rw [Bignum.dropHigh]
      split
      · split <;> simp
      · next q qs h =>
          rw [h] at ih
          exact Nat.succ_le_succ ih

theorem length_mapM_consumes {γ α : Type} {g : γ → GetM α} (h : ∀ c, Consumes (g c) fun _ _ => True)
    (cs : List γ) : Consumes (cs.mapM g) fun vs _ => vs.length = cs.length := by
  induction cs with
  | nil => exact .pure rfl
  | cons c cs ih =>
      rw [List.mapM_cons]
      exact (h c).bind fun _ _ _ => ih.bind fun _ _ hvs => .pure (congrArg (· + 1) hvs)

/-- Dropping places leaves no more of them than there were. -/
theorem getBignum_fits (f : IntFormat) :
    Consumes (getBignum f) fun b _ => Word.fitsSigned 4 b.places.length = true := by
  refine (getUnsigned_consumes 1).bind fun _ _ _ => (getLength_holds f).bind fun n _ hn =>
    Consumes.get.bind fun _ _ _ => .guarded fun _ => ?_
  refine (length_mapM_consumes (fun _ => ?_) _).bind fun places _ hplaces => .pure ?_
  · exact (getUnsigned_consumes 2).bind fun _ _ _ => .pure trivial
  · have hn := Word.fitsSigned_iff.mp (IntFormat.fits_of_holds hn)
    have hle : (Bignum.dropHigh places).length ≤ n := by
      have := length_dropHigh_le places
      rwa [hplaces, List.length_replicate] at this
    show Word.fitsSigned 4 (Bignum.dropHigh places).length = true
    rw [Word.fitsSigned_iff]
    omega

theorem getScalar_writable (head : Head) (labels : IntFormat) (i : Nat) (kind : FieldKind)
    (hk : kind ≠ .child) : Consumes (getScalar head labels i kind) fun s _ =>
      Writable labels kind s := by
  cases kind with
  | child => exact absurd rfl hk
  | arb => exact .throw _
  | typeTag | protocol | declUsage | builtin =>
      exact getOrdinal_writable (by decide) (fun _ h _ => Place.ranged_of_fits h) (by decide)
  | byte =>
      refine (getUnsigned_lt 1).bind fun n _ hn => .pure ?_
      exact writable_int (fun _ _ => Place.ranged_of_fits (fitsUnsigned_of_lt hn (by decide)))
        (by decide) nofun (by decide)
  | halfWord =>
      refine (getSigned_fits (by decide)).bind fun v _ hv => .pure ?_
      have hint : (Int64.ofInt v).toInt = v := by
        rw [Word.fitsSigned_iff] at hv
        exact Int64.toInt_ofInt_of_le (by omega) (by omega)
      exact writable_int (fun _ _ => Place.ranged_of_fits (hint.symm ▸ hv)) (by decide) nofun
        (by decide)
  | word | labelFormat =>
      refine (getSigned_fits (by decide)).bind fun v _ hv => .pure ?_
      have hint := toInt_ofInt_of_fits hv
      refine writable_int (fun _ _ => Place.ranged_of_fits (hint.symm ▸ hv)) (by decide)
        (fun _ => ?_) (by decide)
      rw [Literal.isNarrow_iff, hint]
      exact Word.fitsSigned_iff.mp hv
  | treeLength =>
      exact (getUnsigned_lt 4).bind fun _ _ _ =>
        .pure ⟨fun h => absurd rfl h, nofun, nofun, fun _ => rfl⟩
  | label =>
      refine (get_holds labels).bind fun v _ hv => .pure ?_
      refine writable_int (fun p hp => Place.ranged_of_fits ?_) (by decide) nofun (by decide)
      rw [toInt_ofInt_of_fits (IntFormat.fits_of_holds hv), hp]
      exact hv
  | index =>
      refine (get_holds head.format).bind fun v _ hv => .pure ⟨?_, ?_, nofun, nofun⟩
      · exact fun _ p _ hholds => Place.ranged_of_fits (hholds _ rfl)
      · rintro _ ⟨⟩
        rw [toInt_ofInt_of_fits (IntFormat.fits_of_holds hv)]
        exact IntFormat.fits_of_holds hv
  | str =>
      refine (getString_holds head.format).bind fun s _ hs => .pure ⟨?_, ?_, nofun, nofun⟩
      · intro _ p _ hholds
        obtain ⟨own, hown⟩ := Place.ranged_of_fits (p := p) (hholds _ rfl)
        exact ⟨_, EncodeM.bind_of_eq hown⟩
      · rintro _ ⟨⟩
        exact IntFormat.fits_of_holds hs
  | sflo =>
      exact (getUnsigned_lt 4).bind fun _ _ _ =>
        .pure ⟨fun _ _ _ _ => ⟨_, rfl⟩, nofun, nofun, nofun⟩
  | dflo =>
      exact (getUnsigned_lt 8).bind fun _ _ _ =>
        .pure ⟨fun _ _ _ _ => ⟨_, rfl⟩, nofun, nofun, nofun⟩
  | bint =>
      refine (getBignum_fits head.format).bind fun b _ hb => .pure ⟨?_, ?_, nofun, nofun⟩
      · intro _ p _ hholds
        obtain ⟨own, hown⟩ := Place.ranged_of_fits (p := p) (hholds _ rfl)
        exact ⟨_, EncodeM.bind_of_eq hown⟩
      · rintro _ ⟨⟩
        exact hb

/-! ## Heads -/

theorem getCount_holds (tag : Tag) (f : IntFormat) :
    Consumes (getCount tag f) fun n _ => f.holds n = true := by
  refine (get_holds f).bind fun n _ hn => .guarded fun hleast => Consumes.get.bind fun b _ _ =>
    .guarded fun _ => .pure ?_
  rwa [Int.toNat_of_nonneg (by omega)]

/-- The count of a node is one that its format holds. -/
theorem getHead_holds : Consumes getHead fun head _ =>
    head.tag.isVariadic = true → head.format.holds head.count = true := by
  refine Consumes.position.bind fun pos _ _ => (getUnsigned_consumes 1).bind fun n _ _ => ?_
  dsimp only
  cases splitByte? (UInt8.ofNat n) with
  | none => exact .throw _
  | some p =>
      refine .ite (fun _ => ?_) fun hv => ?_
      · exact (getCount_holds p.1 p.2).bind fun _ _ hcount => .pure fun _ => hcount
      · exact .bind (.pure (P := fun _ _ => True) trivial) fun _ _ _ => .pure fun h => absurd h hv

theorem getHead_fits : Consumes getHead fun head _ =>
    head.tag.isVariadic = true → Word.fitsSigned 4 head.count = true :=
  getHead_holds.mono fun _ _ h hv => IntFormat.fits_of_holds (h hv)

/-- A node has a head if its format holds its count. -/
theorem headBytes_of_holds {n : Node} (h : n.tag.isVariadic = true →
    (IntFormat.ofNode n).holds n.slots.length = true) : ∃ head, headBytes n = pure head := by
  by_cases hv : n.tag.isVariadic = true
  · exact ⟨_, headBytes_eq_pure.mpr ⟨_, rfl, by rw [if_pos hv]; exact ⟨h hv, rfl⟩⟩⟩
  · exact ⟨_, headBytes_eq_pure.mpr ⟨[], rfl, by rw [if_neg hv]⟩⟩

end Codec

/-! ## Forms -/

namespace Tree

open Codec

/-- The integers in the fields that are stored in the format of the node. -/
def stored {τ : Type} (kinds : List FieldKind) (fs : List (Field τ)) : List Int :=
  (kinds.zip (fs.map Field.blank)).filterMap compressible?

theorem mem_stored_leaf {τ : Type} {kind : FieldKind} {kinds : List FieldKind} {s : Slot}
    {fs : List (Field τ)} {v : Int} : v ∈ stored (kind :: kinds) (.leaf s :: fs) ↔
      compressible? (kind, s) = some v ∨ v ∈ stored kinds fs := by
  simp [stored, Field.blank, List.mem_filterMap, List.mem_cons, or_and_right, exists_or]

/-- The integers that a node stores in its format are its slot count and those in its fields. -/
theorem mem_compressibles_bare {τ : Type} {tag : Tag} {fs : List (Field τ)} {v : Int} :
    v ∈ compressibles (.bare tag (fs.map Field.blank)) ↔
      (tag.isVariadic = true ∧ v = fs.length) ∨ v ∈ stored (tag.layout.kinds fs.length) fs := by
  rw [compressibles, Node.fields, Node.bare, List.length_map, List.mem_append]
  refine or_congr ?_ Iff.rfl
  split
  · next hv => simp [hv]
  · next hv => simp [hv]

/-- The form has bytes under the label format, and what reading leaves of payloads. -/
structure Writable (labels : IntFormat) (t : Tree Extent) : Prop where
  encode : ∃ bytes, t.form.encode labels = pure bytes
  normal : t.Obeys Normal

/-- The same for one field, of the given kind. -/
def WritableField (labels : IntFormat) (kind : FieldKind) : Field (Tree Extent) → Prop
  | .leaf s => Codec.Writable labels kind s
  | .child t => kind = .child ∧ t.Writable labels

/-- The fields have bytes wherever the labels have the given format and the format of the node holds
its integers, and that takes four bytes at most. -/
structure WritableAll (labels : IntFormat) (kinds : List FieldKind) (fs : List (Field (Tree Extent))) :
    Prop where
  encode : ∀ p : Place, p.labels = labels → (∀ v ∈ stored kinds fs, p.format.holds v = true) →
    ∃ bytes, encodeAll p kinds (fs.map (Field.map form)) = pure bytes
  fits : ∀ v ∈ stored kinds fs, Word.fitsSigned 4 v = true
  normal : List.Forall₂ (Field.Obeys Normal) kinds fs
  below : ∀ t, .child t ∈ fs → t.Obeys Normal

theorem WritableAll.nil (labels : IntFormat) : WritableAll labels [] [] where
  encode _ _ _ := ⟨[], rfl⟩
  fits _ h := absurd h List.not_mem_nil
  normal := .nil
  below _ h := absurd h List.not_mem_nil

theorem WritableAll.child {labels : IntFormat} {kinds : List FieldKind} {t : Tree Extent}
    {fs : List (Field (Tree Extent))} (h : WritableAll labels kinds fs) (ht : t.Writable labels) :
    WritableAll labels (.child :: kinds) (.child t :: fs) where
  encode p hp hholds := by
    obtain ⟨bytes, hbytes⟩ := ht.encode
    obtain ⟨rest, hrest⟩ := h.encode (p.after .child (.code .null)) hp hholds
    refine ⟨bytes ++ rest, ?_⟩
    rw [List.map_cons, Field.map, encodeAll, hp, EncodeM.bind_of_eq hbytes, EncodeM.bind_of_eq hrest]
  fits := h.fits
  normal := .cons rfl h.normal
  below u hu := by
    rcases List.mem_cons.mp hu with hu | hu
    · cases hu
      exact ht.normal
    · exact h.below u hu

theorem WritableAll.leaf {labels : IntFormat} {kind : FieldKind} {kinds : List FieldKind} {s : Slot}
    {fs : List (Field (Tree Extent))} (h : WritableAll (labelsAfterSlot labels kind s) kinds fs)
    (hs : Codec.Writable labels kind s) :
    WritableAll labels (kind :: kinds) (.leaf s :: fs) where
  encode p hp hholds := by
    obtain ⟨rest, hrest⟩ := h.encode (p.after kind s) (by rw [← hp, labelsAfterSlot_eq]; rfl)
      fun v hv => hholds v (mem_stored_leaf.mpr (.inr hv))
    rw [List.map_cons, Field.map, encodeAll, hrest]
    by_cases hk : kind = .treeLength
    · subst hk
      rw [hs.normal.2 rfl]
      exact ⟨_, rfl⟩
    · obtain ⟨own, hown⟩ := hs.leaf hk p hp fun v hv =>
        hholds v (mem_stored_leaf.mpr (.inl hv))
      rw [hown]
      refine ⟨own ++ rest, ?_⟩
      cases kind <;> first | rfl | exact absurd rfl hk
  fits v hv := by
    rcases mem_stored_leaf.mp hv with hv | hv
    · exact hs.fits v hv
    · exact h.fits v hv
  normal := .cons hs.normal h.normal
  below u hu := h.below u (by simpa using hu)

/-- A node has bytes if its fields do and its count takes four at most. -/
theorem WritableAll.node {labels : IntFormat} {e : Extent} {tag : Tag}
    {fs : List (Field (Tree Extent))} (haccepts : tag.layout.accepts fs.length = true)
    (hcount : tag.isVariadic = true → Word.fitsSigned 4 fs.length = true)
    (h : WritableAll labels (tag.layout.kinds fs.length) fs) :
    (node e tag fs).Writable labels where
  encode := by
    have hblank : (fs.map (Field.map form)).map Field.blank = fs.map Field.blank := by
      rw [List.map_map, Field.blank_comp_map]
    have hholds : ∀ v ∈ compressibles (.bare tag (fs.map Field.blank)),
        (IntFormat.ofNode (.bare tag (fs.map Field.blank))).holds v = true := by
      intro v hv
      rw [IntFormat.ofNode_holds_iff hv]
      rcases mem_compressibles_bare.mp hv with ⟨hvar, rfl⟩ | hv
      · exact hcount hvar
      · exact h.fits v hv
    obtain ⟨rest, hrest⟩ := h.encode (.first (.bare tag (fs.map Field.blank)) labels) rfl
      fun v hv => hholds v (mem_compressibles_bare.mpr (.inr hv))
    obtain ⟨head, hhead⟩ := headBytes_of_holds (n := .bare tag (fs.map Field.blank)) fun hv =>
      hholds _ (mem_compressibles_bare.mpr (.inl ⟨hv, congrArg _ (List.length_map ..)⟩))
    refine ⟨head ++ rest, ?_⟩
    rw [form_node, encode_node, hblank, EncodeM.bind_of_eq hhead, List.length_map,
      EncodeM.bind_of_eq hrest]
  normal := obeys_node.mpr ⟨haccepts, h.normal, h.below⟩

end Tree

/-! ## Readers -/

namespace Codec

variable {child : IntFormat → GetM (Tree Extent)} {head : Head}

theorem readField_writable
    (hchild : ∀ labels, Consumes (child labels) fun t _ => t.Writable labels) (labels : IntFormat)
    (i : Nat) (kind : FieldKind) : Consumes (readField child head labels i kind) fun f _ =>
      Tree.WritableField labels kind f :=
  .ite (fun hk => (hchild labels).bind fun _ _ ht => .pure ⟨hk, ht⟩)
    fun hk => (getScalar_writable head labels i kind hk).bind fun _ _ hs => .pure hs

theorem readFields_writable
    (hchild : ∀ labels, Consumes (child labels) fun t _ => t.Writable labels) (labels : IntFormat)
    (i : Nat) (kinds : List FieldKind) : Consumes (readFields child head labels i kinds) fun fs _ =>
      Tree.WritableAll labels kinds fs := by
  induction kinds generalizing labels i with
  | nil => exact .pure (.nil labels)
  | cons kind kinds ih =>
      refine (readField_writable hchild labels i kind).bind fun f _ hf =>
        (ih _ _).bind fun fs _ hfs => .pure ?_
      cases f with
      | leaf s => exact hfs.leaf hf
      | child t =>
          obtain ⟨rfl, ht⟩ := hf
          exact hfs.child ht

/-- Whatever has been read has an encoding under the label format that it was read under. -/
theorem readFrom_writable (fuel : Nat) (labels : IntFormat) :
    Consumes (readFrom fuel labels) fun t _ => t.Writable labels := by
  induction fuel generalizing labels with
  | zero => exact Consumes.get.bind fun _ _ _ => .throw _
  | succ fuel ih =>
      refine (getHead_consumes.and getHead_fits).bind fun head _ hhead => Consumes.position.bind
        fun _ _ _ => (readFields_writable ih labels 0 _).bind fun fs n hfs =>
          Consumes.position.bind fun _ _ _ => .pure ?_
      obtain ⟨⟨-, haccepts⟩, hcount⟩ := hhead
      have hlen : fs.length = head.count := by
        rw [← hfs.normal.length_eq, Layout.length_kinds haccepts]
      rw [← hlen] at haccepts hcount hfs
      exact hfs.node haccepts hcount

theorem read_writable : Consumes read fun t _ => t.Writable .word :=
  Consumes.get.bind fun _ _ _ => readFrom_writable _ _

end Codec

end Foam
