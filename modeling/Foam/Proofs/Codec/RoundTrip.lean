import Foam.Proofs.Codec.Decode
import Foam.Proofs.Codec.TreeBytes

/-!
# Round trips

What has been written is read back, wherever it stands, as the form that was written: wide literals
as their expressions, and the lengths of procedures as zero. Decoding then makes a tree of that
form.
-/

namespace Foam

/-- The payload as it is read back, which drops a length. -/
def Slot.cleared (kind : FieldKind) (s : Slot) : Slot := if kind = .treeLength then .int 0 else s

theorem Codec.IntFormat.length_bytes (f : IntFormat) (v : Int) : (f.bytes v).length = f.width := by
  cases f with
  | immediate k => rfl
  | _ => exact Word.length_ofInt ..

namespace Tree

open Codec

/-! ## Lengths cleared -/

mutual
/-- The form with the lengths of procedures set to zero. -/
def cleared : Form → Form
  | node l tag fs => node l tag (clearedAll (tag.layout.kinds fs.length) fs)
def clearedAll : List FieldKind → List (Field Form) → List (Field Form)
  | kind :: kinds, .leaf s :: fs => .leaf (s.cleared kind) :: clearedAll kinds fs
  | _ :: kinds, .child t :: fs => .child t.cleared :: clearedAll kinds fs
  | _, fs => fs
end

theorem cleared_node {l : Unit} {tag : Tag} {fs : List (Field Form)} :
    (node l tag fs).cleared = node l tag (clearedAll (tag.layout.kinds fs.length) fs) := by
  rw [cleared]

theorem clearedAll_eq_self {kinds : List FieldKind} {fs : List (Field Form)}
    (hf : List.Forall₂ (Field.Obeys fun k s => k = .treeLength → s = .int 0) kinds fs)
    (ih : ∀ t, .child t ∈ fs → t.cleared = t) : clearedAll kinds fs = fs := by
  induction hf with
  | nil => rfl
  | @cons kind f kinds fs hkf _ ihf =>
      have ihf := ihf fun t ht => ih t (List.mem_cons_of_mem _ ht)
      cases f with
      | leaf s =>
          have hs : s.cleared kind = s := by
            unfold Slot.cleared
            split
            · next hk => exact (hkf hk).symm
            · rfl
          rw [clearedAll, hs, ihf]
      | child t => rw [clearedAll, ih t List.mem_cons_self, ihf]

theorem cleared_eq_self {t : Form}
    (h : t.Obeys fun k s => k = .treeLength → s = .int 0) : t.cleared = t := by
  induction t using induct with
  | node l tag fs ih =>
      obtain ⟨-, hfields, hbelow⟩ := obeys_node.mp h
      rw [cleared_node, clearedAll_eq_self hfields fun t ht => ih t ht (hbelow t ht)]

theorem sizeAll_cleared {kinds : List FieldKind} {fs : List (Field Form)}
    (ih : ∀ t, .child t ∈ fs → t.cleared.size = t.size) :
    sizeAll (clearedAll kinds fs) = sizeAll fs := by
  induction fs generalizing kinds with
  | nil => cases kinds <;> simp [clearedAll]
  | cons f fs ihf =>
      cases kinds with
      | nil => simp [clearedAll]
      | cons kind kinds =>
          have ihf := @ihf kinds fun t ht => ih t (List.mem_cons_of_mem _ ht)
          cases f with
          | leaf s => simpa [clearedAll, sizeAll] using ihf
          | child t => rw [clearedAll, sizeAll, sizeAll, ihf, ih t List.mem_cons_self]

theorem size_cleared (t : Form) : t.cleared.size = t.size := by
  induction t using induct with
  | node l tag fs ih => rw [cleared_node, size, size, sizeAll_cleared ih]

/-! ## Every slot of a tail takes a byte -/

theorem encode_length_pos {t : Form} {labels : IntFormat} {bytes : List UInt8}
    (h : t.encode labels = pure bytes) : 1 ≤ bytes.length := by
  obtain ⟨l, tag, fs⟩ := t
  obtain ⟨head, rest, hhead, -, rfl⟩ := encode_eq_pure h
  obtain ⟨count, rfl, -⟩ := headBytes_eq_pure.mp hhead
  rw [List.cons_append, List.length_cons]
  exact Nat.le_add_left ..

theorem width_after {p : Place} (h : 1 ≤ p.labels.width) (kind : FieldKind) (s : Slot) :
    1 ≤ (p.after kind s).labels.width := by
  change 1 ≤ (labelsAfter p.labels (kind, s)).width
  unfold labelsAfter
  split
  · unfold IntFormat.ofLabelCount
    split <;> decide
  · exact h

theorem PayloadBytes.length_le {p : Place} {kind : FieldKind} {s : Slot} {own : List UInt8}
    (hs : s.fits kind = true) (hlabels : 1 ≤ p.labels.width) (h : PayloadBytes p kind s own) :
    leastBytes p.format .byte kind ≤ own.length := by
  by_cases hk : kind = .treeLength
  · subst hk
    have hfour : own.length = 4 := h
    rw [hfour]
    exact Nat.le_add_left 1 3
  · have hown : p.slot _ kind s = pure own := (if_neg hk).mp h
    cases s with
    | int v =>
        change p.int kind v.toInt = pure own at hown
        cases kind with
        | typeTag | protocol | declUsage | byte | builtin | halfWord | word | labelFormat =>
            obtain ⟨-, rfl⟩ := Place.ranged_eq_pure.mp hown
            rw [Word.length_ofInt]
            exact Nat.le_add_left 1 _
        | label =>
            obtain ⟨-, rfl⟩ := Place.formatted_eq_pure.mp hown
            rw [IntFormat.length_bytes]
            exact hlabels
        | index =>
            obtain ⟨-, rfl⟩ := Place.formatted_eq_pure.mp hown
            exact Nat.le_of_eq (IntFormat.length_bytes _ _).symm
        | treeLength => exact absurd rfl hk
        | _ => cases hs
    | str s =>
        obtain rfl : kind = .str := by simpa [Slot.fits] using hs
        obtain ⟨n, hn, hown⟩ := EncodeM.bind_eq_pure.mp hown
        obtain ⟨-, rfl⟩ := Place.formatted_eq_pure.mp hn
        obtain rfl := EncodeM.pure_inj hown
        rw [List.length_append, IntFormat.length_bytes]
        exact Nat.le_add_right ..
    | sflo b =>
        obtain rfl : kind = .sflo := by simpa [Slot.fits] using hs
        obtain rfl := EncodeM.pure_inj hown
        rw [Word.length_toBytes]
        exact Nat.le_add_left 1 3
    | dflo b =>
        obtain rfl : kind = .dflo := by simpa [Slot.fits] using hs
        obtain rfl := EncodeM.pure_inj hown
        rw [Word.length_toBytes]
        exact Nat.le_add_left 1 7
    | bint b =>
        obtain rfl : kind = .bint := by simpa [Slot.fits] using hs
        obtain ⟨n, -, hown⟩ := EncodeM.bind_eq_pure.mp hown
        obtain rfl := EncodeM.pure_inj hown
        rw [List.length_append, List.length_append, Word.length_toBytes, Nat.add_assoc]
        exact Nat.le_add_right ..
    | code c =>
        obtain rfl : kind = .child := by simpa [Slot.fits] using hs
        exact absurd hown EncodeM.throw_ne_pure
    | arb v => exact absurd hown EncodeM.throw_ne_pure

theorem encodeAll_length_le {p : Place} {kinds : List FieldKind} {fs : List (Field Form)}
    {bytes : List UInt8} (hfits : List.Forall₂ (Field.Obeys fun k s => s.fits k = true) kinds fs)
    (h : encodeAll p kinds fs = pure bytes) (hlabels : 1 ≤ p.labels.width) :
    (kinds.map (leastBytes p.format .byte)).sum ≤ bytes.length := by
  induction hfits generalizing p bytes with
  | nil => exact Nat.zero_le _
  | @cons kind f kinds fs hf _ ih =>
      cases f with
      | leaf s =>
          obtain ⟨own, rest, hown, hrest, rfl⟩ := encodeAll_leaf hf h
          have ih := ih hrest (width_after hlabels _ _)
          rw [List.map_cons, List.sum_cons, List.length_append]
          exact Nat.add_le_add (hown.length_le hf hlabels) ih
      | child t =>
          obtain rfl : kind = .child := hf
          obtain ⟨own, rest, hown, hrest, rfl⟩ := encodeAll_child h
          have ih := ih hrest (width_after hlabels _ _)
          rw [List.map_cons, List.sum_cons, List.length_append]
          exact Nat.add_le_add (encode_length_pos hown) ih

theorem tail_kind {tag : Tag} {k : FieldKind} (h : tag.layout.tail = some k) :
    k = .index ∨ ∀ f : IntFormat, leastBytes f .byte k = 1 := by
  cases tag <;> cases h <;> first | exact .inl rfl | exact .inr fun _ => rfl

theorem width_ofValues (x y : Int) (vs : List Int) :
    1 ≤ (IntFormat.ofValues (x :: y :: vs)).width := by
  unfold IntFormat.ofValues
  split
  case h_5 => split <;> decide
  all_goals next h => simp at h

/-- A variadic node with an index among its fields has two integers to store, which the tag byte
cannot take. -/
theorem width_ofNode {n : Node} (hv : n.tag.isVariadic = true) {v : Int64}
    (hmem : (.index, .int v) ∈ n.fields) : 1 ≤ (IntFormat.ofNode n).width := by
  unfold IntFormat.ofNode
  split
  · have hne : n.fields.filterMap compressible? ≠ [] :=
      List.ne_nil_of_mem (List.mem_filterMap.mpr ⟨_, hmem, rfl⟩)
    obtain ⟨x, xs, hxs⟩ := List.exists_cons_of_ne_nil hne
    rw [compressibles, if_pos hv, hxs]
    exact width_ofValues ..
  · decide

/-- Every slot of a tail that is not empty takes a byte: an index has a format of its own there, and
all other kinds do so anyway. -/
theorem leastBytes_tail {tag : Tag} {fs : List (Field Form)} {k : FieldKind} {m : Nat}
    (htail : tag.layout.tail = some k) (hm : fs.length = tag.layout.minSlots + (m + 1))
    (hfits : List.Forall₂ (Field.Obeys fun k s => s.fits k = true) (tag.layout.kinds fs.length)
      fs) :
    1 ≤ leastBytes (IntFormat.ofNode (.bare tag (fs.map Field.blank))) .byte k := by
  rcases tail_kind htail with rfl | hk
  · rw [hm, Layout.kinds_of_tail htail] at hfits
    obtain ⟨f, hmem, hf⟩ := Field.exists_of_kind (k := .index) hfits (by simp)
    have hv : tag.layout.isVariadic = true := by
      rw [Layout.isVariadic, htail]
      rfl
    cases f with
    | child t => cases hf
    | leaf s =>
        cases s with
        | int v =>
            apply width_ofNode (n := .bare tag (fs.map Field.blank)) (v := v) hv
            rw [Node.fields, Node.bare, List.length_map, hm, Layout.kinds_of_tail htail,
              List.zip_map_right]
            exact List.mem_map.mpr ⟨_, hmem, rfl⟩
        | _ => cases hf
  · exact Nat.le_of_eq (hk _).symm

/-- As many bytes follow the head as the count of the node asks for. -/
theorem count_le {tag : Tag} {fs : List (Field Form)} {labels : IntFormat} {bytes : List UInt8}
    (haccepts : tag.layout.accepts fs.length = true)
    (hfits : List.Forall₂ (Field.Obeys fun k s => s.fits k = true) (tag.layout.kinds fs.length) fs)
    (h : encodeAll (.first (.bare tag (fs.map Field.blank)) labels) (tag.layout.kinds fs.length)
      fs = pure bytes) (hlabels : 1 ≤ labels.width) :
    fs.length ≤ tag.layout.minSlots + bytes.length := by
  cases htail : tag.layout.tail with
  | none =>
      have hlen : fs.length = tag.layout.minSlots := by
        simpa [Layout.accepts, Layout.isVariadic, htail] using haccepts
      omega
  | some k =>
      have hv : tag.layout.isVariadic = true := by rw [Layout.isVariadic, htail]; rfl
      have hle : tag.layout.minSlots ≤ fs.length := by
        simpa [Layout.accepts, hv] using haccepts
      obtain ⟨m, hm⟩ := Nat.exists_eq_add_of_le hle
      cases m with
      | zero => omega
      | succ m =>
          have hleast := leastBytes_tail htail hm hfits
          have hlength := encodeAll_length_le hfits h hlabels
          rw [hm, Layout.kinds_of_tail htail, List.map_append, List.sum_append, List.map_replicate,
            List.sum_replicate_nat] at hlength
          have := Nat.mul_le_mul_left (m + 1) hleast
          rw [hm]
          change _ + (m + 1) * leastBytes (IntFormat.ofNode (.bare tag (fs.map Field.blank)))
            .byte k ≤ _ at hlength
          omega

/-- The head of a node that has been written is read back. -/
theorem head_read {l : Unit} {tag : Tag} {fs : List (Field Form)} {labels : IntFormat}
    {bytes : List UInt8} (ht : (node l tag fs).Fits) (hlabels : 1 ≤ labels.width)
    (h : (node l tag fs).encode labels = pure bytes) : ∃ head rest, bytes = head ++ rest ∧
      headBytes (.bare tag (fs.map Field.blank)) = pure head ∧
      encodeAll (.first (.bare tag (fs.map Field.blank)) labels) (tag.layout.kinds fs.length) fs =
        pure rest ∧
      ∀ before after, getHead (.mid before (head ++ (rest ++ after))) =
        (.ok ⟨tag, .ofNode (.bare tag (fs.map Field.blank)), fs.length, before.length⟩,
          .mid (before ++ head) (rest ++ after)) := by
  obtain ⟨haccepts, hfits, -⟩ := obeys_node.mp ht
  obtain ⟨head, rest, hhead, hrest, rfl⟩ := encode_eq_pure h
  have hcount := count_le haccepts hfits hrest hlabels
  have hlen : (Node.bare tag (fs.map Field.blank)).slots.length = fs.length := List.length_map ..
  refine ⟨head, rest, rfl, hhead, hrest, ?_⟩
  intro before after
  rw [getHead_headBytes (by rw [hlen]; exact haccepts) hhead before ?_, hlen]
  · rfl
  · change _ ≤ tag.layout.minSlots + (rest ++ after).length
    rw [hlen, List.length_append]
    omega

/-- The head of a node that has been written is read back, and leaves the fields to be read. -/
theorem enter {l : Unit} {tag : Tag} {fs : List (Field Form)} {labels : IntFormat}
    {bytes : List UInt8} (ht : (node l tag fs).Valid) (hlabels : 1 ≤ labels.width)
    (h : (node l tag fs).encode labels = pure bytes) : ∃ head rest, bytes = head ++ rest ∧
      Written (.first (.bare tag (fs.map Field.blank)) labels) (tag.layout.kinds fs.length) fs
        rest ∧
      ∀ before after, getHead (.mid before (head ++ (rest ++ after))) =
        (.ok ⟨tag, .ofNode (.bare tag (fs.map Field.blank)), fs.length, before.length⟩,
          .mid (before ++ head) (rest ++ after)) := by
  obtain ⟨-, hvalid, -⟩ := obeys_node.mp ht
  obtain ⟨head, rest, hbytes, -, hrest, hhead⟩ := head_read (ht.imp fun _ _ => And.left) hlabels h
  exact ⟨head, rest, hbytes, written_of_encodeAll hvalid hrest, hhead⟩

/-! ## Reading back what was written -/

theorem labelsAfterSlot_eq (labels : IntFormat) (kind : FieldKind) (s : Slot) :
    labelsAfterSlot labels kind s = labelsAfter labels (kind, s) := by
  cases kind <;> cases s <;> rfl

/-- The number that stands at a position, in four bytes. -/
def wordAt (bytes : List UInt8) (pos : Nat) : Nat := Word.ofBytes ((bytes.drop pos).take 4)

/-- Every procedure begins with a number, which is the distance from there to its end. -/
def LengthsHold (bytes : List UInt8) (s : Tree Extent) : Prop :=
  s.Every fun u => u.tag = .prog → u.label.start + wordAt bytes u.label.start = u.label.stop

/-- Reading takes the bytes `l` and gives a tree of the form. Lengths that four bytes can hold are
right. -/
def Gives (x : GetM (Tree Extent)) (l : List UInt8) (f : Form) : Prop :=
  Yields x l fun all s => s.form = f ∧ (l.length < 2 ^ 32 → LengthsHold all s)

/-- The same for fields of a node. -/
def GivesFields (x : GetM (List (Field (Tree Extent)))) (l : List UInt8) (fs : List (Field Form)) :
    Prop :=
  Yields x l fun all gs => gs.map (Field.map form) = fs ∧
    (l.length < 2 ^ 32 → ∀ s, .child s ∈ gs → LengthsHold all s)

section

variable {child : IntFormat → GetM (Tree Extent)} {head : Head} {labels : IntFormat} {i : Nat}
  {kind : FieldKind} {kinds : List FieldKind} {fs : List (Field Form)} {own rest : List UInt8}

theorem GivesFields.cons {f : Field Form}
    (hfield : Yields (readField child head labels i kind) own fun all g => g.map form = f ∧
      (own.length < 2 ^ 32 → ∀ s, g = .child s → LengthsHold all s))
    (hrest : GivesFields (readFields child head (labelsAfterSlot labels kind f.blank) (i + 1) kinds)
      rest fs) :
    GivesFields (readFields child head labels i (kind :: kinds)) (own ++ rest) (f :: fs) := by
  refine hfield.bind fun g ⟨_, hg, _⟩ => ?_
  rw [← Field.blank_map form g, hg]
  refine Yields.map hrest fun all gs ⟨hforms, hlengths⟩ ⟨_, hlength⟩ => ⟨?_, ?_⟩
  · rw [List.map_cons, hg, hforms]
  · intro hlt s hs
    rw [List.length_append] at hlt
    rcases List.mem_cons.mp hs with hs | hs
    · exact hlength (by omega) s hs.symm
    · exact hlengths (by omega) s hs

/-- A payload that is read is no child, so it holds no procedures. -/
theorem GivesFields.leaf {s : Slot}
    (hfield : Reads (readField child head labels i kind) own (.leaf s))
    (hrest : GivesFields (readFields child head (labelsAfterSlot labels kind s) (i + 1) kinds)
      rest fs) :
    GivesFields (readFields child head labels i (kind :: kinds)) (own ++ rest) (.leaf s :: fs) := by
  refine .cons (.of_reads hfield fun all => ⟨rfl, ?_⟩) hrest
  intro _ u hu
  cases hu

end

/-- The fields of a node are read back if its children are. -/
theorem Written.gives (child : IntFormat → GetM (Tree Extent)) (head : Head) {p : Place}
    {kinds : List FieldKind} {fs : List (Field Form)} {bytes : List UInt8}
    (h : Written p kinds fs bytes) (hformat : head.format = p.format)
    (hlabels : 1 ≤ p.labels.width)
    (hchild : ∀ t, .child t ∈ fs → ∀ labels l, 1 ≤ labels.width → t.encode labels = pure l →
      Gives (child labels) l t.cleared) (i : Nat) :
    GivesFields (readFields child head p.labels i kinds) bytes (clearedAll kinds fs) := by
  induction h generalizing i with
  | nil p => exact .of_reads (.pure _) fun _ => ⟨rfl, fun _ s hs => absurd hs List.not_mem_nil⟩
  | @leaf p kind kinds s fs own rest hk hs hown _ ih =>
      have hfield : Reads (readField child head p.labels i kind) own (.leaf s) := by
        unfold readField
        rw [if_neg hs.1]
        exact (getScalar_slot i hformat hk hs hown).map
      have hcleared : s.cleared kind = s := if_neg hk
      have ih := ih hformat (width_after hlabels kind s)
        (fun t ht => hchild t (List.mem_cons_of_mem _ ht)) (i + 1)
      rw [clearedAll, hcleared]
      refine .leaf hfield ?_
      rw [labelsAfterSlot_eq]
      exact ih
  | @treeLength p kinds v fs rest _ ih =>
      have hfield : Reads (readField child head p.labels i .treeLength)
          (Word.ofInt 4 (rest.length + 4)) (.leaf (.int 0)) :=
        (getScalar_treeLength head p.labels i (Word.length_ofInt ..)).map
      exact .leaf hfield (ih hformat (width_after hlabels _ _)
        (fun t ht => hchild t (List.mem_cons_of_mem _ ht)) (i + 1))
  | @child p kinds t fs bytes rest hbytes _ ih =>
      have hgives := hchild t List.mem_cons_self p.labels bytes hlabels hbytes
      refine .cons (f := .child t.cleared) (hgives.map fun all s ⟨hform, hlengths⟩ =>
        ⟨congrArg Field.child hform, ?_⟩)
        (ih hformat (width_after hlabels _ _)
          (fun t ht => hchild t (List.mem_cons_of_mem _ ht)) (i + 1))
      intro hlt u hu
      cases hu
      exact hlengths hlt

/-- A procedure begins with the number of its bytes. -/
theorem Written.prog_bytes {n : Nat} {p : Place} {fs : List (Field Form)} {bytes : List UInt8}
    (haccepts : Tag.prog.layout.accepts n = true)
    (h : Written p (Tag.prog.layout.kinds n) fs bytes) :
    ∃ rest, bytes = Word.ofInt 4 bytes.length ++ rest := by
  have hv : Tag.prog.layout.isVariadic = true := rfl
  rw [Layout.accepts, if_pos hv, decide_eq_true_eq] at haccepts
  obtain ⟨m, rfl⟩ := Nat.exists_eq_add_of_le haccepts
  rw [Layout.kinds_of_tail (show Tag.prog.layout.tail = some .child from rfl)] at h
  cases h with
  | leaf hk => exact absurd rfl hk
  | @treeLength _ _ v fs rest _ =>
      refine ⟨rest, ?_⟩
      rw [List.length_append, Word.length_ofInt, Nat.add_comm 4]
      rfl

theorem wordAt_ofInt {n : Nat} (h : n < 2 ^ 32) (before after : List UInt8) :
    wordAt (before ++ (Word.ofInt 4 n ++ after)) before.length = n := by
  have hfour : (Word.ofInt 4 n).length = 4 := Word.length_ofInt ..
  rw [wordAt, List.drop_left, List.take_left' hfour, Word.ofBytes_ofInt_length h]

/-- The bytes of a form are read back as that form with lengths cleared. -/
theorem readFrom_encode {t : Form} (ht : t.Valid) {labels : IntFormat} (hlabels : 1 ≤ labels.width)
    {bytes : List UInt8} (h : t.encode labels = pure bytes) {fuel : Nat} (hfuel : t.height ≤ fuel) :
    Gives (readFrom fuel labels) bytes t.cleared := by
  induction t using induct generalizing labels bytes fuel with
  | node l tag fs ih =>
      obtain ⟨haccepts, -, hbelow⟩ := obeys_node.mp ht
      obtain ⟨head, rest, rfl, hwritten, hhead⟩ := enter ht hlabels h
      obtain ⟨d, rfl⟩ : ∃ d, fuel = d + 1 :=
        Nat.exists_eq_add_one_of_ne_zero (Nat.ne_of_gt (Nat.lt_of_lt_of_le (height_pos _) hfuel))
      intro before after
      obtain ⟨gs, hgs, hforms, hlengths⟩ := hwritten.gives (readFrom d)
        ⟨tag, .ofNode (.bare tag (fs.map Field.blank)), fs.length, before.length⟩ rfl
        hlabels (fun t ht labels m hlabels hm => ih t ht (hbelow t ht) hlabels hm (by
          have := height_lt l tag ht
          omega)) 0 (before ++ head) after
      refine ⟨.node ⟨(before ++ head).length, (before ++ head ++ rest).length⟩ tag gs, ?_, ?_, ?_⟩
      · rw [List.append_assoc head, ← List.append_assoc before, readFrom,
          GetM.bind_ok (hhead before after)]
        exact GetM.bind_ok hgs
      · rw [form_node, hforms, cleared_node]
      · intro hlt
        rw [List.length_append] at hlt
        rw [← List.append_assoc before]
        refine .node ?_ (hlengths (by omega))
        intro htag
        obtain rfl : tag = .prog := htag
        obtain ⟨m, hm⟩ := hwritten.prog_bytes haccepts
        have hall : before ++ head ++ rest ++ after =
            (before ++ head) ++ (Word.ofInt 4 rest.length ++ (m ++ after)) := by
          rw [List.append_assoc (before ++ head), ← List.append_assoc (Word.ofInt 4 _), ← hm]
        rw [Tree.label, hall, wordAt_ofInt (by omega), ← List.length_append]

/-- Every node has taken a byte. -/
theorem size_le_encode {t : Form} (ht : t.Valid) {bytes : List UInt8}
    (h : t.encode .word = pure bytes) : t.size ≤ bytes.length := by
  obtain ⟨s, hs, hform, -⟩ := readFrom_encode ht (by decide) h (Nat.le_refl _) [] []
  obtain ⟨-, k, hpos, hsize, -⟩ := readFrom_consumes _ _ _ _ _ hs
  rw [List.nil_append, Buffer.pos_mid, Buffer.pos_mid, List.length_nil, Nat.zero_add] at hpos
  rwa [← size_cleared, ← hform, size_form, hpos]

theorem read_encode {t : Form} (ht : t.Valid) {bytes : List UInt8}
    (h : t.encode .word = pure bytes) : Gives read bytes t.cleared := by
  refine .get fun b hb => readFrom_encode ht (by decide) h ?_
  have := height_le_size t
  have := size_le_encode ht h
  omega

/-! ## The form that comes back -/

/-- The form that comes back from the bytes of a form. -/
def recoded (t : Form) : Form := t.narrowed.cleared

theorem cleared_of_zero {t : Form} (h : t.Fits) (hz : t.EndOffsetsZero) : t.cleared = t :=
  cleared_eq_self ((h.obeys hz).imp fun _ _ => And.right)

theorem map_narrowed_clearedAll {kinds : List FieldKind} {fs : List (Field Form)}
    (ih : ∀ t, .child t ∈ fs → t.cleared.narrowed = t.narrowed.cleared) :
    (clearedAll kinds fs).map (Field.map narrowed) =
      clearedAll kinds (fs.map (Field.map narrowed)) := by
  induction fs generalizing kinds with
  | nil => cases kinds <;> rfl
  | cons f fs ihf =>
      cases kinds with
      | nil => cases f <;> rfl
      | cons kind kinds =>
          have ihf := @ihf kinds fun t ht => ih t (List.mem_cons_of_mem _ ht)
          cases f with
          | leaf s => simp [clearedAll, Field.map, ihf]
          | child t => simp [clearedAll, Field.map, ihf, ih t List.mem_cons_self]

/-- Lengths and literals are changed independently of each other. -/
theorem narrowed_cleared {t : Form} (h : t.Fits) : t.cleared.narrowed = t.narrowed.cleared := by
  induction t using induct with
  | node l tag fs ih =>
      obtain ⟨-, -, hbelow⟩ := obeys_node.mp h
      by_cases htag : tag = .sint
      · subst htag
        obtain ⟨v, rfl⟩ := Fits.sint h
        -- neither a literal nor the expression for it has a length
        have hplain : (node l .sint [.leaf (.int v)]).Plain := plain_sint v
        have hzero : (node l .sint [.leaf (.int v)]).Obeys
            fun k s => k = .treeLength → s = .int 0 :=
          hplain.imp fun _ _ hs hk => absurd hk hs.2
        rw [cleared_eq_self hzero,
          cleared_eq_self (hzero.narrowed fun _ _ hs hk => absurd hk hs.2)]
      · have hwide : ∀ gs : List (Field Form), (node l tag gs).wide? = none := by
          intro gs
          exact wide?_of_ne_sint htag
        rw [cleared_node, narrowed_of_not_wide (hwide _), narrowed_of_not_wide (hwide _),
          cleared_node, List.length_map,
          map_narrowed_clearedAll fun t ht => ih t ht (hbelow t ht)]

theorem In.valid_narrowed {a : Arena} {t : Tree NodeId} (hw : a.WellFormed) (ht : t.In a)
    (htable : t.InTable) : t.form.narrowed.Valid := by
  have hvalid : t.form.Valid := t.obeys_form.mpr ((ht.fits hw).valid htable)
  exact hvalid.narrowed fun _ _ hs => hs.1.2

/-- What has been encoded is read back. -/
theorem In.gives {a : Arena} {t : Tree NodeId} (hw : a.WellFormed) (ht : t.In a)
    (htable : t.InTable) {bytes : List UInt8} (h : Codec.encode a t.label = pure bytes) :
    Gives read bytes t.form.recoded := by
  rw [encode_eq ht] at h
  exact read_encode (ht.valid_narrowed hw htable) h

/-- What has come back from a form equals that form without lengths, up to encoding. -/
theorem In.equal_recoded {a b : Arena} {t u : Tree NodeId} {f : Form} (hwa : a.WellFormed)
    (hwb : b.WellFormed) (ht : t.In a) (hu : u.In b) (hf : f.Fits) (htform : t.form = f.cleared)
    (huform : u.form = f.recoded) : a.equalUpToEncoding t.label b u.label = .ok true := by
  have hfits : t.form.Fits := t.obeys_form.mpr (ht.fits hwa)
  rw [htform] at hfits
  rw [Arena.equalUpToEncoding_eq hwa hwb ht hu, htform, huform, recoded, ← narrowed_cleared hf,
    equal_narrowed hfits]

end Tree

namespace Codec

theorem putTree_eq_pure {b b' : Buffer} {a : Arena} {id : NodeId}
    (h : b.putTree a id = pure b') : ∃ bytes, encode a id = pure bytes ∧ b' = b.put bytes := by
  obtain ⟨bytes, hbytes, h⟩ := EncodeM.bind_eq_pure.mp h
  exact ⟨bytes, hbytes, (EncodeM.pure_inj h).symm⟩

/-- Decoding what can be read makes a tree of the form that is read. -/
theorem decode_of_read {b b' : Buffer} {a : Arena} {s : Tree Extent} (hread : read b = (.ok s, b'))
    (hw : a.WellFormed) (hr : a.Room s.form.size) : ∃ t a', (decode.run.run b).run a =
      .ok ((.ok t.label, b'), a') ∧ t.form = s.form ∧ a.Grows [t] a' := by
  rw [Tree.size_form] at hr
  have hm := decode_mirrors (b := b) hw (by rw [hread]; exact hr)
  rwa [hread] at hm

/-- A buffer that agrees with one that was written to, up to the end of what was written. -/
theorem seek_of_put {b c : Buffer} {bytes : List UInt8}
    (hc : c.toList.take c.pos = (b.put bytes).toList.take (b.put bytes).pos) :
    ∃ before after, c.seek b.pos = .mid before (bytes ++ after) ∧
      c = .mid (before ++ bytes) after := by
  have hput : b.put bytes = .mid (b.toList.take b.pos ++ bytes)
      ((b.toList.drop b.pos).drop bytes.length) := by
    conv_lhs => rw [b.eq_mid, Buffer.put_mid]
  have hend : c = .mid (b.toList.take b.pos ++ bytes) (c.toList.drop c.pos) := by
    rw [hput, Buffer.take_mid] at hc
    rw [← hc]
    exact c.eq_mid
  have hlen : (b.toList.take b.pos).length = b.pos := by
    rw [List.length_take, Nat.min_eq_left]
    exact b.pos_le
  refine ⟨b.toList.take b.pos, c.toList.drop c.pos, ?_, hend⟩
  conv_lhs => rw [hend, Buffer.seek_pos _ _ _ (by rw [List.length_append, hlen]; omega)]
  rw [List.take_left' hlen, List.drop_left' hlen]

/-- The bytes of a tree are decoded, whatever stands before and after them. -/
theorem decode_narrowed {a dst : Arena} {t : Tree NodeId} {bytes : List UInt8} (hw : a.WellFormed)
    (ht : t.In a) (htable : t.InTable) (h : t.form.narrowed.encode .word = pure bytes)
    (hdst : dst.WellFormed) (hroom : dst.Room t.form.recoded.size) (before after : List UInt8) :
    ∃ (u : Tree NodeId) (dst' : Arena), (decode.run.run (.mid before (bytes ++ after))).run dst =
        .ok ((.ok u.label, .mid (before ++ bytes) after), dst') ∧
      u.form = t.form.recoded ∧ dst.Grows [u] dst' := by
  obtain ⟨s, hread, hs, -⟩ := Tree.read_encode (ht.valid_narrowed hw htable) h before after
  obtain ⟨u, dst', hrun, hform, hgrows⟩ := decode_of_read hread hdst (by rwa [hs])
  rw [hs] at hform
  exact ⟨u, dst', hrun, hform, hgrows⟩

/-- The bytes of a tree are decoded on their own. -/
theorem decode_encode {a dst : Arena} {t : Tree NodeId} {bytes : List UInt8} (hw : a.WellFormed)
    (ht : t.In a) (htable : t.InTable) (h : encode a t.label = pure bytes) (hdst : dst.WellFormed)
    (hroom : dst.Room t.form.recoded.size) : ∃ (u : Tree NodeId) (dst' : Arena),
      (decode.run.run (.ofList bytes)).run dst = .ok ((.ok u.label, .mid bytes []), dst') ∧
      u.form = t.form.recoded ∧ dst.Grows [u] dst' := by
  rw [Tree.encode_eq ht] at h
  have hdecode := decode_narrowed hw ht htable h hdst hroom [] []
  rwa [List.append_nil] at hdecode

/-- What has been encoded is decoded again, whatever follows it then, up to the byte where encoding
ended. The tree has the form of the source, with expressions for wide literals (those that
`buildNarrow` makes) and zero for the lengths of procedures. -/
theorem decode_putTree {a dst : Arena} {t : Tree NodeId} {b b' c : Buffer} (hw : a.WellFormed)
    (ht : t.In a) (htable : t.InTable) (hput : b.putTree a t.label = pure b')
    (hc : c.toList.take c.pos = b'.toList.take b'.pos) (hdst : dst.WellFormed)
    (hroom : dst.Room t.form.recoded.size) : ∃ (u : Tree NodeId) (dst' : Arena),
      (decode.run.run (c.seek b.pos)).run dst = .ok ((.ok u.label, c), dst') ∧
      u.In dst' ∧ u.form = t.form.recoded ∧
      (∀ (d : Arena) (y : Tree NodeId), d.WellFormed → y.In d → y.form = t.form.recoded →
        dst'.equal u.label d y.label = .ok true) ∧
      (t.EndOffsetsZero → a.equalUpToEncoding t.label dst' u.label = .ok true) := by
  obtain ⟨bytes, hbytes, rfl⟩ := putTree_eq_pure hput
  rw [Tree.encode_eq ht] at hbytes
  obtain ⟨before, after, hback, hend⟩ := seek_of_put hc
  obtain ⟨u, dst', hrun, hform, hgrows⟩ :=
    decode_narrowed hw ht htable hbytes hdst hroom before after
  rw [← hback, ← hend] at hrun
  have hu : u.In dst' := hgrows.placed u List.mem_cons_self
  have hfits : t.form.Fits := t.obeys_form.mpr (ht.fits hw)
  refine ⟨u, dst', hrun, hu, hform, ?_, ?_⟩
  · intro d y hd hy hyform
    rw [Arena.equal_eq hgrows.wellFormed hd hu hy, hform, hyform, Tree.equal_false_iff.mpr rfl]
  · intro hz
    exact ht.equal_recoded hw hgrows.wellFormed hu hfits
      (Tree.cleared_of_zero hfits (t.payloads_form.mpr hz)).symm hform

/-- A sequence of a local twice and a literal, encoded over other bytes, decoded before others. -/
theorem decode_putTree_shared :
    let a : Arena := .ofRows [some (.bare .loc [.int 300]), some (.bare .sint [.int (-7)]),
      some (.bare .seq [.code ⟨0⟩, .code ⟨0⟩, .code ⟨1⟩])] []
    let loc : Tree NodeId := .node ⟨0⟩ .loc [.leaf (.int 300)]
    let t : Tree NodeId := .node ⟨2⟩ .seq
      [.child loc, .child loc, .child (.node ⟨1⟩ .sint [.leaf (.int (-7))])]
    let b : Buffer := .mid [1] [2, 3]
    let bytes : List UInt8 := [126, 3, 56, 0, 0, 1, 44, 56, 0, 0, 1, 44, 5, 255, 255, 255, 249]
    let c : Buffer := .mid (1 :: bytes) [4]
    a.WellFormed ∧ t.In a ∧ t.InTable ∧ b.putTree a t.label = pure (b.put bytes) ∧
      c.toList.take c.pos = (b.put bytes).toList.take (b.put bytes).pos ∧
      Arena.empty.Room t.form.recoded.size ∧ ∃ (u : Tree NodeId) (dst' : Arena),
      (decode.run.run (c.seek b.pos)).run .empty = .ok ((.ok u.label, c), dst') ∧
      u.In dst' ∧ u.form = t.form.recoded ∧
      (∀ (d : Arena) (y : Tree NodeId), d.WellFormed → y.In d → y.form = t.form.recoded →
        dst'.equal u.label d y.label = .ok true) ∧
      (t.EndOffsetsZero → a.equalUpToEncoding t.label dst' u.label = .ok true) := by
  intro a loc t b bytes c
  have hw : a.WellFormed := by decide
  have ht : t.In a := by decide
  have htable : t.InTable := by decide
  have hbytes : encode a t.label = pure bytes := by decide +kernel
  have hput : b.putTree a t.label = pure (b.put bytes) := EncodeM.bind_of_eq hbytes
  have hc : c.toList.take c.pos = (b.put bytes).toList.take (b.put bytes).pos := by decide
  have hroom : Arena.empty.Room t.form.recoded.size := by decide
  exact ⟨hw, ht, htable, hput, hc, hroom,
    decode_putTree hw ht htable hput hc Arena.empty_wellFormed hroom⟩

end Codec

end Foam
