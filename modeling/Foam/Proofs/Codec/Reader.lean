import Foam.Proofs.Arena.Growth
import Foam.Proofs.Codec.Run
import Foam.Proofs.Sound

/-!
# Reading forms

Decoding does two things at once: it reads a form off the bytes, and it makes the nodes of that
form. `read` is the first alone, and labels every node with the bytes that it was read from. What it
takes from the bytes and what trees it gives are proved here; `decode_mirrors` then says that
decoding makes a tree of the form that is read, in nodes of its own, and leaves the arena as it was
when reading fails.
-/

namespace Foam.Codec

/-! ## Heads -/

theorem accepts_of_le {tag : Tag} {n : Nat} (hv : tag.isVariadic = true)
    (h : tag.layout.minSlots ≤ n) : tag.layout.accepts n = true := by
  show (if tag.isVariadic then _ else _ : Bool) = true
  rw [if_pos hv]
  exact decide_eq_true h

theorem getUnsigned_consumes (width : Nat) : Consumes (getUnsigned width) fun _ k => k = width :=
  (take_consumes width).bind fun _ _ h => .pure h.2

theorem getSigned_consumes (width : Nat) : Consumes (getSigned width) fun _ k => k = width :=
  (getUnsigned_consumes width).bind fun _ _ h => .pure h

/-- The number of bytes of a value in the format. -/
def IntFormat.width : IntFormat → Nat
  | word => 4
  | byte => 1
  | immediate _ => 0

theorem get_consumes (f : IntFormat) : Consumes f.get fun _ k => k = f.width := by
  cases f with
  | word => exact getSigned_consumes 4
  | byte => exact (getUnsigned_consumes 1).bind fun _ _ h => .pure h
  | immediate k => exact .pure rfl

theorem getCount_consumes (tag : Tag) (f : IntFormat) :
    Consumes (getCount tag f) fun n _ => tag.layout.minSlots ≤ n := by
  refine (get_consumes f).bind fun n k _ => .guarded fun hn => Consumes.get.bind fun b _ _ => ?_
  refine .guarded fun _ => .pure ?_
  omega

/-- A head takes a byte at least, and its count is one that the layout admits. -/
theorem getHead_consumes :
    Consumes getHead fun head k => 1 ≤ k ∧ head.tag.layout.accepts head.count = true := by
  refine Consumes.position.bind fun pos _ _ => (getUnsigned_consumes 1).bind fun n k hk => ?_
  dsimp only
  cases splitByte? (UInt8.ofNat n) with
  | none => exact .throw _
  | some p =>
      obtain ⟨tag, f⟩ := p
      refine .ite (fun hv => ?_) fun hv => ?_
      · exact (getCount_consumes tag f).bind fun count _ hcount =>
          .pure ⟨by omega, accepts_of_le hv hcount⟩
      · refine (Consumes.pure (P := fun n _ => n = tag.layout.minSlots) rfl).bind ?_
        rintro _ _ rfl
        exact .pure ⟨by omega, by simp_all [Layout.accepts, Tag.isVariadic]⟩

/-! ## Scalars -/

/-- A number of bytes that a slot takes at least. -/
def leastBytes (f labels : IntFormat) : FieldKind → Nat
  | .index | .str => f.width
  | .label => labels.width
  | _ => 1

theorem getLength_consumes (f : IntFormat) : Consumes (getLength f) fun _ k => k = f.width :=
  Consumes.position.bind fun _ _ h => (get_consumes f).bind fun _ _ h' =>
    .ite (fun _ => .throw _) fun _ => .pure (by omega)

theorem getString_consumes (f : IntFormat) : Consumes (getString f) fun _ k => f.width ≤ k := by
  refine (getLength_consumes f).bind fun n _ h => Consumes.position.bind fun _ _ _ =>
    (take_consumes n).bind fun bytes _ _ => ?_
  cases String.fromUTF8? ⟨bytes.toArray⟩ with
  | none => exact .throw _
  | some s => exact .pure (by omega)

theorem getBignum_consumes (f : IntFormat) : Consumes (getBignum f) fun _ k => 1 ≤ k := by
  refine (getUnsigned_consumes 1).bind fun _ _ h => (getLength_consumes f).bind fun _ _ _ =>
    Consumes.get.bind fun _ _ _ => .guarded fun _ => ?_
  refine (Consumes.mapM_list (fun _ => ?_) _).bind fun _ _ _ => .pure (by omega)
  exact (getUnsigned_consumes 2).bind fun _ _ _ => .pure trivial

theorem getOrdinal_consumes (α : Type) [Table α] {sort : NameSort} {width : Nat} {tag : Tag}
    {i : Nat} (hα : Table.size α < 2 ^ 63) {P : Slot → Prop}
    (hP : ∀ v : Int64, (Table.ofOrdinal? v.toInt : Option α).isSome = true → P (.int v)) :
    Consumes (getOrdinal α sort width tag i) fun s k => P s ∧ width ≤ k := by
  refine (getUnsigned_consumes width).bind fun n _ h => .ite
    (fun hn => .pure ⟨hP _ ?_, by omega⟩) fun _ => .throw _
  rw [Option.isSome_iff_ne_none, Ne, Table.ofOrdinal?_eq_none_iff,
    Int64.toInt_ofNat_of_lt (Nat.lt_trans hn hα)]
  omega

theorem getInt_consumes {α : Type} {x : GetM α} {n width : Nat} {g : α → Int64}
    {kind : FieldKind} (hx : Consumes x fun _ k => k = n) (hn : width ≤ n)
    (hs : ∀ v, Slot.Sound kind (.int v)) :
    Consumes (do return Slot.int (g (← x))) fun s k => Slot.Sound kind s ∧ width ≤ k :=
  hx.bind fun _ _ h => .pure ⟨hs _, by omega⟩

/-- What is read for a slot is sound there. -/
theorem getScalar_consumes (head : Head) (labels : IntFormat) (i : Nat) (kind : FieldKind)
    (hk : kind ≠ .child) : Consumes (getScalar head labels i kind) fun s k =>
      Slot.Sound kind s ∧ leastBytes head.format labels kind ≤ k := by
  cases kind with
  | child => exact absurd rfl hk
  | arb => exact .throw _
  | typeTag => exact getOrdinal_consumes Tag (by decide +kernel) fun v hv => ⟨hk, rfl, hv⟩
  | builtin =>
      have h : Consumes (getScalar head labels i .builtin) fun s k =>
          Slot.Sound .builtin s ∧ 2 ≤ k :=
        getOrdinal_consumes Builtin (by decide +kernel) fun v hv => ⟨hk, rfl, hv⟩
      exact h.mono fun _ _ h => ⟨h.1, Nat.le_of_succ_le h.2⟩
  | protocol => exact getOrdinal_consumes Protocol (by decide +kernel) fun v hv => ⟨hk, rfl, hv⟩
  | declUsage => exact getOrdinal_consumes Usage (by decide +kernel) fun v hv => ⟨hk, rfl, hv⟩
  | byte => exact getInt_consumes (getUnsigned_consumes 1) (Nat.le_refl 1) fun _ => ⟨hk, rfl, rfl⟩
  | halfWord => exact getInt_consumes (getSigned_consumes 2) (Nat.le_succ 1) fun _ => ⟨hk, rfl, rfl⟩
  | word | labelFormat =>
      exact getInt_consumes (getSigned_consumes 4) (Nat.le_add_left 1 3) fun _ => ⟨hk, rfl, rfl⟩
  | treeLength =>
      exact getInt_consumes (getUnsigned_consumes 4) (Nat.le_add_left 1 3) fun _ => ⟨hk, rfl, rfl⟩
  | label => exact getInt_consumes (get_consumes labels) (Nat.le_refl _) fun _ => ⟨hk, rfl, rfl⟩
  | index =>
      exact getInt_consumes (get_consumes head.format) (Nat.le_refl _) fun _ => ⟨hk, rfl, rfl⟩
  | str => exact (getString_consumes head.format).bind fun _ _ h => .pure ⟨⟨hk, rfl, rfl⟩, h⟩
  | sflo =>
      exact (getUnsigned_consumes 4).bind fun _ k h =>
        .pure ⟨⟨hk, rfl, rfl⟩, Nat.le_trans (Nat.le_add_left 1 3) (Nat.le_of_eq h.symm)⟩
  | dflo =>
      exact (getUnsigned_consumes 8).bind fun _ k h =>
        .pure ⟨⟨hk, rfl, rfl⟩, Nat.le_trans (Nat.le_add_left 1 7) (Nat.le_of_eq h.symm)⟩
  | bint => exact (getBignum_consumes head.format).bind fun _ _ h => .pure ⟨⟨hk, rfl, rfl⟩, h⟩

/-! ## Forms -/

/-- Where the slots of a node begin, and where the node ends. -/
structure Extent where
  start : Nat
  stop : Nat

/-- Field `i`, `child` reading a child under a label format. -/
def readField {τ : Type} (child : IntFormat → GetM τ) (head : Head) (labels : IntFormat) (i : Nat)
    (kind : FieldKind) : GetM (Field τ) := do
  if kind = .child then return .child (← child labels)
  else return .leaf (← getScalar head labels i kind)

/-- The fields from number `i` on. -/
def readFields {τ : Type} (child : IntFormat → GetM τ) (head : Head) :
    (labels : IntFormat) → (i : Nat) → List FieldKind → GetM (List (Field τ))
  | _, _, [] => return []
  | labels, i, kind :: kinds => do
    let f ← readField child head labels i kind
    return f :: (← readFields child head (labelsAfterSlot labels kind f.blank) (i + 1) kinds)

def readFrom : (fuel : Nat) → IntFormat → GetM (Tree Extent)
  | 0, _ => do
    let b ← get
    throw (.unexpectedEnd b.pos 1 b.size)
  | fuel + 1, labels => do
    let head ← getHead
    let start ← position
    let fs ← readFields (readFrom fuel) head labels 0 (head.tag.layout.kinds head.count)
    return .node ⟨start, ← position⟩ head.tag fs

/-- The tree at the cursor. -/
def read : GetM (Tree Extent) := do
  readFrom ((← get).remaining + 1) .word

section

variable {child : IntFormat → GetM (Tree Extent)} {head : Head}

theorem readField_consumes
    (hchild : ∀ labels, Consumes (child labels) fun t k => t.size ≤ k ∧ t.Sound)
    (labels : IntFormat) (i : Nat) (kind : FieldKind) :
    Consumes (readField child head labels i kind) fun f k => f.Obeys (fun k s => s.Sound k) kind ∧
      Tree.sizeAll [f] ≤ k ∧ ∀ t, f = .child t → t.Sound := by
  refine .ite (fun hk => ?_) fun hk => ?_
  · refine (hchild labels).bind fun t k ht => .pure ⟨hk, ?_, ?_⟩
    · simpa [Tree.sizeAll] using ht.1
    · rintro _ ⟨⟩
      exact ht.2
  · refine (getScalar_consumes head labels i kind hk).bind fun s k hs =>
      .pure ⟨hs.1, Nat.zero_le _, ?_⟩
    rintro _ ⟨⟩

theorem readFields_consumes
    (hchild : ∀ labels, Consumes (child labels) fun t k => t.size ≤ k ∧ t.Sound)
    (labels : IntFormat) (i : Nat) (kinds : List FieldKind) :
    Consumes (readFields child head labels i kinds) fun fs k =>
      List.Forall₂ (Field.Obeys fun k s => s.Sound k) kinds fs ∧ Tree.sizeAll fs ≤ k ∧
        ∀ t, .child t ∈ fs → t.Sound := by
  induction kinds generalizing labels i with
  | nil => exact .pure ⟨.nil, Nat.zero_le _, fun t ht => absurd ht List.not_mem_nil⟩
  | cons kind kinds ih =>
      refine (readField_consumes hchild labels i kind).bind fun f k hf =>
        (ih _ _).bind fun fs n hfs => .pure ⟨.cons hf.1 hfs.1, ?_, ?_⟩
      · rw [Tree.sizeAll_cons]
        omega
      · intro t ht
        rcases List.mem_cons.mp ht with ht | ht
        · exact hf.2.2 t ht.symm
        · exact hfs.2.2 t ht

end

/-- A tree that is read is sound, and takes a byte for every node or more. -/
theorem readFrom_consumes (fuel : Nat) (labels : IntFormat) :
    Consumes (readFrom fuel labels) fun t k => t.size ≤ k ∧ t.Sound := by
  induction fuel generalizing labels with
  | zero => exact Consumes.get.bind fun _ _ _ => .throw _
  | succ fuel ih =>
      refine getHead_consumes.bind fun head k hhead => Consumes.position.bind fun _ _ _ =>
        (readFields_consumes ih labels 0 _).bind fun fs n hfs =>
          Consumes.position.bind fun _ _ _ => .pure ⟨?_, .node ?_ hfs.2.2⟩
      · rw [Tree.size]
        omega
      · have hlen : fs.length = head.count := by
          rw [← hfs.1.length_eq, Layout.length_kinds hhead.2]
        exact ⟨by rw [Tree.fields, hlen]; exact hhead.2, by rw [Tree.fields, hlen]; exact hfs.1⟩

/-! ## Decoding makes what is read -/

/-- The arena has room for what is read from a buffer: if that succeeds, for the nodes of the
result, and if it fails, for as many as there are bytes. -/
def RoomFor {α : Type} (size : α → Nat) (a : Arena) (b : Buffer) :
    Except DecodeError α × Buffer → Prop
  | (.ok v, _) => a.Room (size v)
  | (.error _, _) => a.Room b.remaining

/-- Decoding has the outcome of reading. A success has made a tree of the form that was read, a
failure nothing. -/
def Mirrors (a : Arena) : Except DecodeError (Tree Extent) × Buffer →
    Checked ((Except DecodeError NodeId × Buffer) × Arena) → Prop
  | (.ok s, b), outcome =>
    ∃ t a', outcome = .ok ((.ok t.label, b), a') ∧ t.form = s.form ∧ a.Grows [t] a'
  | (.error e, b), outcome => ∃ a', outcome = .ok ((.error e, b), a') ∧ a.Restores a'

/-- The same for one field of a node. -/
def MirrorsField (a : Arena) : Except DecodeError (Field (Tree Extent)) × Buffer →
    Checked ((Except DecodeError Slot × Buffer) × Arena) → Prop
  | (.ok f, b), outcome =>
    ∃ g a', outcome = .ok ((.ok g.slot, b), a') ∧ g.map Tree.form = f.map Tree.form ∧
      (∀ s, g = .leaf s → s.child? = none) ∧ a.Grows (Tree.subtrees [g]) a'
  | (.error e, b), outcome => ∃ a', outcome = .ok ((.error e, b), a') ∧ a.Restores a'

/-- The same for the fields of a node. The trees in the fields before, `done`, are part of what has
been made since `a`, and go when reading fails. -/
def MirrorsFields (a : Arena) (done : List (Field (Tree NodeId))) :
    Except DecodeError (List (Field (Tree Extent))) × Buffer →
    Checked ((Except DecodeError (List Slot) × Buffer) × Arena) → Prop
  | (.ok fs, b), outcome =>
    ∃ gs a', outcome = .ok ((.ok ((done ++ gs).map Field.slot), b), a') ∧
      gs.map (Field.map Tree.form) = fs.map (Field.map Tree.form) ∧
      (∀ s, .leaf s ∈ done ++ gs → s.child? = none) ∧
      a.Grows (Tree.subtrees (done ++ gs)) a'
  | (.error e, b), outcome => ∃ a', outcome = .ok ((.error e, b), a') ∧ a.Restores a'

theorem labelsAfterSlot_slot (labels : IntFormat) (kind : FieldKind) (f : Field (Tree NodeId)) :
    labelsAfterSlot labels kind f.slot = labelsAfterSlot labels kind f.blank := by
  cases f with
  | leaf s => rfl
  | child t => cases kind <;> rfl

section

variable {child : IntFormat → GetM (Tree Extent)} {child' : IntFormat → DecodeM NodeId}
  {head : Head}
  {a₀ a : Arena} {b : Buffer} {done : List (Field (Tree NodeId))}

theorem decodeSlot_mirrors
    (hmirrors : ∀ labels b a, a.WellFormed → RoomFor Tree.size a b (child labels b) →
      Mirrors a (child labels b) (child' labels b a))
    (labels : IntFormat) (i : Nat) (kind : FieldKind) (hw : a.WellFormed)
    (hr : RoomFor (fun f => Tree.sizeAll [f]) a b (readField child head labels i kind b)) :
    MirrorsField a (readField child head labels i kind b)
      (decodeSlot child' head labels i kind b a) := by
  by_cases hk : kind = .child
  · subst hk
    have hm := hmirrors labels b a hw
    rcases hx : child labels b with ⟨r, b'⟩
    rw [hx] at hm
    cases r with
    | error e =>
        have hread : readField child head labels i .child b = (.error e, b') := GetM.bind_error hx
        rw [hread] at hr ⊢
        obtain ⟨a', ha', hres⟩ := hm hr
        exact ⟨a', DecodeM.bind_error ha', hres⟩
    | ok f =>
        have hread : readField child head labels i .child b = (.ok (.child f), b') :=
          GetM.bind_ok hx
        rw [hread] at hr ⊢
        obtain ⟨t, a', ha', hform, hgrows⟩ := hm (by simpa [RoomFor, Tree.sizeAll] using hr)
        refine ⟨.child t, a', DecodeM.bind_ok ha', congrArg Field.child hform, ?_, hgrows⟩
        rintro _ ⟨⟩
  · have hslot : decodeSlot child' head labels i kind b a =
        .ok (getScalar head labels i kind b, a) := by
      unfold decodeSlot
      rw [if_neg hk]
      rfl
    have hread : readField child head labels i kind b =
        ((getScalar head labels i kind >>= fun s => pure (.leaf s)) : GetM _) b := by
      unfold readField
      rw [if_neg hk]
    rw [hread, hslot]
    rcases hx : getScalar head labels i kind b with ⟨r, b'⟩
    cases r with
    | error e =>
        rw [GetM.bind_error hx]
        exact ⟨a, rfl, .refl hw⟩
    | ok s =>
        rw [GetM.bind_ok hx]
        obtain ⟨-, -, -, hs, -⟩ := getScalar_consumes head labels i kind hk b s b' hx
        refine ⟨.leaf s, a, rfl, rfl, ?_, .nil hw⟩
        rintro _ ⟨⟩
        exact hs.child?

/-- What was made before a failure is freed again. -/
theorem freeSlots_restores {e : DecodeError} {a' : Arena} (hg : a₀.Grows (Tree.subtrees done) a)
    (hleaf : ∀ s, .leaf s ∈ done → s.child? = none) (hres : a.Restores a') :
    ∃ c, ((do
        (Arena.freeSlots (done.map Field.slot).reverse.reverse : ArenaM Unit)
        throw e) : DecodeM Slot) b a' = .ok ((.error e, b), c) ∧ a₀.Restores c := by
  obtain ⟨c, hc, hrestores⟩ := (hg.restores hres).freeSlots hleaf
  refine ⟨c, ?_, hrestores⟩
  rw [List.reverse_reverse]
  have hfree : ((Arena.freeSlots (done.map Field.slot) : ArenaM Unit) : DecodeM Unit) b a' =
      .ok ((.ok (), b), c) := by
    rw [DecodeM.lift_apply, hc]
    rfl
  exact (DecodeM.bind_ok hfree).trans rfl

/-- Room for all fields from one on is room for that one, and then for those after it. -/
theorem RoomFor.of_fields {labels : IntFormat} {i : Nat} {kind : FieldKind}
    {kinds : List FieldKind}
    (hchild : ∀ labels, Consumes (child labels) fun t k => t.size ≤ k ∧ t.Sound)
    (hr : RoomFor (fun fs => Tree.sizeAll fs + 1) a b
      (readFields child head labels i (kind :: kinds) b)) :
    match readField child head labels i kind b with
    | (.ok f, b') => a.Room (Tree.sizeAll [f]) ∧
        ∀ c : Arena, c.liveCount = a.liveCount + Tree.sizeAll [f] →
          RoomFor (fun fs => Tree.sizeAll fs + 1) c b'
            (readFields child head (labelsAfterSlot labels kind f.blank) (i + 1) kinds b')
    | (.error _, _) => a.Room b.remaining := by
  rcases hx : readField child head labels i kind b with ⟨r, b'⟩
  cases r with
  | error e =>
      have hread : readFields child head labels i (kind :: kinds) b = (.error e, b') :=
        GetM.bind_error hx
      rwa [hread] at hr
  | ok f =>
      obtain ⟨k, hrem, -, hsize, -⟩ := (readField_consumes hchild labels i kind).remaining hx
      have hread : readFields child head labels i (kind :: kinds) b =
          ((readFields child head (labelsAfterSlot labels kind f.blank) (i + 1) kinds >>=
            fun fs => pure (f :: fs)) : GetM _) b' := GetM.bind_ok hx
      rw [hread] at hr
      dsimp only
      rcases hxs : readFields child head (labelsAfterSlot labels kind f.blank) (i + 1) kinds b'
        with ⟨r, b''⟩
      cases r with
      | error e =>
          rw [GetM.bind_error hxs] at hr
          change a.liveCount + b.remaining ≤ Arena.idLimit at hr
          refine ⟨show _ ≤ _ by omega, ?_⟩
          intro c hc
          show c.liveCount + b'.remaining ≤ Arena.idLimit
          omega
      | ok fs =>
          rw [GetM.bind_ok hxs] at hr
          change a.liveCount + (Tree.sizeAll (f :: fs) + 1) ≤ Arena.idLimit at hr
          rw [Tree.sizeAll_cons] at hr
          refine ⟨show _ ≤ _ by omega, ?_⟩
          intro c hc
          show c.liveCount + (Tree.sizeAll fs + 1) ≤ Arena.idLimit
          omega

theorem sizeAll_of_forms {α β : Type} {fs : List (Field (Tree α))} {gs : List (Field (Tree β))}
    (h : gs.map (Field.map Tree.form) = fs.map (Field.map Tree.form)) :
    Tree.sizeAll gs = Tree.sizeAll fs := by
  rw [← Tree.sizeAll_map_form gs, h, Tree.sizeAll_map_form]

/-- A field that has been made is one more of the fields before. -/
theorem MirrorsFields.cons {x : GetM (List (Field (Tree Extent)))} {f : Field (Tree Extent)}
    {g : Field (Tree NodeId)}
    {outcome : Checked ((Except DecodeError (List Slot) × Buffer) × Arena)}
    (hform : g.map Tree.form = f.map Tree.form)
    (h : MirrorsFields a₀ (done ++ [g]) (x b) outcome) :
    MirrorsFields a₀ done (((x >>= fun fs => pure (f :: fs)) : GetM _) b) outcome := by
  rcases hx : x b with ⟨r, b'⟩
  rw [hx] at h
  cases r with
  | error e =>
      rw [GetM.bind_error hx]
      exact h
  | ok fs =>
      rw [GetM.bind_ok hx]
      obtain ⟨gs, a', ha', hforms, hleaf, hgrows⟩ := h
      rw [List.append_assoc] at ha' hleaf hgrows
      refine ⟨g :: gs, a', ha', ?_, hleaf, hgrows⟩
      rw [List.map_cons, List.map_cons, hform, hforms]

theorem decodeSlots_mirrors
    (hchild : ∀ labels, Consumes (child labels) fun t k => t.size ≤ k ∧ t.Sound)
    (hmirrors : ∀ labels b a, a.WellFormed → RoomFor Tree.size a b (child labels b) →
      Mirrors a (child labels b) (child' labels b a))
    (labels : IntFormat) (i : Nat) (kinds : List FieldKind)
    (hg : a₀.Grows (Tree.subtrees done) a) (hleaf : ∀ s, .leaf s ∈ done → s.child? = none)
    (hr : RoomFor (fun fs => Tree.sizeAll fs + 1) a b
      (readFields child head labels i kinds b)) :
    MirrorsFields a₀ done (readFields child head labels i kinds b)
      (decodeSlots child' head labels i (done.map Field.slot).reverse kinds b a) := by
  induction kinds generalizing labels i done b a with
  | nil =>
      refine ⟨[], a, ?_, rfl, by simpa using hleaf, by simpa using hg⟩
      rw [List.append_nil]
      exact congrArg (fun ss => Except.ok ((Except.ok ss, b), a)) (List.reverse_reverse _)
  | cons kind kinds ih =>
      have hrooms := hr.of_fields hchild
      have hm : RoomFor _ a b (readField child head labels i kind b) →
          MirrorsField a (readField child head labels i kind b)
            (decodeSlot child' head labels i kind b a) :=
        decodeSlot_mirrors hmirrors labels i kind hg.wellFormed
      rcases hx : readField child head labels i kind b with ⟨r, b'⟩
      rw [hx] at hm hrooms
      cases r with
      | error e =>
          -- the fields before go with the one that fails
          obtain ⟨a', ha', hres⟩ := hm hrooms
          obtain ⟨c, hc, hres'⟩ := freeSlots_restores (b := b') (e := e) hg hleaf hres
          have hread : readFields child head labels i (kind :: kinds) b = (.error e, b') :=
            GetM.bind_error hx
          rw [hread]
          refine ⟨c, DecodeM.bind_error ?_, hres'⟩
          rw [DecodeM.tryCatch_apply, ha']
          exact hc
      | ok f =>
          obtain ⟨hroom, hrest⟩ := hrooms
          obtain ⟨g, a', ha', hform, hgleaf, hgrows⟩ := hm hroom
          have hlive : a'.liveCount = a.liveCount + Tree.sizeAll [f] := by
            have hsize : Tree.sizeAll [g] = Tree.sizeAll [f] :=
              sizeAll_of_forms (congrArg (fun x => [x]) hform)
            rw [hgrows.liveCount, Tree.length_labelsAll, hsize]
          -- so `done` grows by one field and the induction goes on from there
          have hleaf' : ∀ s, .leaf s ∈ done ++ [g] → s.child? = none := by
            intro s hs
            rcases List.mem_append.mp hs with hs | hs
            · exact hleaf s hs
            · exact hgleaf s (List.mem_singleton.mp hs).symm
          have hgrows' : a₀.Grows (Tree.subtrees (done ++ [g])) a' := by
            rw [Tree.subtrees_append]
            exact hg.append hgrows
          have hlabels : labelsAfterSlot labels kind g.slot =
              labelsAfterSlot labels kind f.blank := by
            rw [labelsAfterSlot_slot, ← Field.blank_map Tree.form g, hform, Field.blank_map]
          have hdec : decodeSlots child' head labels i (done.map Field.slot).reverse
              (kind :: kinds) b a = decodeSlots child' head (labelsAfterSlot labels kind f.blank)
                (i + 1) ((done ++ [g]).map Field.slot).reverse kinds b' a' := by
            rw [List.map_append, List.reverse_append, ← hlabels]
            apply DecodeM.bind_ok
            rw [DecodeM.tryCatch_apply, ha']
          have hread : readFields child head labels i (kind :: kinds) b =
              ((readFields child head (labelsAfterSlot labels kind f.blank) (i + 1) kinds >>=
                fun fs => pure (f :: fs)) : GetM _) b' := GetM.bind_ok hx
          rw [hdec, hread]
          exact .cons hform (ih (labelsAfterSlot labels kind f.blank) (i + 1) hgrows' hleaf'
            (hrest a' hlive))

end

theorem forall₂_obeys_of_forms {α β : Type} {P : FieldKind → Slot → Prop} {kinds : List FieldKind}
    {fs : List (Field (Tree α))} {gs : List (Field (Tree β))}
    (h : gs.map (Field.map Tree.form) = fs.map (Field.map Tree.form))
    (hfs : List.Forall₂ (Field.Obeys P) kinds fs) : List.Forall₂ (Field.Obeys P) kinds gs := by
  have hforms : List.Forall₂ (Field.Obeys P) kinds (fs.map (Field.map Tree.form)) :=
    List.forall₂_map_right_iff.mpr (hfs.imp fun _ _ => Field.obeys_map.mpr)
  rw [← h, List.forall₂_map_right_iff] at hforms
  exact hforms.imp fun _ _ => Field.obeys_map.mp

/-- Sound fields that have been made become a node. -/
theorem push_of_sound {a a' : Arena} {tag : Tag} {count : Nat} {gs : List (Field (Tree NodeId))}
    (haccepts : tag.layout.accepts count = true)
    (hsound : List.Forall₂ (Field.Obeys fun k s => s.Sound k) (tag.layout.kinds count) gs)
    (hleaf : ∀ s, .leaf s ∈ gs → s.child? = none) (hgrows : a.Grows (Tree.subtrees gs) a')
    (hroom : a.Room (Tree.sizeAll gs + 1)) :
    ∃ id c, Arena.push tag (gs.map Field.slot) a' = .ok (id, c) ∧ a.Grows [.node id tag gs] c := by
  have hlen : gs.length = count := by
    rw [← hsound.length_eq, Layout.length_kinds haccepts]
  have hfits : (Node.bare tag (gs.map Field.slot)).Fits :=
    Field.node_fits (fun _ _ => Slot.Sound.fits) (by rwa [hlen]) (by rwa [hlen])
  have hone : a'.Room 1 := by
    have hlive := hgrows.liveCount
    rw [Tree.length_labelsAll] at hlive
    change a.liveCount + (Tree.sizeAll gs + 1) ≤ Arena.idLimit at hroom
    show a'.liveCount + 1 ≤ Arena.idLimit
    omega
  obtain ⟨id, c, hc, hgrows', -⟩ := Arena.Grows.push [] hgrows hone hleaf hfits
  exact ⟨id, c, hc, hgrows'⟩

theorem decodeFrom_mirrors (fuel : Nat) (labels : IntFormat) (b : Buffer) (a : Arena)
    (hw : a.WellFormed) (hr : RoomFor Tree.size a b (readFrom fuel labels b)) :
    Mirrors a (readFrom fuel labels b) (decodeFrom fuel labels b a) := by
  induction fuel generalizing labels b a with
  | zero => exact ⟨a, rfl, .refl hw⟩
  | succ fuel ih =>
      rcases hx : getHead b with ⟨r, b'⟩
      cases r with
      | error e =>
          have hread : readFrom (fuel + 1) labels b = (.error e, b') := GetM.bind_error hx
          rw [hread]
          refine ⟨a, DecodeM.bind_error ?_, .refl hw⟩
          rw [reading_apply, hx]
      | ok head =>
          obtain ⟨k, hrem, hk, haccepts⟩ := getHead_consumes.remaining hx
          have hread : readFrom (fuel + 1) labels b =
              ((readFields (readFrom fuel) head labels 0 (head.tag.layout.kinds head.count) >>=
                fun fs => position >>= fun stop => pure (.node ⟨b'.pos, stop⟩ head.tag fs)) :
                  GetM _) b' := GetM.bind_ok hx
          have hdec : decodeFrom (fuel + 1) labels b a =
              ((decodeSlots (decodeFrom fuel) head labels 0 []
                (head.tag.layout.kinds head.count) >>= fun slots =>
                  (Arena.push head.tag slots : ArenaM NodeId)) : DecodeM _) b' a := by
            apply DecodeM.bind_ok
            rw [reading_apply, hx]
          have hm : RoomFor _ a b' (readFields (readFrom fuel) head labels 0
                (head.tag.layout.kinds head.count) b') →
              MirrorsFields a [] (readFields (readFrom fuel) head labels 0
                (head.tag.layout.kinds head.count) b')
                (decodeSlots (decodeFrom fuel) head labels 0 []
                  (head.tag.layout.kinds head.count) b' a) :=
            decodeSlots_mirrors (readFrom_consumes fuel) ih labels 0 _ (.nil hw)
              (fun s hs => absurd hs List.not_mem_nil)
          rw [hread] at hr ⊢
          rw [hdec]
          rcases hxs : readFields (readFrom fuel) head labels 0
            (head.tag.layout.kinds head.count) b' with ⟨r, b''⟩
          rw [hxs] at hm
          cases r with
          | error e =>
              rw [GetM.bind_error hxs] at hr ⊢
              change a.liveCount + b.remaining ≤ Arena.idLimit at hr
              -- fewer bytes are left after the head, so there is room for as many nodes
              obtain ⟨a', ha', hres⟩ := hm (show a.liveCount + b'.remaining ≤ _ by omega)
              exact ⟨a', DecodeM.bind_error ha', hres⟩
          | ok fs =>
              rw [GetM.bind_ok hxs] at hr ⊢
              change a.Room (Tree.sizeAll fs + 1) at hr
              obtain ⟨gs, a', ha', hform, hleaf, hgrows⟩ := hm hr
              rw [List.nil_append] at ha' hleaf hgrows
              obtain ⟨n, -, hsound, -, -⟩ :=
                (readFields_consumes (readFrom_consumes fuel) labels 0 _).remaining hxs
              obtain ⟨id, c, hc, hgrows'⟩ := push_of_sound haccepts
                (forall₂_obeys_of_forms hform hsound) hleaf hgrows (by rwa [sizeAll_of_forms hform])
              refine ⟨.node id head.tag gs, c, ?_, ?_, hgrows'⟩
              · refine (DecodeM.bind_ok ha').trans ?_
                rw [DecodeM.lift_apply, hc]
                rfl
              · rw [Tree.form_node, Tree.form_node, hform]

end Foam.Codec
