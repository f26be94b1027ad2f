import Foam.Proofs.Codec.Canonical

/-!
# What decoding depends on

Decoding takes its bytes one after the other and looks at no others, with one exception: the count
of a node is checked against all the bytes that are left. In a tail of children or words these are
taken later, one for every slot or more. A tail of indices whose count the tag byte tells has no
bytes at all, and there the check asks for bytes that belong to whatever follows.

`Settled x C` says of a reader that a success of it comes again wherever the bytes that it took
stand at the same position, if the size of the buffer there has `C`.
-/

namespace Foam

namespace Codec

/-! ## Success up to the size of the buffer -/

section

variable {α β : Type} {x : GetM α} {f : α → GetM β} {before l m : List UInt8} {v : α} {w : β}

/-- With the bytes `l` behind `before`, the reader takes these and gives `v` if the size of the
buffer has `C`. If not, it asks for bytes that there are not. -/
def Hinges (x : GetM α) (before l : List UInt8) (v : α) (C : Nat → Prop) : Prop :=
  ∀ after n, n = before.length + (l ++ after).length →
    (C n → x (.mid before (l ++ after)) = (.ok v, .mid (before ++ l) after)) ∧
    (¬C n → ∃ pos wanted b,
      x (.mid before (l ++ after)) = (.error (.unexpectedEnd pos wanted n), b))

namespace Hinges

variable {C D : Nat → Prop}

theorem of_reads (h : Reads x l v) : Hinges x before l v fun _ => True :=
  fun after _ _ => ⟨fun _ => h before after, fun hn => absurd trivial hn⟩

theorem congr (h : Hinges x before l v C) (hCD : ∀ n, before.length + l.length ≤ n → (C n ↔ D n)) :
    Hinges x before l v D := by
  intro after n hn
  have hle : before.length + l.length ≤ n := by
    rw [List.length_append] at hn
    omega
  rw [← hCD n hle]
  exact h after n hn

theorem bind (h : Hinges x before l v C) (h' : Hinges (f v) (before ++ l) m w D) :
    Hinges (x >>= f) before (l ++ m) w fun n => C n ∧ D n := by
  intro after n hn
  rw [List.append_assoc] at hn ⊢
  obtain ⟨hok, hfail⟩ := h (m ++ after) n hn
  obtain ⟨hok', hfail'⟩ := h' after n (by simp only [List.length_append] at hn ⊢; omega)
  refine ⟨?_, fun hCD => ?_⟩
  · rintro ⟨hC, hD⟩
    rw [GetM.bind_ok (hok hC), hok' hD, List.append_assoc]
  · by_cases hC : C n
    · rw [GetM.bind_ok (hok hC)]
      exact hfail' fun hD => hCD ⟨hC, hD⟩
    · obtain ⟨pos, wanted, b, hx⟩ := hfail hC
      exact ⟨pos, wanted, b, GetM.bind_error hx⟩

theorem map (h : Hinges x before l v C) (g : α → β) :
    Hinges (x >>= fun v => Pure.pure (g v)) before l (g v) C := by
  have hbind := h.bind (f := fun v => Pure.pure (g v)) (of_reads (.pure (g v)))
  rw [List.append_nil] at hbind
  exact hbind.congr fun n _ => and_iff_left trivial

theorem position {f : Nat → GetM β} (h : Hinges (f before.length) before l w C) :
    Hinges (position >>= f) before l w C := h

end Hinges

/-! ## Readers that take what they look at -/

/-- What a success of the reader took, at the same position in another buffer, is taken again there
with the same result if `C` holds of the result, of where it ends, and of the size of the buffer. -/
def Settled (x : GetM α) (C : α → Nat → Nat → Prop) : Prop :=
  ∀ before bytes v b', x (.mid before bytes) = (.ok v, b') → ∃ l after, bytes = l ++ after ∧
    b' = .mid (before ++ l) after ∧
    ∀ before' : List UInt8, before'.length = before.length → Hinges x before' l v (C v b'.pos)

namespace Settled

variable {C : α → Nat → Nat → Prop} {D : β → Nat → Nat → Prop}

theorem pure {v : α} (h : ∀ stop n, stop ≤ n → C v stop n) : Settled (pure v) C := by
  intro before bytes w b' hx
  cases hx
  refine ⟨[], bytes, rfl, by rw [List.append_nil], fun before' hlen => ?_⟩
  refine Hinges.congr (.of_reads (.pure v)) fun n hn => iff_of_true trivial (h _ n ?_)
  rw [Buffer.pos_mid]
  omega

theorem throw (e : DecodeError) : Settled (throw e) C := by
  rintro before bytes v b' ⟨⟩

theorem bind (h : Settled x fun _ _ _ => True) (h' : ∀ v, Settled (f v) D) :
    Settled (x >>= f) D := by
  intro before bytes w b' hx
  obtain ⟨v, c, hv, hw⟩ := GetM.bind_eq_ok.mp hx
  obtain ⟨l, after, rfl, rfl, hl⟩ := h before bytes v c hv
  obtain ⟨m, after, rfl, rfl, hm⟩ := h' v _ _ w b' hw
  refine ⟨l ++ m, after, (List.append_assoc ..).symm, by rw [List.append_assoc], ?_⟩
  intro before' hlen
  have hbind := (hl before' hlen).bind (hm (before' ++ l) (by simp [hlen]))
  exact hbind.congr fun n _ => and_iff_right trivial

theorem map {g : α → β} (h : Settled x C) (hCD : ∀ v stop n, C v stop n ↔ D (g v) stop n) :
    Settled (x >>= fun v => Pure.pure (g v)) D := by
  intro before bytes w b' hx
  obtain ⟨v, c, hv, hw⟩ := GetM.bind_eq_ok.mp hx
  cases hw
  obtain ⟨l, after, hbytes, hpos, hl⟩ := h before bytes v b' hv
  exact ⟨l, after, hbytes, hpos, fun before' hlen =>
    ((hl before' hlen).map g).congr fun n _ => hCD ..⟩

theorem ite {c : Prop} [Decidable c] {y : GetM α} (h : c → Settled x C) (h' : ¬c → Settled y C) :
    Settled (if c then x else y) C := by
  by_cases hc : c
  · rw [if_pos hc]
    exact h hc
  · rw [if_neg hc]
    exact h' hc

/-- A test that ends the reading if it finds something wrong. -/
theorem guarded {c : Prop} [Decidable c] {γ : Type} {e : DecodeError} {g : γ → GetM α}
    (h : ¬c → Settled x C) :
    Settled (if c then (MonadExcept.throw e : GetM γ) >>= g else x) C := by
  refine ite (fun _ => ?_) h
  rintro before bytes v b' ⟨⟩

theorem position {f : Nat → GetM β} (h : ∀ pos, Settled (f pos) D) :
    Settled (position >>= f) D := by
  intro before bytes w b' hx
  obtain ⟨l, after, hbytes, hpos, hl⟩ := h before.length before bytes w b' hx
  refine ⟨l, after, hbytes, hpos, fun before' hlen => .position ?_⟩
  rw [hlen]
  exact hl before' hlen

theorem mapM_list {γ : Type} {g : γ → GetM α} (h : ∀ c, Settled (g c) fun _ _ _ => True)
    (cs : List γ) : Settled (cs.mapM g) fun _ _ _ => True := by
  induction cs with
  | nil => exact pure fun _ _ _ => trivial
  | cons c cs ih =>
      rw [List.mapM_cons]
      exact bind (h c) fun _ => ih.map fun _ _ _ => Iff.rfl

/-- A test for bytes that are taken afterwards makes no difference. -/
theorem enough {k : Nat} {γ : Type} {e : Buffer → DecodeError} {g : γ → GetM α} (h : Settled x C)
    (hk : Consumes x fun _ n => k ≤ n) : Settled (get >>= fun b =>
      if b.remaining < k then (MonadExcept.throw (e b) : GetM γ) >>= g else x) C := by
  intro before bytes v b' hx
  rw [GetM.bind_ok (GetM.get_apply _)] at hx
  by_cases hb : (Buffer.mid before bytes).remaining < k
  · rw [if_pos hb] at hx
    cases hx
  · rw [if_neg hb] at hx
    obtain ⟨l, after, rfl, rfl, hl⟩ := h before bytes v b' hx
    obtain ⟨-, n, hpos, hn⟩ := hk _ _ _ hx
    rw [Buffer.pos_mid, Buffer.pos_mid, List.length_append] at hpos
    refine ⟨l, after, rfl, rfl, fun before' hlen after' n hn => ?_⟩
    have hb' : ¬(Buffer.mid before' (l ++ after')).remaining < k := by
      rw [Buffer.remaining_mid, List.length_append]
      omega
    rw [GetM.bind_ok (GetM.get_apply _), if_neg hb']
    exact hl before' hlen after' n hn

/-- A test for bytes that are not taken. -/
theorem room {k : Nat} {γ : Type} {g : γ → GetM α} {v : α}
    (hC : ∀ stop n, C v stop n ↔ stop + k ≤ n) : Settled (get >>= fun b =>
      if b.remaining < k then (MonadExcept.throw (.unexpectedEnd b.pos k b.size) : GetM γ) >>= g
      else Pure.pure v) C := by
  intro before bytes w b' hx
  rw [GetM.bind_ok (GetM.get_apply _)] at hx
  by_cases hb : (Buffer.mid before bytes).remaining < k
  · rw [if_pos hb] at hx
    cases hx
  · rw [if_neg hb] at hx
    cases hx
    refine ⟨[], bytes, rfl, by rw [List.append_nil], fun before' hlen after n hn => ?_⟩
    rw [GetM.bind_ok (GetM.get_apply _), Buffer.remaining_mid]
    rw [List.nil_append] at hn ⊢
    rw [hC]
    constructor
    · intro hle
      rw [Buffer.pos_mid] at hle
      rw [if_neg (by omega), List.append_nil]
      rfl
    · intro hlt
      rw [Buffer.pos_mid] at hlt
      rw [if_pos (by omega), Buffer.size_mid, ← hn]
      exact ⟨_, _, _, rfl⟩

end Settled

end

theorem take_settled (k : Nat) : Settled (take k) fun _ _ _ => True := by
  intro before bytes v b' hx
  by_cases hk : k ≤ bytes.length
  · have hlen : (bytes.take k).length = k := List.length_take_of_le hk
    have hreads : Reads (take k) (bytes.take k) (bytes.take k) := by
      have htake := take_reads (bytes.take k)
      rwa [hlen] at htake
    have hrun := hreads before (bytes.drop k)
    rw [List.take_append_drop, hx] at hrun
    cases hrun
    exact ⟨bytes.take k, bytes.drop k, (List.take_append_drop ..).symm, rfl, fun before' _ =>
      .of_reads hreads⟩
  · unfold take at hx
    rw [GetM.bind_ok (GetM.get_apply _), Buffer.remaining_mid, if_neg hk] at hx
    cases hx

theorem getUnsigned_settled (width : Nat) : Settled (getUnsigned width) fun _ _ _ => True :=
  (take_settled width).map fun _ _ _ => Iff.rfl

theorem getSigned_settled (width : Nat) : Settled (getSigned width) fun _ _ _ => True :=
  (getUnsigned_settled width).map fun _ _ _ => Iff.rfl

theorem get_settled (f : IntFormat) : Settled f.get fun _ _ _ => True := by
  cases f with
  | word => exact getSigned_settled 4
  | byte => exact (getUnsigned_settled 1).map fun _ _ _ => Iff.rfl
  | immediate k => exact .pure fun _ _ _ => trivial

theorem getLength_settled (f : IntFormat) : Settled (getLength f) fun _ _ _ => True :=
  .position fun _ => (get_settled f).bind fun _ => .ite (fun _ => .throw _) fun _ =>
    .pure fun _ _ _ => trivial

theorem getString_settled (f : IntFormat) : Settled (getString f) fun _ _ _ => True := by
  refine (getLength_settled f).bind fun n => .position fun pos =>
    (take_settled n).bind fun bytes => ?_
  cases String.fromUTF8? ⟨bytes.toArray⟩ with
  | none => exact .throw _
  | some s => exact .pure fun _ _ _ => trivial

theorem getPlaces_consumes (count : Nat) :
    Consumes ((List.replicate count ()).mapM fun _ => return UInt16.ofNat (← getUnsigned 2))
      fun _ k => 2 * count ≤ k := by
  induction count with
  | zero => exact .pure (Nat.le_refl _)
  | succ count ih =>
      rw [List.replicate_succ, List.mapM_cons]
      have hone : Consumes (getUnsigned 2 >>= fun n => pure (UInt16.ofNat n)) fun _ k => k = 2 :=
        (getUnsigned_consumes 2).bind fun _ _ h => .pure h
      refine hone.bind fun _ _ h => ih.bind fun _ _ h' => .pure ?_
      omega

theorem getBignum_settled (f : IntFormat) : Settled (getBignum f) fun _ _ _ => True := by
  refine (getUnsigned_settled 1).bind fun _ => (getLength_settled f).bind fun count => ?_
  refine Settled.enough ?_ ?_
  · refine (Settled.mapM_list (fun _ => ?_) _).map fun _ _ _ => Iff.rfl
    exact (getUnsigned_settled 2).map fun _ _ _ => Iff.rfl
  · exact (getPlaces_consumes count).bind fun _ _ h => .pure h

theorem getOrdinal_settled (α : Type) [Table α] {sort : NameSort} {width : Nat} {tag : Tag}
    {i : Nat} : Settled (getOrdinal α sort width tag i) fun _ _ _ => True :=
  (getUnsigned_settled width).bind fun _ => .ite (fun _ => .pure fun _ _ _ => trivial)
    fun _ => .throw _

theorem getScalar_settled (head : Head) (labels : IntFormat) (i : Nat) (kind : FieldKind) :
    Settled (getScalar head labels i kind) fun _ _ _ => True := by
  cases kind with
  | child | arb => exact .throw _
  | typeTag => exact getOrdinal_settled Tag
  | builtin => exact getOrdinal_settled Builtin
  | protocol => exact getOrdinal_settled Protocol
  | declUsage => exact getOrdinal_settled Usage
  | byte | sflo | dflo | treeLength => exact (getUnsigned_settled _).map fun _ _ _ => Iff.rfl
  | halfWord | word | labelFormat => exact (getSigned_settled _).map fun _ _ _ => Iff.rfl
  | label => exact (get_settled labels).map fun _ _ _ => Iff.rfl
  | index => exact (get_settled head.format).map fun _ _ _ => Iff.rfl
  | str => exact (getString_settled head.format).map fun _ _ _ => Iff.rfl
  | bint => exact (getBignum_settled head.format).map fun _ _ _ => Iff.rfl

theorem getCount_settled (tag : Tag) (f : IntFormat) : Settled (getCount tag f)
    fun count stop n => stop + (count - tag.layout.minSlots) ≤ n := by
  refine (get_settled f).bind fun n => .guarded fun hn => ?_
  exact .room fun _ _ => Iff.rfl

theorem getHead_settled : Settled getHead
    fun head stop n => stop + (head.count - head.tag.layout.minSlots) ≤ n := by
  refine .position fun pos => (getUnsigned_settled 1).bind fun n => ?_
  dsimp only
  cases splitByte? (UInt8.ofNat n) with
  | none => exact .throw _
  | some p =>
      refine .ite (fun _ => (getCount_settled p.1 p.2).map fun _ _ _ => Iff.rfl) fun _ => ?_
      have hmin : Settled (pure p.1.layout.minSlots)
          fun count stop n => stop + (count - p.1.layout.minSlots) ≤ n :=
        .pure fun _ _ _ => by omega
      exact hmin.map fun _ _ _ => Iff.rfl

end Codec

/-! ## Counts -/

namespace Tree

variable {α : Type}

/-- The number of slots in the tail. -/
def further (u : Tree α) : Nat := u.fields.length - u.tag.layout.minSlots

/-- In a buffer of the given size, there are as many bytes behind the head of every node as it has
slots in the tail. -/
def CountsFit (size : Nat) (s : Tree Codec.Extent) : Prop :=
  s.Every fun u => u.label.start + u.further ≤ size

/-- The tag byte tells the number of slots, and with it the slots. -/
def SelfCounting (u : Tree α) : Prop :=
  (u.tag = .dfluid ∨ u.tag = .denv) ∧
    (u.fields = [.leaf (.int 1)] ∨ u.fields = [.leaf (.int 2), .leaf (.int 2)])

instance (n : Nat) (s : Tree Codec.Extent) : Decidable (s.CountsFit n) :=
  inferInstanceAs (Decidable (s.Every _))

theorem countsFit_node {n : Nat} {e : Codec.Extent} {tag : Tag}
    {fs : List (Field (Tree Codec.Extent))} : (node e tag fs).CountsFit n ↔
      e.start + (fs.length - tag.layout.minSlots) ≤ n ∧ ∀ t, .child t ∈ fs → t.CountsFit n :=
  every_node

end Tree

namespace Codec

/-! ## Trees -/

section

variable {child : IntFormat → GetM (Tree Extent)} {head : Head}

theorem readField_settled (hchild : ∀ labels, Settled (child labels) fun t _ n => t.CountsFit n)
    (labels : IntFormat) (i : Nat) (kind : FieldKind) :
    Settled (readField child head labels i kind)
      fun f _ n => ∀ t, f = .child t → t.CountsFit n := by
  refine .ite (fun _ => (hchild labels).map fun t _ n => ?_) fun _ =>
    (getScalar_settled head labels i kind).map fun _ _ _ => ?_
  · simp
  · simp

theorem readFields_settled (hchild : ∀ labels, Settled (child labels) fun t _ n => t.CountsFit n)
    (labels : IntFormat) (i : Nat) (kinds : List FieldKind) :
    Settled (readFields child head labels i kinds)
      fun fs _ n => ∀ t, .child t ∈ fs → t.CountsFit n := by
  induction kinds generalizing labels i with
  | nil => exact .pure fun _ _ _ t ht => absurd ht List.not_mem_nil
  | cons kind kinds ih =>
      intro before bytes gs b' h
      obtain ⟨f, c, hf, h⟩ := GetM.bind_eq_ok.mp h
      obtain ⟨fs, c', hfs, h⟩ := GetM.bind_eq_ok.mp h
      cases h
      obtain ⟨l, after, rfl, rfl, hl⟩ := readField_settled hchild labels i kind _ _ _ _ hf
      obtain ⟨m, after, rfl, rfl, hm⟩ := ih _ _ _ _ _ _ hfs
      refine ⟨l ++ m, after, (List.append_assoc ..).symm, by rw [List.append_assoc], ?_⟩
      intro before' hlen
      have hrest := (hm (before' ++ l) (by simp [hlen])).map (f :: ·)
      exact ((hl before' hlen).bind hrest).congr fun n _ => by simp [or_imp, forall_and, eq_comm]

end

theorem readFrom_settled (fuel : Nat) (labels : IntFormat) :
    Settled (readFrom fuel labels) fun s _ n => s.CountsFit n := by
  induction fuel generalizing labels with
  | zero => rintro before bytes s b' ⟨⟩
  | succ fuel ih =>
      intro before bytes s b' h
      obtain ⟨head, c, hhead, h⟩ := GetM.bind_eq_ok.mp h
      obtain ⟨start, _, hstart, h⟩ := GetM.bind_eq_ok.mp h
      cases hstart
      obtain ⟨fs, d, hfs, h⟩ := GetM.bind_eq_ok.mp h
      cases h
      have hlen : fs.length = head.count := by
        obtain ⟨-, k, -, -, haccepts⟩ := getHead_consumes _ _ _ hhead
        obtain ⟨-, n, -, hsound, -⟩ := readFields_consumes (readFrom_consumes fuel) _ _ _ _ _ _ hfs
        rw [← hsound.length_eq, Layout.length_kinds haccepts]
      obtain ⟨l, after, rfl, rfl, hl⟩ := getHead_settled _ _ _ _ hhead
      obtain ⟨m, after, rfl, rfl, hm⟩ := readFields_settled ih labels 0 _ _ _ _ _ hfs
      refine ⟨l ++ m, after, (List.append_assoc ..).symm, by rw [List.append_assoc], ?_⟩
      intro before' hlen'
      have hstart : (before' ++ l).length = (before ++ l).length := by simp [hlen']
      have hstop : (before' ++ l ++ m).length = (before ++ l ++ m).length := by simp [hlen']
      have hnode : Hinges (readFrom (fuel + 1) labels) before' (l ++ (m ++ []))
          (.node ⟨(before' ++ l).length, (before' ++ l ++ m).length⟩ head.tag fs) _ :=
        (hl before' hlen').bind (.position ((hm (before' ++ l) hstart).bind
          (.position (.of_reads (.pure _)))))
      rw [List.append_nil, hstart, hstop] at hnode
      refine hnode.congr fun n _ => ?_
      dsimp only
      rw [Tree.countsFit_node, hlen]
      exact and_congr Iff.rfl (and_iff_left trivial)

/-! ## The bound on the depth -/

section

variable {child child' : IntFormat → GetM (Tree Extent)} {head : Head}

theorem readField_congr {labels : IntFormat} {b : Buffer} (h : child labels b = child' labels b)
    (i : Nat) (kind : FieldKind) :
    readField child head labels i kind b = readField child' head labels i kind b := by
  unfold readField
  by_cases hk : kind = .child
  · rw [if_pos hk, if_pos hk]
    exact GetM.bind_congr h fun _ _ _ => rfl
  · rw [if_neg hk, if_neg hk]

theorem readFields_congr
    (hchild : ∀ labels, Consumes (child' labels) fun t k => t.size ≤ k ∧ t.Sound)
    (labels : IntFormat) (i : Nat) (kinds : List FieldKind) {b : Buffer}
    (h : ∀ labels c, c.remaining ≤ b.remaining → child labels c = child' labels c) :
    readFields child head labels i kinds b = readFields child' head labels i kinds b := by
  induction kinds generalizing labels i b with
  | nil => rfl
  | cons kind kinds ih =>
      refine GetM.bind_congr (readField_congr (h labels b (Nat.le_refl _)) i kind) fun f c hf => ?_
      obtain ⟨k, hrem, -⟩ := (readField_consumes hchild labels i kind).remaining hf
      refine GetM.bind_congr (ih _ _ fun labels d hd => h labels d ?_) fun _ _ _ => rfl
      omega

end

/-- Reading is the same under all bounds that are greater than the number of bytes left. -/
theorem readFrom_fuel {fuel fuel' : Nat} {labels : IntFormat} {b : Buffer} (h : b.remaining < fuel)
    (h' : b.remaining < fuel') : readFrom fuel labels b = readFrom fuel' labels b := by
  induction fuel generalizing fuel' labels b with
  | zero => exact absurd h (Nat.not_lt_zero _)
  | succ fuel ih =>
      obtain ⟨fuel', rfl⟩ := Nat.exists_eq_add_one_of_ne_zero (Nat.ne_of_gt (Nat.zero_lt_of_lt h'))
      refine GetM.bind_congr rfl fun head c hhead => GetM.bind_congr rfl fun start d hstart => ?_
      obtain ⟨k, hrem, hk, -⟩ := getHead_consumes.remaining hhead
      cases hstart
      refine GetM.bind_congr (readFields_congr (readFrom_consumes fuel') _ _ _ ?_) fun _ _ _ => rfl
      exact fun labels d hd => ih (by omega) (by omega)

/-! ## Slots without bytes -/

theorem leastBytes_le {f labels : IntFormat} (h : 1 ≤ labels.width) (kind : FieldKind) :
    leastBytes f .byte kind ≤ leastBytes f labels kind := by
  cases kind <;> first | exact Nat.le_refl _ | exact h

section

variable {child : IntFormat → GetM (Tree Extent)} {head : Head} {labels : IntFormat}

theorem width_afterSlot (h : 1 ≤ labels.width) (kind : FieldKind) (s : Slot) :
    1 ≤ (labelsAfterSlot labels kind s).width := by
  rw [Tree.labelsAfterSlot_eq]
  exact Tree.width_after (p := ⟨.nil, 0, .word, labels⟩) h kind s

theorem readFields_least (hchild : ∀ labels, Consumes (child labels) fun _ k => 1 ≤ k)
    (h : 1 ≤ labels.width) (i : Nat) (kinds : List FieldKind) :
    Consumes (readFields child head labels i kinds)
      fun _ k => (kinds.map (leastBytes head.format .byte)).sum ≤ k := by
  induction kinds generalizing labels i with
  | nil => exact .pure (Nat.le_refl _)
  | cons kind kinds ih =>
      have hfield : Consumes (readField child head labels i kind)
          fun _ k => leastBytes head.format .byte kind ≤ k := by
        refine .ite (fun hk => ?_) fun hk => ?_
        · subst hk
          exact (hchild labels).bind fun _ _ ht => .pure ht
        · exact (getScalar_consumes head labels i kind hk).bind fun _ _ hs =>
            .pure (Nat.le_trans (leastBytes_le h kind) hs.2)
      refine hfield.bind fun f k hf => (ih (width_afterSlot h kind f.blank) _).bind
        fun fs n hfs => .pure ?_
      rw [List.map_cons, List.sum_cons]
      omega

/-- Every child among the fields has been read on the way. -/
theorem child_of_readFields
    (hchild : ∀ labels, Consumes (child labels) fun t k => t.size ≤ k ∧ t.Sound)
    (h : 1 ≤ labels.width) {i : Nat} {kinds : List FieldKind} {b b' : Buffer}
    {fs : List (Field (Tree Extent))} (hfs : readFields child head labels i kinds b = (.ok fs, b'))
    {t : Tree Extent} (ht : .child t ∈ fs) : ∃ labels' c c', 1 ≤ labels'.width ∧
      child labels' c = (.ok t, c') ∧ c'.pos ≤ b'.pos := by
  induction kinds generalizing labels i b fs with
  | nil =>
      cases hfs
      cases ht
  | cons kind kinds ih =>
      obtain ⟨f, c, hf, hfs⟩ := GetM.bind_eq_ok.mp hfs
      obtain ⟨gs, c', hgs, hfs⟩ := GetM.bind_eq_ok.mp hfs
      cases hfs
      rcases List.mem_cons.mp ht with rfl | ht
      · obtain ⟨-, k, hpos, -⟩ := readFields_consumes hchild _ _ _ _ _ _ hgs
        unfold readField at hf
        by_cases hk : kind = .child
        · rw [if_pos hk] at hf
          obtain ⟨u, d, hu, hf⟩ := GetM.bind_eq_ok.mp hf
          cases hf
          exact ⟨labels, b, c, h, hu, by omega⟩
        · rw [if_neg hk] at hf
          obtain ⟨s, d, -, hf⟩ := GetM.bind_eq_ok.mp hf
          cases hf
      · exact ih (width_afterSlot h kind f.blank) hgs ht

/-- Indices whose value the tag byte tells are read from no bytes. -/
theorem readFields_immediate {k : Fin 3} (hformat : head.format = .immediate k) (i n : Nat)
    (b : Buffer) : readFields child head labels i (List.replicate n .index) b =
      (.ok (List.replicate n (.leaf (.int (Int64.ofInt k.val)))), b) := by
  induction n generalizing i with
  | zero => rfl
  | succ n ih =>
      have hslot : readField child head labels i .index b =
          (.ok (.leaf (.int (Int64.ofInt k.val))), b) := by
        unfold readField getScalar
        rw [if_neg (by decide), hformat]
        rfl
      rw [List.replicate_succ, List.replicate_succ, readFields, GetM.bind_ok hslot]
      exact GetM.bind_ok (ih (i + 1))

end

theorem tag_of_index_tail {tag : Tag} (h : tag.layout.tail = some .index) :
    (tag = .dfluid ∨ tag = .denv) ∧ tag.layout.fixed = [] := by
  cases tag <;> first | exact ⟨.inl rfl, rfl⟩ | exact ⟨.inr rfl, rfl⟩ | cases h

/-- The bytes behind the head are as many as the slots in the tail, unless these have none. -/
theorem further_le {fuel : Nat} {labels : IntFormat} {b c b' : Buffer} {head : Head}
    {fs : List (Field (Tree Extent))} (h : 1 ≤ labels.width) (hhead : getHead b = (.ok head, c))
    (hfs : readFields (readFrom fuel) head labels 0 (head.tag.layout.kinds head.count) c =
      (.ok fs, b')) (e : Extent) :
    c.pos + (head.count - head.tag.layout.minSlots) ≤ b'.pos ∨
      (Tree.node e head.tag fs).SelfCounting := by
  obtain ⟨-, -, -, -, haccepts⟩ := getHead_consumes _ _ _ hhead
  obtain ⟨-, -, -, hholds⟩ := getHead_holds _ _ _ hhead
  have hone : ∀ labels, Consumes (readFrom fuel labels) fun _ k => 1 ≤ k := fun labels =>
    (readFrom_consumes fuel labels).mono fun t _ ht =>
    Nat.le_trans t.height_pos (Nat.le_trans t.height_le_size ht.1)
  obtain ⟨-, k, hpos, hk⟩ := readFields_least hone h _ _ _ _ _ hfs
  cases htail : head.tag.layout.tail with
  | none =>
      have hcount : head.count = head.tag.layout.minSlots := by
        simpa [Layout.accepts, Layout.isVariadic, htail] using haccepts
      exact .inl (by omega)
  | some kind =>
      have hv : head.tag.layout.isVariadic = true := by rw [Layout.isVariadic, htail]; rfl
      have hle : head.tag.layout.minSlots ≤ head.count := by
        simpa [Layout.accepts, hv] using haccepts
      obtain ⟨m, hm⟩ := Nat.exists_eq_add_of_le hle
      rw [hm, Layout.kinds_of_tail htail] at hk hfs
      rw [List.map_append, List.sum_append, List.map_replicate, List.sum_replicate_nat] at hk
      by_cases hleast : 1 ≤ leastBytes head.format .byte kind
      · have hmul := Nat.mul_le_mul_left m hleast
        exact .inl (by omega)
      · -- so the tail has indices in no bytes, which are all equal to their number
        obtain rfl : kind = .index := (Tree.tail_kind htail).resolve_right fun hall => by
          rw [hall] at hleast
          exact hleast (Nat.le_refl 1)
        obtain ⟨htag, hfixed⟩ := tag_of_index_tail htail
        obtain ⟨k, hformat⟩ : ∃ k, head.format = .immediate k := by
          cases hf : head.format with
          | immediate k => exact ⟨k, rfl⟩
          | _ =>
              rw [hf] at hleast
              exact absurd (by decide) hleast
        have hcount : head.count = k.val := by
          have hholds := hholds hv
          rw [hformat] at hholds
          exact_mod_cast beq_iff_eq.mp hholds
        have hmin : head.tag.layout.minSlots = 0 := congrArg List.length hfixed
        rw [hfixed, List.nil_append, readFields_immediate hformat] at hfs
        cases hfs
        obtain rfl : m = k.val := by omega
        obtain hk | hk | hk : k.val = 0 ∨ k.val = 1 ∨ k.val = 2 := by omega
        · exact .inl (by omega)
        · rw [hk]
          exact .inr ⟨htag, .inl rfl⟩
        · rw [hk]
          exact .inr ⟨htag, .inr rfl⟩

/-- Behind the head of every node there are as many bytes as it has slots in the tail, up to the end
of the tree. Only for self-counting nodes there need not be. -/
theorem readFrom_further {fuel : Nat} {labels : IntFormat} {b b' : Buffer} {s : Tree Extent}
    (h : 1 ≤ labels.width) (hs : readFrom fuel labels b = (.ok s, b')) : s.Every fun u =>
      u.label.start ≤ b'.pos ∧ (u.label.start + u.further ≤ b'.pos ∨ u.SelfCounting) := by
  induction fuel generalizing labels b b' s with
  | zero => cases hs
  | succ fuel ih =>
      obtain ⟨head, c, hhead, hs⟩ := GetM.bind_eq_ok.mp hs
      obtain ⟨start, _, hstart, hs⟩ := GetM.bind_eq_ok.mp hs
      cases hstart
      obtain ⟨fs, d, hfs, hs⟩ := GetM.bind_eq_ok.mp hs
      cases hs
      obtain ⟨-, k, hpos, hsound, -⟩ := readFields_consumes (readFrom_consumes fuel) _ _ _ _ _ _ hfs
      obtain ⟨-, -, -, -, haccepts⟩ := getHead_consumes _ _ _ hhead
      have hlen : fs.length = head.count := by
        rw [← hsound.length_eq, Layout.length_kinds haccepts]
      refine .node ⟨show c.pos ≤ b'.pos by omega, ?_⟩ fun t ht => ?_
      · rw [Tree.further, Tree.fields, hlen]
        exact further_le h hhead hfs _
      · obtain ⟨labels', e, e', hlabels', ht', hle⟩ :=
          child_of_readFields (readFrom_consumes fuel) h hfs ht
        exact (ih hlabels' ht').imp fun u hu =>
          ⟨Nat.le_trans hu.1 hle, hu.2.imp_left fun hu => Nat.le_trans hu hle⟩

end Codec

namespace Tree

variable {s : Tree Codec.Extent} {stop n : Nat}

theorem countsFit_of_further (h : s.Every fun u =>
      u.label.start ≤ stop ∧ (u.label.start + u.further ≤ stop ∨ u.SelfCounting))
    (hn : stop + 2 ≤ n) : s.CountsFit n := by
  refine h.imp fun u hu => ?_
  rcases hu with ⟨hstart, hle | hcounts⟩
  · omega
  · have hfields : u.fields.length ≤ 2 := by
      rcases hcounts.2 with hf | hf <;> rw [hf] <;> decide
    have hle : u.further ≤ u.fields.length := Nat.sub_le ..
    omega

theorem countsFit_of_not_selfCounting (h : s.Every fun u =>
      u.label.start ≤ stop ∧ (u.label.start + u.further ≤ stop ∨ u.SelfCounting))
    (hs : s.Every fun u => ¬u.SelfCounting) (hn : stop ≤ n) : s.CountsFit n := by
  induction hs with
  | node here _ ih =>
      obtain ⟨⟨-, hle⟩, hbelow⟩ := every_node.mp h
      exact .node (Nat.le_trans (hle.resolve_right here) hn) fun t ht => ih t ht (hbelow t ht)

end Tree

namespace Codec

/-! ## Agreeing buffers -/

/-- A buffer with given bytes at a given position. -/
theorem Buffer.eq_mid_of_agrees {before l after : List UInt8} {c : Buffer}
    (hpos : c.pos = before.length) (h : ∀ i, before.length ≤ i → i < before.length + l.length →
      c.bytes[i]? = (mid before (l ++ after)).bytes[i]?) :
    ∃ before' after', before'.length = before.length ∧ c = .mid before' (l ++ after') := by
  have hahead : (c.toList.drop c.pos).take l.length = l := by
    apply List.ext_getElem?
    intro i
    by_cases hi : i < l.length
    · have hbyte := h (before.length + i) (by omega) (by omega)
      rw [List.getElem?_take_of_lt hi, List.getElem?_drop, hpos, Buffer.toList,
        Array.getElem?_toList, hbyte, Buffer.mid, List.getElem?_toArray,
        List.getElem?_append_right (Nat.le_add_right ..), Nat.add_sub_cancel_left,
        List.getElem?_append_left hi]
    · rw [List.getElem?_eq_none (by simp; omega), List.getElem?_eq_none (by omega)]
  refine ⟨c.toList.take c.pos, (c.toList.drop c.pos).drop l.length, ?_, ?_⟩
  · rw [List.length_take, ← hpos]
    exact Nat.min_eq_left c.pos_le
  · conv_lhs => rw [c.eq_mid]
    conv_lhs => rw [← List.take_append_drop l.length (c.toList.drop c.pos), hahead]

/-- What has been read from some bytes is read wherever they stand at that position, if the counts
fit there. If not, bytes are asked for that there are not. -/
theorem read_agreeing {b b' c : Buffer} {s : Tree Extent} (h : read b = (.ok s, b'))
    (hpos : c.pos = b.pos)
    (hbytes : ∀ i, b.pos ≤ i → i < b'.pos → c.bytes[i]? = b.bytes[i]?) : b'.pos ≤ c.size ∧
    (s.CountsFit c.size → read c = (.ok s, c.seek b'.pos)) ∧
    (¬s.CountsFit c.size →
      ∃ pos wanted d, read c = (.error (.unexpectedEnd pos wanted c.size), d)) := by
  -- one bound on the depth does for both buffers
  have hread : ∀ e : Buffer, e.remaining ≤ b.remaining + c.remaining →
      read e = readFrom (b.remaining + c.remaining + 1) .word e := by
    intro e he
    exact readFrom_fuel (Nat.lt_succ_self _) (Nat.lt_succ_of_le he)
  rw [hread b (by omega)] at h
  rw [hread c (by omega)]
  obtain ⟨before, bytes, rfl⟩ : ∃ before bytes, b = .mid before bytes := ⟨_, _, b.eq_mid⟩
  obtain ⟨l, after, rfl, rfl, hl⟩ := readFrom_settled _ _ _ _ _ _ h
  have hend : (Buffer.mid (before ++ l) after).pos = before.length + l.length := List.length_append
  rw [hend] at hbytes ⊢
  obtain ⟨before', after', hlen, rfl⟩ := Buffer.eq_mid_of_agrees hpos hbytes
  rw [← hlen, Buffer.seek_mid]
  refine ⟨?_, hl before' hlen after' _ (by rw [Buffer.size_mid])⟩
  rw [Buffer.size_mid, List.length_append]
  omega

/-- What has been decoded depends on the bytes that were taken for it, and on no others but for the
counts: where the same bytes stand at the same position an equal tree is decoded, if the counts fit
there, and else decoding asks for bytes that there are not. With two bytes more the counts always
fit, and without self-counting nodes they do anyway. -/
theorem decode_agreeing {a a' d : Arena} {b b' c : Buffer} {id : NodeId} (hw : a.WellFormed)
    (hrun : (decode.run.run b).run a = .ok ((.ok id, b'), a'))
    (hids : a'.capacity ≤ Arena.idLimit) (hpos : c.pos = b.pos)
    (hbytes : ∀ i, b.pos ≤ i → i < b'.pos → c.bytes[i]? = b.bytes[i]?) (hd : d.WellFormed) :
    ∃ s : Tree Extent, read b = (.ok s, b') ∧
      (s.CountsFit c.size → d.Room s.size → ∃ (u : Tree NodeId) (d' : Arena),
        (decode.run.run c).run d = .ok ((.ok u.label, c.seek b'.pos), d') ∧ u.In d' ∧
        u.form = s.form ∧ a'.equal id d' u.label = .ok true) ∧
      (¬s.CountsFit c.size → d.Room c.remaining → ∃ pos wanted c' d',
        (decode.run.run c).run d = .ok ((.error (.unexpectedEnd pos wanted c.size), c'), d') ∧
        ∀ x, d'.get? x = d.get? x) ∧
      (b'.pos + 2 ≤ c.size ∨ (s.Every fun u => ¬u.SelfCounting) → s.CountsFit c.size) := by
  obtain ⟨s, t, hread, rfl, hform, hgrows⟩ := decode_eq_ok hw hrun hids
  obtain ⟨hsize, hok, hfail⟩ := read_agreeing hread hpos hbytes
  refine ⟨s, hread, fun hfit hroom => ?_, fun hfit hroom => ?_, ?_⟩
  · obtain ⟨u, d', hrun', huform, hgrows'⟩ :=
      decode_of_read (hok hfit) hd (by rwa [Tree.size_form])
    have ht : t.In a' := hgrows.placed t List.mem_cons_self
    have hu : u.In d' := hgrows'.placed u List.mem_cons_self
    refine ⟨u, d', hrun', hu, huform, ?_⟩
    rw [Arena.equal_eq hgrows.wellFormed hgrows'.wellFormed ht hu, hform, huform,
      Tree.equal_false_iff.mpr rfl]
  · obtain ⟨pos, wanted, c', hfail⟩ := hfail hfit
    have hm := decode_mirrors hd (roomFor_read hroom)
    rw [hfail] at hm
    obtain ⟨d', hrun', hrestores⟩ := hm
    exact ⟨pos, wanted, c', d', hrun', hrestores.get?⟩
  · have hfurther := readFrom_further (by decide) hread
    rintro (hmore | hnone)
    · exact Tree.countsFit_of_further hfurther hmore
    · exact Tree.countsFit_of_not_selfCounting hfurther hnone hsize

/-- An environment of one level is one byte, and asks for another one. Any will do. -/
theorem decode_agreeing_env :
    let b : Buffer := .mid [9] [193, 7]
    let b' : Buffer := .mid [9, 193] [7]
    let c : Buffer := .mid [6] [193, 5]
    let a' : Arena := .ofRows [some (.bare .denv [.int 1])] []
    let s : Tree Extent := .node ⟨2, 2⟩ .denv [.leaf (.int 1)]
    (decode.run.run b).run .empty = .ok ((.ok ⟨0⟩, b'), a') ∧ a'.capacity ≤ Arena.idLimit ∧
      c.pos = b.pos ∧ (∀ i, b.pos ≤ i → i < b'.pos → c.bytes[i]? = b.bytes[i]?) ∧
      read b = (.ok s, b') ∧ s.CountsFit c.size ∧ ∃ (u : Tree NodeId) (d' : Arena),
      (decode.run.run c).run .empty = .ok ((.ok u.label, c.seek b'.pos), d') ∧ u.In d' ∧
      u.form = s.form ∧ a'.equal ⟨0⟩ d' u.label = .ok true := by
  intro b b' c a' s
  have hrun : (decode.run.run b).run .empty = .ok ((.ok ⟨0⟩, b'), a') := by
    unfold b b' a'
    rfl
  have hids : a'.capacity ≤ Arena.idLimit := by decide
  have hpos : c.pos = b.pos := rfl
  have hbytes : ∀ i, b.pos ≤ i → i < b'.pos → c.bytes[i]? = b.bytes[i]? := by
    intro i hi hi'
    obtain rfl : i = 1 := Nat.le_antisymm (Nat.le_of_lt_succ hi') hi
    rfl
  have hread : read b = (.ok s, b') := by
    unfold b b' s
    rfl
  have hfit : s.CountsFit c.size := by decide
  obtain ⟨s', hread', hok, -, -⟩ := decode_agreeing Arena.empty_wellFormed hrun hids hpos hbytes
    Arena.empty_wellFormed
  obtain rfl : s = s' := Except.ok.inj (Prod.mk.inj (hread.symm.trans hread')).1
  exact ⟨hrun, hids, hpos, hbytes, hread, hfit, hok hfit (by decide)⟩

/-- So the same bytes need not be decoded if less follows them: an environment of two levels is one
byte, and two more are asked for. -/
theorem not_decode_agreeing : ¬ ∀ (a a' d : Arena) (b b' c : Buffer) (id : NodeId), a.WellFormed →
    (decode.run.run b).run a = .ok ((.ok id, b'), a') → a'.capacity ≤ Arena.idLimit →
    c.pos = b.pos → b'.pos ≤ c.size →
    (∀ i, b.pos ≤ i → i < b'.pos → c.bytes[i]? = b.bytes[i]?) → d.WellFormed → d.Room c.size →
    ∃ v c' d', (decode.run.run c).run d = .ok ((.ok v, c'), d') := by
  intro h
  obtain ⟨v, c', d', hrun⟩ := h .empty (.ofRows [some (.bare .denv [.int 2, .int 2])] []) .empty
    (.ofList [232, 0, 0]) (.mid [232] [0, 0]) (.ofList [232]) ⟨0⟩ Arena.empty_wellFormed (by rfl)
    (by decide) rfl (by decide) (fun i _ hi => by
      obtain rfl : i = 0 := Nat.lt_one_iff.mp hi
      rfl) Arena.empty_wellFormed (by decide)
  have hfails : ((decode.run.run (.ofList [232])).run .empty).toOption.map (fun p => p.1.1.isOk) =
      some false := by decide +kernel
  rw [hrun] at hfails
  cases hfails

end Codec

end Foam
