import Foam.Proofs.Codec.RoundTrip

/-!
# Passing over what was written

Passing over a tree takes the bytes that decoding takes, though it goes another way: it leaves a
procedure in one step, by the number that the procedure begins with, and reads all labels as words.
Labels have another format inside procedures only.
-/

namespace Foam

/-- Only procedures have a label format of their own. -/
theorem Tag.labelFormat_notMem {tag : Tag} (h : tag ≠ .prog) (n : Nat) :
    .labelFormat ∉ tag.layout.kinds n := by
  intro hmem
  rcases Layout.kind_of_mem hmem with hmem | htail
  · cases tag <;> first | exact h rfl | simp [Tag.layout] at hmem
  · cases tag <;> cases htail

namespace Codec

/-- A procedure that begins with the number of its bytes is passed over. -/
theorem skipProg_reads {bytes rest : List UInt8} (hlt : bytes.length < 2 ^ 32)
    (h : bytes = Word.ofInt 4 bytes.length ++ rest) : Reads skipProg bytes () := by
  intro before after
  have hfour : (Word.ofInt 4 bytes.length).length = 4 := Word.length_ofInt ..
  have hlen : bytes.length = 4 + rest.length := by
    have := congrArg List.length h
    rwa [List.length_append, hfour] at this
  have hword : Reads (getUnsigned 4) (Word.ofInt 4 bytes.length) bytes.length := by
    have := getUnsigned_reads (Word.ofInt 4 bytes.length)
    rwa [hfour, Word.ofBytes_ofInt_length hlt] at this
  have hread : getUnsigned 4 (.mid before (bytes ++ after)) =
      (.ok bytes.length, .mid (before ++ Word.ofInt 4 bytes.length) (rest ++ after)) := by
    have := hword before (rest ++ after)
    rwa [← List.append_assoc, ← h] at this
  unfold skipProg
  rw [GetM.bind_ok (GetM.get_apply _), GetM.bind_ok hread, if_neg (by simp; omega)]
  have hseek := Buffer.seek_mid (before ++ Word.ofInt 4 bytes.length) rest after
  rw [List.append_assoc, ← h, List.length_append, hfour, Nat.add_assoc, ← hlen] at hseek
  exact congrArg (Prod.mk _) hseek

end Codec

namespace Tree

open Codec

theorem labels_after {p : Place} {kind : FieldKind} (h : kind ≠ .labelFormat) (s : Slot) :
    (p.after kind s).labels = p.labels := by
  cases kind <;> first | rfl | exact absurd rfl h

/-- The fields of a node are passed over if its children are. -/
theorem Written.skips {child : GetM Unit} {head : Head} {p : Place} {kinds : List FieldKind}
    {fs : List (Field Form)} {bytes : List UInt8} (h : Written p kinds fs bytes)
    (hformat : head.format = p.format) (hlabels : p.labels = .word)
    (hkinds : .labelFormat ∉ kinds) (hlt : bytes.length < 2 ^ 32)
    (hchild : ∀ t, .child t ∈ fs → ∀ l, t.encode .word = pure l → l.length < 2 ^ 32 →
      Reads child l ()) (i : Nat) : Reads (skipSlots child head i kinds) bytes () := by
  induction h generalizing i with
  | nil p => exact .pure ()
  | @leaf p kind kinds s fs own rest hk hs hown _ ih =>
      -- without a label count here, labels stay words for the fields that follow
      have hkind : kind ≠ .labelFormat := by
        rintro rfl
        exact hkinds List.mem_cons_self
      have hread := getScalar_slot i hformat hk hs hown
      rw [List.length_append] at hlt
      rw [skipSlots, if_neg hs.1]
      rw [hlabels] at hread
      exact hread.bind (ih hformat ((labels_after hkind s).trans hlabels)
        (fun h => hkinds (List.mem_cons_of_mem _ h)) (by omega)
        (fun t ht => hchild t (List.mem_cons_of_mem _ ht)) (i + 1))
  | @treeLength p kinds v fs rest _ ih =>
      have hread := getScalar_treeLength head .word i (Word.length_ofInt 4 (rest.length + 4))
      rw [List.length_append] at hlt
      exact hread.bind (ih hformat hlabels (fun h => hkinds (List.mem_cons_of_mem _ h))
        (by omega) (fun t ht => hchild t (List.mem_cons_of_mem _ ht)) (i + 1))
  | @child p kinds t fs bytes rest hbytes _ ih =>
      rw [List.length_append] at hlt
      rw [hlabels] at hbytes
      exact (hchild t List.mem_cons_self bytes hbytes (by omega)).bind
        (ih hformat hlabels (fun h => hkinds (List.mem_cons_of_mem _ h)) (by omega)
          (fun t ht => hchild t (List.mem_cons_of_mem _ ht)) (i + 1))

theorem skipFrom_encode {t : Form} (ht : t.Valid) {bytes : List UInt8}
    (h : t.encode .word = pure bytes) (hlt : bytes.length < 2 ^ 32) {fuel : Nat}
    (hfuel : t.height ≤ fuel) : Reads (skipFrom fuel) bytes () := by
  induction t using induct generalizing bytes fuel with
  | node l tag fs ih =>
      obtain ⟨haccepts, -, hbelow⟩ := obeys_node.mp ht
      obtain ⟨head, rest, rfl, hwritten, hhead⟩ := enter ht (by decide) h
      obtain ⟨d, rfl⟩ : ∃ d, fuel = d + 1 :=
        Nat.exists_eq_add_one_of_ne_zero (Nat.ne_of_gt (Nat.lt_of_lt_of_le (height_pos _) hfuel))
      rw [List.length_append] at hlt
      apply reads_of_head hhead
      intro pos
      by_cases hprog : tag = .prog
      · -- a procedure is left in one step, whatever is in it
        subst hprog
        obtain ⟨m, hm⟩ := hwritten.prog_bytes haccepts
        exact skipProg_reads (by omega) hm
      · show Reads (if tag = .prog then _ else _) _ _
        rw [if_neg hprog]
        apply hwritten.skips rfl rfl (Tag.labelFormat_notMem hprog _) (by omega)
        intro t ht m hm hlt
        have := height_lt l tag ht
        exact ih t ht (hbelow t ht) hm hlt (by omega)

/-- The bytes of a form are passed over. -/
theorem skip_encode {t : Form} (ht : t.Valid) {bytes : List UInt8}
    (h : t.encode .word = pure bytes) (hlt : bytes.length < 2 ^ 32) : Reads skip bytes () := by
  refine .get fun b hb => skipFrom_encode ht h hlt ?_
  have := height_le_size t
  have := size_le_encode ht h
  omega

/-- What has been encoded is passed over. -/
theorem In.skips {a : Arena} {t : Tree NodeId} (hw : a.WellFormed) (ht : t.In a)
    (htable : t.InTable) {bytes : List UInt8} (h : Codec.encode a t.label = pure bytes)
    (hlt : bytes.length < 2 ^ 32) : Reads skip bytes () := by
  rw [encode_eq ht] at h
  exact skip_encode (ht.valid_narrowed hw htable) h hlt

end Tree

namespace Codec

/-- Passing over a tree ends where decoding it ends, whatever stands before and after the bytes.
Both go by the lengths of procedures: in the tree that is read every procedure, however deep, begins
with the distance from there to its end. -/
theorem skip_agrees_with_decode {a : Arena} {t : Tree NodeId} (hw : a.WellFormed) (ht : t.In a)
    (htable : t.InTable) {bytes : List UInt8} (h : encode a t.label = pure bytes)
    (hlt : bytes.length < 2 ^ 32) (before after : List UInt8) :
    (skip.run.run (.mid before (bytes ++ after))).run =
      (.ok (), .mid (before ++ bytes) after) ∧
    ∃ s : Tree Extent, (read.run.run (.mid before (bytes ++ after))).run =
        (.ok s, .mid (before ++ bytes) after) ∧
      s.form = t.form.recoded ∧ Tree.LengthsHold (before ++ bytes ++ after) s ∧
      ∀ dst : Arena, dst.WellFormed → dst.Room s.size → ∃ (u : Tree NodeId) (dst' : Arena),
        (decode.run.run (.mid before (bytes ++ after))).run dst =
          .ok ((.ok u.label, .mid (before ++ bytes) after), dst') ∧
        u.In dst' ∧ u.form = s.form := by
  obtain ⟨s, hread, hs, hlengths⟩ := ht.gives hw htable h before after
  refine ⟨ht.skips hw htable h hlt before after, s, hread, hs, hlengths hlt, ?_⟩
  intro dst hdst hroom
  obtain ⟨u, dst', hrun, hform, hgrows⟩ :=
    decode_of_read hread hdst (by rwa [Tree.size_form])
  exact ⟨u, dst', hrun, hgrows.placed u List.mem_cons_self, hform⟩

/-- A procedure in the body of another one, which has more labels. -/
theorem skip_nested_procedures :
    let a : Arena := .ofRows [some (.bare .goto [.int 1]),
      some (.bare .prog (.int 0 :: .int 2 :: List.replicate 6 (.int 0) ++ [.code ⟨0⟩])),
      some (.bare .prog
        (.int 0 :: .int 300 :: List.replicate 6 (.int 0) ++ [.code ⟨1⟩, .code ⟨0⟩]))] []
    let goto : Tree NodeId := .node ⟨0⟩ .goto [.leaf (.int 1)]
    let inner : Tree NodeId := .node ⟨1⟩ .prog
      (.leaf (.int 0) :: .leaf (.int 2) :: List.replicate 6 (.leaf (.int 0)) ++ [.child goto])
    let t : Tree NodeId := .node ⟨2⟩ .prog (.leaf (.int 0) :: .leaf (.int 300) ::
      List.replicate 6 (.leaf (.int 0)) ++ [.child inner, .child goto])
    let body : List UInt8 := [0, 0, 0, 31, 0, 0, 0, 2] ++ List.replicate 21 0 ++ [35, 1]
    let bytes : List UInt8 := [128, 10, 0, 0, 0, 67, 0, 0, 1, 44] ++ List.replicate 21 0 ++
      [128, 9] ++ body ++ [35, 0, 0, 0, 1]
    a.WellFormed ∧ t.In a ∧ t.InTable ∧ encode a t.label = pure bytes ∧ bytes.length < 2 ^ 32 ∧
      (skip.run.run (.mid [7] (bytes ++ [8, 9]))).run = (.ok (), .mid ([7] ++ bytes) [8, 9]) ∧
      ∃ s : Tree Extent, (read.run.run (.mid [7] (bytes ++ [8, 9]))).run =
        (.ok s, .mid ([7] ++ bytes) [8, 9]) ∧ Tree.LengthsHold ([7] ++ bytes ++ [8, 9]) s := by
  intro a goto inner t body bytes
  have hw : a.WellFormed := by decide
  have ht : t.In a := by decide
  have htable : t.InTable := by decide
  have hbytes : encode a t.label = pure bytes := by decide +kernel
  have hlt : bytes.length < 2 ^ 32 := by decide
  obtain ⟨hskip, s, hread, -, hlengths, -⟩ :=
    skip_agrees_with_decode hw ht htable hbytes hlt [7] [8, 9]
  exact ⟨hw, ht, htable, hbytes, hlt, hskip, s, hread, hlengths⟩

end Codec

end Foam
