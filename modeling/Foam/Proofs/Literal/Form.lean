import Foam.Literal
import Foam.Proofs.Arena.Growth
import Foam.Proofs.Sound
import Mathlib.Algebra.Group.Int.Defs

/-!
# The expression for a wide literal

`Literal.form v` is the form of what `buildNarrow v` makes: the literal itself if it is narrow, else
an expression over its digits. No literal in it is wide, and its value is `v` again.
-/

namespace Foam

namespace Tree

/-- Payloads are sound, and none is a length. -/
abbrev Plain {α : Type} (t : Tree α) : Prop := t.Obeys fun k s => s.Sound k ∧ k ≠ .treeLength

/-- The form of an integer literal. -/
def sint (v : Int64) : Form := node () .sint [.leaf (.int v)]

/-- The form of a builtin call. -/
def bcall (op : Builtin) (args : List Form) : Form :=
  node () .bcall (.leaf (Instr.row op) :: args.map .child)

theorem plain_sint (v : Int64) : (sint v).Plain := by
  refine obeys_node.mpr ⟨rfl, .cons ⟨⟨by decide, rfl, rfl⟩, by decide⟩ .nil, ?_⟩
  intro t ht
  simp at ht

theorem ofOrdinal?_row (op : Builtin) :
    (Table.ofOrdinal? (Int64.ofNat (Table.ordinal op)).toInt : Option Builtin) = some op := by
  have hsize : Table.size Builtin < 2 ^ 63 := by decide +kernel
  have hlt : Table.ordinal op < Table.size Builtin :=
    (List.getElem?_eq_some_iff.mp (Table.rows_ordinal op)).1
  rw [Int64.toInt_ofNat_of_lt (Nat.lt_trans hlt hsize), Table.ofOrdinal?_ordinal]

theorem inTable_row (op : Builtin) : (Instr.row op).inTable .builtin = true := by
  show (Table.ofOrdinal? (Int64.ofNat (Table.ordinal op)).toInt : Option Builtin).isSome = true
  rw [ofOrdinal?_row]
  rfl

theorem kinds_bcall (n : Nat) :
    Tag.bcall.layout.kinds (n + 1) = .builtin :: List.replicate n .child := by
  rw [Nat.add_comm]
  exact Layout.kinds_of_tail (l := Tag.bcall.layout) rfl n

theorem forall₂_child {α : Type} {P : FieldKind → Slot → Prop} (ts : List (Tree α)) :
    List.Forall₂ (Field.Obeys P) (List.replicate ts.length .child) (ts.map .child) := by
  induction ts with
  | nil => exact .nil
  | cons t ts ih => exact .cons rfl ih

theorem subtrees_map_child {α : Type} (ts : List (Tree α)) : subtrees (ts.map .child) = ts := by
  induction ts with
  | nil => rfl
  | cons t ts ih => rw [List.map_cons, subtrees_child, ih]

theorem plain_bcall {op : Builtin} {args : List Form} (h : ∀ t ∈ args, t.Plain) :
    (bcall op args).Plain := by
  refine obeys_node.mpr ⟨?_, ?_, ?_⟩
  · simp [Layout.accepts, Tag.layout, Layout.isVariadic, Layout.minSlots]
  · rw [List.length_cons, List.length_map, kinds_bcall]
    exact .cons ⟨⟨by decide, rfl, inTable_row op⟩, by decide⟩ (forall₂_child args)
  · intro t ht
    rcases List.mem_cons.mp ht with ht | ht
    · cases ht
    · obtain ⟨u, hu, hut⟩ := List.mem_map.mp ht
      cases hut
      exact h t hu

end Tree

namespace Literal

open Foam.Tree

/-! ## Digits -/

theorem digits_eq (n : Nat) : digits n =
    if n < 2 ^ digitBits then [n] else digits (n / 2 ^ digitBits) ++ [n % 2 ^ digitBits] := by
  rw [digits]
  rfl

theorem digits_of_lt {n : Nat} (h : n < 2 ^ digitBits) : digits n = [n] := by
  rw [digits_eq, if_pos h]

theorem digits_of_le {n : Nat} (h : 2 ^ digitBits ≤ n) :
    digits n = digits (n / 2 ^ digitBits) ++ [n % 2 ^ digitBits] := by
  rw [digits_eq, if_neg (Nat.not_lt.mpr h)]

theorem digits_ne_nil (n : Nat) : digits n ≠ [] := by
  by_cases h : n < 2 ^ digitBits
  · simp [digits_of_lt h]
  · simp [digits_of_le (Nat.le_of_not_lt h)]

theorem digits_lt {n d : Nat} (h : d ∈ digits n) : d < 2 ^ digitBits := by
  induction n using Nat.strongRecOn with
  | _ n ih =>
      by_cases hn : n < 2 ^ digitBits
      · rw [digits_of_lt hn, List.mem_singleton] at h
        exact h ▸ hn
      · have hn := Nat.le_of_not_lt hn
        rw [digits_of_le hn, List.mem_append, List.mem_singleton] at h
        rcases h with h | rfl
        · refine ih _ (Nat.div_lt_self ?_ (by decide)) h
          exact Nat.lt_of_lt_of_le (Nat.two_pow_pos _) hn
        · exact Nat.mod_lt _ (Nat.two_pow_pos _)

/-- Read from the left, the digits give the number. -/
theorem foldl_digits (n : Nat) :
    (digits n).foldl (fun m d => m * 2 ^ digitBits + d) 0 = n := by
  induction n using Nat.strongRecOn with
  | _ n ih =>
      by_cases hn : n < 2 ^ digitBits
      · simp [digits_of_lt hn]
      · have hn := Nat.le_of_not_lt hn
        have hlt : n / 2 ^ digitBits < n :=
          Nat.div_lt_self (Nat.lt_of_lt_of_le (Nat.two_pow_pos _) hn) (by decide)
        rw [digits_of_le hn, List.foldl_append, ih _ hlt]
        exact Nat.div_add_mod' n _

theorem div_digit_lt {n k : Nat} (h : n < 2 ^ (digitBits * (k + 1))) :
    n / 2 ^ digitBits < 2 ^ (digitBits * k) := by
  apply Nat.div_lt_of_lt_mul
  rwa [← Nat.pow_add, Nat.add_comm, ← Nat.mul_succ]

theorem length_digits_le {n k : Nat} (h : n < 2 ^ (digitBits * (k + 1))) :
    (digits n).length ≤ k + 1 := by
  induction k generalizing n with
  | zero =>
      rw [digits_of_lt (by simpa using h)]
      rfl
  | succ k ih =>
      by_cases hn : n < 2 ^ digitBits
      · rw [digits_of_lt hn]
        exact Nat.le_add_left ..
      · have hlen := ih (div_digit_lt h)
        rw [digits_of_le (Nat.le_of_not_lt hn), List.length_append, List.length_singleton]
        omega

/-! ## The expression -/

/-- The expression `acc`, continued by one digit. -/
def appendForm (acc : Form) (digit : Nat) : Form :=
  bcall .sintOr [bcall .sintShiftUp [acc, sint (Int64.ofNat digitBits)], sint (Int64.ofNat digit)]

/-- The form that stands for a literal. -/
def form (v : Int64) : Form :=
  if isNarrow v then sint v
  else
    match digits v.toInt.natAbs with
    | [] => sint v
    | top :: rest =>
      let acc := rest.foldl appendForm (sint (Int64.ofNat top))
      if v < 0 then bcall .sintNegate [acc] else acc

theorem form_of_narrow {v : Int64} (h : isNarrow v = true) : form v = sint v := if_pos h

/-- The form of a wide literal, by its digits. -/
theorem form_of_wide {v : Int64} (h : ¬isNarrow v = true) :
    ∃ top rest, digits v.toInt.natAbs = top :: rest ∧
      form v = if v < 0 then
          bcall .sintNegate [rest.foldl appendForm (sint (Int64.ofNat top))]
        else rest.foldl appendForm (sint (Int64.ofNat top)) := by
  cases hds : digits v.toInt.natAbs with
  | nil => exact absurd hds (digits_ne_nil _)
  | cons top rest =>
      refine ⟨top, rest, rfl, ?_⟩
      rw [form, if_neg h, hds]

theorem isNarrow_iff {v : Int64} :
    isNarrow v = true ↔ -(2 : Int) ^ 31 ≤ v.toInt ∧ v.toInt < 2 ^ 31 := by
  rw [isNarrow, Bool.and_eq_true, decide_eq_true_eq, decide_eq_true_eq]
  rfl

theorem isNarrow_digit {d : Nat} (h : d < 2 ^ digitBits) : isNarrow (Int64.ofNat d) = true := by
  have hd : d < 2 ^ 31 := h
  rw [isNarrow_iff, Int64.toInt_ofNat_of_lt (by omega)]
  omega

/-- The operator takes so many integers and gives one. -/
def IsIntOp (op : Builtin) (n : Nat) : Prop :=
  op.params = List.replicate n .sint ∧ op.result = .sint

/-- What holds of a narrow literal, and of calls of shift, `or` and negation on what it holds of,
holds of the form of every literal. -/
theorem form_induct {P : Form → Prop} (hsint : ∀ v, isNarrow v = true → P (sint v))
    (hbcall : ∀ op args, IsIntOp op args.length → (∀ t ∈ args, P t) → P (bcall op args))
    (v : Int64) : P (form v) := by
  have hdigit : ∀ d < 2 ^ digitBits, P (sint (Int64.ofNat d)) := by
    intro d hd
    exact hsint _ (isNarrow_digit hd)
  have happend : ∀ acc d, P acc → d < 2 ^ digitBits → P (appendForm acc d) := by
    intro acc d hacc hd
    apply hbcall _ _ ⟨rfl, rfl⟩
    intro t ht
    rcases List.mem_pair.mp ht with rfl | rfl
    · apply hbcall _ _ ⟨rfl, rfl⟩
      intro t ht
      rcases List.mem_pair.mp ht with rfl | rfl
      · exact hacc
      · exact hdigit _ (by decide)
    · exact hdigit d hd
  -- the accumulator changes from digit to digit, so it is general in the induction
  have hfold : ∀ (ds : List Nat) acc, P acc → (∀ d ∈ ds, d < 2 ^ digitBits) →
      P (ds.foldl appendForm acc) := by
    intro ds
    induction ds with
    | nil =>
        intro acc hacc _
        exact hacc
    | cons d ds ih =>
        intro acc hacc hds
        apply ih _ (happend acc d hacc (hds d List.mem_cons_self))
        intro e he
        exact hds e (List.mem_cons_of_mem _ he)
  by_cases hv : isNarrow v = true
  · rw [form_of_narrow hv]
    exact hsint v hv
  · obtain ⟨top, rest, hds, hform⟩ := form_of_wide hv
    have hlt : ∀ d ∈ top :: rest, d < 2 ^ digitBits := by
      intro d hd
      exact digits_lt (hds ▸ hd)
    have hacc : P (rest.foldl appendForm (sint (Int64.ofNat top))) := by
      apply hfold rest _ (hdigit top (hlt top List.mem_cons_self))
      intro d hd
      exact hlt d (List.mem_cons_of_mem _ hd)
    rw [hform]
    split
    · apply hbcall _ _ ⟨rfl, rfl⟩
      intro t ht
      rwa [List.mem_singleton.mp ht]
    · exact hacc

theorem plain_form (v : Int64) : (form v).Plain :=
  form_induct (fun v _ => plain_sint v) (fun _ _ _ h => plain_bcall h) v

theorem size_bcall (op : Builtin) (args : List Form) :
    (bcall op args).size = (args.map Tree.size).sum + 1 := by
  rw [bcall, size_node, subtrees_leaf, subtrees_map_child]

theorem size_foldl_appendForm (ds : List Nat) (acc : Form) :
    (ds.foldl appendForm acc).size = acc.size + 4 * ds.length := by
  induction ds generalizing acc with
  | nil => rfl
  | cons d ds ih =>
      have hsint : ∀ v, (sint v).size = 1 := fun _ => rfl
      rw [List.foldl_cons, ih, appendForm, size_bcall, List.map_cons, List.map_cons, size_bcall]
      simp only [hsint, List.map_cons, List.map_nil, List.sum_cons, List.sum_nil, List.length_cons]
      omega

/-- A literal has three digits at most. -/
theorem size_form_le (v : Int64) : (form v).size ≤ 10 := by
  have hsint : ∀ v, (sint v).size = 1 := fun _ => rfl
  by_cases hv : isNarrow v = true
  · rw [form_of_narrow hv, hsint]
    decide
  · have hlen : (digits v.toInt.natAbs).length ≤ 3 := by
      apply length_digits_le
      have hlow := Int64.le_toInt v
      have hhigh := Int64.toInt_lt v
      have : 2 ^ (digitBits * (2 + 1)) = 2 ^ 93 := rfl
      omega
    obtain ⟨top, rest, hds, hform⟩ := form_of_wide hv
    have hacc := size_foldl_appendForm rest (sint (Int64.ofNat top))
    rw [hsint] at hacc
    rw [hds, List.length_cons] at hlen
    rw [hform]
    split
    · rw [size_bcall, List.map_singleton, List.sum_singleton]
      omega
    · omega

/-! ## Building it -/

section

open Arena

variable {a b : Arena} {us ts : List (Tree NodeId)} {t : Tree NodeId}

theorem build_sint (h : Grows a us b) (hr : b.Room 1) (v : Int64) :
    ∃ t c, build (.sint v) b = .ok (t.label, c) ∧ t.form = sint v ∧ Grows a (us ++ [t]) c ∧
      c.liveCount = b.liveCount + 1 := by
  have hplain : (Tree.node NodeId.null .sint [.leaf (.int v)]).Plain :=
    (Tree.obeys_form _).mp (plain_sint v)
  obtain ⟨haccepts, hfields, -⟩ := obeys_node.mp hplain
  have hleaf : ∀ s, Field.leaf (τ := Tree NodeId) s ∈ [.leaf (.int v)] → s.child? = none := by
    intro s hs
    cases List.mem_singleton.mp hs
    rfl
  obtain ⟨id, c, hc, hgrows, hlive⟩ := Grows.push us
    (by simpa using h) hr hleaf (Field.node_fits (fun _ _ hs => hs.1.fits) haccepts hfields)
  exact ⟨.node id .sint [.leaf (.int v)], c, hc, rfl, hgrows, hlive⟩

theorem build_bcall (us : List (Tree NodeId)) (h : Grows a (us ++ ts) b) (hr : b.Room 1)
    (op : Builtin) :
    ∃ t c, build (.bcall op (ts.map label)) b = .ok (t.label, c) ∧
      t.form = bcall op (ts.map Tree.form) ∧ Grows a (us ++ [t]) c ∧
      c.liveCount = b.liveCount + 1 := by
  let fs : List (Field (Tree NodeId)) := .leaf (Instr.row op) :: ts.map .child
  have hfields : List.Forall₂ (Field.Obeys fun k s => s.Sound k)
      (Tag.bcall.layout.kinds fs.length) fs := by
    rw [List.length_cons, List.length_map, kinds_bcall]
    exact .cons ⟨by decide, rfl, inTable_row op⟩ (forall₂_child ts)
  have hsub : subtrees fs = ts := subtrees_map_child ts
  have hleaf : ∀ s, .leaf s ∈ fs → s.child? = none := by
    intro s hs
    rcases List.mem_cons.mp hs with hs | hs
    · cases hs
      rfl
    · obtain ⟨t, -, ht⟩ := List.mem_map.mp hs
      cases ht
  obtain ⟨id, c, hc, hgrows, hlive⟩ := Grows.push us (by rwa [hsub]) hr hleaf
    (Field.node_fits (fun _ _ => Slot.Sound.fits) rfl hfields)
  refine ⟨.node id .bcall fs, c, ?_, ?_, hgrows, hlive⟩
  · have hslots : fs.map Field.slot = (Instr.content (.bcall op (ts.map label))).2 := by
      simp [Instr.content, Instr.nodes, fs, Field.slot]
    rw [hslots] at hc
    exact hc
  · simp [form_node, fs, bcall, Field.map]

theorem appendDigit_grows (h : Grows a (us ++ [t]) b) (hr : b.Room 4) (d : Nat) :
    ∃ u c, appendDigit t.label d b = .ok (u.label, c) ∧ u.form = appendForm t.form d ∧
      Grows a (us ++ [u]) c ∧ c.liveCount = b.liveCount + 4 := by
  unfold Room at hr
  obtain ⟨s, b₁, hb₁, hs, hg₁, hl₁⟩ := build_sint h (show b.Room 1 by unfold Room; omega)
    (Int64.ofNat digitBits)
  rw [List.append_assoc] at hg₁
  obtain ⟨m, b₂, (hb₂ : build (.bcall .sintShiftUp [t.label, s.label]) b₁ = _), hm, hg₂, hl₂⟩ :=
    build_bcall _ hg₁ (show b₁.Room 1 by unfold Room; omega) .sintShiftUp
  obtain ⟨l, b₃, hb₃, hl, hg₃, hl₃⟩ := build_sint hg₂ (show b₂.Room 1 by unfold Room; omega)
    (Int64.ofNat d)
  rw [List.append_assoc] at hg₃
  obtain ⟨u, c, hc, hu, hg, hl₄⟩ := build_bcall _ hg₃ (show b₃.Room 1 by unfold Room; omega) .sintOr
  refine ⟨u, c, ?_, ?_, hg, by omega⟩
  · unfold appendDigit
    rw [ArenaM.bind_ok hb₁, ArenaM.bind_ok hb₂, ArenaM.bind_ok hb₃]
    exact hc
  · rw [hu]
    simp only [List.singleton_append, List.map_cons, List.map_nil, hm, hl, hs]
    rfl

theorem foldlM_appendDigit_grows (us : List (Tree NodeId)) (h : Grows a (us ++ [t]) b)
    (ds : List Nat) (hr : b.Room (4 * ds.length)) :
    ∃ u c, ds.foldlM appendDigit t.label b = .ok (u.label, c) ∧
      u.form = ds.foldl appendForm t.form ∧ Grows a (us ++ [u]) c ∧
      c.liveCount = b.liveCount + 4 * ds.length := by
  induction ds generalizing t b with
  | nil => exact ⟨t, b, rfl, rfl, h, rfl⟩
  | cons d ds ih =>
      unfold Room at hr
      rw [List.length_cons] at hr ⊢
      obtain ⟨m, b₁, hb₁, hm, hg₁, hl₁⟩ := appendDigit_grows h
        (show b.Room 4 by unfold Room; omega) d
      obtain ⟨u, c, hc, hu, hg, hl⟩ := ih hg₁ (show b₁.Room _ by unfold Room; omega)
      refine ⟨u, c, ?_, ?_, hg, by omega⟩
      · rw [List.foldlM_cons, ArenaM.bind_ok hb₁]
        exact hc
      · rw [hu, hm, List.foldl_cons]

/-- What `buildNarrow` makes has the form that stands for the literal. -/
theorem buildNarrow_grows {a : Arena} (hw : a.WellFormed) (v : Int64)
    (hr : a.Room (form v).size) :
    ∃ t b, buildNarrow v a = .ok (t.label, b) ∧ t.form = form v ∧ Grows a [t] b := by
  have hsint : ∀ w, (sint w).size = 1 := fun _ => rfl
  unfold buildNarrow
  by_cases hv : isNarrow v = true
  · rw [form_of_narrow hv] at hr ⊢
    obtain ⟨t, b, hb, ht, hg, -⟩ := build_sint (.nil hw) hr v
    rw [if_pos hv]
    exact ⟨t, b, hb, ht, hg⟩
  · obtain ⟨top, rest, hds, hform⟩ := form_of_wide hv
    rw [hform] at hr ⊢
    rw [if_neg hv, hds]
    dsimp only
    -- the size of the form counts the nodes for the digits, and one for the sign
    have hacc := size_foldl_appendForm rest (sint (Int64.ofNat top))
    by_cases hneg : v < 0
    · rw [if_pos hneg, size_bcall, List.map_singleton, List.sum_singleton, hacc, hsint] at hr
      unfold Room at hr
      obtain ⟨t, b, hb, ht, hg, hl⟩ := build_sint (.nil hw)
        (show a.Room 1 by unfold Room; omega) (Int64.ofNat top)
      obtain ⟨u, c, hc, hu, hg', hl'⟩ := foldlM_appendDigit_grows [] hg rest
        (show b.Room _ by unfold Room; omega)
      obtain ⟨w, d, hd, hw, hg'', -⟩ := build_bcall [] hg'
        (show c.Room 1 by unfold Room; omega) .sintNegate
      refine ⟨w, d, ?_, ?_, hg''⟩
      · rw [ArenaM.bind_ok hb, ArenaM.bind_ok hc, if_pos hneg]
        exact hd
      · rw [hw, if_pos hneg, List.map_singleton, hu, ht]
    · rw [if_neg hneg, hacc, hsint] at hr
      unfold Room at hr
      obtain ⟨t, b, hb, ht, hg, hl⟩ := build_sint (.nil hw)
        (show a.Room 1 by unfold Room; omega) (Int64.ofNat top)
      obtain ⟨u, c, hc, hu, hg', -⟩ := foldlM_appendDigit_grows [] hg rest
        (show b.Room _ by unfold Room; omega)
      refine ⟨u, c, ?_, ?_, hg'⟩
      · rw [ArenaM.bind_ok hb, ArenaM.bind_ok hc, if_neg hneg]
        rfl
      · rw [hu, if_neg hneg, ht]

end

end Literal

end Foam
