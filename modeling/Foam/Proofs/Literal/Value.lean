import Foam.Proofs.Literal.Form

/-!
# The value of a literal expression

`Tree.literal?` is the value that `literal?` finds for a form, without an arena. The expression that
stands for a wide literal has the value of the literal.
-/

namespace Foam

namespace Literal

/-- The value of a builtin call whose arguments have the given values, if they have any. -/
def evalCall : Builtin → List (Option Int64) → Option Int64
  | .sintShiftUp, [x, some n] =>
    if 0 ≤ n.toInt ∧ n.toInt < Int.pow 2 32 then x.map (Arena.shiftUp · n.toInt.toNat) else none
  | .sintOr, [some v, y] => y.map (v ||| ·)
  | .sintNegate, [x] => x.map (- ·)
  | _, _ => none

end Literal

namespace Tree

mutual
/-- The value of a form that is a literal, or stands for one. -/
def literal? : Form → Option Int64
  | node _ .sint (.leaf (.int v) :: _) => some v
  | node _ .bcall (.leaf (.int op) :: args) =>
    match (Table.ofOrdinal? op.toInt : Option Builtin) with
    | some op => Literal.evalCall op (literals args)
    | none => none
  | _ => none
def literals : List (Field Form) → List (Option Int64)
  | [] => []
  | .leaf _ :: fs => none :: literals fs
  | .child t :: fs => t.literal? :: literals fs
end

theorem literal?_sint (v : Int64) : (sint v).literal? = some v := by
  rw [sint, literal?]

theorem literal?_eq_none {l : Unit} {tag : Tag} {fs : List (Field Form)} (h : tag ≠ .sint)
    (h' : tag ≠ .bcall) : (node l tag fs).literal? = none := by
  unfold literal?
  split
  · next heq =>
      cases heq
      exact absurd rfl h
  · next heq =>
      cases heq
      exact absurd rfl h'
  · rfl

theorem literals_map_child (ts : List Form) : literals (ts.map .child) = ts.map literal? := by
  induction ts with
  | nil => rfl
  | cons t ts ih => rw [List.map_cons, literals, ih, List.map_cons]

theorem literal?_bcall (op : Builtin) (args : List Form) :
    (bcall op args).literal? = Literal.evalCall op (args.map literal?) := by
  rw [bcall, Instr.row, literal?, ofOrdinal?_row, literals_map_child]

end Tree

namespace Literal

open Foam.Tree

/-- A digit fills the bits that a shift has cleared. -/
theorem ofNat_shiftUp_or {m d : Nat} (h : d < 2 ^ digitBits) :
    Arena.shiftUp (Int64.ofNat m) digitBits ||| Int64.ofNat d =
      Int64.ofNat (m * 2 ^ digitBits + d) := by
  have hshift : Arena.shiftUp (Int64.ofNat m) digitBits = Int64.ofNat (m <<< digitBits) := by
    rw [← Int64.toBitVec_inj]
    show BitVec.ofNat 64 m <<< ((31#64).smod 64) = BitVec.ofNat 64 (m <<< 31)
    rw [show (31#64).smod 64 = 31#64 from by decide, BitVec.shiftLeft_ofNat_eq]
    apply BitVec.eq_of_toNat_eq
    simp only [BitVec.toNat_shiftLeft, BitVec.toNat_ofNat, Nat.shiftLeft_eq]
    show m % 2 ^ 64 * 2 ^ 31 % 2 ^ 64 = m * 2 ^ 31 % 2 ^ 64
    rw [Nat.mul_mod, Nat.mod_mod, ← Nat.mul_mod]
  rw [hshift, ← Int64.toBitVec_inj, Int64.toBitVec_or]
  show BitVec.ofNat 64 _ ||| BitVec.ofNat 64 _ = BitVec.ofNat 64 _
  rw [← BitVec.ofNat_or, ← Nat.shiftLeft_add_eq_or_of_lt h, Nat.shiftLeft_eq]

theorem literal?_appendForm {acc : Form} {m d : Nat}
    (hacc : acc.literal? = some (Int64.ofNat m)) (h : d < 2 ^ digitBits) :
    (appendForm acc d).literal? = some (Int64.ofNat (m * 2 ^ digitBits + d)) := by
  have hshift : (bcall .sintShiftUp [acc, sint (Int64.ofNat digitBits)]).literal? =
      some (Arena.shiftUp (Int64.ofNat m) digitBits) := by
    rw [literal?_bcall]
    simp only [List.map_cons, List.map_nil, hacc, literal?_sint]
    rfl
  rw [appendForm, literal?_bcall]
  simp only [List.map_cons, List.map_nil, hshift, literal?_sint]
  exact congrArg some (ofNat_shiftUp_or h)

theorem literal?_foldl {ds : List Nat} {acc : Form} {m : Nat}
    (hacc : acc.literal? = some (Int64.ofNat m)) (hds : ∀ d ∈ ds, d < 2 ^ digitBits) :
    (ds.foldl appendForm acc).literal? =
      some (Int64.ofNat (ds.foldl (fun m d => m * 2 ^ digitBits + d) m)) := by
  induction ds generalizing acc m with
  | nil => exact hacc
  | cons d ds ih =>
      exact ih (literal?_appendForm hacc (hds d List.mem_cons_self)) fun e he =>
        hds e (List.mem_cons_of_mem _ he)

/-- The expression for a literal has its value. -/
theorem literal?_form (v : Int64) : (form v).literal? = some v := by
  by_cases hv : isNarrow v = true
  · rw [form_of_narrow hv, literal?_sint]
  · obtain ⟨top, rest, hds, hform⟩ := form_of_wide hv
    have hrest : ∀ d ∈ rest, d < 2 ^ digitBits := by
      intro d hd
      exact digits_lt (hds ▸ List.mem_cons_of_mem _ hd)
    have hnat : rest.foldl (fun m d => m * 2 ^ digitBits + d) top = v.toInt.natAbs := by
      have := foldl_digits v.toInt.natAbs
      rw [hds, List.foldl_cons] at this
      simpa using this
    have hacc := literal?_foldl (literal?_sint (Int64.ofNat top)) hrest
    rw [hnat] at hacc
    rw [hform]
    by_cases hneg : v < 0
    · rw [if_pos hneg, literal?_bcall, List.map_singleton, hacc]
      show some (-Int64.ofNat v.toInt.natAbs) = some v
      -- negation is modulo the width, which also takes care of the least value
      have hlt : v.toInt < 0 := Int64.lt_iff_toInt_lt.mp hneg
      rw [Int64.neg_ofNat, Int.ofNat_natAbs_of_nonpos (Int.le_of_lt hlt), Int.neg_neg,
        Int64.ofInt_toInt]
    · rw [if_neg hneg, hacc]
      have hle : 0 ≤ v.toInt := by
        apply Int.not_lt.mp
        intro h
        exact hneg (Int64.lt_iff_toInt_lt.mpr h)
      rw [← Int64.ofInt_eq_ofNat, Int.natAbs_of_nonneg hle, Int64.ofInt_toInt]

end Literal

namespace Tree

/-! ## Nodes that may have a value -/

variable {α : Type} {l : α} {fs : List (Field (Tree α))}

theorem Fits.sint (h : (node l .sint fs).Fits) : ∃ v, fs = [.leaf (.int v)] := by
  obtain ⟨haccepts, hfields, -⟩ := obeys_node.mp h
  change (fs.length == 1) = true at haccepts
  rw [beq_iff_eq.mp haccepts] at hfields
  obtain ⟨x, fs, hx, hnil, rfl⟩ := List.forall₂_cons_left_iff.mp
    (show List.Forall₂ _ [FieldKind.word] fs from hfields)
  obtain rfl := List.forall₂_nil_left_iff.mp hnil
  cases x with
  | leaf s =>
      cases s with
      | int v => exact ⟨v, rfl⟩
      | _ => cases hx
  | child t => cases hx

theorem Fits.bcall (h : (node l .bcall fs).Fits) : ∃ op args, fs = .leaf (.int op) :: args ∧
    ∀ f ∈ args, ∀ s, f = .leaf s → ∃ c, s = .code c := by
  obtain ⟨haccepts, hfields, -⟩ := obeys_node.mp h
  change decide (1 ≤ fs.length) = true at haccepts
  obtain ⟨n, hlen⟩ := Nat.exists_eq_add_of_le' (of_decide_eq_true haccepts)
  rw [hlen, kinds_bcall] at hfields
  obtain ⟨x, args, hx, hargs, rfl⟩ := List.forall₂_cons_left_iff.mp hfields
  cases x with
  | leaf s =>
      cases s with
      | int op =>
          refine ⟨op, args, rfl, ?_⟩
          rintro f hf s rfl
          obtain ⟨k, hk, hfits⟩ := Field.exists_obeys hargs hf
          obtain rfl := List.eq_of_mem_replicate hk
          cases s with
          | code c => exact ⟨c, rfl⟩
          | _ => cases hfits
      | _ => cases hx
  | child t => cases hx

end Tree

namespace Arena

open Literal

/-! ## The value of a tree -/

theorem literalFrom_bcall {a : Arena} {d : Nat} {id : NodeId} {n : Node} {o : Int64}
    {ids : List NodeId} {vals : List (Option Int64)} (hnull : id.isNull = false)
    (hn : a.get? id = some n) (htag : n.tag = .bcall) (hslots : n.slots = .int o :: ids.map .code)
    (hargs : List.Forall₂ (fun i v => literalFrom a d i = .ok v) ids vals) :
    literalFrom a (d + 1) id = .ok (match (Table.ofOrdinal? o.toInt : Option Builtin) with
      | some op => evalCall op vals | none => none) := by
  have htag' : a.tag id = .ok .bcall := htag ▸ tag_of_get? hn
  have hop : a.callBuiltin? id = .ok (Table.ofOrdinal? o.toInt) := by
    rw [callBuiltin?, int_of_get? hn (show n.slots[0]? = some (.int o) by rw [hslots]; rfl)]
    rfl
  have hids : a.builtinArgs id = .ok ids := by
    rw [builtinArgs, childrenFrom_of_get? hn (by simp [hslots]), hslots, List.drop_one,
      List.tail_cons, List.filterMap_map]
    exact congrArg Except.ok List.filterMap_some
  rw [literalFrom, if_neg (by simp [hnull])]
  simp only [htag', hop, hids, bind, Except.bind, pure, Except.pure]
  cases (Table.ofOrdinal? o.toInt : Option Builtin) with
  | none => rfl
  | some op =>
      simp only
      -- the walk branches on the operation and on how many operands it finds
      split
      · rcases hargs with _ | ⟨hx, _ | @⟨_, w, _, _, hy, _ | _⟩⟩
        rw [hy]
        cases w with
        | none => rfl
        | some n =>
            show (if _ then _ else _) = _
            rw [evalCall]
            split
            · rw [hx]
            · rfl
      · rcases hargs with _ | @⟨_, v, _, _, hx, _ | ⟨hy, _ | _⟩⟩
        rw [hx]
        cases v with
        | none => rfl
        | some v =>
            simp only [hy]
            rfl
      · rcases hargs with _ | ⟨hx, _ | _⟩
        rw [hx]
        rfl
      · -- no other operation has a value, here or for the form
        next hshift hor hneg =>
        refine congrArg Except.ok (Eq.symm ?_)
        unfold evalCall
        split
        · rcases hargs with _ | ⟨_, _ | ⟨_, _ | _⟩⟩
          exact (hshift _ _ rfl rfl).elim
        · rcases hargs with _ | ⟨_, _ | ⟨_, _ | _⟩⟩
          exact (hor _ _ rfl rfl).elim
        · rcases hargs with _ | ⟨_, _ | _⟩
          exact (hneg _ rfl rfl).elim
        · rfl

/-- The id in a field that holds a child or none. -/
def argId : Field (Tree NodeId) → NodeId
  | .leaf (.code c) => c
  | .leaf _ => .null
  | .child t => t.label

theorem literalFrom_args {a : Arena} {d : Nat} {args : List (Field (Tree NodeId))}
    (hd : 0 < d) (hcode : ∀ f ∈ args, ∀ s, f = .leaf s → ∃ c, s = .code c)
    (hnull : ∀ s, .leaf s ∈ args → s.child? = none)
    (hchild : ∀ t, .child t ∈ args → literalFrom a d t.label = .ok t.form.literal?) :
    List.Forall₂ (fun i v => literalFrom a d i = .ok v) (args.map argId)
      (Tree.literals (args.map (Field.map Tree.form))) := by
  induction args with
  | nil => exact .nil
  | cons f args ih =>
      have ih := ih (fun g hg => hcode g (List.mem_cons_of_mem _ hg))
        (fun s hs => hnull s (List.mem_cons_of_mem _ hs))
        (fun t ht => hchild t (List.mem_cons_of_mem _ ht))
      cases f with
      | leaf s =>
          obtain ⟨c, rfl⟩ := hcode _ List.mem_cons_self s rfl
          refine .cons ?_ ih
          have hc : c.isNull = true := by
            have := hnull _ List.mem_cons_self
            rw [Slot.child?] at this
            by_contra h
            rw [if_neg h] at this
            cases this
          obtain ⟨e, rfl⟩ := Nat.exists_eq_add_of_lt hd
          rw [argId, Nat.zero_add, literalFrom, if_pos hc]
          rfl
      | child t => exact .cons (hchild t List.mem_cons_self) ih

theorem slots_of_codes {op : Int64} {args : List (Field (Tree NodeId))}
    (hcode : ∀ f ∈ args, ∀ s, f = .leaf s → ∃ c, s = .code c) :
    (Field.leaf (.int op) :: args).map Field.slot = .int op :: (args.map argId).map .code := by
  rw [List.map_cons, List.map_map]
  refine congrArg _ (List.map_congr_left fun f hf => ?_)
  cases f with
  | leaf s =>
      obtain ⟨c, rfl⟩ := hcode _ hf s rfl
      rfl
  | child t => rfl

/-- The value that is found for a tree is that of its form. -/
theorem literalFrom_eq {a : Arena} {t : Tree NodeId} (hw : a.WellFormed) (ht : t.In a)
    {depth : Nat} (hd : t.height < depth) :
    literalFrom a depth t.label = .ok t.form.literal? := by
  induction t generalizing depth with
  | node id tag fs ih =>
      obtain ⟨d, rfl⟩ : ∃ d, depth = d + 1 := ⟨depth - 1, by omega⟩
      have hpos : 0 < d := by
        have : (Tree.node id tag fs).height = Tree.heightAll fs + 1 := rfl
        omega
      have hfits := ht.fits hw
      obtain ⟨n, hg, htag, hslots⟩ := ht.get?
      have hid : ¬id.isNull = true := by simp [show id.isNull = false from ht.label_not_null]
      have htag' : a.tag id = .ok tag := htag ▸ tag_of_get? hg
      by_cases hsint : tag = .sint
      · subst hsint
        obtain ⟨v, rfl⟩ := hfits.sint
        have hint : a.int id 0 = .ok v := int_of_get? hg (by rw [hslots]; rfl)
        rw [Tree.label, literalFrom, if_neg hid, htag']
        show (a.int id 0 >>= fun v => pure (some v)) = _
        rw [hint]
        rfl
      · by_cases hbcall : tag = .bcall
        · subst hbcall
          obtain ⟨op, args, rfl, hcode⟩ := hfits.bcall
          rw [slots_of_codes hcode] at hslots
          have hargs := literalFrom_args hpos hcode
            (fun s hs => ht.leaf (List.mem_cons_of_mem _ hs)) fun t hmem => by
              have hmem := List.mem_cons_of_mem (Field.leaf (.int op)) hmem
              have := Tree.height_lt id .bcall hmem
              exact ih t hmem (ht.child hmem) (by omega)
          rw [Tree.form_node, List.map_cons, Field.map, Tree.literal?]
          exact literalFrom_bcall ht.label_not_null hg htag hslots hargs
        · have hnone : (Tree.node id tag fs).form.literal? = none := by
            rw [Tree.form_node]
            exact Tree.literal?_eq_none hsint hbcall
          rw [Tree.label, literalFrom, if_neg hid, htag', hnone]
          simp only [bind, Except.bind]
          rfl

theorem literal?_eq {a : Arena} {t : Tree NodeId} (hw : a.WellFormed) (ht : t.In a) :
    a.literal? t.label = .ok t.form.literal? :=
  literalFrom_eq hw ht ht.height_lt_depthBound

end Arena

end Foam
