import Foam.Proofs.SExpr.Reading

/-!
# Fuel for reading

Reading a node or a field takes at least one character of the text (`Uses`), so the fuel that reading
starts with, one for each character and one more, is never used up: any more of it makes no
difference.
-/

namespace Foam

namespace SExpr

variable {α β : Type}

/-! ## Characters taken -/

/-- A success takes at least `k` characters. -/
def Uses (k : Nat) (x : ReadM α) : Prop :=
  ∀ i a v j b, x i a = .ok ((.ok v, j), b) → j.rest.length + k ≤ i.rest.length

namespace Uses

variable {k m : Nat} {x : ReadM α} {f : α → ReadM β}

theorem pure (v : α) : Uses 0 (pure v) := by
  rintro i a w j b ⟨⟩
  exact Nat.le_refl _

theorem throw (e : SExprError) : Uses k (throw e : ReadM α) := by
  rintro i a v j b ⟨⟩

theorem mono (hx : Uses k x) (hm : m ≤ k) : Uses m x := by
  intro i a v j b h
  have hk := hx i a v j b h
  omega

theorem of_scans {P : α → Prop} (h : Scans x P) : Uses 0 x := by
  intro i a v j b hx
  obtain ⟨r, j', hr, hsuffix, -⟩ := h i a
  rw [hr] at hx
  cases hx
  exact hsuffix.length_le

theorem seq (hx : Uses k x) (hf : ∀ v, Uses m (f v)) : Uses (k + m) (x >>= f) := by
  intro i a w j b h
  rw [ReadM.bind_apply] at h
  rcases hxa : x i a with e | ⟨⟨e | v, c⟩, d⟩
  · rw [hxa] at h
    cases h
  · rw [hxa] at h
    cases h
  · rw [hxa] at h
    have hk := hx i a v c d hxa
    have hm := hf v c d w j b h
    omega

theorem bind (hx : Uses k x) (hf : ∀ v, Uses 0 (f v)) : Uses k (x >>= f) := hx.seq hf

theorem lift (x : ArenaM α) : Uses 0 (x : ReadM α) := by
  intro i a v j b h
  rw [ReadM.lift_apply] at h
  rcases hx : x a with m | ⟨w, c⟩
  · rw [hx] at h
    cases h
  · rw [hx] at h
    cases h
    exact Nat.le_refl _

/-- What comes after tokens takes the characters. -/
theorem after {P : α → Prop} (hx : Scans x P) (hf : ∀ v, Uses k (f v)) : Uses k (x >>= f) := by
  rw [← Nat.zero_add k]
  exact (of_scans hx).seq hf

end Uses

theorem expect_uses (want : Char) : Uses 1 (expect want) := by
  intro i a v j b h
  rcases expect_ends want i a with ⟨e, j', hj, -⟩ | ⟨j', hj, hsuffix⟩
  · rw [hj] at h
    cases h
  · rw [hj] at h
    cases h
    exact hsuffix.length_le

theorem atom_uses : Uses 1 atom := by
  refine .after peek_scans fun first => ?_
  intro i a v j b h
  rw [ReadM.get_bind] at h
  by_cases hempty : (i.rest.takeWhile (!endsAtom ·)).isEmpty
  · rw [if_pos hempty] at h
    obtain ⟨r, j', hr, -, hP⟩ := unexpected_scans (P := fun _ => False) first i a
    rw [hr] at h
    cases h
    exact (hP v rfl).elim
  · rw [if_neg hempty] at h
    cases h
    have hsplit : i.rest.length = (i.rest.takeWhile (!endsAtom ·)).length +
        (i.rest.dropWhile (!endsAtom ·)).length := by
      rw [← List.length_append, List.takeWhile_append_dropWhile]
    have hpos : 0 < (i.rest.takeWhile (!endsAtom ·)).length := by
      rwa [List.length_pos_iff, ← List.isEmpty_eq_false_iff, ← Bool.not_eq_true]
    rw [Input.rest_skipWhile]
    omega

theorem string_uses : Uses 1 string := by
  refine (expect_uses _).bind fun _ => ?_
  intro i a v j b h
  rw [ReadM.get_bind] at h
  cases hscan : scanString i.pos i.rest with
  | none =>
      rw [hscan] at h
      cases h
  | some p =>
      obtain ⟨s, next⟩ := p
      rw [hscan] at h
      cases h
      exact (scanString_suffix hscan).length_le

theorem literal_uses (sort : LiteralSort) (read? : List Char → Option α) :
    Uses 1 (literal sort read?) := by
  refine atom_uses.bind fun p => ?_
  dsimp only
  split
  · exact .pure _
  · exact .throw _

theorem row_uses (ρ : Type) [Table ρ] (sort : NameSort) : Uses 1 (row ρ sort) := by
  refine atom_uses.bind fun p => ?_
  dsimp only
  split
  · exact .pure _
  · split
    · exact .pure _
    · exact .throw _

/-! ## Fields and trees -/

section

variable {child child' : ReadM NodeId} {tag : Tag}

theorem slot_uses (hchild : Uses 1 child) (kind : FieldKind) : Uses 1 (slot child kind) := by
  cases kind with
  | child => exact hchild.bind fun _ => .pure _
  | str => exact string_uses.bind fun _ => .pure _
  | typeTag | builtin | protocol | declUsage => exact row_uses _ _
  | _ => exact (literal_uses _ _).bind fun _ => .pure _

theorem abandon_ne_ok (slots : List Slot) (e : SExprError) (i j : Input) (a b : Arena) (v : α) :
    abandon slots e i a ≠ .ok ((.ok v, j), b) := by
  intro h
  rw [abandon, ReadM.bind_apply, ReadM.lift_apply] at h
  rcases hfree : Arena.freeSlots slots a with m | ⟨_, c⟩
  · rw [hfree] at h
    cases h
  · rw [hfree] at h
    cases h

theorem tryCatch_abandon_uses {k : Nat} {x : ReadM α} (hx : Uses k x) (slots : List Slot) :
    Uses k (tryCatch x (abandon slots)) := by
  intro i a v j b h
  rw [ReadM.tryCatch_apply] at h
  rcases hxa : x i a with m | ⟨⟨e | w, c⟩, d⟩
  · rw [hxa] at h
    cases h
  · rw [hxa] at h
    exact absurd h (abandon_ne_ok slots e c j d b v)
  · rw [hxa] at h
    cases h
    exact hx i a v j b hxa

theorem fields_uses (hchild : Uses 1 child) (fuel : Nat) (slots : List Slot) :
    Uses 0 (fields child tag fuel slots) := by
  have habandon : ∀ slots e, Uses 0 (abandon slots e : ReadM (List Slot)) :=
    fun slots e i a v j b h => absurd h (abandon_ne_ok slots e i j a b v)
  induction fuel generalizing slots with
  | zero => exact habandon _ _
  | succ fuel ih =>
      refine .after peek_scans fun c => ?_
      split
      · exact habandon _ _
      · refine .after advance_scans fun _ => ?_
        split
        · exact .pure _
        · exact habandon _ _
      · split
        · exact habandon _ _
        · next kind _ =>
            have hslot := tryCatch_abandon_uses (slot_uses hchild kind) slots
            exact (hslot.bind fun s => ih _).mono (Nat.zero_le 1)

/-- A node takes its opening parenthesis at least. -/
theorem node_uses (fuel : Nat) : Uses 1 (node fuel) := by
  induction fuel with
  | zero => exact .throw _
  | succ fuel ih =>
      refine (expect_uses _).bind fun _ => .after peek_scans fun c => ?_
      split
      · exact .after advance_scans fun _ => .pure _
      · refine .after atom_scans fun p => ?_
        dsimp only
        split
        · exact .throw _
        · exact (fields_uses ih _ _).bind fun _ => .lift _

/-! ## More fuel -/

theorem slot_congr {i : Input} {a : Arena} (h : child i a = child' i a) (kind : FieldKind) :
    slot child kind i a = slot child' kind i a := by
  cases kind with
  | child => exact ReadM.bind_congr h fun _ _ _ _ => rfl
  | _ => rfl

/-- Fields do not depend on their fuel, nor on what reads a child of more characters than there are. -/
theorem fields_fuel {n : Nat} (hchild : ∀ i a, i.rest.length ≤ n → child i a = child' i a)
    (huses : Uses 1 child') {fuel fuel' : Nat} {slots : List Slot} {i : Input} {a : Arena}
    (hn : i.rest.length ≤ n) (h : i.rest.length < fuel) (h' : i.rest.length < fuel') :
    fields child tag fuel slots i a = fields child' tag fuel' slots i a := by
  induction fuel generalizing fuel' slots i a with
  | zero => exact absurd h (Nat.not_lt_zero _)
  | succ fuel ih =>
      obtain ⟨m, rfl⟩ : ∃ m, fuel' = m + 1 := ⟨fuel' - 1, by omega⟩
      have hblanks : i.skipBlanks.rest.length ≤ i.rest.length :=
        (Input.skipWhile_suffix _ _ _).length_le
      rcases hc : i.skipBlanks.rest.head? with _ | c
      · rw [fields_end fuel hc, fields_end m hc]
      by_cases hclose : c = ')'
      · subst hclose
        rw [fields_close fuel hc, fields_close m hc]
      · cases hkind : tag.layout.kindAt? slots.length with
        | none => rw [fields_surplus fuel hc hclose hkind, fields_surplus m hc hclose hkind]
        | some kind =>
            rw [fields_more fuel hc hclose hkind, fields_more m hc hclose hkind]
            refine ReadM.bind_congr ?_ fun s j b hs => ?_
            · rw [ReadM.tryCatch_apply, ReadM.tryCatch_apply,
                slot_congr (hchild _ _ (by omega)) kind]
            · have hused := tryCatch_abandon_uses (slot_uses huses kind) slots _ _ _ _ _ hs
              exact ih (by omega) (by omega) (by omega)

theorem node_fuel {fuel fuel' : Nat} {i : Input} {a : Arena} (h : i.rest.length < fuel)
    (h' : i.rest.length < fuel') : node fuel i a = node fuel' i a := by
  induction fuel generalizing fuel' i a with
  | zero => exact absurd h (Nat.not_lt_zero _)
  | succ fuel ih =>
      obtain ⟨m, rfl⟩ : ∃ m, fuel' = m + 1 := ⟨fuel' - 1, by omega⟩
      rw [node, node]
      refine ReadM.bind_congr rfl fun _ j b hj => ?_
      have hopen := expect_uses _ _ _ _ _ _ hj
      refine ReadM.bind_congr rfl fun c k d hk => ?_
      have hpeek := Uses.of_scans peek_scans _ _ _ _ _ hk
      split
      · rfl
      refine ReadM.bind_congr rfl fun p l e hl => ?_
      have hatom := atom_uses _ _ _ _ _ hl
      dsimp only
      cases Tag.ofName? (String.ofList p.1) with
      | none => rfl
      | some tag =>
          refine ReadM.bind_congr ?_ fun _ _ _ _ => rfl
          exact fields_fuel (n := l.rest.length) (fun i a hi => ih (by omega) (by omega))
            (node_uses m) (Nat.le_refl _) (by omega) (by omega)

end

end SExpr

open SExpr

/-- The fuel of reading is enough: with more the outcome is the same. -/
theorem Arena.read_fuel (text : String) (a : Arena) {fuel : Nat} (h : text.toList.length < fuel) :
    (Arena.read text).run a = (whole fuel ⟨text.toList, 0⟩ a).map fun p => (p.1.1, p.2) := by
  rw [Arena.read_eq]
  have hwhole : whole (text.toList.length + 1) ⟨text.toList, 0⟩ a = whole fuel ⟨text.toList, 0⟩ a :=
    ReadM.bind_congr (node_fuel (Nat.lt_succ_self _) h) fun _ _ _ _ => rfl
  rw [hwhole]

end Foam
