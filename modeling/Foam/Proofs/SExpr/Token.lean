import Foam.Proofs.Bignum
import Foam.Proofs.Text.Names
import Foam.SExpr.Printer

/-!
# Tokens read back

Names, numbers and strings are read back from the text that is written for them, whatever text comes
after. An atom is read up to the next blank or parenthesis, so one of these has to follow it; a string
ends with its quote.
-/

namespace Foam.SExpr

variable {α β : Type}

/-! ## One step of a run -/

namespace ReadM

theorem bind_apply (x : ReadM α) (f : α → ReadM β) (i : Input) (a : Arena) :
    (x >>= f) i a = match x i a with
      | .error m => .error m
      | .ok ((.ok v, j), b) => f v j b
      | .ok ((.error e, j), b) => .ok ((.error e, j), b) := by
  show (x i a >>= fun p => _) = _
  rcases x i a with m | ⟨⟨r, j⟩, b⟩
  · rfl
  · cases r <;> rfl

theorem tryCatch_apply (x : ReadM α) (f : SExprError → ReadM α) (i : Input) (a : Arena) :
    tryCatch x f i a = match x i a with
      | .error m => .error m
      | .ok ((.ok v, j), b) => .ok ((.ok v, j), b)
      | .ok ((.error e, j), b) => f e j b := by
  show (x i a >>= fun p => _) = _
  rcases x i a with m | ⟨⟨r, j⟩, b⟩
  · rfl
  · cases r <;> rfl

theorem get_bind (f : Input → ReadM α) (i : Input) (a : Arena) :
    (getThe Input >>= f) i a = f i i a := rfl

variable {x : ReadM α} {f : α → ReadM β} {i j : Input} {a b : Arena} {v : α} {e : SExprError}

theorem bind_ok (h : x i a = .ok ((.ok v, j), b)) : (x >>= f) i a = f v j b := by
  rw [bind_apply, h]

theorem bind_error (h : x i a = .ok ((.error e, j), b)) :
    (x >>= f) i a = .ok ((.error e, j), b) := by
  rw [bind_apply, h]

theorem bind_congr {y : ReadM α} {g : α → ReadM β} (h : x i a = y i a)
    (hfg : ∀ v j b, y i a = .ok ((.ok v, j), b) → f v j b = g v j b) :
    (x >>= f) i a = (y >>= g) i a := by
  rw [bind_apply, bind_apply, h]
  rcases hy : y i a with m | ⟨⟨e | v, j⟩, b⟩
  · rfl
  · rfl
  · exact hfg v j b hy

theorem tryCatch_ok {f : SExprError → ReadM α} (h : x i a = .ok ((.ok v, j), b)) :
    tryCatch x f i a = .ok ((.ok v, j), b) := by
  rw [tryCatch_apply, h]

theorem lift_apply (x : ArenaM α) (i : Input) (a : Arena) :
    (x : ReadM α) i a = (x a).map fun p => ((.ok p.1, i), p.2) := by
  show ((x a >>= fun p => _) >>= fun _ => _) = _
  rcases x a with m | ⟨v, b⟩ <;> rfl

theorem lift_ok {x : ArenaM α} (h : x a = .ok (v, b)) :
    (x : ReadM α) i a = .ok ((.ok v, i), b) := by
  rw [lift_apply, h]
  rfl

end ReadM

/-- Reading takes the text `l` and gives `v`, without a change to the arena. -/
def Takes (x : ReadM α) (l rest : List Char) (v : α) : Prop :=
  ∀ pos a, ∃ pos', x ⟨l ++ rest, pos⟩ a = .ok ((.ok v, ⟨rest, pos'⟩), a)

theorem Takes.map {x : ReadM α} {l rest : List Char} {v : α} (h : Takes x l rest v) (f : α → β) :
    Takes (x >>= fun v => pure (f v)) l rest (f v) := by
  intro pos a
  obtain ⟨pos', hx⟩ := h pos a
  exact ⟨pos', ReadM.bind_ok hx⟩

/-- The text ends an atom that comes before it. -/
def Stops (rest : List Char) : Prop := ∀ c ∈ rest.head?, endsAtom c = true

theorem Stops.blank (rest : List Char) : Stops (' ' :: rest) := by
  rintro c ⟨⟩
  decide

theorem Stops.close (rest : List Char) : Stops (')' :: rest) := by
  rintro c ⟨⟩
  decide

theorem isBlank_of_not_endsAtom {c : Char} (h : endsAtom c = false) : Text.isBlank c = false := by
  rw [endsAtom, Bool.or_eq_false_iff, Bool.or_eq_false_iff] at h
  exact h.1.1

/-! ## Blanks -/

theorem Input.skipWhile_append {test : Char → Bool} {l rest : List Char} (pos : Nat)
    (hl : ∀ c ∈ l, test c = true) (hrest : ∀ c ∈ rest.head?, test c = false) :
    skipWhile test pos (l ++ rest) = ⟨rest, pos + l.foldr (·.utf8Size + ·) 0⟩ := by
  induction l generalizing pos with
  | nil =>
      cases rest with
      | nil => rfl
      | cons c cs =>
          rw [List.nil_append, skipWhile, hrest c rfl]
          rfl
  | cons c cs ih =>
      rw [List.cons_append, skipWhile, hl c List.mem_cons_self, if_pos rfl,
        ih _ fun d hd => hl d (List.mem_cons_of_mem _ hd), List.foldr_cons, Nat.add_assoc]

theorem peek_apply (i : Input) (a : Arena) :
    peek i a = .ok ((.ok i.skipBlanks.rest.head?, i.skipBlanks), a) := rfl

theorem peek_cons {c : Char} (h : Text.isBlank c = false) (cs : List Char) (pos : Nat) (a : Arena) :
    peek ⟨c :: cs, pos⟩ a = .ok ((.ok (some c), ⟨c :: cs, pos⟩), a) := by
  have hskip : Input.skipBlanks ⟨c :: cs, pos⟩ = ⟨c :: cs, pos⟩ :=
    Input.skipWhile_append (l := []) pos (fun _ hd => absurd hd List.not_mem_nil) (by rintro d ⟨⟩; exact h)
  rw [peek_apply, hskip]
  rfl

theorem peek_blank {c : Char} (h : Text.isBlank c = false) (cs : List Char) (pos : Nat) (a : Arena) :
    peek ⟨' ' :: c :: cs, pos⟩ a = .ok ((.ok (some c), ⟨c :: cs, pos + 1⟩), a) := by
  have hskip : Input.skipBlanks ⟨' ' :: c :: cs, pos⟩ = ⟨c :: cs, pos + 1⟩ :=
    Input.skipWhile_append (l := [' ']) pos (fun _ hd => List.mem_singleton.mp hd ▸ rfl)
      (by rintro d ⟨⟩; exact h)
  rw [peek_apply, hskip]
  rfl

theorem peek_nil (pos : Nat) (a : Arena) : peek ⟨[], pos⟩ a = .ok ((.ok none, ⟨[], pos⟩), a) := rfl

theorem advance_cons (c : Char) (cs : List Char) (pos : Nat) (a : Arena) :
    advance ⟨c :: cs, pos⟩ a = .ok ((.ok (), ⟨cs, pos + c.utf8Size⟩), a) := rfl

theorem expect_takes {c : Char} (h : Text.isBlank c = false) (rest : List Char) :
    Takes (expect c) [c] rest () := by
  intro pos a
  refine ⟨pos + c.utf8Size, ?_⟩
  unfold expect
  rw [List.singleton_append, ReadM.bind_ok (peek_cons h rest pos a), if_pos rfl, advance_cons]

/-! ## Atoms -/

/-- One atom: at least one character, and none that ends it. -/
structure IsAtom (l : List Char) : Prop where
  ne_nil : l ≠ []
  not_endsAtom : ∀ c ∈ l, endsAtom c = false

theorem isAtom_word {s : String} (h : Text.IsWord s) : IsAtom s.toList :=
  ⟨h.toList_ne_nil, fun _ hc => h.not_endsAtom hc⟩

theorem not_endsAtom_digit {c : Char} (h : Decimal.isDigit c = true) : endsAtom c = false := by
  rw [Decimal.isDigit_eq, Char.isDigit_iff_toNat] at h
  have h0 : '0'.toNat = 48 := rfl
  have h9 : '9'.toNat = 57 := rfl
  exact not_endsAtom_of_range (by omega) (by omega)

theorem isAtom_toString_int (v : Int) : IsAtom (toString v).toList := by
  refine ⟨?_, ?_⟩
  · rw [Decimal.toList_toString_int]
    split
    · exact Nat.toDigits_ne_nil
    · exact List.cons_ne_nil _ _
  · intro c hc
    rcases Decimal.mem_toString_int hc with rfl | hc
    · decide
    · exact not_endsAtom_digit hc

theorem isAtom_toString_nat (n : Nat) : IsAtom (toString n).toList := by
  rw [Decimal.toList_toString_nat]
  exact ⟨Nat.toDigits_ne_nil, fun c hc => not_endsAtom_digit (Decimal.isDigit_of_mem_toDigits hc)⟩

theorem isAtom_bignum (b : Bignum) : IsAtom b.text.toList := by
  rw [Bignum.toList_text]
  refine ⟨List.append_ne_nil_of_right_ne_nil _ (List.cons_ne_nil _ _), ?_⟩
  intro c hc
  simp only [List.mem_append, List.mem_cons] at hc
  rcases hc with hc | rfl | rfl | hc
  · obtain rfl : c = '-' := by
      split at hc
      · exact List.mem_singleton.mp hc
      · cases hc
    decide
  · decide
  · decide
  · rw [Bignum.hex_eq] at hc
    obtain ⟨d, hd, rfl⟩ := Text.Hex.exists_digit_of_mem_digits hc
    have := Text.Hex.toNat_digit hd
    exact not_endsAtom_of_range (by omega) (by omega)

theorem atom_apply {l rest : List Char} (hl : IsAtom l) (hrest : Stops rest) (pos : Nat)
    (a : Arena) : ∃ pos', atom ⟨l ++ rest, pos⟩ a = .ok ((.ok (l, pos), ⟨rest, pos'⟩), a) := by
  refine ⟨pos + l.foldr (·.utf8Size + ·) 0, ?_⟩
  obtain ⟨c, cs, rfl⟩ := List.exists_cons_of_ne_nil hl.ne_nil
  have hblank : Text.isBlank c = false :=
    isBlank_of_not_endsAtom (hl.not_endsAtom c List.mem_cons_self)
  have hin : ∀ d ∈ c :: cs, (!endsAtom d) = true := fun d hd => by rw [hl.not_endsAtom d hd]; rfl
  have hout : ∀ d ∈ rest.head?, (!endsAtom d) = false := fun d hd => by rw [hrest d hd]; rfl
  have htake : (c :: cs ++ rest).takeWhile (!endsAtom ·) = c :: cs := by
    rw [List.takeWhile_append_of_pos hin]
    cases rest with
    | nil => rw [List.takeWhile_nil, List.append_nil]
    | cons d ds => rw [List.takeWhile_cons, hout d rfl, if_neg Bool.false_ne_true, List.append_nil]
  unfold atom
  rw [List.cons_append, ReadM.bind_ok (peek_cons hblank _ pos a), ← List.cons_append]
  change (if ((c :: cs ++ rest).takeWhile (!endsAtom ·)).isEmpty then _ else _ : ReadM _)
    ⟨c :: cs ++ rest, pos⟩ a = _
  rw [htake, if_neg (by simp)]
  change Except.ok ((Except.ok (_, pos), Input.skipWhile (!endsAtom ·) pos (c :: cs ++ rest)), a) = _
  rw [Input.skipWhile_append pos hin hout]

theorem literal_takes {sort : LiteralSort} {read? : List Char → Option α} {l rest : List Char}
    {v : α} (hread : read? l = some v) (hl : IsAtom l) (hrest : Stops rest) :
    Takes (literal sort read?) l rest v := by
  intro pos a
  obtain ⟨pos', hatom⟩ := atom_apply hl hrest pos a
  refine ⟨pos', ?_⟩
  unfold literal
  rw [ReadM.bind_ok hatom]
  simp only [hread]
  rfl

/-! ## Rows of tables -/

section

variable {ρ : Type} [Table ρ] {sort : NameSort} {rest : List Char}

theorem row_takes_number (v : Int64) (hrest : Stops rest) :
    Takes (row ρ sort) (toString v.toInt).toList rest (.int v) := by
  intro pos a
  obtain ⟨pos', hatom⟩ := atom_apply (isAtom_toString_int v.toInt) hrest pos a
  refine ⟨pos', ?_⟩
  unfold row
  rw [ReadM.bind_ok hatom]
  simp only [readInt64?_toString]
  rfl

theorem row_takes_name (h : Table.Spelled ρ) (r : ρ) (hrest : Stops rest) :
    Takes (row ρ sort) (Table.name r).toList rest (.int (Int64.ofNat (Table.ordinal r))) := by
  intro pos a
  have hword := h.word r
  obtain ⟨pos', hatom⟩ := atom_apply (isAtom_word hword) hrest pos a
  refine ⟨pos', ?_⟩
  unfold row
  rw [ReadM.bind_ok hatom]
  simp only [hword.readInt64?, String.ofList_toList, h.ofName?_name]
  rfl

/-- What is written for a number, the name of its row if there is one, stands for that number. -/
theorem row_takes (h : Table.Spelled ρ) (v : Int64) (hrest : Stops rest) :
    Takes (row ρ sort) (((Table.ofOrdinal? v.toInt : Option ρ).map Table.name).getD
      (toString v.toInt)).toList rest (.int v) := by
  cases hrow : (Table.ofOrdinal? v.toInt : Option ρ) with
  | none => exact row_takes_number v hrest
  | some r =>
      have hv : Int64.ofNat (Table.ordinal r) = v := by
        rw [← Int64.ofInt_eq_ofNat, ← Table.ofOrdinal?_eq_some_iff.mp hrow, Int64.ofInt_toInt]
      have htakes : Takes (row ρ sort) _ rest _ := row_takes_name h r hrest
      rw [hv] at htakes
      exact htakes

end

/-! ## Strings -/

/-- A character that needs no backslash stands for itself. -/
theorem scanString_plain {c : Char} (hquote : c ≠ '"') (hslash : c ≠ '\\') (pos : Nat)
    (cs : List Char) : scanString pos (c :: cs) =
      (scanString (pos + c.utf8Size) cs).map fun (s, i) => (c :: s, i) :=
  scanString.eq_5 pos c cs hquote (fun _ _ h _ => hslash h) fun h _ => hslash h

/-- The text between the quotes. -/
def escaped (cs : List Char) : List Char :=
  cs.flatMap fun c => if c = '"' ∨ c = '\\' then ['\\', c] else [c]

theorem quoteChars_append (cs rest : List Char) :
    quoteChars cs ++ rest = '"' :: (escaped cs ++ '"' :: rest) := by
  simp [quoteChars, escaped]

theorem scanString_escaped (cs rest : List Char) (pos : Nat) :
    ∃ pos', scanString pos (escaped cs ++ '"' :: rest) = some (cs, ⟨rest, pos'⟩) := by
  induction cs generalizing pos with
  | nil => exact ⟨pos + 1, rfl⟩
  | cons c cs ih =>
      rw [escaped, List.flatMap_cons, List.append_assoc, ← escaped]
      by_cases hc : c = '"' ∨ c = '\\'
      · obtain ⟨pos', h⟩ := ih (pos + 1 + c.utf8Size)
        refine ⟨pos', ?_⟩
        rw [if_pos hc, List.cons_append, List.singleton_append, scanString, h]
        rfl
      · obtain ⟨pos', h⟩ := ih (pos + c.utf8Size)
        refine ⟨pos', ?_⟩
        obtain ⟨hquote, hslash⟩ := not_or.mp hc
        rw [if_neg hc, List.singleton_append, scanString_plain hquote hslash, h]
        rfl

theorem string_takes (s : String) (rest : List Char) :
    Takes string (quoteChars s.toList) rest s := by
  intro pos a
  rw [quoteChars_append]
  obtain ⟨start, hquote⟩ :=
    expect_takes (c := '"') (by decide) (escaped s.toList ++ '"' :: rest) pos a
  obtain ⟨pos', hscan⟩ := scanString_escaped s.toList rest start
  refine ⟨pos', ?_⟩
  unfold string
  rw [← List.singleton_append, ReadM.bind_ok hquote]
  rw [ReadM.get_bind, hscan]
  change Except.ok ((Except.ok (String.ofList s.toList), Input.mk rest pos'), a) = _
  rw [String.ofList_toList]

end Foam.SExpr
