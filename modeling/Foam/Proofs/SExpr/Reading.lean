import Foam.Proofs.Arena.Growth
import Foam.Proofs.Arena.Operations
import Foam.Proofs.Arena.Reach
import Foam.Proofs.SExpr.Token

/-!
# Reading any text

Reading never ends in misuse, whatever the text is. It fails and leaves every node as it was, or it
has made a tree of new nodes and nothing else.

Tokens change no node and never go back in the text (`Scans`). What makes nodes is held to a bound:
the nodes that are live and the parentheses that are still to be opened never exceed it
(`Outcome`). A node takes the place of the parenthesis that opened it, so with the bound in the
range of ids no text fills the arena.
-/

namespace Foam

namespace SExpr

variable {α β : Type}

/-! ## Tokens -/

/-- The computation is not refused, changes no node and does not go back in the text. A value has
the property. -/
def Scans (x : ReadM α) (P : α → Prop) : Prop :=
  ∀ i a, ∃ r j, x i a = .ok ((r, j), a) ∧ j.rest <:+ i.rest ∧ ∀ v, r = .ok v → P v

namespace Scans

variable {x : ReadM α} {f : α → ReadM β} {P P' : α → Prop} {Q : β → Prop}

theorem pure {v : α} (h : P v) : Scans (pure v) P := by
  intro i a
  refine ⟨.ok v, i, rfl, List.suffix_rfl, ?_⟩
  rintro _ ⟨⟩
  exact h

theorem throw (e : SExprError) : Scans (throw e) P := by
  intro i a
  exact ⟨.error e, i, rfl, List.suffix_rfl, nofun⟩

theorem bind (hx : Scans x P) (hf : ∀ v, P v → Scans (f v) Q) : Scans (x >>= f) Q := by
  intro i a
  obtain ⟨r, j, hr, hsuffix, hP⟩ := hx i a
  cases r with
  | error e => exact ⟨.error e, j, ReadM.bind_error hr, hsuffix, nofun⟩
  | ok v =>
      obtain ⟨s, k, hs, hsuffix', hQ⟩ := hf v (hP v rfl) j a
      exact ⟨s, k, (ReadM.bind_ok hr).trans hs, hsuffix'.trans hsuffix, hQ⟩

theorem mono (hx : Scans x P) (h : ∀ v, P v → P' v) : Scans x P' := by
  intro i a
  obtain ⟨r, j, hr, hsuffix, hP⟩ := hx i a
  exact ⟨r, j, hr, hsuffix, fun v hv => h v (hP v hv)⟩

end Scans

theorem Input.rest_skipWhile (test : Char → Bool) (pos : Nat) (cs : List Char) :
    (skipWhile test pos cs).rest = cs.dropWhile test := by
  induction cs generalizing pos with
  | nil => rfl
  | cons c cs ih =>
      rw [skipWhile, List.dropWhile_cons]
      split
      · exact ih _
      · rfl

theorem Input.skipWhile_suffix (test : Char → Bool) (pos : Nat) (cs : List Char) :
    (skipWhile test pos cs).rest <:+ cs := by
  rw [rest_skipWhile]
  exact List.dropWhile_suffix test

theorem scanString_suffix {pos : Nat} {cs s : List Char} {next : Input}
    (h : scanString pos cs = some (s, next)) : next.rest <:+ cs := by
  fun_induction scanString pos cs generalizing s next with
  | case1 => cases h
  | case2 pos cs =>
      cases h
      exact List.suffix_cons _ _
  | case3 pos c cs ih =>
      obtain ⟨p, hp, heq⟩ := Option.map_eq_some_iff.mp h
      cases heq
      exact (ih hp).trans ((List.suffix_cons _ _).trans (List.suffix_cons _ _))
  | case4 => cases h
  | case5 pos c cs _ _ _ ih =>
      obtain ⟨p, hp, heq⟩ := Option.map_eq_some_iff.mp h
      cases heq
      exact (ih hp).trans (List.suffix_cons _ _)

theorem peek_scans : Scans peek fun _ => True := by
  intro i a
  exact ⟨_, _, peek_apply i a, Input.skipWhile_suffix _ _ _, fun _ _ => trivial⟩

theorem advance_apply (i : Input) (a : Arena) :
    ∃ j, advance i a = .ok ((.ok (), j), a) ∧ j.rest <:+ i.rest := by
  obtain ⟨cs, pos⟩ := i
  cases cs with
  | nil => exact ⟨⟨[], pos⟩, rfl, List.suffix_rfl⟩
  | cons c cs => exact ⟨_, advance_cons c cs pos a, List.suffix_cons c cs⟩

theorem advance_scans : Scans advance fun _ => True := by
  intro i a
  obtain ⟨j, h, hsuffix⟩ := advance_apply i a
  exact ⟨.ok (), j, h, hsuffix, fun _ _ => trivial⟩

theorem unexpected_scans {P : α → Prop} (found : Option Char) : Scans (unexpected found) P := by
  intro i a
  cases found with
  | none => exact ⟨.error .unexpectedEnd, i, rfl, List.suffix_rfl, nofun⟩
  | some c => exact ⟨.error (.unexpected c i.pos), i, rfl, List.suffix_rfl, nofun⟩

/-- What is wanted is passed over, and no more than blanks before it. -/
theorem expect_ends (want : Char) (i : Input) (a : Arena) :
    (∃ e j, expect want i a = .ok ((.error e, j), a) ∧ j.rest <:+ i.rest) ∨
      ∃ j, expect want i a = .ok ((.ok (), j), a) ∧ want :: j.rest <:+ i.rest := by
  have hblanks : i.skipBlanks.rest <:+ i.rest := Input.skipWhile_suffix _ _ _
  by_cases hfound : i.skipBlanks.rest.head? = some want
  · right
    obtain ⟨cs, hcs⟩ := List.head?_eq_some_iff.mp hfound
    refine ⟨⟨cs, i.skipBlanks.pos + want.utf8Size⟩, ?_, hcs ▸ hblanks⟩
    unfold expect
    rw [ReadM.bind_ok (peek_apply i a), if_pos hfound]
    rcases hskip : i.skipBlanks with ⟨rest, pos⟩
    obtain rfl : rest = want :: cs := by rw [← hcs, hskip]
    exact advance_cons want cs pos a
  · left
    obtain ⟨r, j, hr, hsuffix, hP⟩ :=
      unexpected_scans (P := fun _ : Unit => False) i.skipBlanks.rest.head? i.skipBlanks a
    cases r with
    | ok v => exact (hP v rfl).elim
    | error e =>
        refine ⟨e, j, ?_, hsuffix.trans hblanks⟩
        unfold expect
        rw [ReadM.bind_ok (peek_apply i a), if_neg hfound]
        exact hr

theorem expect_scans (want : Char) : Scans (expect want) fun _ => True := by
  intro i a
  rcases expect_ends want i a with ⟨e, j, h, hsuffix⟩ | ⟨j, h, hsuffix⟩
  · exact ⟨.error e, j, h, hsuffix, nofun⟩
  · exact ⟨.ok (), j, h, (List.suffix_cons want j.rest).trans hsuffix, fun _ _ => trivial⟩

theorem atom_scans : Scans atom fun _ => True := by
  refine peek_scans.bind fun first _ => ?_
  intro i a
  rw [ReadM.get_bind]
  dsimp only
  by_cases hempty : (i.rest.takeWhile (!endsAtom ·)).isEmpty
  · rw [if_pos hempty]
    exact unexpected_scans first i a
  · rw [if_neg hempty]
    exact ⟨.ok (i.rest.takeWhile (!endsAtom ·), i.pos),
      Input.skipWhile (!endsAtom ·) i.pos i.rest, rfl, Input.skipWhile_suffix _ _ _,
      fun _ _ => trivial⟩

theorem string_scans : Scans string fun _ => True := by
  refine (expect_scans _).bind fun _ _ => ?_
  intro i a
  rw [ReadM.get_bind]
  cases hscan : scanString i.pos i.rest with
  | none => exact Scans.throw _ i a
  | some p =>
      obtain ⟨s, next⟩ := p
      exact ⟨.ok (String.ofList s), next, rfl, scanString_suffix hscan, fun _ _ => trivial⟩

theorem literal_scans (sort : LiteralSort) (read? : List Char → Option α) :
    Scans (literal sort read?) fun _ => True := by
  refine atom_scans.bind fun p _ => ?_
  dsimp only
  split
  · exact .pure trivial
  · exact .throw _

theorem row_scans (ρ : Type) [Table ρ] (sort : NameSort) :
    Scans (row ρ sort) fun s => ∃ v, s = .int v := by
  refine atom_scans.bind fun p _ => ?_
  dsimp only
  split
  · exact .pure ⟨_, rfl⟩
  · split
    · exact .pure ⟨_, rfl⟩
    · exact .throw _

/-- A field other than a child holds what its kind is stored as. -/
theorem slot_scans {child : ReadM NodeId} {kind : FieldKind} (hk : kind ≠ .child) :
    Scans (slot child kind) fun s => s.fits kind = true ∧ s.child? = none := by
  have hint : ∀ {x : ReadM Slot}, kind.isIntegral = true → (Scans x fun s => ∃ v, s = .int v) →
      Scans x fun s => s.fits kind = true ∧ s.child? = none := by
    intro x hkind hx
    apply hx.mono
    rintro _ ⟨v, rfl⟩
    exact ⟨hkind, rfl⟩
  cases kind with
  | child => exact absurd rfl hk
  | str => exact string_scans.bind fun _ _ => .pure ⟨rfl, rfl⟩
  | typeTag | builtin | protocol | declUsage => exact hint rfl (row_scans _ _)
  | _ => exact (literal_scans _ _).bind fun _ _ => .pure ⟨rfl, rfl⟩

/-! ## Making nodes within a bound -/

/-- The number of parentheses that are still to be opened. -/
def Input.opens (i : Input) : Nat := i.rest.count '('

theorem Input.opens_le {i j : Input} (h : j.rest <:+ i.rest) : j.opens ≤ i.opens :=
  h.sublist.count_le '('

theorem Input.opens_skipBlanks_le (i : Input) : i.skipBlanks.opens ≤ i.opens :=
  opens_le (skipWhile_suffix _ _ _)

/-- The outcome of a run, in the course of which the arena was once `a`. If it fails, `a` is restored.
If it succeeds, trees have been made since `a` that stand in relation to the value, and the nodes that
are live and those that may still come are at most `n`. -/
def Outcome (a : Arena) (n : Nat) (Q : α → List (Tree NodeId) → Prop) :
    Checked ((Except SExprError α × Input) × Arena) → Prop
  | .ok ((.ok v, j), b) => (∃ ts, Q v ts ∧ a.Grows ts b) ∧ b.liveCount + j.opens ≤ n
  | .ok ((.error _, _), b) => a.Restores b
  | .error _ => False

/-- Begun with no more than `n` nodes, live or to come, the run ends as described. -/
def Builds (n : Nat) (x : ReadM α) (Q : α → List (Tree NodeId) → Prop) : Prop :=
  ∀ i a, a.WellFormed → a.liveCount + i.opens ≤ n → Outcome a n Q (x i a)

section

variable {n : Nat} {x : ReadM α} {P : α → Prop} {Q : α → List (Tree NodeId) → Prop}
  {R : β → List (Tree NodeId) → Prop} {i : Input} {a a₀ : Arena}

theorem Outcome.bind {m : Nat} {f : α → ReadM β} (h : Outcome a m Q (x i a₀))
    (hf : ∀ v ts j b, Q v ts → a.Grows ts b → b.liveCount + j.opens ≤ m →
      Outcome a n R (f v j b)) : Outcome a n R ((x >>= f) i a₀) := by
  rw [ReadM.bind_apply]
  rcases hx : x i a₀ with e | ⟨⟨r, j⟩, b⟩
  · rw [hx] at h
    exact h
  · rw [hx] at h
    cases r with
    | error e => exact h
    | ok v =>
        obtain ⟨⟨ts, hQ, hgrows⟩, hbound⟩ := h
        exact hf v ts j b hQ hgrows hbound

/-- Tokens come before what makes nodes. -/
theorem Scans.bind_outcome {f : α → ReadM β} (hx : Scans x P) (hw : a.WellFormed)
    (hf : ∀ v j, P v → j.opens ≤ i.opens → Outcome a n R (f v j a)) :
    Outcome a n R ((x >>= f) i a) := by
  obtain ⟨r, j, hr, hsuffix, hP⟩ := hx i a
  cases r with
  | error e =>
      rw [ReadM.bind_error hr]
      exact .refl hw
  | ok v =>
      rw [ReadM.bind_ok hr]
      exact hf v j (hP v rfl) (Input.opens_le hsuffix)

theorem Builds.pure {v : α} (h : Q v []) : Builds n (pure v) Q := by
  intro i a hw hroom
  exact ⟨⟨[], h, .nil hw⟩, hroom⟩

theorem Builds.throw (e : SExprError) : Builds n (throw e) Q := by
  intro i a hw _
  exact .refl hw

theorem Scans.builds (hx : Scans x P) (h : ∀ v, P v → Q v []) : Builds n x Q := by
  intro i a hw hroom
  rw [← bind_pure x]
  exact hx.bind_outcome hw fun v j hv hopens => Builds.pure (h v hv) j a hw (by omega)

end

/-! ## Fields -/

/-- An absent node stands for no tree, any other for the tree under it. -/
inductive Stands : NodeId → List (Tree NodeId) → Prop
  | absent : Stands .null []
  | root (t : Tree NodeId) : Stands t.label [t]

/-- The slot is one that a field of the kind is stored in, and the trees are those in the field. -/
def StandsIn (kind : FieldKind) (s : Slot) (ts : List (Tree NodeId)) : Prop :=
  ∃ g : Field (Tree NodeId), s = g.slot ∧ ts = Tree.subtrees [g] ∧ g.slot.fits kind = true ∧
    ∀ r, g = .leaf r → r.child? = none

/-- The fields hold what a node with the tag has in their places. -/
structure Suits (tag : Tag) (fs : List (Field (Tree NodeId))) : Prop where
  leaf : ∀ s, .leaf s ∈ fs → s.child? = none
  fits : ∀ i k f, tag.layout.kindAt? i = some k → fs[i]? = some f → f.slot.fits k = true

namespace Suits

variable {tag : Tag} {fs : List (Field (Tree NodeId))}

theorem nil : Suits tag [] := ⟨nofun, nofun⟩

theorem append_one (h : Suits tag fs) {g : Field (Tree NodeId)} {kind : FieldKind}
    (hkind : tag.layout.kindAt? fs.length = some kind) (hfits : g.slot.fits kind = true)
    (hleaf : ∀ s, g = .leaf s → s.child? = none) : Suits tag (fs ++ [g]) where
  leaf s hs := by
    rcases List.mem_append.mp hs with hs | hs
    · exact h.leaf s hs
    · exact hleaf s (List.mem_singleton.mp hs).symm
  fits i k f hk hf := by
    rcases Nat.lt_trichotomy i fs.length with hi | rfl | hi
    · rw [List.getElem?_append_left hi] at hf
      exact h.fits i k f hk hf
    · rw [List.getElem?_concat_length] at hf
      cases hf
      cases hkind.symm.trans hk
      exact hfits
    · rw [List.getElem?_eq_none (by rw [List.length_append, List.length_singleton]; omega)] at hf
      cases hf

theorem node_fits (h : Suits tag fs) (haccepts : tag.layout.accepts fs.length = true) :
    (Node.bare tag (fs.map Field.slot)).Fits := by
  refine Arena.fits_iff.mpr ⟨?_, ?_⟩
  · show tag.layout.accepts (fs.map Field.slot).length = true
    rwa [List.length_map]
  · intro i k s hk hs
    change (fs.map Field.slot)[i]? = some s at hs
    rw [List.getElem?_map, Option.map_eq_some_iff] at hs
    obtain ⟨f, hf, rfl⟩ := hs
    exact h.fits i k f hk hf

end Suits

section

variable {n : Nat} {child : ReadM NodeId} {a a₀ : Arena} {i : Input}
  {done : List (Field (Tree NodeId))} {tag : Tag}

theorem slot_builds (hchild : Builds n child Stands) (kind : FieldKind) :
    Builds n (slot child kind) (StandsIn kind) := by
  by_cases hk : kind = .child
  · subst hk
    intro i a hw hroom
    refine (hchild i a hw hroom).bind fun id ts j b hid hgrows hbound =>
      ⟨⟨ts, ?_, hgrows⟩, hbound⟩
    cases hid with
    | absent =>
        refine ⟨.leaf (.code .null), rfl, rfl, rfl, ?_⟩
        rintro _ ⟨⟩
        rfl
    | root t => exact ⟨.child t, rfl, rfl, rfl, nofun⟩
  · apply (slot_scans hk).builds
    rintro s ⟨hfits, hs⟩
    refine ⟨.leaf s, rfl, rfl, hfits, ?_⟩
    rintro _ ⟨⟩
    exact hs

/-- The trees in the fields before are freed when a field is wrong. -/
theorem abandon_restores (hgrows : a₀.Grows (Tree.subtrees done) a) (hdone : Suits tag done)
    (e : SExprError) : ∃ b, (abandon (done.map Field.slot) e : ReadM α) i a =
      .ok ((.error e, i), b) ∧ a₀.Restores b := by
  obtain ⟨b, hb, hrestores⟩ := hgrows.freeSlots hdone.leaf
  exact ⟨b, ReadM.bind_ok (ReadM.lift_ok hb), hrestores⟩

theorem abandon_outcome {Q : α → List (Tree NodeId) → Prop}
    (hgrows : a₀.Grows (Tree.subtrees done) a) (hdone : Suits tag done) (e : SExprError) :
    Outcome a₀ n Q (abandon (done.map Field.slot) e i a) := by
  obtain ⟨b, hb, hrestores⟩ := abandon_restores hgrows hdone e
  rw [hb]
  exact hrestores

/-- The slots are all that a node with the tag needs, and the trees are those in its fields. -/
def StandInAll (tag : Tag) (slots : List Slot) (ts : List (Tree NodeId)) : Prop :=
  ∃ fs, slots = fs.map Field.slot ∧ ts = Tree.subtrees fs ∧ Suits tag fs ∧
    tag.layout.accepts fs.length = true

/-! The next character, blanks apart, decides what comes of the fields. -/

section

variable {slots : List Slot} {c : Char} (fuel : Nat)

theorem fields_end (hc : i.skipBlanks.rest.head? = none) :
    fields child tag (fuel + 1) slots i a = abandon slots .unexpectedEnd i.skipBlanks a := by
  rw [fields, ReadM.bind_ok (peek_apply i a), hc]

theorem fields_close (hc : i.skipBlanks.rest.head? = some ')') :
    fields child tag (fuel + 1) slots i a = (do
      advance
      if tag.layout.accepts slots.length then return slots
      else abandon slots (.badArity tag slots.length)) i.skipBlanks a := by
  rw [fields, ReadM.bind_ok (peek_apply i a), hc]
  rfl

theorem fields_surplus (hc : i.skipBlanks.rest.head? = some c) (hclose : c ≠ ')')
    (hkind : tag.layout.kindAt? slots.length = none) :
    fields child tag (fuel + 1) slots i a =
      abandon slots (.badArity tag (slots.length + 1)) i.skipBlanks a := by
  rw [fields, ReadM.bind_ok (peek_apply i a), hc]
  simp only [hkind]

theorem fields_more {kind : FieldKind} (hc : i.skipBlanks.rest.head? = some c) (hclose : c ≠ ')')
    (hkind : tag.layout.kindAt? slots.length = some kind) :
    fields child tag (fuel + 1) slots i a = (do
      let s ← tryCatch (slot child kind) (abandon slots)
      fields child tag fuel (slots ++ [s])) i.skipBlanks a := by
  rw [fields, ReadM.bind_ok (peek_apply i a), hc]
  simp only [hkind]

end

/-- Reading goes on to the end of the node, or what it has made is freed. -/
theorem fields_outcome (hchild : Builds n child Stands) (fuel : Nat)
    (hgrows : a₀.Grows (Tree.subtrees done) a) (hdone : Suits tag done)
    (hroom : a.liveCount + i.opens ≤ n) :
    Outcome a₀ n (StandInAll tag) (fields child tag fuel (done.map Field.slot) i a) := by
  induction fuel generalizing i a done with
  | zero => exact abandon_outcome hgrows hdone _
  | succ fuel ih =>
      have hlength : (done.map Field.slot).length = done.length := List.length_map _
      have hopens := i.opens_skipBlanks_le
      rcases hc : i.skipBlanks.rest.head? with _ | c
      · rw [fields_end fuel hc]
        exact abandon_outcome hgrows hdone _
      by_cases hclose : c = ')'
      · subst hclose
        obtain ⟨j, hj, hsuffix⟩ := advance_apply i.skipBlanks a
        have hopens' := Input.opens_le hsuffix
        rw [fields_close fuel hc, ReadM.bind_ok hj, hlength]
        by_cases haccepts : tag.layout.accepts done.length = true
        · rw [if_pos haccepts]
          exact ⟨⟨_, ⟨done, rfl, rfl, hdone, haccepts⟩, hgrows⟩, show _ ≤ _ by omega⟩
        · rw [if_neg haccepts]
          exact abandon_outcome hgrows hdone _
      · cases hkind : tag.layout.kindAt? done.length with
        | none =>
            rw [fields_surplus fuel hc hclose (by rwa [hlength])]
            exact abandon_outcome hgrows hdone _
        | some kind =>
            have hslot := slot_builds hchild kind i.skipBlanks a hgrows.wellFormed (by omega)
            rw [fields_more fuel hc hclose (by rwa [hlength]), ReadM.bind_apply,
              ReadM.tryCatch_apply]
            rcases hx : slot child kind i.skipBlanks a with m | ⟨⟨e | s, j⟩, b⟩
            · rw [hx] at hslot
              exact hslot.elim
            · rw [hx] at hslot
              obtain ⟨c, hc, hrestores⟩ := abandon_restores (hgrows.restores hslot) hdone e
              dsimp only
              rw [hc]
              exact hrestores
            · rw [hx] at hslot
              obtain ⟨⟨ts, ⟨g, rfl, rfl, hfits, hleaf⟩, hgrows'⟩, hbound⟩ := hslot
              have hmap : done.map Field.slot ++ [g.slot] = (done ++ [g]).map Field.slot := by
                rw [List.map_append, List.map_singleton]
              dsimp only
              rw [hmap]
              refine ih ?_ (hdone.append_one hkind hfits hleaf) hbound
              rw [Tree.subtrees_append]
              exact hgrows.append hgrows'

end

/-! ## Trees -/

variable {n : Nat} {tag : Tag}

/-- A node with the fields is made, and stands where the parenthesis that opened it did. -/
theorem push_outcome {slots : List Slot} {ts : List (Tree NodeId)} {i : Input} {a b : Arena}
    (hslots : StandInAll tag slots ts) (hgrows : a.Grows ts b) (hroom : b.liveCount + i.opens < n)
    (hn : n ≤ Arena.idLimit) :
    Outcome a n Stands (((Arena.push tag slots : ArenaM NodeId) : ReadM NodeId) i b) := by
  obtain ⟨fs, rfl, rfl, hsuits, haccepts⟩ := hslots
  have hone : b.Room 1 := show b.liveCount + 1 ≤ Arena.idLimit by omega
  obtain ⟨id, c, hc, hgrows', hlive⟩ :=
    Arena.Grows.push [] hgrows hone hsuits.leaf (hsuits.node_fits haccepts)
  rw [ReadM.lift_ok hc]
  exact ⟨⟨_, .root (.node id tag fs), hgrows'⟩, show _ ≤ _ by omega⟩

theorem node_builds (hn : n ≤ Arena.idLimit) (fuel : Nat) : Builds n (node fuel) Stands := by
  induction fuel generalizing n with
  | zero => exact .throw _
  | succ fuel ih =>
      intro i a hw hroom
      rw [node]
      rcases expect_ends '(' i a with ⟨e, j, hj, -⟩ | ⟨j, hj, hsuffix⟩
      · rw [ReadM.bind_error hj]
        exact .refl hw
      have hopens : j.opens < i.opens := by
        have := hsuffix.sublist.count_le '('
        rwa [List.count_cons_self] at this
      rw [ReadM.bind_ok hj]
      -- one parenthesis is behind, so what comes before the node itself is held to a lower bound
      obtain ⟨m, rfl⟩ : ∃ m, n = m + 1 := ⟨n - 1, by omega⟩
      refine peek_scans.bind_outcome hw fun c k _ hk => ?_
      split
      · exact advance_scans.bind_outcome hw fun _ l _ hl =>
          Builds.pure Stands.absent l a hw (by omega)
      refine atom_scans.bind_outcome hw fun p l _ hl => ?_
      dsimp only
      cases Tag.ofName? (String.ofList p.1) with
      | none => exact Builds.throw _ l a hw (by omega)
      | some tag =>
          have hfields : Outcome a m (StandInAll tag) (fields (node fuel) tag fuel [] l a) :=
            fields_outcome (ih (Nat.le_of_succ_le hn)) fuel (.nil hw) .nil (by omega)
          exact hfields.bind fun slots ts k' b hslots hgrows hbound =>
            push_outcome hslots hgrows (Nat.lt_succ_of_le hbound) hn

/-- What a node stands for is freed with it. -/
theorem free_restores {id : NodeId} {ts : List (Tree NodeId)} {a b : Arena} (hid : Stands id ts)
    (hgrows : a.Grows ts b) : ∃ c, Arena.free id b = .ok ((), c) ∧ a.Restores c := by
  cases hid with
  | absent => exact ⟨b, rfl, hgrows.clear (.nil hgrows.wellFormed)⟩
  | root t => exact hgrows.free

/-- A tree with text after it is freed again. -/
theorem whole_builds (hn : n ≤ Arena.idLimit) (fuel : Nat) : Builds n (whole fuel) Stands := by
  intro i a hw hroom
  refine (node_builds hn fuel i a hw hroom).bind fun id ts j b hid hgrows hbound => ?_
  rw [ReadM.bind_ok (peek_apply j b)]
  have hopens := j.opens_skipBlanks_le
  cases j.skipBlanks.rest.head? with
  | none => exact ⟨⟨ts, hid, hgrows⟩, show _ ≤ _ by omega⟩
  | some c =>
      obtain ⟨d, hd, hrestores⟩ := free_restores hid hgrows
      dsimp only
      rw [ReadM.bind_ok (ReadM.lift_ok hd)]
      exact hrestores

end SExpr

open SExpr

namespace Arena

/-- Reading ends in an error, and every id has the node it had, or none. -/
def ReadFailsClean (text : String) (a : Arena) : Prop :=
  ∃ e a', (Arena.read text).run a = .ok (.error e, a') ∧ (∀ x, a'.get? x = a.get? x) ∧
    a'.WellFormed ∧ a'.liveCount = a.liveCount

/-- Reading gives a node or an absent one. What is reached from a node is a strict tree of new nodes.
There are as many as the arena has grown by, none for an absent one. -/
def ReadMakesTree (text : String) (a : Arena) : Prop :=
  ∃ id ids a', (Arena.read text).run a = .ok (.ok id, a') ∧
    (id = .null ∧ ids = [] ∨ a'.StrictTree id ids) ∧
    (∀ x ∈ ids, a.contains x = false ∧ a'.contains x = true) ∧
    (∀ x, x ∉ ids → a'.get? x = a.get? x) ∧
    a'.WellFormed ∧ a'.liveCount = a.liveCount + ids.length

theorem read_eq (text : String) (a : Arena) : (Arena.read text).run a =
    (whole (text.toList.length + 1) ⟨text.toList, 0⟩ a).map fun p => (p.1.1, p.2) := by
  show (whole (text.toList.length + 1) ⟨text.toList, 0⟩ a >>= fun p => _) = _
  rcases whole (text.toList.length + 1) ⟨text.toList, 0⟩ a with m | ⟨⟨r, j⟩, b⟩ <;> rfl

/-- Whatever the text is, reading is not refused and does one or the other. Room for as many nodes as
the text has opening parentheses is enough. -/
theorem read_fails_clean_or_makes_tree (text : String) (a : Arena) (hw : a.WellFormed)
    (hr : a.Room (text.toList.count '(')) : ReadFailsClean text a ∨ ReadMakesTree text a := by
  have hrun := whole_builds (Nat.le_refl idLimit) (text.toList.length + 1) ⟨text.toList, 0⟩ a hw hr
  have hread := read_eq text a
  rcases hx : whole (text.toList.length + 1) ⟨text.toList, 0⟩ a with m | ⟨⟨e | id, j⟩, b⟩
  · rw [hx] at hrun
    exact hrun.elim
  · rw [hx] at hrun hread
    exact .inl ⟨e, b, hread, hrun.get?, hrun.wellFormed, hrun.liveCount⟩
  · rw [hx] at hrun hread
    obtain ⟨⟨ts, hid, hgrows⟩, -⟩ := hrun
    refine .inr ⟨id, ts.flatMap Tree.labels, b, hread, ?_, ?_, hgrows.kept, hgrows.wellFormed,
      hgrows.liveCount⟩
    · cases hid with
      | absent => exact .inl ⟨rfl, rfl⟩
      | root t =>
          have hlabels : [t].flatMap Tree.labels = t.labels := List.flatMap_singleton _ _
          rw [hlabels]
          exact .inr ((hgrows.placed t List.mem_cons_self).strictTree (hlabels ▸ hgrows.nodup))
    · intro x hx
      obtain ⟨t, ht, hxt⟩ := List.mem_flatMap.mp hx
      exact ⟨hw.aligned.contains_of_fresh (hgrows.fresh x hx),
        hgrows.wellFormed.contains_iff.mpr (Tree.mem_labels_live (hgrows.placed t ht) hxt).2⟩

/-- Read beside a node and into a vacant row: a sequence that takes up all its text, and one that
ends within a string, when three nodes are already there. -/
theorem read_makes_tree_and_fails_clean :
    let a : Arena := .ofRows [some (.bare .nil []), none] [⟨1⟩]
    let good := "(Seq (Nil) (Unimp \"(\"))"
    let bad := "(Seq (Nil) (Set (Nil) ()) (Unimp \""
    a.WellFormed ∧ (a.Room (good.toList.count '(') ∧ ReadMakesTree good a) ∧
      (a.Room (bad.toList.count '(') ∧ ReadFailsClean bad a) := by
  intro a good bad
  have hw : a.WellFormed := by decide
  have hgood : a.Room (good.toList.count '(') := by decide +kernel
  have hbad : a.Room (bad.toList.count '(') := by decide +kernel
  refine ⟨hw, ⟨hgood, (read_fails_clean_or_makes_tree good a hw hgood).resolve_left ?_⟩,
    ⟨hbad, (read_fails_clean_or_makes_tree bad a hw hbad).resolve_right ?_⟩⟩
  · rintro ⟨e, a', h, -⟩
    have hok : ((Arena.read good).run a).toOption.map (fun p => p.1.isOk) = some true := by
      decide +kernel
    rw [h] at hok
    cases hok
  · rintro ⟨id, ids, a', h, -⟩
    have hok : ((Arena.read bad).run a).toOption.map (fun p => p.1.isOk) = some false := by
      decide +kernel
    rw [h] at hok
    cases hok

end Arena

end Foam
