import Foam.Proofs.Arena.Free
import Foam.Proofs.Fields

/-!
# Control in a sequence

From before the first statement of a sequence, control goes from one statement to the next that it can
reach, until it leaves. A statement cannot be reached if control was diverted before it and no label
has come since. What is visited is exactly what can be reached, in order (`visits_reached`): a step
passes over nothing that can be reached (`nextReachable_answers`), as between a statement that diverts
control and the next label there is no such statement, not even behind another one that diverts it.
-/

namespace Foam

namespace Control

/-! ## Statements that can be reached -/

/-- Control goes elsewhere than to the next statement. -/
def Diverts (t : Tag) : Prop := t = .goto ∨ t = .ret ∨ t = .throw

theorem diverts_iff {t : Tag} : Diverts t ↔ t = .goto ∨ t.exitsSeq = true := by
  cases t <;> simp [Diverts, Tag.exitsSeq]

/-- Statement `i` of those with the tags diverts control. -/
def DivertsAt (ts : List Tag) (i : Nat) : Prop := ∃ t ∈ ts[i]?, Diverts t

def LabelAt (ts : List Tag) (i : Nat) : Prop := ts[i]? = some .label

/-- No statement before diverts control, or there is a label after the last one that does. -/
def Reached (ts : List Tag) (i : Nat) : Prop :=
  (∀ j < i, ¬DivertsAt ts j) ∨
    ∃ j < i, DivertsAt ts j ∧ (∀ k < i, j < k → ¬DivertsAt ts k) ∧ ∃ l ≤ i, j < l ∧ LabelAt ts l

variable {ts : List Tag} {i j : Nat}

theorem none_or_last (P : Nat → Prop) (i : Nat) :
    (∀ j < i, ¬P j) ∨ ∃ j < i, P j ∧ ∀ k < i, j < k → ¬P k := by
  induction i with
  | zero => exact .inl nofun
  | succ i ih =>
      by_cases hi : P i
      · exact .inr ⟨i, Nat.lt_succ_self i, hi, fun k hk hik => absurd hk (by omega)⟩
      · rcases ih with hnone | ⟨j, hj, hP, hlast⟩
        · refine .inl fun j hj => ?_
          rcases Nat.lt_succ_iff_lt_or_eq.mp hj with hj | rfl
          · exact hnone j hj
          · exact hi
        · refine .inr ⟨j, Nat.lt_succ_of_lt hj, hP, fun k hk hjk => ?_⟩
          rcases Nat.lt_succ_iff_lt_or_eq.mp hk with hk | rfl
          · exact hlast k hk hjk
          · exact hi

theorem reached_zero (ts : List Tag) : Reached ts 0 := .inl nofun

theorem LabelAt.reached (h : LabelAt ts i) : Reached ts i := by
  refine (none_or_last (DivertsAt ts) i).imp_right ?_
  rintro ⟨j, hj, hdiverts, hlast⟩
  exact ⟨j, hj, hdiverts, hlast, i, Nat.le_refl i, hj, h⟩

/-- Control falls through. -/
theorem Reached.succ (h : Reached ts i) (hi : ¬DivertsAt ts i) : Reached ts (i + 1) := by
  have hall : ∀ {j}, (∀ k < i, j < k → ¬DivertsAt ts k) → ∀ k < i + 1, j < k → ¬DivertsAt ts k := by
    intro j hlast k hk hjk
    rcases Nat.lt_succ_iff_lt_or_eq.mp hk with hk | rfl
    · exact hlast k hk hjk
    · exact hi
  rcases h with hnone | ⟨j, hj, hdiverts, hlast, l, hl, hjl, hlabel⟩
  · refine .inl fun j hj => ?_
    rcases Nat.lt_succ_iff_lt_or_eq.mp hj with hj | rfl
    · exact hnone j hj
    · exact hi
  · exact .inr ⟨j, Nat.lt_succ_of_lt hj, hdiverts, hall hlast, l, Nat.le_succ_of_le hl, hjl, hlabel⟩

/-- Without a label control does not come back to the sequence. What diverts it further on, where it
does not come, makes no difference. -/
theorem DivertsAt.not_reached (h : DivertsAt ts j) (hji : j < i)
    (hlabel : ∀ l ≤ i, j < l → ¬LabelAt ts l) : ¬Reached ts i := by
  rintro (hnone | ⟨k, -, -, hlast, l, hl, hkl, hat⟩)
  · exact hnone j hji h
  · have hjk : j ≤ k := by
      by_contra hlt
      exact hlast j hji (Nat.lt_of_not_le hlt) h
    exact hlabel l hl (Nat.lt_of_le_of_lt hjk hkl) hat

/-! ## The next statement -/

/-- The first place from `p` on, short of `n`, that has the property. -/
def IsFirst (P : Nat → Prop) (n p : Nat) : Option Nat → Prop
  | some k => p ≤ k ∧ k < n ∧ P k ∧ ∀ m < k, p ≤ m → ¬P m
  | none => ∀ m < n, p ≤ m → ¬P m

/-- The first label after a statement that diverts control is the first statement that can be
reached. -/
theorem IsFirst.reached {o : Option Nat} (h : IsFirst (LabelAt ts) ts.length (i + 1) o)
    (hi : DivertsAt ts i) : IsFirst (Reached ts) ts.length (i + 1) o := by
  cases o with
  | none =>
      intro m hm him
      exact hi.not_reached him fun l hl hil => h l (Nat.lt_of_le_of_lt hl hm) hil
  | some k =>
      obtain ⟨hik, hk, hlabel, hfirst⟩ := h
      refine ⟨hik, hk, hlabel.reached, fun m hm him => ?_⟩
      exact hi.not_reached him fun l hl hil => hfirst l (Nat.lt_of_le_of_lt hl hm) hil

end Control

open Control Checked

namespace Arena

/-- A node with statements of these tags. -/
def IsSequence (a : Arena) (seq : NodeId) (ts : List Tag) : Prop :=
  ∃ n ∈ a.get? seq, List.Forall₂ (fun s t => ∃ c, s = .code c ∧ a.tag c = .ok t) n.slots ts

/-- From place `i` on control visits the statements at the places `js`, one after the other, and then
leaves the sequence. -/
inductive Visits (a : Arena) (seq : NodeId) : (i : Int) → (js : List Int) → Prop
  | leave {i : Int} : a.nextReachable seq i = .ok (-1) → Visits a seq i []
  | step {i j : Int} {js : List Int} : a.nextReachable seq i = .ok j → j ≠ -1 → Visits a seq j js →
      Visits a seq i (j :: js)

variable {a : Arena} {seq : NodeId} {ts : List Tag} {i : Nat}

theorem Visits.unique {i : Int} {js ks : List Int} (h : a.Visits seq i js) (h' : a.Visits seq i ks) :
    js = ks := by
  induction h generalizing ks with
  | leave hleave =>
      cases h' with
      | leave _ => rfl
      | step hstep hne _ => exact absurd (Except.ok.inj (hstep.symm.trans hleave)) hne
  | step hstep hne _ ih =>
      cases h' with
      | leave hleave => exact absurd (Except.ok.inj (hstep.symm.trans hleave)) hne
      | step hstep' _ hrest =>
          obtain rfl := Except.ok.inj (hstep.symm.trans hstep')
          rw [ih hrest]

/-! ## Steps -/

theorem IsSequence.slotCount_eq (h : a.IsSequence seq ts) : a.slotCount seq = .ok ts.length := by
  obtain ⟨n, hn, hslots⟩ := h
  rw [slotCount_of_get? hn, hslots.length_eq]

theorem IsSequence.statement_eq (h : a.IsSequence seq ts) (hi : i < ts.length) :
    ∃ c, a.statement seq i = .ok c ∧ a.tag c = .ok ts[i] := by
  obtain ⟨n, hn, hslots⟩ := h
  have hi' : i < n.slots.length := hslots.length_eq ▸ hi
  obtain ⟨c, hc, htag⟩ := hslots.get hi' hi
  refine ⟨c, ?_, htag⟩
  rw [statement, if_neg (by omega), Int.toNat_natCast]
  exact child_of_get? hn (List.getElem?_eq_some_iff.mpr ⟨hi', hc⟩)

theorem labelFrom?_answers (h : a.IsSequence seq ts) {fuel : Nat} (hfuel : i + fuel = ts.length) :
    ∃ o : Option Nat, a.labelFrom? seq fuel i = .ok (o.map Nat.cast) ∧
      IsFirst (LabelAt ts) ts.length i o := by
  induction fuel generalizing i with
  | zero => exact ⟨none, rfl, fun m hm him => absurd hm (by omega)⟩
  | succ fuel ih =>
      have hi : i < ts.length := by omega
      obtain ⟨c, hc, htag⟩ := h.statement_eq hi
      rw [labelFrom?, hc, ok_bind, htag, ok_bind]
      by_cases hlabel : ts[i] = .label
      · rw [if_pos hlabel]
        refine ⟨some i, rfl, Nat.le_refl i, hi, ?_, fun m hm him => absurd hm (by omega)⟩
        rw [LabelAt, List.getElem?_eq_getElem hi, hlabel]
      · rw [if_neg hlabel]
        obtain ⟨o, ho, hfirst⟩ := ih (i := i + 1) (by omega)
        have hhere : ¬LabelAt ts i := by
          rw [LabelAt, List.getElem?_eq_getElem hi]
          exact fun heq => hlabel (Option.some.inj heq)
        refine ⟨o, ho, ?_⟩
        cases o with
        | none =>
            intro m hm him
            rcases Nat.eq_or_lt_of_le him with rfl | him
            · exact hhere
            · exact hfirst m hm him
        | some k =>
            obtain ⟨hik, hk, hat, hbefore⟩ := hfirst
            refine ⟨Nat.le_of_succ_le hik, hk, hat, fun m hm him => ?_⟩
            rcases Nat.eq_or_lt_of_le him with rfl | him
            · exact hhere
            · exact hbefore m hm him

/-- After a statement that can be reached, and at the beginning, control goes to the first one behind
that can be reached, and leaves if there is none. -/
theorem nextReachable_answers (h : a.IsSequence seq ts) {p : Nat} (hp : p ≤ ts.length)
    (hreached : ∀ i, p = i + 1 → Reached ts i) :
    ∃ o : Option Nat, a.nextReachable seq ((p : Int) - 1) = .ok (o.elim (-1) Nat.cast) ∧
      IsFirst (Reached ts) ts.length p o := by
  unfold nextReachable
  rw [h.slotCount_eq, ok_bind]
  by_cases hend : p = ts.length
  · rw [if_pos (by omega)]
    exact ⟨none, rfl, fun m hm hpm => absurd hm (by omega)⟩
  rw [if_neg (by omega)]
  cases p with
  | zero =>
      rw [if_pos (by omega)]
      refine ⟨some 0, rfl, Nat.le_refl 0, by omega, reached_zero ts, nofun⟩
  | succ i =>
      have hi : i < ts.length := by omega
      have hcast : ((i + 1 : Nat) : Int) - 1 = i := by omega
      obtain ⟨c, hc, htag⟩ := h.statement_eq hi
      have hat : DivertsAt ts i ↔ (decide (ts[i] = .goto) || ts[i].exitsSeq) = true := by
        simp [DivertsAt, diverts_iff, List.getElem?_eq_getElem hi]
      rw [hcast, if_neg (by omega), hc, ok_bind, htag, ok_bind]
      by_cases hdiverts : (decide (ts[i] = .goto) || ts[i].exitsSeq) = true
      · have hfuel : (((ts.length : Nat) : Int) - (i + 1)).toNat = ts.length - (i + 1) := by omega
        have hend : i + 1 + (ts.length - (i + 1)) = ts.length := by omega
        obtain ⟨o, ho, hfirst⟩ := labelFrom?_answers h hend
        rw [if_pos hdiverts, hfuel]
        refine ⟨o, ?_, hfirst.reached (hat.mpr hdiverts)⟩
        show a.labelFrom? seq (ts.length - (i + 1)) ((i + 1 : Nat) : Int) >>= _ = _
        rw [ho]
        cases o <;> rfl
      · rw [if_neg hdiverts]
        have hnext : Reached ts (i + 1) := (hreached i rfl).succ (mt hat.mp hdiverts)
        exact ⟨some (i + 1), rfl, Nat.le_refl _, by omega, hnext, fun m hm him => absurd hm (by omega)⟩

/-! ## Runs -/

theorem exists_visits (h : a.IsSequence seq ts) {p : Nat} (hp : p ≤ ts.length)
    (hreached : ∀ i, p = i + 1 → Reached ts i) :
    ∃ is : List Nat, a.Visits seq ((p : Int) - 1) (is.map Nat.cast) ∧ is.Pairwise (· < ·) ∧
      ∀ i, i ∈ is ↔ p ≤ i ∧ i < ts.length ∧ Reached ts i := by
  generalize hm : ts.length - p = left
  induction left using Nat.strong_induction_on generalizing p with
  | _ left ih =>
      obtain ⟨o, ho, hfirst⟩ := nextReachable_answers h hp hreached
      cases o with
      | none =>
          refine ⟨[], .leave ho, .nil, fun i => ⟨nofun, ?_⟩⟩
          rintro ⟨hpi, hi, hr⟩
          exact absurd hr (hfirst i hi hpi)
      | some k =>
          obtain ⟨hpk, hk, hr, hbefore⟩ := hfirst
          have hcast : ((k + 1 : Nat) : Int) - 1 = k := by omega
          obtain ⟨is, hvisits, hsorted, hmem⟩ := ih (ts.length - (k + 1)) (by omega) hk
            (fun i hi => Nat.succ.inj hi ▸ hr) rfl
          rw [hcast] at hvisits
          refine ⟨k :: is, .step ho (by simp) hvisits, ?_, fun i => ?_⟩
          · exact .cons (fun i hi => (hmem i).mp hi |>.1) hsorted
          · rw [List.mem_cons, hmem]
            constructor
            · rintro (rfl | ⟨hki, hi, hri⟩)
              · exact ⟨hpk, hk, hr⟩
              · exact ⟨by omega, hi, hri⟩
            · rintro ⟨hpi, hi, hri⟩
              rcases Nat.lt_trichotomy i k with hik | rfl | hik
              · exact absurd hri (hbefore i hik hpi)
              · exact .inl rfl
              · exact .inr ⟨hik, hi, hri⟩

/-- A sequence whose statements are all present has their tags. -/
theorem exists_isSequence {n : Node} (hw : a.WellFormed) (hn : a.get? seq = some n)
    (htag : n.tag = .seq) (hlive : ∀ c, .code c ∈ n.slots → a.contains c = true) :
    ∃ ts, List.Forall₂ (fun s t => ∃ c, s = .code c ∧ a.tag c = .ok t) n.slots ts := by
  have hstatement : ∀ s ∈ n.slots, ∃ t, ∃ c, s = .code c ∧ a.tag c = .ok t := by
    intro s hs
    obtain ⟨i, hi, hsi⟩ := List.getElem_of_mem hs
    obtain ⟨c, hc⟩ := hw.code_at hn hi (by rw [htag]; rfl)
    obtain rfl : s = .code c := hsi.symm.trans (List.getElem?_eq_some_iff.mp hc).2
    obtain ⟨m, hm⟩ := hw.contains_iff.mp (hlive c hs)
    exact ⟨m.tag, c, rfl, tag_of_get? hm⟩
  have : Nonempty Tag := ⟨.seq⟩
  choose! tagOf htagOf using hstatement
  refine ⟨n.slots.map tagOf, List.forall₂_map_right_iff.mpr ?_⟩
  exact List.forall₂_same.mpr htagOf

/-- Control goes through a sequence whose statements are all present in one way only, which comes to
an end. It visits statements in ascending order, and exactly those that can be reached. -/
theorem visits_reached {n : Node} (hw : a.WellFormed) (hn : a.get? seq = some n)
    (htag : n.tag = .seq) (hlive : ∀ c, .code c ∈ n.slots → a.contains c = true) :
    ∃ (ts : List Tag) (is : List Nat),
      List.Forall₂ (fun s t => ∃ c, s = .code c ∧ a.tag c = .ok t) n.slots ts ∧
      (∀ js, a.Visits seq (-1) js ↔ js = is.map Nat.cast) ∧ is.Pairwise (· < ·) ∧
      ∀ i, i ∈ is ↔ i < n.slots.length ∧ Reached ts i := by
  obtain ⟨ts, hslots⟩ := exists_isSequence hw hn htag hlive
  obtain ⟨is, hvisits, hsorted, hmem⟩ := exists_visits (p := 0) ⟨n, hn, hslots⟩ (Nat.zero_le _) nofun
  refine ⟨ts, is, hslots, fun js => ⟨fun h => h.unique hvisits, ?_⟩, hsorted, fun i => ?_⟩
  · rintro rfl
    exact hvisits
  · rw [hmem, hslots.length_eq]
    simp

/-- The return behind the jump is dead, and so is the jump behind it: control comes back at the label
and leaves at the second return, with the throw left out. -/
theorem visits_reached_past_dead_return :
    let n : Node := .bare .seq [.code ⟨1⟩, .code ⟨2⟩, .code ⟨1⟩, .code ⟨3⟩, .code ⟨2⟩, .code ⟨4⟩]
    let a : Arena := .ofRows [some n, some (.bare .goto [.int 0]), some (.bare .ret [.code .null]),
      some (.bare .label [.int 0]), some (.bare .throw [.code .null, .code .null])] []
    a.WellFormed ∧ a.get? ⟨0⟩ = some n ∧ n.tag = .seq ∧
      (∀ c, .code c ∈ n.slots → a.contains c = true) ∧ a.Visits ⟨0⟩ (-1) [0, 3, 4] ∧
      ∃ (ts : List Tag) (is : List Nat),
        List.Forall₂ (fun s t => ∃ c, s = .code c ∧ a.tag c = .ok t) n.slots ts ∧
        (∀ js, a.Visits ⟨0⟩ (-1) js ↔ js = is.map Nat.cast) ∧ is.Pairwise (· < ·) ∧
        ∀ i, i ∈ is ↔ i < n.slots.length ∧ Reached ts i := by
  intro n a
  have hw : a.WellFormed := by decide
  have hlive : ∀ c, .code c ∈ n.slots → a.contains c = true := by
    simp only [n, Node.bare, List.mem_cons, Slot.code.injEq, List.not_mem_nil, or_false]
    rintro c (rfl | rfl | rfl | rfl | rfl | rfl) <;> rfl
  have hvisits : a.Visits ⟨0⟩ (-1) [0, 3, 4] :=
    .step rfl (by decide) (.step rfl (by decide) (.step rfl (by decide) (.leave rfl)))
  exact ⟨hw, rfl, rfl, hlive, hvisits, visits_reached hw rfl rfl hlive⟩

end Arena

end Foam
