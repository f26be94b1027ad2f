import Foam.Misuse

/-!
# Computations that may be refused

A sequence that succeeds is taken apart into the successes of its parts, with and without a state
that is passed along. That a computation is not refused, and what it answers, is put together along
the ways computations are (`Answers`).
-/

namespace Foam.Checked

variable {α β σ : Type}

theorem ok_bind (v : α) (f : α → Checked β) : (Except.ok v >>= f) = f v := rfl

theorem bind_eq_ok {x : Checked α} {f : α → Checked β} {w : β} :
    (x >>= f) = .ok w ↔ ∃ v, x = .ok v ∧ f v = .ok w := by
  cases x with
  | error e =>
      constructor
      · intro h
        cases h
      · rintro ⟨v, h, -⟩
        cases h
  | ok v =>
      constructor
      · exact fun h => ⟨v, rfl, h⟩
      · rintro ⟨w, h, hf⟩
        cases h
        exact hf

theorem of_mapM_eq_ok {f : α → Checked β} {vs : List α} {ws : List β} (h : vs.mapM f = .ok ws)
    {v : α} (hv : v ∈ vs) : ∃ w, f v = .ok w := by
  induction vs generalizing ws with
  | nil => cases hv
  | cons u vs ih =>
      rw [List.mapM_cons] at h
      obtain ⟨w, hw, h⟩ := bind_eq_ok.mp h
      obtain ⟨rest, hrest, -⟩ := bind_eq_ok.mp h
      rcases List.mem_cons.mp hv with rfl | hv
      · exact ⟨w, hw⟩
      · exact ih hrest hv

theorem mapM_eq_ok {f : α → Checked β} {g : α → β} {vs : List α} (h : ∀ v ∈ vs, f v = .ok (g v)) :
    vs.mapM f = .ok (vs.map g) := by
  induction vs with
  | nil => rfl
  | cons v vs ih =>
      rw [List.mapM_cons, h v List.mem_cons_self, ok_bind,
        ih fun w hw => h w (List.mem_cons_of_mem _ hw)]
      rfl

theorem filterMapM_eq_ok {f : α → Checked (Option β)} {g : α → Option β} {vs : List α}
    (h : ∀ v ∈ vs, f v = .ok (g v)) : vs.filterMapM f = .ok (vs.filterMap g) := by
  induction vs with
  | nil => rfl
  | cons v vs ih =>
      have hrest : vs.filterMapM f = .ok (vs.filterMap g) :=
        ih fun w hw => h w (List.mem_cons_of_mem _ hw)
      rw [List.filterMapM_cons, h v List.mem_cons_self, ok_bind, List.filterMap_cons, hrest]
      cases g v <;> rfl

/-! ## With a state -/

variable {s t : σ} {w : β}

theorem run_bind_eq_ok {x : StateT σ Checked α} {f : α → StateT σ Checked β} :
    (x >>= f) s = .ok (w, t) ↔ ∃ v r, x s = .ok (v, r) ∧ f v r = .ok (w, t) := by
  change (x s >>= fun p => f p.1 p.2) = _ ↔ _
  rw [bind_eq_ok]
  constructor
  · rintro ⟨⟨v, r⟩, hx, h⟩
    exact ⟨v, r, hx, h⟩
  · rintro ⟨v, r, hx, h⟩
    exact ⟨(v, r), hx, h⟩

theorem get_bind (f : σ → StateT σ Checked β) : (get >>= f) s = f s s := rfl

theorem run_lift_bind {m : Type → Type} [Monad m] [LawfulMonad m] (x : m α) (f : α → StateT σ m β)
    (s : σ) : ((x : StateT σ m α) >>= f) s = x >>= fun v => f v s := by
  show ((x >>= fun v => pure (v, s)) >>= fun p => f p.1 p.2) = _
  rw [bind_assoc]
  simp only [pure_bind]

theorem run_lift_eq_ok {x : Checked α} {v : α} :
    (x : StateT σ Checked α) s = .ok (v, t) ↔ x = .ok v ∧ s = t := by
  cases x with
  | error m => exact ⟨nofun, nofun⟩
  | ok w =>
      constructor
      · intro h
        cases h
        exact ⟨rfl, rfl⟩
      · rintro ⟨h, rfl⟩
        cases h
        rfl

/-- What is only looked up changes nothing on the way. -/
theorem run_lift_bind_eq_ok {x : Checked α} {f : α → StateT σ Checked β} :
    ((x : StateT σ Checked α) >>= f) s = .ok (w, t) ↔ ∃ v, x = .ok v ∧ f v s = .ok (w, t) := by
  rw [run_bind_eq_ok]
  constructor
  · rintro ⟨v, r, hx, h⟩
    obtain ⟨hv, rfl⟩ := run_lift_eq_ok.mp hx
    exact ⟨v, hv, h⟩
  · rintro ⟨v, hx, h⟩
    exact ⟨v, s, run_lift_eq_ok.mpr ⟨hx, rfl⟩, h⟩

/-- Each of several steps has been taken from some state. -/
theorem of_forM_eq_ok {step : α → StateT σ Checked Unit} {vs : List α}
    (h : vs.forM step s = .ok ((), t)) {v : α} (hv : v ∈ vs) : ∃ r r', step v r = .ok ((), r') := by
  induction vs generalizing s with
  | nil => cases hv
  | cons u vs ih =>
      obtain ⟨⟨⟩, r, hu, h⟩ := run_bind_eq_ok.mp h
      rcases List.mem_cons.mp hv with rfl | hv
      · exact ⟨s, r, hu⟩
      · exact ih h hv

/-- What each of several steps preserves, all of them in turn preserve. -/
theorem forM_preserves {step : α → StateT σ Checked Unit} {vs : List α} {I : σ → Prop}
    (h : ∀ v ∈ vs, ∀ r r', I r → step v r = .ok ((), r') → I r') (hs : I s)
    (hforM : vs.forM step s = .ok ((), t)) : I t := by
  induction vs generalizing s with
  | nil =>
      cases hforM
      exact hs
  | cons v vs ih =>
      obtain ⟨⟨⟩, r, hv, hforM⟩ := run_bind_eq_ok.mp hforM
      exact ih (fun w hw => h w (List.mem_cons_of_mem _ hw))
        (h v List.mem_cons_self s r hs hv) hforM

/-! ## Answers -/

/-- The computation is not refused, and what it answers has the property. -/
def Answers (P : α → Prop) (x : Checked α) : Prop := ∃ v, x = .ok v ∧ P v

/-- The computation is not refused. -/
abbrev Returns (x : Checked α) : Prop := Answers (fun _ => True) x

namespace Answers

variable {P : α → Prop} {Q : β → Prop} {x : Checked α}

theorem ok {v : α} (h : P v) : Answers P (.ok v) := ⟨v, rfl, h⟩

theorem imp {R : α → Prop} (h : Answers P x) (hR : ∀ v, P v → R v) : Answers R x := by
  obtain ⟨v, hv, hP⟩ := h
  exact ⟨v, hv, hR v hP⟩

/-- What comes second may count on what the first computation has answered. -/
theorem bind_eq {f : α → Checked β} (h : Answers P x)
    (hf : ∀ v, x = .ok v → P v → Answers Q (f v)) : Answers Q (x >>= f) := by
  obtain ⟨v, rfl, h⟩ := h
  exact hf v rfl h

theorem bind {f : α → Checked β} (h : Answers P x) (hf : ∀ v, P v → Answers Q (f v)) :
    Answers Q (x >>= f) :=
  h.bind_eq fun v _ => hf v

theorem ite {p : Prop} [Decidable p] {y : Checked α} (h : p → Answers P x) (h' : ¬p → Answers P y) :
    Answers P (if p then x else y) := by
  by_cases hp : p
  · rw [if_pos hp]
    exact h hp
  · rw [if_neg hp]
    exact h' hp

/-- Where two branches go on in the same way, what follows is looked at once. -/
theorem ite_join {p : Prop} [Decidable p] {f : α → Checked β} {y : Checked β}
    (hf : ∀ v, Answers Q (f v)) (h : p → (∀ v, Answers Q (f v)) → Answers Q y)
    (h' : ¬p → Returns x) : Answers Q (if p then y else x >>= f) :=
  .ite (fun hp => h hp hf) fun hp => (h' hp).bind fun v _ => hf v

theorem mapM {f : α → Checked β} {vs : List α} (h : ∀ v ∈ vs, Returns (f v)) :
    Returns (vs.mapM f) := by
  induction vs with
  | nil => exact .ok trivial
  | cons v vs ih =>
      rw [List.mapM_cons]
      refine (h v List.mem_cons_self).bind fun _ _ => ?_
      exact (ih fun w hw => h w (List.mem_cons_of_mem _ hw)).bind fun _ _ => .ok trivial

/-- One of several tests succeeds if one of the things tested has the property. -/
theorem anyM {p : α → Prop} {f : α → Checked Bool} {vs : List α}
    (h : ∀ v ∈ vs, Answers (fun r => r = true ↔ p v) (f v)) :
    Answers (fun r => r = true ↔ ∃ v ∈ vs, p v) (vs.anyM f) := by
  induction vs with
  | nil => exact .ok (by simp)
  | cons v vs ih =>
      obtain ⟨r, hr, hv⟩ := h v List.mem_cons_self
      rw [List.anyM_cons, hr, ok_bind]
      cases r with
      | true => exact .ok (iff_of_true rfl ⟨v, List.mem_cons_self, hv.mp rfl⟩)
      | false =>
          refine (ih fun w hw => h w (List.mem_cons_of_mem _ hw)).imp fun s hs => hs.trans ?_
          have hnot : ¬p v := mt hv.mpr Bool.false_ne_true
          simp [hnot]

end Answers

end Foam.Checked
