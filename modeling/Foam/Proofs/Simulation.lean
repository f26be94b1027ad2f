import Foam.Proofs.Fields
import Foam.Typing
import Mathlib.Data.List.Forall2

/-!
# Simulation of one computation by another

One computation simulates another if it answers wherever the other does, and the answers are related.
A simulation is put together along the computations: there is a rule for each way in which these are.
-/

namespace Foam

/-! ## Lists of pairs -/

section

variable {α β γ : Type} {R : α → β → Prop} {xs : List α} {ys : List β}

/-- Related members stay related when each gets the same companion. -/
theorem forall₂_zip_right (h : List.Forall₂ R xs ys) (zs : List γ) :
    List.Forall₂ (fun p q => R p.1 q.1 ∧ p.2 = q.2) (xs.zip zs) (ys.zip zs) := by
  induction h generalizing zs with
  | nil => exact .nil
  | cons hxy _ ih =>
      cases zs with
      | nil => exact .nil
      | cons z zs => exact .cons ⟨hxy, rfl⟩ (ih zs)

theorem forall₂_zipIdx (h : List.Forall₂ R xs ys) (n : Nat) :
    List.Forall₂ (fun p q => R p.1 q.1 ∧ p.2 = q.2) (xs.zipIdx n) (ys.zipIdx n) := by
  rw [List.zipIdx_eq_zip_range', List.zipIdx_eq_zip_range', h.length_eq]
  exact forall₂_zip_right h _

end

/-! ## Computations that may be refused -/

namespace Checked

variable {α α' β β' : Type} {R : α → β → Prop} {S : α' → β' → Prop} {x : Checked α} {y : Checked β}

/-- Wherever `x` answers, `y` does, and the answers are related. -/
def Sim (R : α → β → Prop) (x : Checked α) (y : Checked β) : Prop :=
  ∀ v, x = .ok v → ∃ w, y = .ok w ∧ R v w

namespace Sim

theorem ok {v : α} {w : β} (h : R v w) : Sim R (.ok v) (.ok w) := by
  intro v' hv
  exact ⟨w, rfl, Except.ok.inj hv ▸ h⟩

theorem error (e : Misuse) (y : Checked β) : Sim R (.error e) y := nofun

theorem refl (x : Checked α) : Sim Eq x x := fun v hv => ⟨v, hv, rfl⟩

theorem imp {R' : α → β → Prop} (h : Sim R x y) (hR : ∀ v w, R v w → R' v w) : Sim R' x y := by
  intro v hv
  obtain ⟨w, hw, hvw⟩ := h v hv
  exact ⟨w, hw, hR v w hvw⟩

theorem bind {f : α → Checked α'} {g : β → Checked β'} (h : Sim R x y)
    (hf : ∀ v w, R v w → Sim S (f v) (g w)) : Sim S (x >>= f) (y >>= g) := by
  intro v hv
  obtain ⟨u, hu, hv⟩ := bind_eq_ok.mp hv
  obtain ⟨w, rfl, huw⟩ := h u hu
  exact hf u w huw v hv

/-- Where both answer the same, they go on from the same value. -/
theorem bind_eq {z : Checked α} {f : α → Checked α'} {g : α → Checked β'} (h : Sim Eq x z)
    (hf : ∀ v, Sim S (f v) (g v)) : Sim S (x >>= f) (z >>= g) := by
  refine h.bind ?_
  rintro v _ rfl
  exact hf v

theorem ite {p q : Prop} [Decidable p] [Decidable q] {x' : Checked α} {y' : Checked β} (hpq : p ↔ q)
    (h : p → Sim R x y) (h' : ¬p → Sim R x' y') :
    Sim R (if p then x else x') (if q then y else y') := by
  by_cases hp : p
  · rw [if_pos hp, if_pos (hpq.mp hp)]
    exact h hp
  · rw [if_neg hp, if_neg (mt hpq.mpr hp)]
    exact h' hp

/-- Where two branches go on in the same way, what follows is looked at once. -/
theorem ite_join {p : Prop} [Decidable p] {f : α → Checked α'} {g : α → Checked β'}
    {x z : Checked α} {x' : Checked α'} {y' : Checked β'} (hf : ∀ v, Sim S (f v) (g v))
    (h : p → (∀ v, Sim S (f v) (g v)) → Sim S x' y') (h' : ¬p → Sim Eq x z) :
    Sim S (if p then x' else x >>= f) (if p then y' else z >>= g) :=
  .ite Iff.rfl (fun hp => h hp hf) fun hp => (h' hp).bind_eq hf

theorem mapM {f : α → Checked α'} {g : β → Checked β'} {vs : List α} {ws : List β}
    (h : List.Forall₂ R vs ws) (hf : ∀ v w, R v w → Sim S (f v) (g w)) :
    Sim (List.Forall₂ S) (vs.mapM f) (ws.mapM g) := by
  induction h with
  | nil => exact .ok .nil
  | cons hvw _ ih =>
      rw [List.mapM_cons, List.mapM_cons]
      exact (hf _ _ hvw).bind fun _ _ hfirst => ih.bind fun _ _ hrest => .ok (.cons hfirst hrest)

end Sim

end Checked

/-! ## Computations of a type -/

/-- Both succeed with related values, or both fail. -/
inductive Outcome {ε α β : Type} (R : α → β → Prop) : Except ε α → Except ε β → Prop
  | ok {v : α} {w : β} : R v w → Outcome R (.ok v) (.ok w)
  | error (e e' : ε) : Outcome R (.error e) (.error e')

namespace TypeM

variable {α α' β β' : Type} {R : α → β → Prop} {S : α' → β' → Prop} {x : TypeM α} {y : TypeM β}

/-- Wherever `x` answers, `y` does: both with related values, or both with an error. -/
def Sim (R : α → β → Prop) (x : TypeM α) (y : TypeM β) : Prop :=
  Checked.Sim (Outcome R) x.run y.run

namespace Sim

theorem pure {v : α} {w : β} (h : R v w) : Sim R (pure v) (pure w) := .ok (.ok h)

theorem throw (e e' : ExprTypeError) : Sim R (throw e) (throw e') := .ok (.error e e')

theorem bind {f : α → TypeM α'} {g : β → TypeM β'} (h : Sim R x y)
    (hf : ∀ v w, R v w → Sim S (f v) (g w)) : Sim S (x >>= f) (y >>= g) := by
  refine Checked.Sim.bind h ?_
  intro v w hvw
  cases hvw with
  | ok hvw => exact hf _ _ hvw
  | error e e' => exact .ok (.error e e')

theorem bind_eq {z : TypeM α} {f : α → TypeM α'} {g : α → TypeM β'} (h : Sim Eq x z)
    (hf : ∀ v, Sim S (f v) (g v)) : Sim S (x >>= f) (z >>= g) := by
  refine h.bind ?_
  rintro v _ rfl
  exact hf v

/-- A computation that does not fail comes first. -/
theorem read {x : Checked α} {y : Checked β} {f : α → TypeM α'} {g : β → TypeM β'}
    (h : Checked.Sim R x y) (hf : ∀ v w, R v w → Sim S (f v) (g w)) :
    Sim S ((x : TypeM α) >>= f) ((y : TypeM β) >>= g) :=
  bind (h.bind fun _ _ hvw => .ok (.ok hvw)) hf

theorem read_eq {x y : Checked α} {f : α → TypeM α'} {g : α → TypeM β'}
    (h : Checked.Sim Eq x y) (hf : ∀ v, Sim S (f v) (g v)) :
    Sim S ((x : TypeM α) >>= f) ((y : TypeM α) >>= g) :=
  bind_eq (h.bind_eq fun _ => .ok (.ok rfl)) hf

theorem ite {p q : Prop} [Decidable p] [Decidable q] {x' : TypeM α} {y' : TypeM β} (hpq : p ↔ q)
    (h : p → Sim R x y) (h' : ¬p → Sim R x' y') :
    Sim R (if p then x else x') (if q then y else y') :=
  Checked.Sim.ite hpq h h'

end Sim

end TypeM

end Foam
