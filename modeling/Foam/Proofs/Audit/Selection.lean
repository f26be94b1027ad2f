import Foam.Proofs.Audit.Sharing
import Foam.Proofs.Simulation

/-!
# Selections of typing rules

Two audits of a unit that differ in the choice of typing rules enter the same nodes in the same
contexts. No structural rule looks at the choice. With fewer groups a typing rule finds what it
finds with more, less some causes: a group that is off only leaves out its own, and none of the
others is found only where it is off (`typeCauses_covers`).

So the two are taken through the walk in lock step: what was seen and the faults stay equal, and the
type failures of the one stay a sublist of those of the other (`visit_abreast`). The audit with more
rules may be refused where the other is not, but not the other way round.
-/

namespace Foam

open scoped List

namespace Audit

open Checked

/-! ## Choices -/

/-- What is applied of the first choice is applied of the second. -/
structure Config.Within (few more : Config) : Prop where
  typeChecking : few.typeChecking = true → more.typeChecking = true
  enabled : few.typeChecking = true → ∀ k, few.enabled k = true → more.enabled k = true

/-- The context with another choice of typing rules. -/
def Context.under (c : Context) (config : Config) : Context := { c with config := config }

variable {c : Context} {few : Config}

/-- No structural rule looks at the choice. -/
theorem fault?_under (id : NodeId) (tag : Tag) :
    (c.under few).fault? id tag = c.fault? id tag := by
  cases tag <;> rfl

theorem enter_under (id : NodeId) (tag : Tag) :
    Sim (fun d d' => d.config = c.config ∧ d' = d.under few) (c.enter id tag)
      ((c.under few).enter id tag) := by
  unfold Context.enter
  split
  · exact (Sim.refl _).bind_eq fun frame => .ok ⟨rfl, rfl⟩
  · refine (Sim.refl _).bind_eq fun left => .ite Iff.rfl (fun _ => .ok ⟨rfl, rfl⟩) fun _ => ?_
    refine (Sim.refl _).bind_eq fun leftTag => .ite Iff.rfl (fun _ => ?_) fun _ => .ok ⟨rfl, rfl⟩
    exact (Sim.refl _).bind_eq fun v => .ok ⟨rfl, rfl⟩
  · exact .ok ⟨rfl, rfl⟩

/-! ## Typing rules -/

/-- Wherever the first rule answers, the second does, with some of the causes in their order. -/
def Covers (x y : Checked (List TypeCause)) : Prop := Sim (fun causes kept => kept <+ causes) x y

namespace Covers

variable {α : Type} {x y x' y' : Checked (List TypeCause)} {f g : α → Checked (List TypeCause)}
  {p q : Bool}

theorem ok {causes kept : List TypeCause} (h : kept <+ causes) : Covers (.ok causes) (.ok kept) :=
  Sim.ok h

theorem none (x : Checked (List TypeCause)) : Covers x (.ok []) :=
  fun causes _ => ⟨[], rfl, List.nil_sublist causes⟩

theorem refl (x : Checked (List TypeCause)) : Covers x x :=
  (Sim.refl x).imp fun _ _ h => h ▸ List.Sublist.refl _

/-- Both look up the same first. -/
theorem read {z : Checked α} (h : ∀ v, Covers (f v) (g v)) : Covers (z >>= f) (z >>= g) :=
  (Sim.refl z).bind_eq h

theorem ite {p : Prop} [Decidable p] (h : Covers x y) (h' : Covers x' y') :
    Covers (if p then x else x') (if p then y else y') :=
  Sim.ite Iff.rfl (fun _ => h) fun _ => h'

/-- Where two branches go on in the same way, what follows is looked at once. -/
theorem join {p : Prop} [Decidable p] {z : Checked α} (hf : ∀ v, Covers (f v) (g v))
    (h : (∀ v, Covers (f v) (g v)) → Covers x y) :
    Covers (if p then x else z >>= f) (if p then y else z >>= g) :=
  ite (h hf) (read hf)

/-- Where the rule with more groups is passed over, that with fewer is. -/
theorem skip (h : p = true → q = true) (hxy : Covers x y) :
    Covers (if p then .ok [] else x) (if q then .ok [] else y) := by
  cases hq : q with
  | true => exact none _
  | false =>
      have hp : p = false := Bool.eq_false_iff.mpr fun hp => by rw [h hp] at hq; cases hq
      rw [hp]
      exact hxy

/-- Where the rule with fewer groups applies, that with more does. -/
theorem gate (h : q = true → p = true) (hxy : Covers x y) :
    Covers (if p then x else .ok []) (if q then y else .ok []) := by
  cases hq : q with
  | false => exact none _
  | true =>
      rw [h hq]
      exact hxy

/-- More causes come after those that are found first, the same of both. -/
theorem after (first : List TypeCause) (h : Covers x y) :
    Covers (x >>= fun causes => .ok (first ++ causes))
      (y >>= fun causes => .ok (first ++ causes)) :=
  Sim.bind h fun _ _ hkept => .ok (hkept.append_left first)

theorem flatten {xss yss : List (List TypeCause)}
    (h : List.Forall₂ (fun xs ys => ys <+ xs) xss yss) : yss.flatten <+ xss.flatten := by
  induction h with
  | nil => exact .refl _
  | cons hfirst _ ih => exact hfirst.append ih

/-- The parts of a rule one after the other, which are put together in the same way. -/
theorem parts (h : ∀ v, Covers (f v) (g v)) (vs : List α) (first : List TypeCause) :
    Covers (vs.mapM f >>= fun parts => .ok (first ++ parts.flatten))
      (vs.mapM g >>= fun parts => .ok (first ++ parts.flatten)) := by
  refine Sim.bind (Sim.mapM (R := Eq) (List.forall₂_same.mpr fun _ _ => rfl) ?_)
    fun parts kept hkept => .ok ((flatten hkept).append_left first)
  rintro v _ rfl
  exact h v

end Covers

section

variable (h : ∀ k, few.enabled k = true → c.config.enabled k = true)

include h

theorem off_of_off {k : Check} (hk : (!c.config.enabled k) = true) : (!few.enabled k) = true := by
  cases hfew : few.enabled k with
  | false => rfl
  | true =>
      rw [h k hfew] at hk
      cases hk

theorem envCauses_covers (format : Int64) :
    Covers (c.envCauses format) ((c.under few).envCauses format) := by
  refine .skip (fun hoff => ?_) (.refl _)
  rw [Bool.or_eq_true] at hoff ⊢
  exact hoff.imp_left (off_of_off h)

theorem recordCauses_covers (type : ExprType) :
    Covers (c.recordCauses type) ((c.under few).recordCauses type) := by
  refine .skip (fun hoff => ?_) (.refl _)
  rw [Bool.or_eq_true] at hoff ⊢
  exact hoff.imp_right (off_of_off h)

theorem valueCauses_covers (group : NodeId) (i : Nat) (value : NodeId) :
    Covers (c.valueCauses group i value) ((c.under few).valueCauses group i value) := by
  refine .read fun type => ?_
  cases type with
  | error e => exact .refl _
  | ok type =>
      refine .read fun decl => ?_
      cases decl with
      | none => exact .refl _
      | some decl =>
          refine .read fun declared => .join (fun formatCause => ?_) fun hnext => ?_
          · exact .after _ (recordCauses_covers h type)
          · exact .read fun format => .read hnext

theorem valuesCauses_covers (values : NodeId) (format : Int64) :
    Covers (c.valuesCauses values format) ((c.under few).valuesCauses values format) := by
  refine .skip (off_of_off h) (.read fun given => .join (fun slots => ?_) .read)
  refine .ite (.refl _) (.read fun group => ?_)
  cases group with
  | none => exact .refl _
  | some group =>
      refine .read fun vs => .parts (fun p => ?_) _ []
      exact valueCauses_covers h group p.2 p.1

theorem assignCauses_covers (id : NodeId) :
    Covers (c.assignCauses id) ((c.under few).assignCauses id) := by
  refine .read fun left => .read fun right => .ite (.refl _) (.read fun leftTag => ?_)
  refine .ite (.read fun rightTag => .ite (.read fun format => ?_) (.refl _)) (.refl _)
  exact valuesCauses_covers h left format

theorem returnCauses_covers (id : NodeId) :
    Covers (c.returnCauses id) ((c.under few).returnCauses id) := by
  refine .ite (.refl _) (.read fun value => .read fun result => ?_)
  split
  · exact .refl _
  · refine .ite (.refl _) (.read fun tag => .ite (.read fun format => ?_) (.refl _))
    exact valuesCauses_covers h value format
  · exact .refl _

theorem argCauses_covers (op : Builtin) (i : Nat) (arg : NodeId) (param : Tag) :
    Covers (c.argCauses op i arg param) ((c.under few).argCauses op i arg param) := by
  refine .read fun type => ?_
  cases type with
  | error e => exact .refl _
  | ok type => exact .after _ (recordCauses_covers h type)

theorem builtinCauses_covers (id : NodeId) :
    Covers (c.builtinCauses id) ((c.under few).builtinCauses id) := by
  refine .read fun op => ?_
  cases op with
  | none => exact .refl _
  | some op =>
      refine .read fun args => .parts (fun p => ?_) _ _
      exact argCauses_covers h op p.2 p.1.1 p.1.2

/-- With fewer groups a typing rule finds some of the causes that it finds with more. -/
theorem typeCauses_covers (id : NodeId) (tag : Tag) :
    Covers (c.typeCauses id tag) ((c.under few).typeCauses id tag) := by
  unfold Context.typeCauses
  cases tag
  case set | defn => exact assignCauses_covers h id
  case branch => exact .gate (h .branch) (.refl _)
  case ret => exact .gate (h .ret) (returnCauses_covers h id)
  case cast => exact .gate (h .cast) (.refl _)
  case pushEnv | eelt => exact .read fun format => envCauses_covers h format
  case bcall => exact .gate (h .bcall) (builtinCauses_covers h id)
  all_goals exact .refl _

end

/-! ## The walk -/

/-- The same was seen and found, but for some type failures. -/
structure State.Covers (s s' : State) : Prop where
  visited : s'.visited = s.visited
  faults : s'.faults = s.faults
  failures : s'.failures <+ s.failures

/-- From states of which the first covers the second, the steps lead to such states wherever the
first step is not refused. -/
def Abreast (x y : AuditM Unit) : Prop :=
  ∀ s s', State.Covers s s' → Sim (fun p q => State.Covers p.2 q.2) (x s) (y s')

namespace Abreast

variable {α : Type} {x y x' y' : AuditM Unit}

theorem nil : Abreast (pure ()) (pure ()) := fun _ _ hs => .ok hs

theorem bind (h : Abreast x y) (h' : Abreast x' y') :
    Abreast (x >>= fun _ => x') (y >>= fun _ => y') :=
  fun s s' hs => (h s s' hs).bind fun p q => h' p.2 q.2

/-- What is looked up first is related. -/
theorem read {β : Type} {R : α → β → Prop} {z : Checked α} {w : Checked β} {f : α → AuditM Unit}
    {g : β → AuditM Unit} (h : Sim R z w) (hf : ∀ v v', R v v' → Abreast (f v) (g v')) :
    Abreast ((z : AuditM α) >>= f) ((w : AuditM β) >>= g) := by
  intro s s' hs t ht
  obtain ⟨v, hv, ht⟩ := run_lift_bind_eq_ok.mp ht
  obtain ⟨v', hv', hR⟩ := h v hv
  obtain ⟨t', ht', hcovers⟩ := hf v v' hR s s' hs t ht
  exact ⟨t', run_lift_bind_eq_ok.mpr ⟨v', hv', ht'⟩, hcovers⟩

/-- The first looks up what the second does not need. -/
theorem readOnly {z : Checked α} {f : α → AuditM Unit} (h : ∀ v, Abreast (f v) y) :
    Abreast ((z : AuditM α) >>= f) y := by
  intro s s' hs t ht
  obtain ⟨v, -, ht⟩ := run_lift_bind_eq_ok.mp ht
  exact h v s s' hs t ht

theorem each {f g : α → AuditM Unit} (h : ∀ v, Abreast (f v) (g v)) (vs : List α) :
    Abreast (vs.forM f) (vs.forM g) := by
  induction vs with
  | nil => exact nil
  | cons v vs ih => exact bind (h v) ih

end Abreast

theorem addFault_abreast (id : NodeId) (kind : FaultKind) :
    Abreast (addFault c id kind) (addFault (c.under few) id kind) := by
  refine .read (.refl _) ?_
  rintro text _ rfl s s' hs
  exact .ok ⟨hs.visited, congrArg (· ++ _) hs.faults, hs.failures⟩

theorem addFailure_abreast (id : NodeId) (cause : TypeCause) :
    Abreast (addFailure c id cause) (addFailure (c.under few) id cause) := by
  refine .read (.refl _) ?_
  rintro text _ rfl s s' hs
  exact .ok ⟨hs.visited, hs.faults, hs.failures.append (.refl _)⟩

/-- A failure that only the first records. -/
theorem addFailure_only (id : NodeId) (cause : TypeCause) :
    Abreast (addFailure c id cause) (pure ()) := by
  refine .readOnly fun text s s' hs => ?_
  exact .ok ⟨hs.visited, hs.faults, hs.failures.trans (List.sublist_append_left _ _)⟩

theorem addFailures_abreast {causes kept : List TypeCause} (h : kept <+ causes) (id : NodeId) :
    Abreast (causes.forM (addFailure c id)) (kept.forM (addFailure (c.under few) id)) := by
  induction h with
  | slnil => exact .nil
  | cons cause _ ih => exact .bind (addFailure_only id cause) ih
  | cons_cons cause _ ih => exact .bind (addFailure_abreast id cause) ih

theorem examine_abreast (h : few.Within c.config) (id : NodeId) (tag : Tag) :
    Abreast (examine c id tag) (examine (c.under few) id tag) := by
  unfold examine
  rw [fault?_under]
  refine .read (.refl _) ?_
  rintro kind _ rfl
  refine .bind (.each (addFault_abreast id) _) ?_
  show Abreast (if c.config.typeChecking then _ else _) (if few.typeChecking then _ else _)
  cases hfew : few.typeChecking with
  | true =>
      rw [h.typeChecking hfew]
      refine .read (typeCauses_covers (h.enabled hfew) id tag) fun causes kept hkept => ?_
      exact addFailures_abreast hkept id
  | false =>
      cases c.config.typeChecking with
      | true =>
          have hnone (causes : List TypeCause) : Abreast (causes.forM (addFailure c id))
              (List.forM [] (addFailure (c.under few) id)) :=
            addFailures_abreast (List.nil_sublist causes) id
          exact .readOnly hnone
      | false => exact .nil

theorem visit_abreast {depth : Nat} {id : NodeId} (h : few.Within c.config) :
    Abreast (visit depth c id) (visit depth (c.under few) id) := by
  induction depth generalizing c id with
  | zero => exact fun s s' hs => .error _ _
  | succ depth ih =>
      intro s s' hs
      cases hnull : id.isNull with
      | true =>
          rw [visit, visit, hnull]
          exact .ok hs
      | false =>
          by_cases hseen : id ∈ s.visited
          · rw [visit_seen hnull hseen, visit_seen hnull (hs.visited ▸ hseen)]
            exact addFault_abreast id .badSharing s s' hs
          · rw [visit_unseen hnull hseen, visit_unseen hnull (hs.visited ▸ hseen)]
            have hs : State.Covers ⟨id :: s.visited, s.faults, s.failures⟩
                ⟨id :: s'.visited, s'.faults, s'.failures⟩ :=
              ⟨congrArg (id :: ·) hs.visited, hs.faults, hs.failures⟩
            refine Abreast.read (.refl _) ?_ _ _ hs
            rintro n _ rfl
            refine .read (enter_under id n.tag) ?_
            rintro inside _ ⟨hconfig, rfl⟩
            have hinside : few.Within inside.config := hconfig ▸ h
            exact .bind (.each (fun child => ih hinside) _) (examine_abreast hinside id n.tag)

/-! ## Audits -/

/-- Where an audit returns, one that applies less does, with the same faults and some of the type
failures. -/
theorem audit_covers {few more : Config} (h : few.Within more) (a : Arena) (unit : NodeId) :
    Sim (fun r r' => r'.faults = r.faults ∧ r'.failures <+ r.failures) (audit a more unit)
      (audit a few unit) := by
  intro r hrun
  have htag := (audit_ok hrun).1
  obtain ⟨u, root, s, hu, hroot, hvisit, rfl⟩ := audit_eq_ok hrun
  obtain ⟨rfl, rfl, hparts⟩ := UnitContext.ofUnit_eq_ok.mp hu
  have hu' : UnitContext.ofUnit u.arena few unit = .ok { u with config := few } :=
    UnitContext.ofUnit_eq_ok.mpr ⟨rfl, rfl, hparts⟩
  have hstart : State.Covers ⟨[], [], []⟩ ⟨[], [], []⟩ := ⟨rfl, rfl, .refl _⟩
  obtain ⟨⟨⟨⟩, s'⟩, hvisit', hcovers⟩ :=
    visit_abreast (c := ⟨u, .ofUnit, none⟩) h _ _ hstart _ hvisit
  refine ⟨⟨s'.faults, s'.failures⟩, ?_, hcovers.faults, hcovers.failures⟩
  unfold audit
  rw [htag, ok_bind, if_pos rfl, hu', ok_bind, hroot, ok_bind]
  show (visit (u.arena.depthBound + 1) ((Context.mk u .ofUnit none).under few) root
    ⟨[], [], []⟩ >>= _) = _
  rw [hvisit']
  rfl

/-- The choice of typing rules does not matter to the faults, and with more groups there are no
fewer type failures: those that fewer groups find are found with more, in the same order and among
others perhaps. No audit that applies less is refused where one that applies more is not. -/
theorem audit_selection {a : Arena} {unit : NodeId} {few more off : Check → Bool} {r : Report}
    (hsub : ∀ k, few k = true → more k = true) (hrun : audit a ⟨true, more⟩ unit = .ok r) :
    ∃ r₀ r₁, audit a ⟨false, off⟩ unit = .ok r₀ ∧ audit a ⟨true, few⟩ unit = .ok r₁ ∧
      r₀.faults = r.faults ∧ r₁.faults = r.faults ∧ r₁.failures <+ r.failures := by
  have hoff : Config.Within ⟨false, off⟩ ⟨true, more⟩ := ⟨nofun, nofun⟩
  have hfew : Config.Within ⟨true, few⟩ ⟨true, more⟩ := ⟨id, fun _ => hsub⟩
  obtain ⟨r₀, hr₀, hfaults₀, -⟩ := audit_covers hoff a unit r hrun
  obtain ⟨r₁, hr₁, hfaults₁, hfailures⟩ := audit_covers hfew a unit r hrun
  exact ⟨r₀, r₁, hr₀, hr₁, hfaults₀, hfaults₁, hfailures⟩

/-- A test and an argument that should be truth values are integers, and the local that comes last
is not declared. Only the rule for arguments is kept. -/
theorem audit_selection_of_arguments :
    let a : Arena := .ofRows [some (.bare .unit [.code .null, .code ⟨1⟩]),
      some (.bare .ddef [.code ⟨2⟩]), some (.bare .defn [.code .null, .code ⟨3⟩]),
      some (.bare .seq [.code ⟨4⟩, .code ⟨6⟩, .code ⟨8⟩]), some (.bare .branch [.code ⟨5⟩, .int 0]),
      some (.bare .sint [.int 1]), some (.bare .bcall [.int 2, .code ⟨7⟩]),
      some (.bare .sint [.int 1]), some (.bare .loc [.int 0])] []
    let faults : List Fault := [⟨.badRef, ⟨8⟩, none, "(Loc 0)"⟩]
    let argument : TypeFailure :=
      ⟨⟨6⟩, none, .argType 0 .boolNot .sint .bool, "(BCall BoolNot (SInt 1))"⟩
    let failures : List TypeFailure :=
      [⟨⟨4⟩, none, .testNotBool .sint, "(If (SInt 1) 0)"⟩, argument]
    (∀ k, (k == .bcall) = true → (fun _ : Check => true) k = true) ∧
      audit a ⟨true, fun _ => true⟩ ⟨0⟩ = .ok ⟨faults, failures⟩ ∧
      audit a ⟨true, (· == .bcall)⟩ ⟨0⟩ = .ok ⟨faults, [argument]⟩ ∧
      ∃ r₀ r₁, audit a ⟨false, fun _ => true⟩ ⟨0⟩ = .ok r₀ ∧
        audit a ⟨true, (· == .bcall)⟩ ⟨0⟩ = .ok r₁ ∧
        r₀.faults = faults ∧ r₁.faults = faults ∧ r₁.failures <+ failures := by
  intro a faults argument failures
  have hsub : ∀ k, (k == .bcall) = true → (fun _ : Check => true) k = true := fun _ _ => rfl
  have hrun : audit a ⟨true, fun _ => true⟩ ⟨0⟩ = .ok ⟨faults, failures⟩ := by rfl
  exact ⟨hsub, hrun, by rfl, audit_selection hsub hrun⟩

end Audit

end Foam
