import Foam.Proofs.Arena.WellFormed
import Foam.Proofs.Checked
import Mathlib.Logic.Relation

/-!
# Changes of an arena, step by step

An arena changes in three ways: a node that fits its tag is stored, a node is released, or a live
node is changed into another that fits. Every operation is a run of such steps (`Stepwise`), also one
that fails on the way; the rules for showing so follow the ways operations are put together. What a
step preserves, a run preserves.

A run can make so many rows that one of them has the null id. As no step removes a row, it is
enough to look at how many there are at the end.
-/

namespace Foam

namespace Arena

variable {a b : Arena} {id : NodeId} {n : Node}

/-! ## One node changed -/

/-- Replaces the node under an id. -/
def modifyNode (id : NodeId) (f : Node → Node) : ArenaM Unit := fun a => do
  let n ← a.node id
  return ((), a.write id.index (f n))

theorem modifyNode_of_get? {f : Node → Node} (h : a.get? id = some n) :
    modifyNode id f a = .ok ((), a.write id.index (f n)) := by
  rw [modifyNode, node_of_get? h]
  rfl

theorem setIfInBounds_of_getElem? {α : Type} {vs : Array α} {i : Nat} {v : α}
    (h : vs[i]? = some v) : vs.setIfInBounds i v = vs := by
  apply Array.ext_getElem?
  intro j
  rw [Array.getElem?_setIfInBounds]
  split
  · next hij =>
      subst hij
      obtain ⟨hi, -⟩ := Array.getElem?_eq_some_iff.mp h
      rw [if_pos hi, h]
  · rfl

/-- Writing the parts of a node back into its row changes nothing. -/
theorem write_of_get? (h : a.get? id = some n) : a.write id.index n = a := by
  obtain ⟨htag, hslots, hspan, hsymbol, hinfo⟩ := row?_eq_some.mp (get?_eq_some.mp h).2
  rw [write, setIfInBounds_of_getElem? htag, setIfInBounds_of_getElem? hslots,
    setIfInBounds_of_getElem? hspan, setIfInBounds_of_getElem? hsymbol,
    setIfInBounds_of_getElem? hinfo]

/-- An operation that reads a node and writes some of its parts, in their columns, replaces the
node. -/
theorem eq_modifyNode {x : ArenaM Unit} {f : Node → Node} {w : Node → Arena → Arena}
    (hx : ∀ a : Arena, x a = do let n ← a.node id; return ((), w n a))
    (hw : ∀ (a : Arena) (n : Node), w n (a.write id.index n) = a.write id.index (f n)) :
    x = modifyNode id f := by
  funext a
  rw [hx, modifyNode]
  cases hn : a.node id with
  | error m => rfl
  | ok n =>
      have hwrite : w n a = a.write id.index (f n) := by
        rw [← hw, write_of_get? (get?_of_node_ok hn)]
      exact congrArg (fun c => Except.ok ((), c)) hwrite

theorem setSpan_eq (id : NodeId) (s : Span) :
    setSpan id s = modifyNode id fun n => { n with span := s } :=
  eq_modifyNode (w := fun _ a => { a with spans := a.spans.setIfInBounds id.index s })
    (fun _ => rfl) fun _ _ => by simp [write]

theorem setSymbol_eq (id : NodeId) (s : Option UInt32) :
    setSymbol id s = modifyNode id fun n => { n with symbol := s } :=
  eq_modifyNode (w := fun _ a => { a with symbols := a.symbols.setIfInBounds id.index s })
    (fun _ => rfl) fun _ _ => by simp [write]

theorem setOptInfo_eq (id : NodeId) (o : Option UInt32) :
    setOptInfo id o = modifyNode id fun n => { n with optInfo := o } :=
  eq_modifyNode (w := fun _ a => { a with optInfos := a.optInfos.setIfInBounds id.index o })
    (fun _ => rfl) fun _ _ => by simp [write]

theorem writeSlots_eq (id : NodeId) (f : List Slot → List Slot) :
    writeSlots id f = modifyNode id fun n => { n with slots := f n.slots } :=
  eq_modifyNode
    (w := fun n a => { a with slotLists := a.slotLists.setIfInBounds id.index (f n.slots) })
    (fun a => by rw [writeSlots, slots]; cases a.node id <;> rfl) fun _ _ => by simp [write]

/-! ## One step -/

inductive Step : Arena → Arena → Prop
  | insert {a b : Arena} {id : NodeId} {tag : Tag} {slots : List Slot} :
      (Node.bare tag slots).Fits → insert tag slots a = .ok (id, b) → Step a b
  | release {a b : Arena} {id : NodeId} : release id a = .ok ((), b) → Step a b
  | modify {a b : Arena} {id : NodeId} {f : Node → Node} :
      (∀ n, a.get? id = some n → n.Fits → (f n).Fits) → modifyNode id f a = .ok ((), b) → Step a b

/-- So many steps as it takes. -/
def Steps : Arena → Arena → Prop := Relation.ReflTransGen Step

/-- A node that is stored takes a vacant row, or one past the last. -/
theorem insert_eq_ok {tag : Tag} {slots : List Slot} (h : insert tag slots a = .ok (id, b)) :
    (∃ rest, a.vacant = id :: rest ∧ b = (a.write id.index (.bare tag slots)).occupy id rest) ∨
      (a.vacant = [] ∧ a.tags.size ≤ idLimit ∧ id = ⟨UInt32.ofNat a.tags.size⟩ ∧
        b = a.append (.bare tag slots)) := by
  unfold insert at h
  split at h
  · next x rest hv =>
      cases h
      exact .inl ⟨rest, hv, rfl⟩
  · next hv =>
      dsimp only at h
      split at h
      · next hle =>
          cases h
          exact .inr ⟨hv, hle, rfl, rfl⟩
      · cases h

theorem release_eq_ok (h : release id a = .ok ((), b)) :
    (∃ n, a.get? id = some n) ∧ b = a.vacate id := by
  unfold release at h
  cases hn : a.node id with
  | error m =>
      rw [hn] at h
      cases h
  | ok n =>
      rw [hn] at h
      cases h
      exact ⟨⟨n, get?_of_node_ok hn⟩, rfl⟩

theorem modifyNode_eq_ok {f : Node → Node} (h : modifyNode id f a = .ok ((), b)) :
    ∃ n, a.get? id = some n ∧ b = a.write id.index (f n) := by
  unfold modifyNode at h
  cases hn : a.node id with
  | error m =>
      rw [hn] at h
      cases h
  | ok n =>
      rw [hn] at h
      cases h
      exact ⟨n, get?_of_node_ok hn, rfl⟩

/-- A node that is stored where the ids have not run out is made as it should be. -/
theorem adds_of_insert {tag : Tag} {slots : List Slot} (hw : a.WellFormed)
    (hn : (Node.bare tag slots).Fits) (h : insert tag slots a = .ok (id, b))
    (hle : b.capacity ≤ idLimit) : Adds a id (.bare tag slots) b := by
  rcases insert_eq_ok h with ⟨rest, hv, rfl⟩ | ⟨hv, -, rfl, rfl⟩
  · exact adds_of_vacant hw hv hn
  · rw [hw.aligned.tags]
    refine adds_of_none_vacant hw hv ?_ hn
    rw [capacity_append] at hle
    rw [Room, Arena.liveCount, hv, List.length_nil]
    exact hle

/-- Changing a live node keeps its id, and what else there is. -/
theorem modify_wellFormed {m : Node} (hw : a.WellFormed) (hn : a.get? id = some n)
    (hm : m.Fits) : (a.write id.index m).WellFormed := by
  refine ⟨hw.aligned.write _ m, hw.vacant_nodup, hw.mem_vacant, hw.size_le, ?_⟩
  intro x k hk
  rw [get?_write hn] at hk
  split at hk
  · cases hk
    exact hm
  · exact hw.fits x k hk

theorem Step.capacity_le (h : Step a b) : a.capacity ≤ b.capacity := by
  cases h with
  | insert _ h =>
      rcases insert_eq_ok h with ⟨_, _, rfl⟩ | ⟨_, _, _, rfl⟩
      · simp
      · simp
  | release h =>
      obtain ⟨_, rfl⟩ := release_eq_ok h
      simp
  | modify _ h =>
      obtain ⟨_, _, rfl⟩ := modifyNode_eq_ok h
      simp

/-- A step writes into all columns alike. -/
theorem Step.aligned (h : Step a b) (ha : a.Aligned) : b.Aligned := by
  cases h with
  | insert _ h =>
      rcases insert_eq_ok h with ⟨_, _, rfl⟩ | ⟨_, _, _, rfl⟩
      · exact (ha.write _ _).occupy _ _
      · exact ha.append _
  | release h =>
      obtain ⟨_, rfl⟩ := release_eq_ok h
      exact ha.vacate _
  | modify _ h =>
      obtain ⟨_, _, rfl⟩ := modifyNode_eq_ok h
      exact ha.write _ _

theorem Step.wellFormed (h : Step a b) (hle : b.capacity ≤ idLimit) (hw : a.WellFormed) :
    b.WellFormed := by
  cases h with
  | insert hn h => exact (adds_of_insert hw hn h hle).wellFormed
  | release h =>
      obtain ⟨⟨n, hn⟩, -⟩ := release_eq_ok h
      obtain ⟨c, hc, hremoves⟩ := release_removes hw hn
      cases h.symm.trans hc
      exact hremoves.wellFormed
  | modify hf h =>
      obtain ⟨n, hn, rfl⟩ := modifyNode_eq_ok h
      exact modify_wellFormed hw hn (hf n hn (hw.fits _ n hn))

/-! ## Runs -/

theorem Steps.aligned (h : Steps a b) (ha : a.Aligned) : b.Aligned := by
  induction h with
  | refl => exact ha
  | tail _ h ih => exact h.aligned ih

theorem Steps.wellFormed (h : Steps a b) (hle : b.capacity ≤ idLimit) (hw : a.WellFormed) :
    b.WellFormed := by
  induction h with
  | refl => exact hw
  | tail _ h ih => exact h.wellFormed hle (ih (Nat.le_trans h.capacity_le hle))

/-! ## Operations -/

/-- The computation changes an arena in steps. -/
def Stepwise {α : Type} (x : ArenaM α) : Prop := ∀ a v b, x a = .ok (v, b) → Steps a b

namespace Stepwise

variable {α β : Type} {x : ArenaM α} {f : α → ArenaM β}

theorem of_step {x : ArenaM α} (h : ∀ a v b, x a = .ok (v, b) → Step a b) : Stepwise x :=
  fun a v b hx => .single (h a v b hx)

theorem pure (v : α) : Stepwise (pure v) := by
  intro a w b h
  cases h
  exact .refl

theorem throw (m : Misuse) : Stepwise (throw m : ArenaM α) := nofun

theorem get : Stepwise (get : ArenaM Arena) := by
  intro a w b h
  cases h
  exact .refl

/-- Looking at the arena changes nothing. -/
theorem lift (y : Checked α) : Stepwise (y : ArenaM α) := by
  intro a v b h
  obtain ⟨-, rfl⟩ := Checked.run_lift_eq_ok.mp h
  exact .refl

theorem bind (hx : Stepwise x) (hf : ∀ v, Stepwise (f v)) : Stepwise (x >>= f) := by
  intro a w c h
  obtain ⟨v, b, hxa, h⟩ := Checked.run_bind_eq_ok.mp h
  exact (hx a v b hxa).trans (hf v b w c h)

theorem ite {c : Prop} [Decidable c] {y : ArenaM α} (hx : Stepwise x) (hy : Stepwise y) :
    Stepwise (if c then x else y) := by
  split
  · exact hx
  · exact hy

theorem forM {γ : Type} {g : γ → ArenaM PUnit} (hg : ∀ c, Stepwise (g c)) (cs : List γ) :
    Stepwise (cs.forM g) := by
  induction cs with
  | nil => exact pure _
  | cons c cs ih => exact (hg c).bind fun _ => ih

theorem mapM {γ : Type} {g : γ → ArenaM α} (hg : ∀ c, Stepwise (g c)) (cs : List γ) :
    Stepwise (cs.mapM g) := by
  induction cs with
  | nil => exact pure _
  | cons c cs ih =>
      rw [List.mapM_cons]
      exact (hg c).bind fun _ => ih.bind fun _ => pure _

theorem foldlM {γ : Type} {g : α → γ → ArenaM α} (hg : ∀ v c, Stepwise (g v c)) (cs : List γ) :
    ∀ v, Stepwise (cs.foldlM g v) := by
  induction cs with
  | nil => exact fun v => pure v
  | cons c cs ih => exact fun v => (hg v c).bind ih

end Stepwise

/-! ## Operations with errors of their own -/

/-- The computation, which reads from an `σ` and may fail, changes an arena in steps. -/
def StepwiseOn {ε σ α : Type} (x : ExceptT ε (StateT σ ArenaM) α) : Prop :=
  ∀ s, Stepwise (x.run.run s)

namespace StepwiseOn

variable {ε σ α β : Type} {x y : ExceptT ε (StateT σ ArenaM) α}
  {f : α → ExceptT ε (StateT σ ArenaM) β}

/-- What is done with the input alone changes no arena. -/
theorem of_input (h : ∀ s, ∃ r, x.run.run s = pure r) : StepwiseOn x := by
  intro s
  obtain ⟨r, hr⟩ := h s
  rw [hr]
  exact .pure r

theorem pure (v : α) : StepwiseOn (pure v : ExceptT ε (StateT σ ArenaM) α) :=
  of_input fun s => ⟨(.ok v, s), rfl⟩

theorem throw (e : ε) : StepwiseOn (throw e : ExceptT ε (StateT σ ArenaM) α) :=
  of_input fun s => ⟨(.error e, s), rfl⟩

theorem get : StepwiseOn (getThe σ : ExceptT ε (StateT σ ArenaM) σ) :=
  of_input fun s => ⟨(.ok s, s), rfl⟩

theorem set (s' : σ) : StepwiseOn (set s' : ExceptT ε (StateT σ ArenaM) PUnit) :=
  of_input fun _ => ⟨(.ok ⟨⟩, s'), rfl⟩

theorem modify (g : σ → σ) : StepwiseOn (modifyThe σ g : ExceptT ε (StateT σ ArenaM) PUnit) :=
  of_input fun s => ⟨(.ok ⟨⟩, g s), rfl⟩

theorem lift {z : ArenaM α} (h : Stepwise z) :
    StepwiseOn (z : ExceptT ε (StateT σ ArenaM) α) := by
  intro s a v b hz
  change ((z a >>= fun p => _) >>= fun _ => _) = _ at hz
  rcases hza : z a with m | ⟨w, c⟩
  · rw [hza] at hz
    cases hz
  · rw [hza] at hz
    cases hz
    exact h a w _ hza

theorem bind (hx : StepwiseOn x) (hf : ∀ v, StepwiseOn (f v)) : StepwiseOn (x >>= f) := by
  intro s
  show Stepwise (x.run.run s >>= fun p => ExceptT.bindCont f p.1 p.2)
  refine (hx s).bind ?_
  rintro ⟨r, s'⟩
  cases r with
  | ok v => exact hf v s'
  | error e => exact .pure _

theorem tryCatch {g : ε → ExceptT ε (StateT σ ArenaM) α} (hx : StepwiseOn x)
    (hg : ∀ e, StepwiseOn (g e)) : StepwiseOn (tryCatch x g) := by
  intro s a v b h
  change (x.run.run s a >>= fun p => _) = _ at h
  rcases hxa : x.run.run s a with m | ⟨⟨r, s'⟩, c⟩
  · rw [hxa] at h
    cases h
  · rw [hxa] at h
    refine (hx s a _ c hxa).trans ?_
    cases r with
    | ok v =>
        cases h
        exact .refl
    | error e => exact hg e s' c v b h

theorem ite {c : Prop} [Decidable c] (hx : StepwiseOn x) (hy : StepwiseOn y) :
    StepwiseOn (if c then x else y) := by
  split
  · exact hx
  · exact hy

theorem forM {γ : Type} {g : γ → ExceptT ε (StateT σ ArenaM) PUnit} (hg : ∀ c, StepwiseOn (g c))
    (cs : List γ) : StepwiseOn (cs.forM g) := by
  induction cs with
  | nil => exact pure _
  | cons c cs ih => exact (hg c).bind fun _ => ih

end StepwiseOn

end Arena

end Foam
