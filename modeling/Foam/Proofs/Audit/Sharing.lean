import Foam.Proofs.Audit.FirstVisits

/-!
# Sharing

An audit of definitions without a circle goes the way of the walk that goes into each node once
(`visit_follows`): where that walk goes into a node, the audit holds it against the rules in the
context of the place, and where it comes to one again, the audit reports it. So the nodes that are
reported as shared are counted by the edges between nodes, and the other findings are those at the
first places of the nodes.

An audit that returns has met no dead id, so that the nodes under the definitions unfold to a tree.
-/

namespace Foam

namespace Audit

/-! ## The rules do not look at sharing -/

/-- If a fault is given, it is not one of sharing. -/
def Sparing (x : Checked (Option FaultKind)) : Prop :=
  ∀ kind, x = .ok (some kind) → kind ≠ .badSharing

namespace Sparing

theorem pure {o : Option FaultKind} (h : o ≠ some .badSharing) : Sparing (pure o) := by
  rintro kind hk rfl
  exact h (Except.ok.inj hk)

theorem bind {α : Type} {x : Checked α} {f : α → Checked (Option FaultKind)}
    (h : ∀ v, Sparing (f v)) : Sparing (x >>= f) := by
  intro kind hk
  obtain ⟨v, -, hv⟩ := Checked.bind_eq_ok.mp hk
  exact h v kind hv

theorem failing {kind : FaultKind} {holds : Bool} (h : kind ≠ .badSharing) :
    Sparing (Pure.pure (Audit.failing kind holds)) := by
  refine pure ?_
  unfold Audit.failing
  split
  · nofun
  · exact fun heq => h (Option.some.inj heq)

theorem ite {p : Prop} [Decidable p] {x y : Checked (Option FaultKind)} (hx : Sparing x)
    (hy : Sparing y) : Sparing (if p then x else y) := by
  split
  · exact hx
  · exact hy

end Sparing

namespace Context

variable (c : Context) (id : NodeId)

theorem assignFault?_sparing : Sparing (c.assignFault? id) := by
  refine .bind fun left => .ite (.pure nofun) (.bind fun tag => .ite ?_ (.pure nofun))
  exact .bind fun count => .failing nofun

theorem lexFault?_sparing : Sparing (c.lexFault? id) := by
  refine .bind fun level => .ite (.pure nofun) (.bind fun format? => ?_)
  cases format? with
  | none => exact .pure nofun
  | some format =>
      exact .ite (.bind fun index => .bind fun size => .failing nofun) (.pure nofun)

theorem envElementFault?_sparing : Sparing (c.envElementFault? id) := by
  refine .bind fun format => .ite (.bind fun index => .bind fun size => ?_) (.pure nofun)
  exact .ite (.bind fun level => .failing nofun) (.pure nofun)

theorem rawFormatFault?_sparing : Sparing (c.rawFormatFault? id) :=
  .bind fun _ => .ite (.pure nofun) (.bind fun _ => .failing nofun)

theorem castFault?_sparing : Sparing (c.castFault? id) := by
  refine .bind fun expr => .ite (.pure nofun) (.bind fun tag => .ite (.pure nofun) ?_)
  refine .bind fun ordinal => ?_
  split
  · refine .bind fun type => ?_
    cases type with
    | ok type => exact .failing nofun
    | error e => exact .pure nofun
  · exact .bind fun tag => .failing nofun
  · exact .pure nofun

theorem declFault?_sparing : Sparing (c.declFault? id) := by
  refine .bind fun format => .bind fun type => ?_
  split
  · split
    · exact .failing nofun
    · exact .pure nofun
  · exact .failing nofun
  · exact .failing nofun
  · exact .pure nofun
  · exact .failing nofun

theorem levelsFault?_sparing : Sparing (c.levelsFault? id) :=
  .bind fun _ => .failing nofun

theorem callFault?_sparing : Sparing (c.callFault? id) := by
  refine .bind fun protocol => .ite (.pure nofun) (.bind fun op => .ite (.pure nofun) ?_)
  refine .bind fun tag => ?_
  split
  · exact .bind fun type => .failing nofun
  · refine .bind fun args => .bind fun signature => ?_
    cases signature with
    | none => exact .pure nofun
    | some signature => exact .bind fun size => .failing nofun
  · exact .pure nofun

theorem fault?_sparing (tag : Tag) : Sparing (c.fault? id tag) := by
  have hbounded : ∀ (x : Checked Int64) (count : Nat),
      Sparing (x >>= fun index => pure (bounded index count)) :=
    fun _ _ => .bind fun _ => .failing nofun
  unfold fault?
  split
  · exact c.assignFault?_sparing id
  · exact c.assignFault?_sparing id
  · exact hbounded _ _
  · exact hbounded _ _
  · exact hbounded _ _
  · exact hbounded _ _
  · exact hbounded _ _
  · exact hbounded _ _
  · exact c.lexFault?_sparing id
  · exact c.envElementFault?_sparing id
  · exact hbounded _ _
  · exact hbounded _ _
  · exact hbounded _ _
  · exact .bind fun _ => .failing nofun
  · exact c.rawFormatFault?_sparing id
  · exact c.castFault?_sparing id
  · exact c.declFault?_sparing id
  · exact c.levelsFault?_sparing id
  · exact c.callFault?_sparing id
  · exact .pure nofun

end Context

/-! ## Findings at a place -/

/-- What the rules find at a place. -/
def findingsAtSite (u : UnitContext) (s : Site NodeId) : Checked Report := do
  let c ← contextAt u s
  findingsAt c s.node.label s.node.tag

variable {c inside : Context} {t : Tree NodeId} {around : List (Tree NodeId)} {id : NodeId}
  {tag : Tag} {r : Report}

/-- There is no rule for a procedure. -/
theorem findingsAt_prog (c : Context) (id : NodeId) : findingsAt c id .prog = .ok .clean := by
  unfold findingsAt failuresAt
  cases c.config.typeChecking <;> rfl

theorem Inside.findingsAtSite_eq (h : Inside c around) (hw : c.arena.WellFormed) (ht : t.In c.arena)
    (hinside : c.enter t.label t.tag = .ok inside) :
    findingsAtSite c.toUnitContext ⟨t, around⟩ = findingsAt inside t.label t.tag := by
  rw [findingsAtSite, h.contextAt_eq hw ht hinside, Checked.ok_bind]
  by_cases hprog : t.tag = .prog
  · rw [hprog, findingsAt_prog, findingsAt_prog]
  · obtain ⟨hunit, hframe, -⟩ := inside_of_enter hw ht hinside
    rw [Frame.inside, if_neg hprog] at hframe
    cases inside
    cases hframe
    cases hunit
    rfl

theorem kind_ne_of_findingsAt (h : findingsAt c id tag = .ok r) :
    ∀ f ∈ r.faults, f.kind ≠ .badSharing := by
  obtain ⟨kind, hkind, h⟩ := Checked.bind_eq_ok.mp h
  obtain ⟨faults, hfaults, h⟩ := Checked.bind_eq_ok.mp h
  obtain ⟨failures, hfailures, h⟩ := Checked.bind_eq_ok.mp h
  cases h
  intro f hf
  rcases List.mem_append.mp hf with hf | hf
  · cases kind with
    | none =>
        cases hfaults
        cases hf
    | some kind =>
        obtain ⟨first, hfirst, hfaults⟩ := Checked.bind_eq_ok.mp hfaults
        obtain ⟨text, -, hfirst⟩ := Checked.bind_eq_ok.mp hfirst
        cases hfaults
        cases hfirst
        rw [List.mem_singleton.mp hf]
        exact c.fault?_sparing id tag kind hkind
  · rw [faults_of_failuresAt hfailures] at hf
    cases hf

theorem kind_ne_of_collect {u : UnitContext} {sites : List (Site NodeId)}
    (h : collect (findingsAtSite u) sites = .ok r) : ∀ f ∈ r.faults, f.kind ≠ .badSharing := by
  induction sites generalizing r with
  | nil =>
      cases h
      exact nofun
  | cons s sites ih =>
      obtain ⟨first, hfirst, h⟩ := Checked.bind_eq_ok.mp h
      obtain ⟨rest, hrest, h⟩ := Checked.bind_eq_ok.mp h
      cases h
      obtain ⟨here, -, hfirst⟩ := Checked.bind_eq_ok.mp hfirst
      intro f hf
      rcases List.mem_append.mp hf with hf | hf
      · exact kind_ne_of_findingsAt hfirst f hf
      · exact ih hrest f hf

theorem collect_append {α : Type} {find : α → Checked Report} {xs ys : List α} {r r' : Report}
    (h : collect find xs = .ok r) (h' : collect find ys = .ok r') :
    collect find (xs ++ ys) = .ok (r.append r') := by
  induction xs generalizing r with
  | nil =>
      cases h
      exact h'
  | cons x xs ih =>
      obtain ⟨first, hfirst, h⟩ := Checked.bind_eq_ok.mp h
      obtain ⟨rest, hrest, h⟩ := Checked.bind_eq_ok.mp h
      cases h
      rw [List.cons_append, collect, hfirst, Checked.ok_bind, ih hrest]
      simp [Report.append, Checked.ok_bind, List.append_assoc, pure, Except.pure]

/-! ## One visit -/

theorem addFault_eq_ok {kind : FaultKind} {s s' : State} (h : addFault c id kind s = .ok ((), s')) :
    ∃ text, s' = { s with faults := s.faults ++ [⟨kind, id, c.constNum, text⟩] } := by
  obtain ⟨text, -, h⟩ := Checked.run_lift_bind_eq_ok.mp h
  cases h
  exact ⟨text, rfl⟩

theorem examine_eq_ok {s s' : State} (h : examine c id tag s = .ok ((), s')) :
    ∃ r, findingsAt c id tag = .ok r ∧ s' = s.add [] r := by
  rw [show examine c id tag s = _ from examine_finds c id tag s] at h
  obtain ⟨r, hr, h⟩ := Checked.bind_eq_ok.mp h
  cases h
  exact ⟨r, hr, rfl⟩

/-- A node is passed over if it is absent, reported if it was seen, and gone into else. -/
theorem visit_eq_ok {depth : Nat} {s s' : State} (h : visit (depth + 1) c id s = .ok ((), s')) :
    (id.isNull = true ∧ s' = s) ∨
    (id ∈ s.visited ∧ ∃ text, s' =
      { s with faults := s.faults ++ [⟨.badSharing, id, c.constNum, text⟩] }) ∨
    (id ∉ s.visited ∧ ∃ n inside s₁ r, c.arena.get? id = some n ∧ c.enter id n.tag = .ok inside ∧
      n.children.forM (visit depth inside) ⟨id :: s.visited, s.faults, s.failures⟩ = .ok ((), s₁) ∧
      findingsAt inside id n.tag = .ok r ∧ s' = s₁.add [] r) := by
  cases hnull : id.isNull with
  | true =>
      rw [visit, hnull, if_pos rfl] at h
      cases h
      exact .inl ⟨rfl, rfl⟩
  | false =>
      right
      by_cases hseen : id ∈ s.visited
      · rw [visit_seen hnull hseen] at h
        exact .inl ⟨hseen, addFault_eq_ok h⟩
      · rw [visit_unseen hnull hseen] at h
        obtain ⟨n, hn, h⟩ := Checked.run_lift_bind_eq_ok.mp h
        obtain ⟨inside, hinside, h⟩ := Checked.run_lift_bind_eq_ok.mp h
        obtain ⟨⟨⟩, s₁, hbelow, h⟩ := Checked.run_bind_eq_ok.mp h
        obtain ⟨r, hr, rfl⟩ := examine_eq_ok h
        exact .inr ⟨hseen, n, inside, s₁, r, Arena.get?_of_node_ok hn, hinside, hbelow, hr, rfl⟩

/-! ## All that is reached is live -/

theorem enter_toUnitContext (h : c.enter id tag = .ok inside) :
    inside.toUnitContext = c.toUnitContext := by
  unfold Context.enter at h
  split at h
  · obtain ⟨frame, -, h⟩ := Checked.bind_eq_ok.mp h
    cases h
    rfl
  · obtain ⟨left, -, h⟩ := Checked.bind_eq_ok.mp h
    split at h
    · cases h
      rfl
    · obtain ⟨leftTag, -, h⟩ := Checked.bind_eq_ok.mp h
      split at h
      · obtain ⟨v, -, h⟩ := Checked.bind_eq_ok.mp h
        cases h
        rfl
      · cases h
        rfl
  · cases h
    rfl

/-- Between two states more was seen, and where a node was, it is live and its children were seen. -/
structure Settles (a : Arena) (s s' : State) : Prop where
  mono : ∀ x ∈ s.visited, x ∈ s'.visited
  closed : ∀ x ∈ s'.visited, x ∈ s.visited ∨
    ∃ n, a.get? x = some n ∧ ∀ y ∈ n.children, y ∈ s'.visited

namespace Settles

variable {a : Arena} {s s' s'' : State}

theorem refl (a : Arena) (s : State) : Settles a s s := ⟨fun _ h => h, fun _ h => .inl h⟩

theorem trans (h : Settles a s s') (h' : Settles a s' s'') : Settles a s s'' := by
  refine ⟨fun x hx => h'.mono x (h.mono x hx), fun x hx => ?_⟩
  rcases h'.closed x hx with hx | hx
  · refine (h.closed x hx).imp_right fun ⟨n, hn, hall⟩ => ⟨n, hn, fun y hy => ?_⟩
    exact h'.mono y (hall y hy)
  · exact .inr hx

theorem forM {step : NodeId → AuditM Unit} {ids : List NodeId}
    (h : ∀ x ∈ ids, ∀ s s', step x s = .ok ((), s') → Settles a s s' ∧ x ∈ s'.visited)
    (hrun : ids.forM step s = .ok ((), s')) :
    Settles a s s' ∧ ∀ x ∈ ids, x ∈ s'.visited := by
  induction ids generalizing s with
  | nil =>
      cases hrun
      exact ⟨refl a _, nofun⟩
  | cons x ids ih =>
      obtain ⟨⟨⟩, s₁, hx, hrun⟩ := Checked.run_bind_eq_ok.mp hrun
      obtain ⟨hfirst, hmem⟩ := h x List.mem_cons_self s s₁ hx
      obtain ⟨hrest, hall⟩ := ih (fun y hy => h y (List.mem_cons_of_mem _ hy)) hrun
      refine ⟨hfirst.trans hrest, fun y hy => ?_⟩
      rcases List.mem_cons.mp hy with rfl | hy
      · exact hrest.mono y hmem
      · exact hall y hy

end Settles

theorem visit_settles {depth : Nat} {s s' : State} (hid : id.isNull = false)
    (h : visit depth c id s = .ok ((), s')) : Settles c.arena s s' ∧ id ∈ s'.visited := by
  induction depth generalizing c id s s' with
  | zero => cases h
  | succ depth ih =>
      rcases visit_eq_ok h with ⟨hnull, -⟩ | ⟨hseen, text, rfl⟩ |
        ⟨-, n, inside, s₁, r, hn, hinside, hbelow, -, rfl⟩
      · rw [hid] at hnull
        cases hnull
      · exact ⟨⟨fun _ hx => hx, fun _ hx => .inl hx⟩, hseen⟩
      · have harena : inside.arena = c.arena :=
          congrArg UnitContext.arena (enter_toUnitContext hinside)
        obtain ⟨hsettles, hall⟩ := Settles.forM (a := c.arena) (fun x hx s s' hrun => by
          rw [← harena]
          exact ih (Node.mem_children.mp hx).2 hrun) hbelow
        refine ⟨⟨fun x hx => ?_, fun x hx => ?_⟩, ?_⟩
        · exact hsettles.mono x (List.mem_cons_of_mem _ hx)
        · rcases hsettles.closed x hx with hx | hx
          · rcases List.mem_cons.mp hx with rfl | hx
            · exact .inr ⟨n, hn, hall⟩
            · exact .inl hx
          · exact .inr hx
        · exact hsettles.mono id List.mem_cons_self

/-- A walk that comes to its end has met no dead id. -/
theorem live_of_visit {depth : Nat} {s : State} (hid : id.isNull = false)
    (h : visit depth c id ⟨[], [], []⟩ = .ok ((), s)) {x : NodeId} (hx : c.arena.Reaches id x) :
    ∃ n, c.arena.get? x = some n := by
  obtain ⟨hsettles, hroot⟩ := visit_settles hid h
  have hlive : ∀ x ∈ s.visited, ∃ n, c.arena.get? x = some n ∧ ∀ y ∈ n.children, y ∈ s.visited :=
    fun x hx => (hsettles.closed x hx).resolve_left List.not_mem_nil
  have hreached : ∀ y x, c.arena.Reaches y x → y ∈ s.visited → x ∈ s.visited := by
    intro y x h
    induction h with
    | refl x => exact fun h => h
    | @step y z x m hm hz _ ih =>
        intro hy
        obtain ⟨n, hn, hall⟩ := hlive y hy
        obtain rfl : m = n := Option.some.inj (hm.symm.trans hn)
        exact ih (hall z hz)
  obtain ⟨n, hn, -⟩ := hlive x (hreached id x hx hroot)
  exact ⟨n, hn⟩

/-! ## The run and the walk -/

/-- The nodes that were reported as seen before. -/
def State.again (s : State) : List NodeId := (s.faults.filter (·.kind == .badSharing)).map (·.node)

/-- The faults that were found by rules. -/
def State.ruled (s : State) : List Fault := s.faults.filter (·.kind != .badSharing)

/-- From one state to the next the audit saw and reported what a walk meets. -/
structure Follows (u : UnitContext) (w : Trace) (s s' : State) : Prop where
  visited : ∀ x, x ∈ s'.visited ↔ x ∈ w.ids ++ s.visited
  again : s'.again = s.again ++ w.again
  found : ∃ r, collect (findingsAtSite u) w.places = .ok r ∧ s'.ruled = s.ruled ++ r.faults ∧
    s'.failures = s.failures ++ r.failures

namespace Follows

variable {u : UnitContext} {w v : Trace} {s s' s'' : State}

theorem nil (u : UnitContext) (s : State) : Follows u .nil s s :=
  ⟨fun _ => Iff.rfl, (List.append_nil _).symm, .clean, rfl, (List.append_nil _).symm,
    (List.append_nil _).symm⟩

theorem append (h : Follows u w s s') (h' : Follows u v s' s'') : Follows u (w.append v) s s'' := by
  obtain ⟨r, hr, hfaults, hfailures⟩ := h.found
  obtain ⟨r', hr', hfaults', hfailures'⟩ := h'.found
  refine ⟨fun x => ?_, ?_, r.append r', collect_append hr hr', ?_, ?_⟩
  · rw [h'.visited, List.mem_append, h.visited, Trace.ids_append]
    simp only [List.mem_append]
    tauto
  · rw [h'.again, h.again, List.append_assoc]
    rfl
  · rw [hfaults', hfaults, List.append_assoc]
    rfl
  · rw [hfailures', hfailures, List.append_assoc]
    rfl

theorem inTurn {step : NodeId → AuditM Unit} {walk : List NodeId → Tree NodeId → Trace}
    {ts : List (Tree NodeId)} {seen : List NodeId}
    (h : ∀ t ∈ ts, ∀ seen s s', (∀ x, x ∈ s.visited ↔ x ∈ seen) →
      step t.label s = .ok ((), s') → Follows u (walk seen t) s s')
    (hseen : ∀ x, x ∈ s.visited ↔ x ∈ seen)
    (hrun : (ts.map Tree.label).forM step s = .ok ((), s')) :
    Follows u (.inTurn walk seen ts) s s' := by
  induction ts generalizing seen s with
  | nil =>
      cases hrun
      exact nil u _
  | cons t ts ih =>
      obtain ⟨⟨⟩, s₁, ht, hrun⟩ := Checked.run_bind_eq_ok.mp hrun
      have hfirst := h t List.mem_cons_self seen s s₁ hseen ht
      refine hfirst.append (ih (fun u hu => h u (List.mem_cons_of_mem _ hu)) (fun x => ?_) hrun)
      rw [hfirst.visited, List.mem_append, List.mem_append, hseen]

/-- The node that was gone into comes last, after all below it. -/
theorem enter {site : Site NodeId} {r : Report}
    (h : Follows u w ⟨site.node.label :: s.visited, s.faults, s.failures⟩ s')
    (hr : findingsAtSite u site = .ok r) :
    Follows u (w.append ⟨[site], []⟩) s (s'.add [] r) := by
  obtain ⟨below, hbelow, hfaults, hfailures⟩ := h.found
  have hsite : collect (findingsAtSite u) [site] = .ok r := by
    rw [collect, hr]
    simp [collect, Report.append, Report.clean, pure, Except.pure, bind, Except.bind]
  have hkinds := kind_ne_of_collect hsite
  have hagain : r.faults.filter (·.kind == .badSharing) = [] :=
    List.filter_eq_nil_iff.mpr fun f hf => by simpa using hkinds f hf
  have hruled : r.faults.filter (·.kind != .badSharing) = r.faults :=
    List.filter_eq_self.mpr fun f hf => by simpa using hkinds f hf
  refine ⟨fun x => ?_, ?_, below.append r, collect_append hbelow hsite, ?_, ?_⟩
  · rw [Trace.ids_append]
    refine (h.visited x).trans ?_
    simp [Trace.ids, List.mem_append]
  · show ((s'.faults ++ r.faults).filter _).map _ = s.again ++ (w.again ++ [])
    rw [List.filter_append, hagain, List.append_nil, List.append_nil]
    exact h.again
  · show (s'.faults ++ r.faults).filter _ = _
    rw [List.filter_append, hruled]
    rw [State.ruled] at hfaults
    rw [hfaults, List.append_assoc]
    rfl
  · show s'.failures ++ r.failures = _
    rw [hfailures, List.append_assoc]
    rfl

end Follows

theorem visit_follows {depth : Nat} {s s' : State} {seen : List NodeId} (hw : c.arena.WellFormed)
    (ht : t.In c.arena) (hc : Inside c around) (hseen : ∀ x, x ∈ s.visited ↔ x ∈ seen)
    (h : visit depth c t.label s = .ok ((), s')) :
    Follows c.toUnitContext (t.walk seen around) s s' := by
  induction t generalizing c around depth s s' seen with
  | node id tag fs ih =>
      cases depth with
      | zero => cases h
      | succ depth =>
          rw [Tree.walk_node]
          rcases visit_eq_ok h with ⟨hnull, -⟩ | ⟨hmem, text, rfl⟩ |
            ⟨hmem, n, inside, s₁, r, hn, hinside, hbelow, hr, rfl⟩
          · have hlive := ht.label_not_null
            rw [hlive] at hnull
            cases hnull
          · rw [if_pos ((hseen id).mp hmem)]
            refine ⟨fun _ => Iff.rfl, ?_, .clean, rfl, ?_, (List.append_nil _).symm⟩
            · simp [State.again, Tree.label]
            · simp [State.ruled, Report.clean]
          · rw [if_neg fun hin => hmem ((hseen id).mpr hin)]
            obtain rfl : n.tag = tag := by
              obtain ⟨m, hm, htag, -⟩ := ht.get?
              rwa [Option.some.inj (hn.symm.trans hm)]
            have hunit : inside.toUnitContext = c.toUnitContext := enter_toUnitContext hinside
            have harena : inside.arena = c.arena := congrArg UnitContext.arena hunit
            rw [ht.children hn] at hbelow
            refine .enter (.inTurn ?_ (fun x => ?_) hbelow) ?_
            · intro t hmem seen s s' hseen hrun
              have hchild : .child t ∈ fs := Tree.mem_subtrees.mp hmem
              rw [← hunit]
              exact ih t hchild (by rwa [harena]) (by rw [harena]; exact ht.child hchild)
                (hc.enter hw ht hinside) hseen hrun
            · show x ∈ id :: s.visited ↔ x ∈ id :: seen
              rw [List.mem_cons, List.mem_cons, hseen]
            · rw [hc.findingsAtSite_eq hw ht hinside]
              exact hr

/-! ## Audits -/

/-- The number of times that a node was reported as shared. -/
def Report.sharings (r : Report) (x : NodeId) : Nat :=
  r.faults.countP fun f => f.kind == .badSharing && f.node == x

/-- Every node that is reached from `root`, once, at the first of its places in the tree that the
graph unfolds to. -/
structure FirstPlaces (a : Arena) (root : NodeId) (sites : List (Site NodeId)) : Prop where
  nodup : (sites.map (·.node.label)).Nodup
  reached : ∀ x, x ∈ sites.map (·.node.label) ↔ x.isNull = false ∧ a.Reaches root x
  first : ∀ s ∈ sites, ∃ t : Tree NodeId, t.In a ∧ t.label = root ∧
    (t.preorder []).find? (·.node.label == s.node.label) = some s

theorem walk_firstPlaces {a : Arena} (ht : t.In a) :
    FirstPlaces a t.label (t.walk [] []).places := by
  have hedges : (t.walk [] []).Accounts a [] [t.label] := ht.walk_accounts
  have hclosed : a.Closed [] [] := nofun
  refine ⟨hedges.nodup, fun x => (ht.mem_walk_ids x).trans ?_, fun s hs => ⟨t, ht, rfl, ?_⟩⟩
  · refine ⟨fun hx => ⟨?_, hx⟩, And.right⟩
    exact (Tree.mem_labels_live ht (ht.mem_labels hx)).1
  · exact ht.first_of_mem_places hclosed (fun _ _ => List.not_mem_nil) hs

theorem sharings_eq (s : State) (x : NodeId) :
    (Report.mk s.faults s.failures).sharings x = s.again.count x := by
  rw [Report.sharings, State.again, List.count_eq_countP, List.countP_map, List.countP_filter]
  exact List.countP_congr fun f _ => by simp [and_comm]

theorem again_eq_nil {s : State} :
    s.again = [] ↔ ∀ f ∈ s.faults, f.kind ≠ .badSharing := by
  simp [State.again, List.filter_eq_nil_iff]

theorem audit_eq_ok {a : Arena} {config : Config} {unit : NodeId} {r : Report}
    (h : audit a config unit = .ok r) : ∃ u root s, UnitContext.ofUnit a config unit = .ok u ∧
      a.unitDefs unit = .ok root ∧
      visit (a.depthBound + 1) ⟨u, .ofUnit, none⟩ root ⟨[], [], []⟩ = .ok ((), s) ∧
      r = ⟨s.faults, s.failures⟩ := by
  obtain ⟨tag, htag, h⟩ := Checked.bind_eq_ok.mp h
  split at h
  · obtain ⟨u, hu, h⟩ := Checked.bind_eq_ok.mp h
    obtain ⟨root, hroot, h⟩ := Checked.bind_eq_ok.mp h
    obtain ⟨⟨⟨⟩, s⟩, hs, h⟩ := Checked.bind_eq_ok.mp h
    cases h
    exact ⟨u, root, s, hu, hroot, hs, rfl⟩
  · cases h

/-- Nothing is reached from an absent node. -/
theorem firstPlaces_null {a : Arena} (hw : a.WellFormed) :
    FirstPlaces a .null [] ∧ ∃ ids, a.StrictTree .null ids := by
  have hreach : ∀ x, a.Reaches .null x → x = .null := by
    rintro x (_ | ⟨hn, -, -⟩)
    · rfl
    · rw [hw.get?_null] at hn
      cases hn
  refine ⟨⟨.nil, fun x => ⟨nofun, fun ⟨hx, h⟩ => ?_⟩, nofun⟩, [.null], List.nodup_singleton _,
    fun x => ⟨fun h => List.mem_singleton.mpr (hreach x h), fun hx => ?_⟩, ?_⟩
  · rw [hreach x h] at hx
    cases hx
  · rw [List.mem_singleton.mp hx]
    exact .refl _
  · rw [Arena.edgeEnds, List.flatMap_singleton, hw.get?_null]
    exact .refl _

/-- In an audit of a unit whose definitions have no circle, every node under them is held against the
rules once, in the context of its first place. What is found besides is the sharing of nodes: each
node but the root is reported once for every edge to it but one, so there is no sharing exactly if
the nodes form a tree. -/
theorem audit_sharing {a : Arena} {config : Config} {unit root : NodeId} {r : Report}
    (hw : a.WellFormed) (hroot : a.unitDefs unit = .ok root) (hacyclic : a.Acyclic root)
    (hrun : audit a config unit = .ok r) :
    ∃ u sites, UnitContext.ofUnit a config unit = .ok u ∧ FirstPlaces a root sites ∧
      collect (findingsAtSite u) sites =
        .ok ⟨r.faults.filter (·.kind != .badSharing), r.failures⟩ ∧
      (∀ x, x ∈ sites.map (·.node.label) → x ≠ root →
        r.sharings x + 1 = (a.edgeEnds (sites.map (·.node.label))).count x) ∧
      (∀ x, x = root ∨ x ∉ sites.map (·.node.label) → r.sharings x = 0) ∧
      ((∀ f ∈ r.faults, f.kind ≠ .badSharing) ↔ ∃ ids, a.StrictTree root ids) := by
  obtain ⟨u, root', s, hu, hroot', hvisit, rfl⟩ := audit_eq_ok hrun
  obtain rfl : root = root' := Except.ok.inj (hroot.symm.trans hroot')
  have harena : u.arena = a := (UnitContext.ofUnit_eq_ok.mp hu).1
  subst harena
  cases hnull : root.isNull with
  | true =>
      obtain rfl : root = .null := by simpa [NodeId.isNull] using hnull
      cases hvisit
      obtain ⟨hplaces, hstrict⟩ := firstPlaces_null hw
      refine ⟨u, [], hu, hplaces, rfl, fun x hx => ?_, fun _ _ => rfl, fun _ => hstrict,
        fun _ f hf => ?_⟩
      · cases hx
      · cases hf
  | false =>
      obtain ⟨t, ht, rfl⟩ := hacyclic.exists_in hw fun x hx => live_of_visit hnull hvisit hx
      have hfollows : Follows u (t.walk [] []) ⟨[], [], []⟩ s :=
        visit_follows (c := ⟨u, .ofUnit, none⟩) hw ht ⟨rfl, rfl⟩ (fun _ => Iff.rfl) hvisit
      have hagain : s.again = (t.walk [] []).again := hfollows.again
      obtain ⟨found, hfound, hfaults, hfailures⟩ := hfollows.found
      have hedges : (t.walk [] []).Accounts u.arena [] [t.label] := ht.walk_accounts
      have hreached : ∀ x, x ∈ (t.walk [] []).ids ↔ u.arena.Reaches t.label x := ht.mem_walk_ids
      refine ⟨u, (t.walk [] []).places, hu, walk_firstPlaces ht, ?_, fun x hx hne => ?_,
        fun x hx => ?_, ?_⟩
      · rw [hfound]
        cases found
        cases hfaults
        cases hfailures
        rfl
      · have hcount := hedges.count_again x
        rw [List.count_eq_one_of_mem hedges.nodup hx, List.count_eq_zero.mpr (by simpa using hne)]
          at hcount
        rw [sharings_eq, hagain]
        show _ = (u.arena.edgeEnds (t.walk [] []).ids).count x
        omega
      · rw [sharings_eq, hagain]
        rcases hx with rfl | hx
        · have hcount := hedges.count_again t.label
          have hmem : t.label ∈ (t.walk [] []).ids := (hreached _).mpr (.refl _)
          have hend : t.label ∉ u.arena.edgeEnds (t.walk [] []).ids :=
            hacyclic.root_notMem_edgeEnds fun x hx => (hreached x).mp hx
          rw [List.count_singleton_self, List.count_eq_one_of_mem hedges.nodup hmem,
            List.count_eq_zero.mpr hend] at hcount
          omega
        · refine List.count_eq_zero.mpr fun hmem => hx ?_
          have hseen := hedges.again x hmem
          rwa [List.append_nil] at hseen
      · rw [← hedges.again_eq_nil_iff hreached, ← hagain]
        exact again_eq_nil.symm

/-- A sequence with three parents is in a procedure first, where local zero is declared. Outside it
comes up twice again, and the local once more, without being looked into. -/
theorem audit_sharing_of_sequence :
    let a : Arena := .ofRows [some (.bare .unit [.code .null, .code ⟨1⟩]),
      some (.bare .ddef [.code ⟨2⟩, .code ⟨6⟩]), some (.bare .defn [.code .null, .code ⟨3⟩]),
      some (.bare .prog [.int 0, .int 0, .int 0, .int 0, .int 0, .int 0, .int 0, .int 0,
        .code .null, .code ⟨4⟩, .code .null, .code .null, .code ⟨8⟩]),
      some (.bare .ddecl [.int 3, .code ⟨5⟩]),
      some (.bare .decl [.int 5, .str "x", .int 0, .int 4]),
      some (.bare .defn [.code .null, .code ⟨7⟩]),
      some (.bare .seq [.code ⟨8⟩, .code ⟨8⟩, .code ⟨9⟩]), some (.bare .seq [.code ⟨9⟩]),
      some (.bare .loc [.int 0])] []
    let r : Report := ⟨[⟨.badSharing, ⟨8⟩, none, "(Seq (Loc 0))"⟩,
      ⟨.badSharing, ⟨8⟩, none, "(Seq (Loc 0))"⟩, ⟨.badSharing, ⟨9⟩, none, "(Loc 0)"⟩], []⟩
    a.WellFormed ∧ a.unitDefs ⟨0⟩ = .ok ⟨1⟩ ∧ a.Acyclic ⟨1⟩ ∧ audit a .standard ⟨0⟩ = .ok r ∧
      ∃ u sites, UnitContext.ofUnit a .standard ⟨0⟩ = .ok u ∧ FirstPlaces a ⟨1⟩ sites ∧
        collect (findingsAtSite u) sites =
          .ok ⟨r.faults.filter (·.kind != .badSharing), r.failures⟩ ∧
        (∀ x, x ∈ sites.map (·.node.label) → x ≠ ⟨1⟩ →
          r.sharings x + 1 = (a.edgeEnds (sites.map (·.node.label))).count x) ∧
        (∀ x, x = ⟨1⟩ ∨ x ∉ sites.map (·.node.label) → r.sharings x = 0) ∧
        ((∀ f ∈ r.faults, f.kind ≠ .badSharing) ↔ ∃ ids, a.StrictTree ⟨1⟩ ids) := by
  intro a r
  let loc : Field (Tree NodeId) := .child (.node ⟨9⟩ .loc [.leaf (.int 0)])
  let seq : Field (Tree NodeId) := .child (.node ⟨8⟩ .seq [loc])
  let decl : Tree NodeId := .node ⟨5⟩ .decl
    [.leaf (.int 5), .leaf (.str "x"), .leaf (.int 0), .leaf (.int 4)]
  let prog : Tree NodeId := .node ⟨3⟩ .prog
    (List.replicate 8 (.leaf (.int 0)) ++ [.leaf (.code .null),
      .child (.node ⟨4⟩ .ddecl [.leaf (.int 3), .child decl]), .leaf (.code .null),
      .leaf (.code .null), seq])
  let defs : Tree NodeId := .node ⟨1⟩ .ddef
    [.child (.node ⟨2⟩ .defn [.leaf (.code .null), .child prog]),
      .child (.node ⟨6⟩ .defn [.leaf (.code .null), .child (.node ⟨7⟩ .seq [seq, seq, loc])])]
  have hw : a.WellFormed := by decide
  have hroot : a.unitDefs ⟨0⟩ = .ok ⟨1⟩ := by rfl
  have hin : defs.In a := by decide
  have hacyclic : a.Acyclic ⟨1⟩ := hin.acyclic
  have hrun : audit a .standard ⟨0⟩ = .ok r := by rfl
  exact ⟨hw, hroot, hacyclic, hrun, audit_sharing hw hroot hacyclic hrun⟩

end Audit

end Foam
