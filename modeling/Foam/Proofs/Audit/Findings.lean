import Foam.Audit.Walk
import Foam.Proofs.Fields

/-!
# What an audit finds in a tree

On a tree without a repeated node the walk does not look at the nodes it has entered: what it finds
is a function of the tree and the context. `findings` is that function, by recursion over the tree,
and `visit_finds` says that the walk adds its value to what was found before.
-/

namespace Foam

namespace Audit

/-! ## Findings by recursion -/

namespace Report

/-- Nothing was found. -/
def clean : Report := ⟨[], []⟩

/-- What was found in one place and then in another. -/
def append (r s : Report) : Report := ⟨r.faults ++ s.faults, r.failures ++ s.failures⟩

end Report

/-- What is found in each of several places, one after the other. -/
def collect {α : Type} (find : α → Checked Report) : List α → Checked Report
  | [] => return .clean
  | x :: xs => do
    let first ← find x
    return first.append (← collect find xs)

def faultAt (c : Context) (id : NodeId) (kind : FaultKind) : Checked Report :=
  return ⟨[⟨kind, id, c.constNum, ← c.arena.render id⟩], []⟩

def failureAt (c : Context) (id : NodeId) (cause : TypeCause) : Checked Report :=
  return ⟨[], [⟨id, c.constNum, cause, ← c.arena.render id⟩]⟩

/-- The type failures at one node. -/
def failuresAt (c : Context) (id : NodeId) (tag : Tag) : Checked Report := do
  if c.config.typeChecking then collect (failureAt c id) (← c.typeCauses id tag)
  else return .clean

/-- What the rules find at one node. -/
def findingsAt (c : Context) (id : NodeId) (tag : Tag) : Checked Report := do
  let kind ← c.fault? id tag
  let faults ← collect (faultAt c id) kind.toList
  return faults.append (← failuresAt c id tag)

mutual
/-- What is found in a tree that is come upon in the context: first below the root, then at it. -/
def findings (c : Context) : Tree NodeId → Checked Report
  | .node id tag fs => do
    let inside ← c.enter id tag
    let below ← findingsAll inside fs
    return below.append (← findingsAt inside id tag)
def findingsAll (c : Context) : List (Field (Tree NodeId)) → Checked Report
  | [] => return .clean
  | .leaf _ :: fs => findingsAll c fs
  | .child t :: fs => do
    let first ← findings c t
    return first.append (← findingsAll c fs)
end

theorem findingsAll_eq (c : Context) (fs : List (Field (Tree NodeId))) :
    findingsAll c fs = collect (findings c) (Tree.subtrees fs) := by
  induction fs with
  | nil => rw [findingsAll]; rfl
  | cons f fs ih =>
      cases f with
      | leaf s => rw [findingsAll, ih]; rfl
      | child t => rw [findingsAll, ih]; rfl

theorem findings_node (c : Context) (id : NodeId) (tag : Tag) (fs : List (Field (Tree NodeId))) :
    findings c (.node id tag fs) = (do
      let inside ← c.enter id tag
      let below ← collect (findings inside) (Tree.subtrees fs)
      return below.append (← findingsAt inside id tag)) := by
  rw [findings]
  simp only [findingsAll_eq]

/-! ## Contexts -/

end Audit

namespace Tree

/-- The number of the constant that the node defines, if it is the definition of one. -/
def constDefined? {α : Type} : Tree α → Option Int64
  | node _ .defn (.child (node _ .const (.leaf (.int v) :: _)) :: _) => some v
  | _ => none

theorem constDefined?_of_ne {α : Type} {l : α} {tag : Tag} {fs : List (Field (Tree α))}
    (h : tag ≠ .defn) : (node l tag fs).constDefined? = none := by
  unfold constDefined?
  split
  · next heq => exact absurd (Tree.node.inj heq).2.1 h
  · rfl

end Tree

/-- The number of slots of a node that may be absent. -/
def Arena.entryCount (a : Arena) (id : NodeId) : Checked Nat :=
  if id.isNull then .ok 0 else a.slotCount id

namespace Audit

theorem Frame.ofProg_eq (a : Arena) (p : NodeId) : ofProg a p = (do
    let levelNode ← a.progLevels p
    let levels ← a.entryCount levelNode
    let locals ← sizeOf a (← a.progLocals p)
    let params ← sizeOf a (← a.progParams p)
    return ⟨p, levels, locals, params⟩) := by
  unfold ofProg
  refine bind_congr fun levelNode => ?_
  unfold Arena.entryCount
  split
  · rfl
  · rfl

/-- What the frame of a procedure has counted. -/
theorem Frame.ofProg_eq_ok {a : Arena} {p : NodeId} {f : Frame} : ofProg a p = .ok f ↔
    f.prog = p ∧ ∃ levels locals params, a.progLevels p = .ok levels ∧
      a.entryCount levels = .ok f.levels ∧ a.progLocals p = .ok locals ∧
      sizeOf a locals = .ok f.locals ∧ a.progParams p = .ok params ∧
      sizeOf a params = .ok f.params := by
  rw [ofProg_eq]
  constructor
  · intro h
    obtain ⟨levels, hlevels, h⟩ := Checked.bind_eq_ok.mp h
    obtain ⟨levelCount, hlevelCount, h⟩ := Checked.bind_eq_ok.mp h
    obtain ⟨locals, hlocals, h⟩ := Checked.bind_eq_ok.mp h
    obtain ⟨localCount, hlocalCount, h⟩ := Checked.bind_eq_ok.mp h
    obtain ⟨params, hparams, h⟩ := Checked.bind_eq_ok.mp h
    obtain ⟨paramCount, hparamCount, h⟩ := Checked.bind_eq_ok.mp h
    cases h
    exact ⟨rfl, levels, locals, params, hlevels, hlevelCount, hlocals, hlocalCount, hparams,
      hparamCount⟩
  · rintro ⟨rfl, levels, locals, params, hlevels, hlevelCount, hlocals, hlocalCount, hparams,
      hparamCount⟩
    rw [hlevels, Checked.ok_bind, hlevelCount, Checked.ok_bind, hlocals, Checked.ok_bind,
      hlocalCount, Checked.ok_bind, hparams, Checked.ok_bind, hparamCount]
    rfl

/-- The frame inside a node, given that around it. -/
def Frame.inside (f : Frame) (a : Arena) (t : Tree NodeId) : Checked Frame :=
  if t.tag = .prog then Frame.ofProg a t.label else .ok f

theorem enter_defn {c : Context} {id : NodeId} {fs : List (Field (Tree NodeId))}
    (hw : c.arena.WellFormed) (ht : (Tree.node id .defn fs).In c.arena) :
    c.enter id .defn =
      .ok { c with constNum := (Tree.node id .defn fs).constDefined?.or c.constNum } := by
  have hfits := ht.fits hw
  have hfields := Tree.fields_of_fixed hfits rfl
  obtain ⟨-, -, hbelow⟩ := Tree.obeys_node.mp hfits
  cases hfields with
  | @cons _ f _ fs hf _ =>
      have hleft : c.arena.left id = .ok f.ref := ht.ref_eq (i := 0) rfl hf
      unfold Context.enter
      rw [hleft]
      cases f with
      | leaf s => rfl
      | child l =>
          have hl : l.In c.arena := ht.child List.mem_cons_self
          show (if l.label.isNull then pure c else c.arena.tag l.label >>= fun tag =>
            if tag = .const then c.arena.int l.label 0 >>= _ else pure c) = _
          rw [hl.label_not_null, if_neg Bool.false_ne_true, hl.tag_eq]
          obtain ⟨left, tag, gs⟩ := l
          show (if tag = .const then _ else pure c) = _
          by_cases hconst : tag = .const
          · subst hconst
            obtain ⟨v, rfl⟩ := Tree.index_of_fits
              (Tree.fields_of_fixed (hbelow _ List.mem_cons_self) rfl)
            have hint : c.arena.int (Tree.node left .const [.leaf (.int v)]).label 0 = .ok v :=
              hl.int_eq rfl
            rw [if_pos rfl, hint]
            rfl
          · rw [if_neg hconst, Tree.constDefined?]
            · rfl
            · intro _ _ _ _ _ heq
              cases heq
              exact hconst rfl

/-- Inside a node there is its own frame if it is a procedure, and if it is the definition of a
constant, the number of that. -/
theorem enter_eq {c : Context} {t : Tree NodeId} (hw : c.arena.WellFormed) (ht : t.In c.arena) :
    c.enter t.label t.tag = (c.frame.inside c.arena t).map fun frame =>
      { c with frame := frame, constNum := t.constDefined?.or c.constNum } := by
  obtain ⟨id, tag, fs⟩ := t
  by_cases hdefn : tag = .defn
  · subst hdefn
    exact enter_defn hw ht
  · rw [Tree.constDefined?_of_ne hdefn]
    by_cases hprog : tag = .prog
    · subst hprog
      rfl
    · rw [Frame.inside, Tree.tag, if_neg hprog]
      unfold Context.enter
      cases tag <;> first | rfl | exact absurd rfl hdefn | exact absurd rfl hprog

/-- The context inside a node is that of the same unit. -/
theorem inside_of_enter {c inside : Context} {t : Tree NodeId} (hw : c.arena.WellFormed)
    (ht : t.In c.arena) (h : c.enter t.label t.tag = .ok inside) :
    inside.toUnitContext = c.toUnitContext ∧ c.frame.inside c.arena t = .ok inside.frame ∧
      inside.constNum = t.constDefined?.or c.constNum := by
  rw [enter_eq hw ht] at h
  cases hframe : c.frame.inside c.arena t with
  | error e =>
      rw [hframe] at h
      cases h
  | ok frame =>
      rw [hframe] at h
      cases h
      exact ⟨rfl, rfl, rfl⟩

/-! ## The walk -/

/-- The state after the nodes `ids` were entered and things were found. -/
def State.add (s : State) (ids : List NodeId) (r : Report) : State :=
  ⟨ids.reverse ++ s.visited, s.faults ++ r.faults, s.failures ++ r.failures⟩

/-- From a state on, the step enters the nodes `ids` and adds what is found, or is refused. -/
def Finds (x : AuditM Unit) (s : State) (ids : List NodeId) (r : Checked Report) : Prop :=
  x s = r >>= fun r => pure ((), s.add ids r)

namespace Finds

variable {α : Type} {x y : AuditM Unit} {s : State} {ids jds : List NodeId} {r r' : Checked Report}

theorem nil (s : State) : Finds (pure ()) s [] (pure .clean) := by
  show Except.ok ((), s) = Except.ok ((), s.add [] .clean)
  simp [State.add, Report.clean]

theorem bind (h : Finds x s ids r) (h' : ∀ v, Finds y (s.add ids v) jds r') :
    Finds (x >>= fun _ => y) s (ids ++ jds) (do
      let first ← r
      return first.append (← r')) := by
  show (x s >>= fun p => y p.2) = _
  rw [show x s = _ from h]
  cases r with
  | error e => rfl
  | ok v =>
      show y (s.add ids v) = (r' >>= fun w => pure (v.append w)) >>= fun r => pure ((), _)
      rw [show y (s.add ids v) = _ from h' v]
      cases r' with
      | error e => rfl
      | ok w =>
          show Except.ok _ = Except.ok _
          simp [State.add, Report.append, List.append_assoc]

/-- A computation that only reads comes first. -/
theorem read {v : Checked α} {f : α → AuditM Unit} {g : α → Checked Report}
    (h : ∀ w, v = .ok w → Finds (f w) s ids (g w)) :
    Finds ((v : AuditM α) >>= f) s ids (v >>= g) := by
  show (v >>= fun w => pure (w, s)) >>= (fun p => f p.1 p.2) = _
  cases v with
  | error e => rfl
  | ok w => exact h w rfl

/-- Steps that enter no node, one for each member of a list. -/
theorem each {step : α → AuditM Unit} {find : α → Checked Report}
    (h : ∀ v s, Finds (step v) s [] (find v)) (vs : List α) (s : State) :
    Finds (vs.forM step) s [] (collect find vs) := by
  induction vs generalizing s with
  | nil => exact nil s
  | cons v vs ih => exact bind (h v s) fun w => ih (s.add [] w)

end Finds

theorem addFault_finds (c : Context) (id : NodeId) (kind : FaultKind) (s : State) :
    Finds (addFault c id kind) s [] (faultAt c id kind) := by
  refine .read fun text _ => ?_
  show Except.ok _ = Except.ok _
  simp [State.add]

theorem addFailure_finds (c : Context) (id : NodeId) (cause : TypeCause) (s : State) :
    Finds (addFailure c id cause) s [] (failureAt c id cause) := by
  refine .read fun text _ => ?_
  show Except.ok _ = Except.ok _
  simp [State.add]

theorem examine_finds (c : Context) (id : NodeId) (tag : Tag) (s : State) :
    Finds (examine c id tag) s [] (findingsAt c id tag) := by
  refine .read fun kind _ => .bind (.each (addFault_finds c id) kind.toList s) fun w => ?_
  unfold failuresAt
  split
  · exact .read fun causes _ => .each (addFailure_finds c id) causes _
  · exact .nil _

/-- Trees are walked one after the other. The nodes of one are not come upon in the next. -/
theorem Finds.trees {step : NodeId → AuditM Unit} {find : Tree NodeId → Checked Report}
    {ts : List (Tree NodeId)} {s : State}
    (h : ∀ t ∈ ts, ∀ s : State, (∀ x ∈ t.labels, x ∉ s.visited) →
      Finds (step t.label) s t.labels (find t))
    (hnd : (ts.flatMap Tree.labels).Nodup) (hs : ∀ x ∈ ts.flatMap Tree.labels, x ∉ s.visited) :
    Finds ((ts.map Tree.label).forM step) s (ts.flatMap Tree.labels) (collect find ts) := by
  induction ts generalizing s with
  | nil => exact nil s
  | cons t ts ih =>
      rw [List.flatMap_cons] at hnd hs ⊢
      obtain ⟨-, hnd, hdisj⟩ := List.nodup_append'.mp hnd
      refine bind (h t List.mem_cons_self s fun x hx => hs x (List.mem_append_left _ hx)) fun v => ?_
      refine ih (fun u hu => h u (List.mem_cons_of_mem _ hu)) hnd ?_
      intro x hx hmem
      rcases List.mem_append.mp hmem with hmem | hmem
      · exact hdisj (List.mem_reverse.mp hmem) hx
      · exact hs x (List.mem_append_right _ hx) hmem

/-- A node that was seen before is reported. -/
theorem visit_seen {c : Context} {depth : Nat} {id : NodeId} {s : State} (hid : id.isNull = false)
    (hs : id ∈ s.visited) : visit (depth + 1) c id s = addFault c id .badSharing s := by
  have hcontains : s.visited.contains id = true := by simpa using hs
  rw [visit, hid, if_neg Bool.false_ne_true]
  show (if s.visited.contains id then addFault c id .badSharing else _ : AuditM Unit) s = _
  rw [hcontains, if_pos rfl]

/-- A node that is come upon the first time is entered. -/
theorem visit_unseen {c : Context} {depth : Nat} {id : NodeId} {s : State} (hid : id.isNull = false)
    (hs : id ∉ s.visited) : visit (depth + 1) c id s = (do
      let n ← (c.arena.node id : AuditM Node)
      let inside ← c.enter id n.tag
      n.children.forM (visit depth inside)
      examine inside id n.tag : AuditM Unit) ⟨id :: s.visited, s.faults, s.failures⟩ := by
  have hcontains : s.visited.contains id = false := by simpa using hs
  rw [visit, hid, if_neg Bool.false_ne_true]
  show (if s.visited.contains id then addFault c id .badSharing else _ : AuditM Unit) s = _
  rw [hcontains, if_neg Bool.false_ne_true]
  rfl

theorem visit_fresh {c : Context} {depth : Nat} {id : NodeId} {n : Node} {s : State}
    (hn : c.arena.get? id = some n) (hid : id.isNull = false) (hs : id ∉ s.visited) :
    visit (depth + 1) c id s = (do
      let inside ← c.enter id n.tag
      n.children.forM (visit depth inside)
      examine inside id n.tag : AuditM Unit) ⟨id :: s.visited, s.faults, s.failures⟩ := by
  rw [visit_unseen hid hs, Arena.node_of_get? hn]
  rfl

theorem visit_finds {c : Context} {t : Tree NodeId} (hw : c.arena.WellFormed) (ht : t.In c.arena)
    (hnd : t.labels.Nodup) {depth : Nat} (hd : t.height < depth) {s : State}
    (hs : ∀ x ∈ t.labels, x ∉ s.visited) :
    Finds (visit depth c t.label) s t.labels (findings c t) := by
  induction t generalizing c depth s with
  | node id tag fs ih =>
      obtain ⟨d, rfl⟩ : ∃ d, depth = d + 1 := ⟨depth - 1, by omega⟩
      obtain ⟨n, hn, htag, -⟩ := ht.get?
      rw [Tree.labels_node] at hnd hs ⊢
      obtain ⟨hroot, hnd⟩ := List.nodup_cons.mp hnd
      have hbelow : ∀ inside : Context, c.enter id tag = .ok inside →
          Finds (do
            ((Tree.subtrees fs).map Tree.label).forM (visit d inside)
            examine inside id tag) ⟨id :: s.visited, s.faults, s.failures⟩
            ((Tree.subtrees fs).flatMap Tree.labels ++ []) (do
              let below ← collect (findings inside) (Tree.subtrees fs)
              return below.append (← findingsAt inside id tag)) := by
        intro inside hinside
        refine .bind (.trees ?_ hnd ?_) fun v => examine_finds inside id tag _
        · intro t hmem s hs
          have hchild : .child t ∈ fs := Tree.mem_subtrees.mp hmem
          have harena : inside.arena = c.arena :=
            congrArg UnitContext.arena (inside_of_enter hw ht hinside).1
          refine ih t hchild ?_ ?_ ((List.nodup_flatMap.mp hnd).1 t hmem) ?_ hs
          · rwa [harena]
          · rw [harena]
            exact ht.child hchild
          · have := Tree.height_lt id tag hchild
            omega
        · intro x hx hmem
          rcases List.mem_cons.mp hmem with rfl | hmem
          · exact hroot hx
          · exact hs x (List.mem_cons_of_mem _ hx) hmem
      have hread := Finds.read (v := c.enter id tag) hbelow
      rw [List.append_nil] at hread
      unfold Finds at hread ⊢
      rw [Tree.label, visit_fresh hn ht.label_not_null (hs id List.mem_cons_self), ht.children hn,
        htag, findings_node]
      refine hread.trans ?_
      simp [State.add]

/-! ## Audits -/

namespace UnitContext

variable {a : Arena} {config : Config} {unit : NodeId} {u : UnitContext}

theorem ofUnit_eq : ofUnit a config unit = (do
    let formats ← a.unitFormats unit
    let formatCount ← a.entryCount formats
    let consts ← a.formatSize formats Format.consts
    let globals ← a.formatSize formats Format.globals
    let fluids ← a.formatSize formats Format.fluids
    return ⟨a, config, formats, formatCount, consts, globals, fluids⟩) := by
  unfold ofUnit
  refine bind_congr fun formats => ?_
  unfold Arena.entryCount
  split
  · rfl
  · rfl

theorem ofUnit_eq_ok : ofUnit a config unit = .ok u ↔
    u.arena = a ∧ u.config = config ∧ a.unitFormats unit = .ok u.formats ∧
      a.entryCount u.formats = .ok u.formatCount ∧
      a.formatSize u.formats Format.consts = .ok u.constCount ∧
      a.formatSize u.formats Format.globals = .ok u.globalCount ∧
      a.formatSize u.formats Format.fluids = .ok u.fluidCount := by
  rw [ofUnit_eq]
  constructor
  · intro h
    obtain ⟨formats, hformats, h⟩ := Checked.bind_eq_ok.mp h
    obtain ⟨formatCount, hcount, h⟩ := Checked.bind_eq_ok.mp h
    obtain ⟨consts, hconsts, h⟩ := Checked.bind_eq_ok.mp h
    obtain ⟨globals, hglobals, h⟩ := Checked.bind_eq_ok.mp h
    obtain ⟨fluids, hfluids, h⟩ := Checked.bind_eq_ok.mp h
    cases h
    exact ⟨rfl, rfl, hformats, hcount, hconsts, hglobals, hfluids⟩
  · rintro ⟨rfl, rfl, hformats, hcount, hconsts, hglobals, hfluids⟩
    rw [hformats, Checked.ok_bind, hcount, Checked.ok_bind, hconsts, Checked.ok_bind, hglobals,
      Checked.ok_bind, hfluids]
    rfl

end UnitContext

/-- The audit of a unit without a repeated node finds what there is in the tree of its definitions,
outside any procedure and any definition of a constant. The definitions may be absent. -/
theorem audit_eq {a : Arena} {config : Config} {unit : NodeId} {u : UnitContext}
    (hw : a.WellFormed) (htag : a.tag unit = .ok .unit)
    (hu : UnitContext.ofUnit a config unit = .ok u) (defs : Option (Tree NodeId))
    (hdefs : a.unitDefs unit = .ok (defs.elim .null Tree.label))
    (hstrict : ∀ t ∈ defs, t.In a ∧ t.labels.Nodup) :
    audit a config unit = defs.elim (.ok .clean) (findings ⟨u, .ofUnit, none⟩) := by
  have harena : u.arena = a := (UnitContext.ofUnit_eq_ok.mp hu).1
  unfold audit
  simp only [htag, hdefs, hu, Checked.ok_bind, if_true]
  show (visit (a.depthBound + 1) (Context.mk u .ofUnit none) (defs.elim .null Tree.label)
    (State.mk [] [] []) >>= fun p => pure (Report.mk p.2.faults p.2.failures)) = _
  cases defs with
  | none => rfl
  | some t =>
      obtain ⟨ht, hnd⟩ := hstrict t rfl
      have hfinds := visit_finds (c := ⟨u, .ofUnit, none⟩) (by rwa [harena]) (by rwa [harena]) hnd
        (Nat.lt_succ_of_lt ht.height_lt_depthBound) (s := ⟨[], [], []⟩)
        fun x _ hmem => absurd hmem List.not_mem_nil
      rw [Option.elim_some, show visit _ _ _ _ = _ from hfinds, Option.elim_some]
      cases findings ⟨u, .ofUnit, none⟩ t with
      | error e => rfl
      | ok r => rfl

/-- An audit that returns has been of a unit. -/
theorem audit_ok {a : Arena} {config : Config} {unit : NodeId} {r : Report}
    (h : audit a config unit = .ok r) : a.tag unit = .ok .unit ∧
      ∃ u id, UnitContext.ofUnit a config unit = .ok u ∧ a.unitDefs unit = .ok id := by
  obtain ⟨tag, htag, h⟩ := Checked.bind_eq_ok.mp h
  split at h
  · next hunit =>
      obtain ⟨u, hu, h⟩ := Checked.bind_eq_ok.mp h
      obtain ⟨id, hdefs, -⟩ := Checked.bind_eq_ok.mp h
      exact ⟨hunit ▸ htag, u, id, hu, hdefs⟩
  · cases h

end Audit

end Foam
