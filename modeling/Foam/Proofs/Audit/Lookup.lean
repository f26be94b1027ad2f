import Foam.Proofs.Audit.Sites
import Foam.Proofs.Roles

/-!
# References and their declarations

An audit decides by counts whether a reference is good: it has counted the declarations of the unit
and of the procedure beforehand. Looking up the declaration goes through the groups themselves.
Where declarations stand as they should, the two agree on every reference that is counted. An
element of a record is not: the audit looks at its format only.
-/

namespace Foam

/-! ## Groups of declarations -/

namespace Node

theorem complete_iff {n : Node} : n.Complete ↔ .code .null ∉ n.slots := by
  constructor
  · intro h hmem
    cases h .null hmem
  · intro h c hc
    rw [NodeId.isNull, beq_eq_false_iff_ne]
    rintro rfl
    exact h hc

instance (n : Node) : Decidable n.Complete := decidable_of_iff' _ complete_iff

/-- The child in slot `i`, unless it is absent. -/
def childAt? (n : Node) (i : Nat) : Option NodeId := n.slots[i]?.bind Slot.child?

theorem mem_childAt? {n : Node} {i : Nat} {c : NodeId} :
    c ∈ n.childAt? i ↔ n.slots[i]? = some (.code c) ∧ c.isNull = false := by
  rw [childAt?, Option.mem_def, Option.bind_eq_some_iff]
  constructor
  · rintro ⟨s, hs, hc⟩
    obtain ⟨rfl, hnull⟩ := Slot.mem_child?.mp hc
    exact ⟨hs, hnull⟩
  · rintro ⟨hs, hnull⟩
    exact ⟨_, hs, Slot.mem_child?.mpr ⟨rfl, hnull⟩⟩

end Node

namespace Arena

variable {a : Arena}

/-- A group in which no declaration is absent. -/
def IsGroup (a : Arena) (id : NodeId) : Prop := ∃ n ∈ a.get? id, n.tag = .ddecl ∧ n.Complete

instance (a : Arena) (id : NodeId) : Decidable (a.IsGroup id) :=
  inferInstanceAs (Decidable (∃ n ∈ a.get? id, n.tag = .ddecl ∧ n.Complete))

/-- A table in which every entry that is present is a group. -/
def IsTable (a : Arena) (id : NodeId) : Prop :=
  ∃ n ∈ a.get? id, n.tag = .dfmt ∧ ∀ s ∈ n.slots, ∀ c ∈ s.child?, a.IsGroup c

instance (a : Arena) (id : NodeId) : Decidable (a.IsTable id) :=
  inferInstanceAs (Decidable (∃ n ∈ a.get? id, n.tag = .dfmt ∧
    ∀ s ∈ n.slots, ∀ c ∈ s.child?, a.IsGroup c))

/-- A format table: every entry that is present is a group. The empty format declares nothing. -/
def IsFormatTable (a : Arena) (id : NodeId) : Prop :=
  ∃ n ∈ a.get? id, n.tag = .dfmt ∧ (∀ s ∈ n.slots, ∀ c ∈ s.child?, a.IsGroup c) ∧
    ∀ c ∈ n.childAt? Format.empty.toNat, ∀ m ∈ a.get? c, m.slots.length = 1

instance (a : Arena) (id : NodeId) : Decidable (a.IsFormatTable id) :=
  inferInstanceAs (Decidable (∃ n ∈ a.get? id, n.tag = .dfmt ∧
    (∀ s ∈ n.slots, ∀ c ∈ s.child?, a.IsGroup c) ∧
    ∀ c ∈ n.childAt? Format.empty.toNat, ∀ m ∈ a.get? c, m.slots.length = 1))

theorem IsFormatTable.isTable {id : NodeId} (h : a.IsFormatTable id) : a.IsTable id := by
  obtain ⟨n, hn, htag, hgroups, -⟩ := h
  exact ⟨n, hn, htag, hgroups⟩

/-- A procedure that has all its parts and declares parameters, locals and levels. -/
def IsProcedure (a : Arena) (id : NodeId) : Prop :=
  ∃ n ∈ a.get? id, n.slots.length = 13 ∧ (∃ params ∈ n.childAt? 8, a.IsGroup params) ∧
    (∃ locals ∈ n.childAt? 9, a.IsGroup locals) ∧
    ∃ levels ∈ n.childAt? 11, ∃ l ∈ a.get? levels, l.tag = .denv

instance (a : Arena) (id : NodeId) : Decidable (a.IsProcedure id) :=
  inferInstanceAs (Decidable (∃ n ∈ a.get? id, n.slots.length = 13 ∧
    (∃ params ∈ n.childAt? 8, a.IsGroup params) ∧ (∃ locals ∈ n.childAt? 9, a.IsGroup locals) ∧
    ∃ levels ∈ n.childAt? 11, ∃ l ∈ a.get? levels, l.tag = .denv))

/-- A group has a declaration under every index below its size, and none under any other. -/
theorem IsGroup.decl? (hw : a.WellFormed) {group : NodeId} (h : a.IsGroup group) :
    ∃ size, a.groupSize group = .ok size ∧ ∀ i, ∃ decl, a.groupDecl? group i = .ok decl ∧
      (decl = none ↔ ¬(0 ≤ i ∧ i < size)) := by
  obtain ⟨n, hn, htag, hcomplete⟩ := h
  have hsize : a.groupSize group = .ok (n.slots.length - 1) := by
    rw [groupSize, slotCount_of_get? hn]
    rfl
  refine ⟨_, hsize, ?_⟩
  intro i
  unfold groupDecl?
  by_cases hneg : i < 0
  · rw [if_pos hneg]
    exact ⟨none, rfl, by simp; omega⟩
  · rw [if_neg hneg, hsize]
    show ∃ decl, (if i.toNat < n.slots.length - 1 then _ else _ : Checked _) = .ok decl ∧ _
    by_cases hlt : i.toNat < n.slots.length - 1
    · obtain ⟨c, hc⟩ := hw.code_at hn (i := 1 + i.toNat) (by omega) (by rw [htag, Nat.add_comm]; rfl)
      have hpresent : c.isNull = false := hcomplete c (List.mem_of_getElem? hc)
      rw [if_pos hlt, child_of_get? hn hc]
      refine ⟨some c, ?_, by simp; omega⟩
      show Except.ok (present c) = _
      rw [present, hpresent]
      rfl
    · rw [if_neg hlt]
      exact ⟨none, rfl, by simp; omega⟩

/-- The formats of a table are groups, and there are none outside it. -/
theorem IsTable.format? (hw : a.WellFormed) {formats : NodeId} {n : Node}
    (hn : a.get? formats = some n) (htag : n.tag = .dfmt)
    (hgroups : ∀ s ∈ n.slots, ∀ c ∈ s.child?, a.IsGroup c) (i : Int) :
    ∃ group, a.format? formats i = .ok group ∧
      (∀ g ∈ group, g ∈ n.childAt? i.toNat ∧ a.IsGroup g) ∧
      (¬(0 ≤ i ∧ i < n.slots.length) → group = none) := by
  unfold Arena.format?
  have hnull : formats.isNull = false := hw.not_null (index_lt_of_get? hn)
  by_cases hneg : i < 0
  · exact ⟨none, by simp [hneg]; rfl, by simp, fun _ => rfl⟩
  · have hcond : (decide (i < 0) || formats.isNull) = false := by simp [hneg, hnull]
    rw [hcond, if_neg Bool.false_ne_true, slotCount_of_get? hn, Checked.ok_bind]
    by_cases hlt : i.toNat < n.slots.length
    · obtain ⟨c, hc⟩ := hw.code_at hn hlt (by rw [htag]; rfl)
      rw [if_pos hlt, child_of_get? hn hc]
      refine ⟨present c, rfl, ?_, fun h => absurd ⟨by omega, by omega⟩ h⟩
      intro g hg
      have hg : g ∈ (Slot.code c).child? := hg
      exact ⟨Option.mem_bind_iff.mpr ⟨_, hc, hg⟩, hgroups _ (List.mem_of_getElem? hc) g hg⟩
    · rw [if_neg hlt]
      exact ⟨none, rfl, by simp, fun _ => rfl⟩

/-- A format has a declaration under every index below its size, and none under any other. -/
theorem IsTable.decl? (hw : a.WellFormed) {formats : NodeId} (h : a.IsTable formats)
    {count : Nat} (hcount : a.entryCount formats = .ok count) (format : Int) :
    ∃ size, a.formatSize formats format = .ok size ∧ (¬(0 ≤ format ∧ format < count) → size = 0) ∧
      ∀ i, ∃ decl, a.formatDecl? formats format i = .ok decl ∧
        (decl = none ↔ ¬(0 ≤ i ∧ i < size)) := by
  obtain ⟨n, hn, htag, hgroups⟩ := h
  have hnull : formats.isNull = false := hw.not_null (index_lt_of_get? hn)
  rw [entryCount, hnull, if_neg Bool.false_ne_true, slotCount_of_get? hn] at hcount
  obtain rfl := Except.ok.inj hcount
  obtain ⟨group, hgroup, hisgroup, hout⟩ := IsTable.format? hw hn htag hgroups format
  unfold formatSize formatDecl?
  rw [hgroup]
  cases group with
  | none => exact ⟨0, rfl, fun _ => rfl, fun i => ⟨none, rfl, by simp⟩⟩
  | some g =>
      obtain ⟨size, hsize, hdecl⟩ := (hisgroup g rfl).2.decl? hw
      refine ⟨size, hsize, fun h => ?_, hdecl⟩
      cases hout h

/-- The empty format declares nothing, whether or not the table has it. -/
theorem IsFormatTable.decl?_empty (hw : a.WellFormed) {formats : NodeId}
    (h : a.IsFormatTable formats) (i : Int) :
    a.formatDecl? formats Format.empty i = .ok none := by
  obtain ⟨n, hn, htag, hgroups, hempty⟩ := h
  have hnull : formats.isNull = false := hw.not_null (index_lt_of_get? hn)
  obtain ⟨group, hgroup, hisgroup, -⟩ := IsTable.format? hw hn htag hgroups Format.empty
  unfold formatDecl?
  rw [hgroup]
  cases group with
  | none => rfl
  | some g =>
      obtain ⟨hslot, hg⟩ := hisgroup g rfl
      obtain ⟨size, hsize, hdecl⟩ := hg.decl? hw
      obtain ⟨m, hm, -⟩ := hg
      have hzero : size = 0 := by
        rw [groupSize, slotCount_of_get? hm, Checked.ok_bind, hempty g hslot m hm] at hsize
        exact (Except.ok.inj hsize).symm
      obtain ⟨decl, hdecl, hiff⟩ := hdecl i
      rw [hzero] at hiff
      obtain rfl : decl = none := hiff.mpr (by omega)
      exact hdecl

/-- The parts of a procedure that declare something. -/
theorem IsProcedure.parts (hw : a.WellFormed) {p : NodeId} (h : a.IsProcedure p) :
    p.isNull = false ∧ ∃ params locals levels, a.progParams p = .ok params ∧ a.IsGroup params ∧
      a.progLocals p = .ok locals ∧ a.IsGroup locals ∧ a.progLevels p = .ok levels ∧
      ∃ l, a.get? levels = some l ∧ l.tag = .denv := by
  obtain ⟨n, hn, -, ⟨params, hparams, hisparams⟩, ⟨locals, hlocals, hislocals⟩, levels, hlevels,
    hislevels⟩ := h
  exact ⟨hw.not_null (index_lt_of_get? hn), params, locals, levels,
    child_of_get? hn (Node.mem_childAt?.mp hparams).1, hisparams,
    child_of_get? hn (Node.mem_childAt?.mp hlocals).1, hislocals,
    child_of_get? hn (Node.mem_childAt?.mp hlevels).1, hislevels⟩

/-- A procedure has a format for every level below the number of its levels, and for no other. -/
theorem IsProcedure.levelFormat? (hw : a.WellFormed) {p levels : NodeId} {count : Nat}
    (h : a.IsProcedure p) (hlevels : a.progLevels p = .ok levels)
    (hcount : a.entryCount levels = .ok count) (level : Int) :
    ∃ format, a.levelFormat? p level = .ok format ∧
      (format = none ↔ ¬(0 ≤ level ∧ level < count)) := by
  obtain ⟨-, -, -, levels', -, -, -, -, hlevels', l, hl, htag⟩ := h.parts hw
  obtain rfl : levels = levels' := Except.ok.inj (hlevels.symm.trans hlevels')
  have hnull : levels.isNull = false := hw.not_null (index_lt_of_get? hl)
  rw [entryCount, hnull, if_neg Bool.false_ne_true, slotCount_of_get? hl] at hcount
  obtain rfl := Except.ok.inj hcount
  unfold Arena.levelFormat?
  rw [hlevels, Checked.ok_bind]
  by_cases hneg : level < 0
  · exact ⟨none, by simp [hneg]; rfl, by simp; omega⟩
  · have hcond : (decide (level < 0) || levels.isNull) = false := by simp [hneg, hnull]
    rw [hcond, if_neg Bool.false_ne_true, slotCount_of_get? hl, Checked.ok_bind]
    by_cases hlt : level.toNat < l.slots.length
    · obtain ⟨v, hv⟩ := hw.int_at hl hlt (by rw [htag]; rfl) rfl
      rw [if_pos hlt, int_of_get? hl hv]
      exact ⟨some v, rfl, by simp; omega⟩
    · rw [if_neg hlt]
      exact ⟨none, rfl, by simp; omega⟩

end Arena

namespace Audit

open Arena

variable {a : Arena}

/-! ## Places that are reported -/

theorem mem_of_filterMapM {α β : Type} {f : α → Checked (Option β)} {xs : List α} {vs : List β}
    (h : xs.filterMapM f = .ok vs) :
    (∀ x ∈ xs, ∃ o, f x = .ok o) ∧ ∀ v, v ∈ vs ↔ ∃ x ∈ xs, f x = .ok (some v) := by
  induction xs generalizing vs with
  | nil =>
      cases h
      exact ⟨fun x hx => absurd hx List.not_mem_nil, by simp⟩
  | cons x xs ih =>
      rw [List.filterMapM_cons] at h
      obtain ⟨o, ho, h⟩ := Checked.bind_eq_ok.mp h
      cases o with
      | none =>
          obtain ⟨hall, hmem⟩ := ih h
          refine ⟨List.forall_mem_cons.mpr ⟨⟨none, ho⟩, hall⟩, fun v => ?_⟩
          simp [hmem, ho]
      | some w =>
          obtain ⟨rest, hrest, h⟩ := Checked.bind_eq_ok.mp h
          cases h
          obtain ⟨hall, hmem⟩ := ih hrest
          refine ⟨List.forall_mem_cons.mpr ⟨⟨some w, ho⟩, hall⟩, fun v => ?_⟩
          simp [hmem, ho, eq_comm]

/-- The report has a fault of the kind at the node. -/
def Report.Names (r : Report) (kind : FaultKind) (id : NodeId) : Prop :=
  ∃ f ∈ r.faults, f.kind = kind ∧ f.node = id

theorem faultAt?_ok {u : UnitContext} {s : Site NodeId} {o : Option Fault}
    (h : faultAt? u s = .ok o) : ∃ c kind, contextAt u s = .ok c ∧
      c.fault? s.node.label s.node.tag = .ok kind ∧
      o.map (fun f => (f.kind, f.node)) = kind.map fun k => (k, s.node.label) := by
  obtain ⟨c, hc, h⟩ := Checked.bind_eq_ok.mp h
  obtain ⟨kind, hkind, h⟩ := Checked.bind_eq_ok.mp h
  refine ⟨c, kind, hc, hkind, ?_⟩
  cases kind with
  | none =>
      cases h
      rfl
  | some k =>
      obtain ⟨text, -, h⟩ := Checked.bind_eq_ok.mp h
      cases h
      rfl

/-- A node is reported if the rule for its tag finds a fault in the context of its place. -/
theorem names_iff {u : UnitContext} {t : Tree NodeId} {r : Report} (hnd : t.labels.Nodup)
    (h : (t.postorder []).filterMapM (faultAt? u) = .ok r.faults) {s : Site NodeId}
    (hs : s ∈ t.postorder []) : ∃ c kind, contextAt u s = .ok c ∧
      c.fault? s.node.label s.node.tag = .ok kind ∧
      ∀ k, r.Names k s.node.label ↔ kind = some k := by
  obtain ⟨hall, hmem⟩ := mem_of_filterMapM h
  obtain ⟨o, ho⟩ := hall s hs
  obtain ⟨c, kind, hc, hkind, hmap⟩ := faultAt?_ok ho
  refine ⟨c, kind, hc, hkind, fun k => ⟨?_, ?_⟩⟩
  · rintro ⟨f, hf, rfl, hnode⟩
    obtain ⟨s', hs', hf'⟩ := (hmem f).mp hf
    -- no two places are of one node
    have hsame : s' = s := by
      obtain ⟨_, kind', -, -, hmap'⟩ := faultAt?_ok hf'
      have hplaces : ((t.postorder []).map (·.node.label)).Nodup :=
        (t.postorder_labels []).nodup_iff.mpr hnd
      refine List.inj_on_of_nodup_map hplaces hs' hs ?_
      cases kind' with
      | none => cases hmap'
      | some k => exact (Prod.mk.inj (Option.some.inj hmap')).2.symm.trans hnode
    rw [hsame, ho] at hf'
    obtain rfl := Except.ok.inj hf'
    cases kind with
    | none => cases hmap
    | some k => rw [(Prod.mk.inj (Option.some.inj hmap)).1]
  · rintro rfl
    cases o with
    | none => cases hmap
    | some f =>
        obtain ⟨hk, hnode⟩ := Prod.mk.inj (Option.some.inj hmap)
        exact ⟨f, (hmem f).mpr ⟨s, hs, ho⟩, hk, hnode⟩

/-- What an audit names at a place in a tree of definitions is what the rule finds there. -/
theorem names_of_audit {config : Config} {unit : NodeId} {r : Report} (hw : a.WellFormed)
    (defs : Option (Tree NodeId)) (hdefs : a.unitDefs unit = .ok (defs.elim .null Tree.label))
    (hstrict : ∀ t ∈ defs, t.In a ∧ t.labels.Nodup) (hrun : audit a config unit = .ok r)
    {s : Site NodeId} (hs : s ∈ defs.elim [] (Tree.postorder [])) :
    s.node.In a ∧ ∃ u c kind, UnitContext.ofUnit a config unit = .ok u ∧ contextAt u s = .ok c ∧
      c.fault? s.node.label s.node.tag = .ok kind ∧
      ∀ k, r.Names k s.node.label ↔ kind = some k := by
  obtain ⟨htag, u, id, hu, -⟩ := audit_ok hrun
  have harena : u.arena = a := (UnitContext.ofUnit_eq_ok.mp hu).1
  rw [audit_eq hw htag hu defs hdefs hstrict] at hrun
  cases defs with
  | none => exact absurd hs List.not_mem_nil
  | some t =>
      obtain ⟨ht, hnd⟩ := hstrict t rfl
      have hinside : Inside ⟨u, .ofUnit, none⟩ [] := ⟨rfl, rfl⟩
      have hfaults := faults_of_findings (by rwa [harena]) (by rwa [harena]) hinside hrun
      obtain ⟨c, kind, hc, hkind, hnames⟩ := names_iff hnd hfaults hs
      exact ⟨(ht.of_mem_postorder (by simp) hs).1, u, c, kind, hu, hc, hkind, hnames⟩

/-! ## The rules and the lookup -/

/-- The rule has found a bad reference exactly where the lookup finds no declaration. -/
def Agree (kind : Option FaultKind) (lookup : Checked (Option NodeId)) : Prop :=
  ∃ decl, lookup = .ok decl ∧ (kind = some .badRef ↔ decl = none)

/-- The rule and the lookup read the same number. -/
theorem Agree.read {x : Checked Int64} {rule : Int64 → Option FaultKind}
    {lookup : Int64 → Checked (Option NodeId)} {kind : Option FaultKind}
    (h : (x >>= fun v => .ok (rule v)) = .ok kind) (hagree : ∀ v, Agree (rule v) (lookup v)) :
    Agree kind (x >>= lookup) := by
  obtain ⟨v, hv, h⟩ := Checked.bind_eq_ok.mp h
  rw [hv]
  cases h
  exact hagree v

theorem bounded_eq_some_iff {v : Int64} {size : Nat} :
    Context.bounded v size = some .badRef ↔ ¬(0 ≤ v.toInt ∧ v.toInt < size) := by
  rw [Context.bounded, failing]
  split
  · next h => simpa using h
  · next h => simpa using h

theorem Agree.of_bound {lookup : Checked (Option NodeId)} {v : Int64} {size : Nat}
    (h : ∃ decl, lookup = .ok decl ∧ (decl = none ↔ ¬(0 ≤ v.toInt ∧ v.toInt < size))) :
    Agree (Context.bounded v size) lookup := by
  obtain ⟨decl, hdecl, hiff⟩ := h
  exact ⟨decl, hdecl, bounded_eq_some_iff.trans hiff.symm⟩

variable {c : Context} {p : Option (Tree NodeId)}

/-- A variable of the procedure is declared if its index is below the number that was counted.
Outside any procedure there is none. -/
theorem progDecl?_agree (hw : c.arena.WellFormed) {part : Arena → NodeId → Checked NodeId}
    {size : Nat} (hnone : p = none → size = 0)
    (hsome : ∀ t ∈ p, t.label.isNull = false ∧ ∃ group, part c.arena t.label = .ok group ∧
      c.arena.IsGroup group ∧ Frame.sizeOf c.arena group = .ok size) (v : Int64) :
    Agree (Context.bounded v size)
      (Scope.progDecl? ⟨p.elim .null Tree.label, c.formats⟩ c.arena part v.toInt) := by
  refine .of_bound ?_
  unfold Scope.progDecl?
  cases p with
  | none =>
      obtain rfl := hnone rfl
      exact ⟨none, rfl, by simp⟩
  | some t =>
      obtain ⟨hnull, group, hpart, hgroup, hsize⟩ := hsome t rfl
      obtain ⟨size', hsize', hdecl⟩ := hgroup.decl? hw
      obtain ⟨n, hn, -⟩ := hgroup
      have hgroupnull : group.isNull = false := hw.not_null (index_lt_of_get? hn)
      rw [Frame.sizeOf, hgroupnull, if_neg Bool.false_ne_true, hsize'] at hsize
      obtain rfl := Except.ok.inj hsize
      rw [Option.elim_some, hnull, if_neg Bool.false_ne_true, hpart]
      exact hdecl v.toInt

theorem local_agree (hw : c.arena.WellFormed) (hframe : Frame.ofProg? c.arena p = .ok c.frame)
    (hp : ∀ t ∈ p, c.arena.IsProcedure t.label) (v : Int64) :
    Agree (Context.bounded v c.frame.locals)
      (Scope.progDecl? ⟨p.elim .null Tree.label, c.formats⟩ c.arena progLocals v.toInt) := by
  refine progDecl?_agree hw ?_ ?_ v
  · rintro rfl
    rw [← Except.ok.inj hframe]
    rfl
  · rintro t rfl
    obtain ⟨hnull, -, locals, -, -, -, hlocals, hgroup, -⟩ := (hp t rfl).parts hw
    obtain ⟨-, -, locals', -, -, -, hlocals', hsize, -⟩ := Frame.ofProg_eq_ok.mp hframe
    obtain rfl : locals = locals' := Except.ok.inj (hlocals.symm.trans hlocals')
    exact ⟨hnull, locals, hlocals, hgroup, hsize⟩

theorem param_agree (hw : c.arena.WellFormed) (hframe : Frame.ofProg? c.arena p = .ok c.frame)
    (hp : ∀ t ∈ p, c.arena.IsProcedure t.label) (v : Int64) :
    Agree (Context.bounded v c.frame.params)
      (Scope.progDecl? ⟨p.elim .null Tree.label, c.formats⟩ c.arena progParams v.toInt) := by
  refine progDecl?_agree hw ?_ ?_ v
  · rintro rfl
    rw [← Except.ok.inj hframe]
    rfl
  · rintro t rfl
    obtain ⟨hnull, params, -, -, hparams, hgroup, -⟩ := (hp t rfl).parts hw
    obtain ⟨-, -, -, params', -, -, -, -, hparams', hsize⟩ := Frame.ofProg_eq_ok.mp hframe
    obtain rfl : params = params' := Except.ok.inj (hparams.symm.trans hparams')
    exact ⟨hnull, params, hparams, hgroup, hsize⟩

/-- A declaration of a format is declared if its index is below the size of the format. -/
theorem format_agree (hw : c.arena.WellFormed) (htable : c.arena.IsFormatTable c.formats)
    (hcount : c.arena.entryCount c.formats = .ok c.formatCount) {size : Nat} {format : Int}
    (hsize : c.arena.formatSize c.formats format = .ok size) (v : Int64) :
    Agree (Context.bounded v size) (c.arena.formatDecl? c.formats format v.toInt) := by
  obtain ⟨size', hsize', -, hdecl⟩ := htable.isTable.decl? hw hcount format
  obtain rfl : size' = size := Except.ok.inj (hsize'.symm.trans hsize)
  exact .of_bound (hdecl v.toInt)

/-- A format that the table has no entry for declares nothing. -/
theorem format_agree_of_not_hasFormat (hw : c.arena.WellFormed)
    (htable : c.arena.IsFormatTable c.formats)
    (hcount : c.arena.entryCount c.formats = .ok c.formatCount) {format : Int}
    (h : c.hasFormat format = false) (v : Int64) :
    Agree (some .badRef) (c.arena.formatDecl? c.formats format v.toInt) := by
  obtain ⟨size, -, hout, hdecl⟩ := htable.isTable.decl? hw hcount format
  obtain ⟨decl, hdecl, hiff⟩ := hdecl v.toInt
  refine ⟨decl, hdecl, ?_⟩
  have hzero : size = 0 := hout (by simpa [UnitContext.hasFormat] using h)
  rw [hiff, hzero]
  simp

/-- The declaration of a lexical reference is looked up in the format that the frame has for its
level. Outside any procedure that is the empty format, in which there is none. -/
theorem lex_lookup? (hw : c.arena.WellFormed) (htable : c.arena.IsFormatTable c.formats)
    (hframe : Frame.ofProg? c.arena p = .ok c.frame) (hp : ∀ t ∈ p, c.arena.IsProcedure t.label)
    {id : NodeId} {level i : Int64} (htag : c.arena.tag id = .ok .lex)
    (hlevel : c.arena.int id 0 = .ok level) (hi : c.arena.int id 1 = .ok i) :
    ∃ format, c.frame.levelFormat? c.arena level.toInt = .ok format ∧
      (format = none ↔ ¬(0 ≤ level.toInt ∧ level.toInt < c.frame.levels)) ∧
      Scope.lookup? ⟨p.elim .null Tree.label, c.formats⟩ c.arena id =
        format.elim (.ok none) fun f => c.arena.formatDecl? c.formats f i.toInt := by
  unfold Scope.lookup? Frame.levelFormat?
  rw [htag, hlevel, hi]
  cases p with
  | none =>
      have hframe : c.frame = .ofUnit := (Except.ok.inj hframe).symm
      rw [hframe]
      by_cases hzero : level.toInt = 0
      · refine ⟨some Format.empty, by rw [hzero]; rfl, by simp [hzero, Frame.ofUnit], ?_⟩
        exact (htable.decl?_empty hw i.toInt).symm
      · refine ⟨none, by rw [if_neg hzero]; rfl, ?_, rfl⟩
        simp [Frame.ofUnit]
        omega
  | some t =>
      obtain ⟨hprog, levels, -, -, hlevels, hcount, -⟩ := Frame.ofProg_eq_ok.mp hframe
      obtain ⟨hnull, -⟩ := (hp t rfl).parts hw
      obtain ⟨format, hformat, hiff⟩ := (hp t rfl).levelFormat? hw hlevels hcount level.toInt
      refine ⟨format.map Int64.toInt, ?_, by simp [hiff], ?_⟩
      · rw [hprog, hnull, if_neg Bool.false_ne_true, hformat]
        rfl
      · show (if t.label.isNull then pure none else c.arena.levelFormat? t.label level.toInt >>= _)
          = _
        rw [hnull, if_neg Bool.false_ne_true, hformat]
        cases format <;> rfl

/-- The rule for lexical references and the lookup agree. -/
theorem lex_agree (hw : c.arena.WellFormed) (htable : c.arena.IsFormatTable c.formats)
    (hcount : c.arena.entryCount c.formats = .ok c.formatCount)
    (hframe : Frame.ofProg? c.arena p = .ok c.frame) (hp : ∀ t ∈ p, c.arena.IsProcedure t.label)
    {id : NodeId} {n : Node} (hn : c.arena.get? id = some n) (htag : n.tag = .lex)
    {kind : Option FaultKind} (h : c.lexFault? id = .ok kind) :
    Agree kind (Scope.lookup? ⟨p.elim .null Tree.label, c.formats⟩ c.arena id) := by
  obtain ⟨level, hlevel, -⟩ := hw.int_answers hn (i := 0) (by rw [htag]; decide)
  obtain ⟨i, hi, -⟩ := hw.int_answers hn (i := 1) (by rw [htag]; decide)
  obtain ⟨format, hformat, hrange, hlookup⟩ :=
    lex_lookup? hw htable hframe hp (htag ▸ tag_of_get? hn) hlevel hi
  rw [hlookup]
  unfold Context.lexFault? at h
  simp only [hlevel, hi, hformat, Checked.ok_bind] at h
  cases format with
  | none =>
      have hout := hrange.mp rfl
      rw [if_pos (by simp; omega)] at h
      cases h
      exact ⟨none, rfl, by simp⟩
  | some f =>
      have hin : 0 ≤ level.toInt ∧ level.toInt < c.frame.levels := by simpa using hrange
      rw [if_neg (by simp; omega)] at h
      show Agree kind (c.arena.formatDecl? c.formats f i.toInt)
      cases hf : c.hasFormat f with
      | false =>
          simp only [hf] at h
          cases h
          exact format_agree_of_not_hasFormat hw htable hcount hf i
      | true =>
          simp only [hf, if_true] at h
          obtain ⟨size, hsize, h⟩ := Checked.bind_eq_ok.mp h
          cases h
          exact format_agree hw htable hcount hsize i

/-- The references whose rules count what is declared. -/
def countedTags : List Tag := [.lex, .loc, .par, .glo, .fluid, .const]

/-- The rules for references and the lookup agree. -/
theorem reference_agree (hw : c.arena.WellFormed) {config : Config} {unit : NodeId}
    (hu : UnitContext.ofUnit c.arena config unit = .ok c.toUnitContext)
    (htable : c.arena.IsFormatTable c.formats) (hframe : Frame.ofProg? c.arena p = .ok c.frame)
    (hp : ∀ t ∈ p, c.arena.IsProcedure t.label) {t : Tree NodeId} (ht : t.In c.arena)
    (htag : t.tag ∈ countedTags) {kind : Option FaultKind}
    (h : c.fault? t.label t.tag = .ok kind) :
    Agree kind (Scope.lookup? ⟨p.elim .null Tree.label, c.formats⟩ c.arena t.label) := by
  obtain ⟨-, -, -, hcount, hconsts, hglobals, hfluids⟩ := UnitContext.ofUnit_eq_ok.mp hu
  obtain ⟨n, hn, hntag, -⟩ := ht.node_eq
  simp only [countedTags, List.mem_cons, List.not_mem_nil, or_false] at htag
  rcases htag with htag | htag
  · rw [htag] at h hntag
    exact lex_agree hw htable hcount hframe hp hn hntag h
  · unfold Scope.lookup?
    rw [ht.tag_eq]
    rcases htag with htag | htag | htag | htag | htag
    all_goals rw [htag] at h ⊢
    · exact .read h (local_agree hw hframe hp)
    · exact .read h (param_agree hw hframe hp)
    · exact .read h (format_agree hw htable hcount hglobals)
    · exact .read h (format_agree hw htable hcount hfluids)
    · exact .read h (format_agree hw htable hcount hconsts)

/-- An element of an environment that is no bad reference is declared. -/
theorem envElement_declared (hw : c.arena.WellFormed) {config : Config} {unit : NodeId}
    (hu : UnitContext.ofUnit c.arena config unit = .ok c.toUnitContext)
    (htable : c.arena.IsFormatTable c.formats) {id : NodeId} (htag : c.arena.tag id = .ok .eelt)
    {kind : Option FaultKind} (h : c.envElementFault? id = .ok kind) (hkind : kind ≠ some .badRef)
    (prog : NodeId) :
    ∃ decl, Scope.lookup? ⟨prog, c.formats⟩ c.arena id = .ok (some decl) := by
  obtain ⟨-, -, -, hcount, -⟩ := UnitContext.ofUnit_eq_ok.mp hu
  unfold Context.envElementFault? at h
  obtain ⟨format, hformat, h⟩ := Checked.bind_eq_ok.mp h
  dsimp only at h
  split at h
  · obtain ⟨i, hi, h⟩ := Checked.bind_eq_ok.mp h
    obtain ⟨size, hsize, h⟩ := Checked.bind_eq_ok.mp h
    split at h
    · next hin =>
        obtain ⟨size', hsize', -, hdecl⟩ := htable.isTable.decl? hw hcount format.toInt
        obtain rfl : size' = size := Except.ok.inj (hsize'.symm.trans hsize)
        obtain ⟨decl, hdecl, hiff⟩ := hdecl i.toInt
        unfold Scope.lookup?
        rw [htag, hformat, hi]
        cases decl with
        | none => exact absurd hin (hiff.mp rfl)
        | some decl => exact ⟨decl, hdecl⟩
    · cases h
      exact absurd rfl hkind
  · cases h
    exact absurd rfl hkind

/-- In a unit whose groups and procedures are complete, an audit reports a reference as bad exactly
where its declaration cannot be looked up, for all references but the elements of environments. These
name a level besides, so that the audit may report more of them. -/
theorem audit_badRef_iff_lookup? {a : Arena} {config : Config} {unit formats : NodeId} {r : Report}
    (hw : a.WellFormed) (hformats : a.unitFormats unit = .ok formats)
    (htable : a.IsFormatTable formats) (defs : Option (Tree NodeId))
    (hdefs : a.unitDefs unit = .ok (defs.elim .null Tree.label))
    (hstrict : ∀ t ∈ defs, t.In a ∧ t.labels.Nodup)
    (hprogs : ∀ t ∈ defs, t.Every fun p => p.tag = .prog → a.IsProcedure p.label)
    (hrun : audit a config unit = .ok r) :
    ∀ s ∈ defs.elim [] (Tree.postorder []),
      (s.node.tag ∈ countedTags → ∃ decl,
        Scope.lookup? ⟨s.prog?.elim .null Tree.label, formats⟩ a s.node.label = .ok decl ∧
          (r.Names .badRef s.node.label ↔ decl = none)) ∧
      (s.node.tag = .eelt → ¬r.Names .badRef s.node.label → ∃ decl,
        Scope.lookup? ⟨s.prog?.elim .null Tree.label, formats⟩ a s.node.label = .ok (some decl)) := by
  intro s hs
  obtain ⟨hin, u, c, kind, hu, hc, hkind, hnames⟩ := names_of_audit hw defs hdefs hstrict hrun hs
  have hprog : ∀ p ∈ s.prog?, a.IsProcedure p.label := by
    cases defs with
    | none => exact absurd hs List.not_mem_nil
    | some t =>
        intro p hp
        have hmem : p ∈ s.around := List.mem_of_find?_eq_some hp
        have htag : p.tag = .prog := by simpa using List.find?_some hp
        exact ((hprogs t rfl).of_mem_postorder (by simp) hs).2 p hmem htag
  obtain ⟨rfl, -, hformats', -⟩ := UnitContext.ofUnit_eq_ok.mp hu
  obtain rfl : u.formats = formats := Except.ok.inj (hformats'.symm.trans hformats)
  obtain ⟨rfl, hframe, -⟩ := contextAt_eq_ok.mp hc
  constructor
  · intro htag
    obtain ⟨decl, hdecl, hiff⟩ := reference_agree hw hu htable hframe hprog hin htag hkind
    exact ⟨decl, hdecl, (hnames .badRef).trans hiff⟩
  · intro htag hnot
    rw [htag] at hkind
    refine envElement_declared hw hu htable (htag ▸ hin.tag_eq) hkind ?_ _
    exact fun h => hnot ((hnames .badRef).mpr h)

/-- In a procedure with one local variable and a level of a format with one field, the references to
these are looked up, and those that go beyond are reported. -/
theorem audit_badRef_of_local_and_level :
    let decl (x : String) : Node := .bare .decl [.int 5, .str x, .int 0, .int 4]
    let a : Arena := .ofRows [some (.bare .unit [.code ⟨1⟩, .code ⟨6⟩]),
      some (.bare .dfmt [.code ⟨2⟩, .code .null, .code .null, .code .null, .code ⟨4⟩, .code ⟨5⟩]),
      some (.bare .ddecl [.int 3, .code ⟨3⟩]), some (decl "g"), some (.bare .ddecl [.int 3]),
      some (.bare .ddecl [.int 3, .code ⟨13⟩]), some (.bare .ddef [.code ⟨7⟩]),
      some (.bare .defn [.code ⟨8⟩, .code ⟨9⟩]), some (.bare .glo [.int 0]),
      some (.bare .prog [.int 0, .int 0, .int 0, .int 0, .int 0, .int 0, .int 0, .int 0,
        .code ⟨10⟩, .code ⟨11⟩, .code .null, .code ⟨12⟩, .code ⟨15⟩]),
      some (.bare .ddecl [.int 3]), some (.bare .ddecl [.int 3, .code ⟨14⟩]),
      some (.bare .denv [.int 4, .int 5]), some (decl "f"), some (decl "v"),
      some (.bare .seq [.code ⟨16⟩, .code ⟨17⟩, .code ⟨18⟩, .code ⟨19⟩]),
      some (.bare .loc [.int 0]), some (.bare .loc [.int 1]), some (.bare .lex [.int 1, .int 0]),
      some (.bare .lex [.int 0, .int 0])] []
    let declAt (i : NodeId) (x : String) : Tree NodeId := .node i .decl
      [.leaf (.int 5), .leaf (.str x), .leaf (.int 0), .leaf (.int 4)]
    let prog : Tree NodeId := .node ⟨9⟩ .prog
      (List.replicate 8 (.leaf (.int 0)) ++ [.child (.node ⟨10⟩ .ddecl [.leaf (.int 3)]),
        .child (.node ⟨11⟩ .ddecl [.leaf (.int 3), .child (declAt ⟨14⟩ "v")]), .leaf (.code .null),
        .child (.node ⟨12⟩ .denv [.leaf (.int 4), .leaf (.int 5)]),
        .child (.node ⟨15⟩ .seq [.child (.node ⟨16⟩ .loc [.leaf (.int 0)]),
          .child (.node ⟨17⟩ .loc [.leaf (.int 1)]),
          .child (.node ⟨18⟩ .lex [.leaf (.int 1), .leaf (.int 0)]),
          .child (.node ⟨19⟩ .lex [.leaf (.int 0), .leaf (.int 0)])])])
    let defs : Option (Tree NodeId) := some (.node ⟨6⟩ .ddef [.child (.node ⟨7⟩ .defn
      [.child (.node ⟨8⟩ .glo [.leaf (.int 0)]), .child prog])])
    let r : Report := ⟨[⟨.badRef, ⟨17⟩, none, "(Loc 1)"⟩, ⟨.badRef, ⟨19⟩, none, "(Lex 0 0)"⟩], []⟩
    a.WellFormed ∧ a.unitFormats ⟨0⟩ = .ok ⟨1⟩ ∧ a.IsFormatTable ⟨1⟩ ∧
      a.unitDefs ⟨0⟩ = .ok (defs.elim .null Tree.label) ∧
      (∀ t ∈ defs, t.In a ∧ t.labels.Nodup) ∧
      (∀ t ∈ defs, t.Every fun p => p.tag = .prog → a.IsProcedure p.label) ∧
      audit a .standard ⟨0⟩ = .ok r ∧
      ∀ s ∈ defs.elim [] (Tree.postorder []),
        (s.node.tag ∈ countedTags → ∃ decl,
          Scope.lookup? ⟨s.prog?.elim .null Tree.label, ⟨1⟩⟩ a s.node.label = .ok decl ∧
            (r.Names .badRef s.node.label ↔ decl = none)) ∧
        (s.node.tag = .eelt → ¬r.Names .badRef s.node.label → ∃ decl,
          Scope.lookup? ⟨s.prog?.elim .null Tree.label, ⟨1⟩⟩ a s.node.label =
            .ok (some decl)) := by
  intro decl a declAt prog defs r
  have hw : a.WellFormed := by decide
  have hformats : a.unitFormats ⟨0⟩ = .ok ⟨1⟩ := by rfl
  have htable : a.IsFormatTable ⟨1⟩ := by decide
  have hdefs : a.unitDefs ⟨0⟩ = .ok (defs.elim .null Tree.label) := by rfl
  have hstrict : ∀ t ∈ defs, t.In a ∧ t.labels.Nodup := by
    intro t ht
    obtain rfl := Option.mem_some.mp ht
    decide
  have hprogs : ∀ t ∈ defs, t.Every fun p => p.tag = .prog → a.IsProcedure p.label := by
    intro t ht
    obtain rfl := Option.mem_some.mp ht
    decide
  have hrun : audit a .standard ⟨0⟩ = .ok r := by rfl
  exact ⟨hw, hformats, htable, hdefs, hstrict, hprogs, hrun,
    audit_badRef_iff_lookup? hw hformats htable defs hdefs hstrict hprogs hrun⟩

/-! ## Elements of records -/

/-- The rule for record elements looks at the format only. The element is declared if its field,
which no rule looks at, is below the size of the format. -/
theorem audit_recordElements {a : Arena} {config : Config} {unit formats : NodeId} {r : Report}
    (hw : a.WellFormed) (hformats : a.unitFormats unit = .ok formats) (htable : a.IsTable formats)
    (defs : Option (Tree NodeId)) (hdefs : a.unitDefs unit = .ok (defs.elim .null Tree.label))
    (hstrict : ∀ t ∈ defs, t.In a ∧ t.labels.Nodup) (hrun : audit a config unit = .ok r) :
    ∃ count, a.slotCount formats = .ok count ∧
      ∀ s ∈ defs.elim [] (Tree.postorder []), s.node.tag = .relt →
        ∃ format field size, a.int s.node.label 0 = .ok format ∧
          a.int s.node.label 2 = .ok field ∧ a.formatSize formats format.toInt = .ok size ∧
          (r.Names .badRef s.node.label ↔ ¬(0 ≤ format.toInt ∧ format.toInt < count)) ∧
          ∀ prog, ∃ decl, Scope.lookup? ⟨prog, formats⟩ a s.node.label = .ok decl ∧
            (decl = none ↔ ¬(0 ≤ field.toInt ∧ field.toInt < size)) := by
  have hlive := htable
  obtain ⟨n, hn, -⟩ := hlive
  have hnull : formats.isNull = false := hw.not_null (index_lt_of_get? hn)
  refine ⟨_, slotCount_of_get? hn, fun s hs htag => ?_⟩
  obtain ⟨hin, u, c, kind, hu, hc, hkind, hnames⟩ := names_of_audit hw defs hdefs hstrict hrun hs
  obtain ⟨rfl, -, hformats', hcount, -⟩ := UnitContext.ofUnit_eq_ok.mp hu
  obtain rfl : u.formats = formats := Except.ok.inj (hformats'.symm.trans hformats)
  obtain ⟨rfl, -, -⟩ := contextAt_eq_ok.mp hc
  have hslots := hcount
  rw [entryCount, hnull, if_neg Bool.false_ne_true, slotCount_of_get? hn] at hslots
  rw [htag] at hkind
  obtain ⟨format, hformat, hkind⟩ := Checked.bind_eq_ok.mp hkind
  obtain ⟨field, hfield, -⟩ := hin.int_answers hw (i := 2) (by rw [htag]; decide)
  obtain ⟨size, hsize, -, hdecl⟩ := htable.decl? hw hcount format.toInt
  refine ⟨format, field, size, hformat, hfield, hsize, ?_, fun prog => ?_⟩
  · cases hkind
    rw [hnames .badRef, Except.ok.inj hslots]
    exact bounded_eq_some_iff
  · unfold Scope.lookup?
    rw [hin.tag_eq, htag, hformat, hfield]
    exact hdecl field.toInt

/-- In the table there is one record format, of one field. The element with field one has no
declaration, and only the one with a format beyond the table is reported. -/
theorem audit_recordElements_of_one_field :
    let a : Arena := .ofRows [some (.bare .gdecl [.int 79, .str "r", .int 0, .int 6, .int 0, .int 0]),
      some (.bare .ddecl [.int 10, .code ⟨0⟩]), some (.bare .ddecl [.int 9]),
      some (.bare .ddecl [.int 0]), some (.bare .ddecl [.int 4]), some (.bare .ddecl [.int 0]),
      some (.bare .ddecl [.int 0]), some (.bare .decl [.int 5, .str "x", .int (-1), .int 4]),
      some (.bare .ddecl [.int 7, .code ⟨7⟩]), some (.bare .dfmt [.code ⟨1⟩, .code ⟨2⟩, .code ⟨3⟩,
        .code ⟨4⟩, .code ⟨5⟩, .code ⟨6⟩, .code ⟨8⟩]),
      some (.bare .glo [.int 0]), some (.bare .glo [.int 0]),
      some (.bare .relt [.int 6, .code ⟨11⟩, .int 0]), some (.bare .glo [.int 0]),
      some (.bare .relt [.int 6, .code ⟨13⟩, .int 1]), some (.bare .glo [.int 0]),
      some (.bare .relt [.int 7, .code ⟨15⟩, .int 0]),
      some (.bare .seq [.code ⟨12⟩, .code ⟨14⟩, .code ⟨16⟩]),
      some (.bare .defn [.code ⟨10⟩, .code ⟨17⟩]), some (.bare .ddef [.code ⟨18⟩]),
      some (.bare .unit [.code ⟨9⟩, .code ⟨19⟩])] []
    let glo (i : NodeId) : Field (Tree NodeId) := .child (.node i .glo [.leaf (.int 0)])
    let defs : Option (Tree NodeId) := some (.node ⟨19⟩ .ddef [.child (.node ⟨18⟩ .defn [glo ⟨10⟩,
      .child (.node ⟨17⟩ .seq [
        .child (.node ⟨12⟩ .relt [.leaf (.int 6), glo ⟨11⟩, .leaf (.int 0)]),
        .child (.node ⟨14⟩ .relt [.leaf (.int 6), glo ⟨13⟩, .leaf (.int 1)]),
        .child (.node ⟨16⟩ .relt [.leaf (.int 7), glo ⟨15⟩, .leaf (.int 0)])])])])
    let r : Report := ⟨[⟨.badRef, ⟨16⟩, none, "(RElt 7 (Glo 0) 0)"⟩], []⟩
    a.WellFormed ∧ a.unitFormats ⟨20⟩ = .ok ⟨9⟩ ∧ a.IsTable ⟨9⟩ ∧
      a.unitDefs ⟨20⟩ = .ok (defs.elim .null Tree.label) ∧
      (∀ t ∈ defs, t.In a ∧ t.labels.Nodup) ∧ audit a .standard ⟨20⟩ = .ok r ∧
      ∃ count, a.slotCount ⟨9⟩ = .ok count ∧
        ∀ s ∈ defs.elim [] (Tree.postorder []), s.node.tag = .relt →
          ∃ format field size, a.int s.node.label 0 = .ok format ∧
            a.int s.node.label 2 = .ok field ∧ a.formatSize ⟨9⟩ format.toInt = .ok size ∧
            (r.Names .badRef s.node.label ↔ ¬(0 ≤ format.toInt ∧ format.toInt < count)) ∧
            ∀ prog, ∃ decl, Scope.lookup? ⟨prog, ⟨9⟩⟩ a s.node.label = .ok decl ∧
              (decl = none ↔ ¬(0 ≤ field.toInt ∧ field.toInt < size)) := by
  intro a glo defs r
  have hw : a.WellFormed := by decide
  have hformats : a.unitFormats ⟨20⟩ = .ok ⟨9⟩ := by rfl
  have htable : a.IsTable ⟨9⟩ := by decide
  have hdefs : a.unitDefs ⟨20⟩ = .ok (defs.elim .null Tree.label) := by rfl
  have hstrict : ∀ t ∈ defs, t.In a ∧ t.labels.Nodup := by
    intro t ht
    obtain rfl := Option.mem_some.mp ht
    decide
  have hrun : audit a .standard ⟨20⟩ = .ok r := by rfl
  exact ⟨hw, hformats, htable, hdefs, hstrict, hrun,
    audit_recordElements hw hformats htable defs hdefs hstrict hrun⟩

/-- So a unit in which nothing is wrong by the rules, with a complete table, may have an element of
a record without a declaration. -/
theorem not_audit_recordElements_declared :
    ¬ ∀ (a : Arena) (config : Config) (unit formats : NodeId) (defs : Tree NodeId) (r : Report),
      a.WellFormed → a.unitFormats unit = .ok formats → a.IsTable formats →
      (∀ n ∈ a.get? formats, n.Complete) → a.unitDefs unit = .ok defs.label → defs.In a →
      defs.labels.Nodup → audit a config unit = .ok r → r.faults = [] →
      ∀ s ∈ defs.postorder [], s.node.tag = .relt →
        ∃ decl, Scope.lookup? ⟨s.prog?.elim .null Tree.label, formats⟩ a s.node.label =
          .ok (some decl) := by
  intro h
  let a : Arena := .ofRows [some (.bare .gdecl [.int 79, .str "r", .int 0, .int 6, .int 0, .int 0]),
    some (.bare .ddecl [.int 10, .code ⟨0⟩]), some (.bare .ddecl [.int 9]),
    some (.bare .ddecl [.int 0]), some (.bare .ddecl [.int 4]), some (.bare .ddecl [.int 0]),
    some (.bare .ddecl [.int 0]), some (.bare .decl [.int 5, .str "x", .int (-1), .int 4]),
    some (.bare .ddecl [.int 7, .code ⟨7⟩]), some (.bare .dfmt [.code ⟨1⟩, .code ⟨2⟩, .code ⟨3⟩,
      .code ⟨4⟩, .code ⟨5⟩, .code ⟨6⟩, .code ⟨8⟩]),
    some (.bare .glo [.int 0]), some (.bare .glo [.int 0]),
    some (.bare .relt [.int 6, .code ⟨11⟩, .int 1]), some (.bare .defn [.code ⟨10⟩, .code ⟨12⟩]),
    some (.bare .ddef [.code ⟨13⟩]), some (.bare .unit [.code ⟨9⟩, .code ⟨14⟩])] []
  let element : Tree NodeId := .node ⟨12⟩ .relt
    [.leaf (.int 6), .child (.node ⟨11⟩ .glo [.leaf (.int 0)]), .leaf (.int 1)]
  let defn : Tree NodeId := .node ⟨13⟩ .defn
    [.child (.node ⟨10⟩ .glo [.leaf (.int 0)]), .child element]
  let defs : Tree NodeId := .node ⟨14⟩ .ddef [.child defn]
  have hplace : (defs.postorder [])[2]? = some ⟨element, [defn, defs]⟩ := by rfl
  obtain ⟨decl, hdecl⟩ := h a .standard ⟨15⟩ ⟨9⟩ defs .clean (by decide) (by rfl) (by decide)
    (by decide) (by rfl) (by decide) (by decide) (by rfl) rfl _ (List.mem_of_getElem? hplace) rfl
  have hnone : Scope.lookup? ⟨.null, ⟨9⟩⟩ a ⟨12⟩ = .ok none := by rfl
  cases hdecl.symm.trans hnone

end Audit

end Foam
