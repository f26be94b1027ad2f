import Foam.Proofs.Audit.Rules
import Foam.Proofs.SExpr.Text

/-!
# Audits before and after

An audit of the unit that comes back finds the same faults in the same order, and as many type
failures, if what the unit declares comes back as it was. The calls that stand for wide literals are
audited too, and nothing is found in them.
-/

namespace Foam

namespace Tree

/-- What a unit declares comes back as declarations: its formats and those of the procedures that it
defines. -/
def KeepsUnit {α : Type} (u : Tree α) : Prop :=
  (∀ f ∈ u.child? 0, ∀ g ∈ subtrees f.fields, g.Steady ∧ g.KeepsDecls) ∧
    ∀ d ∈ u.child? 1, d.Every fun p => p.tag = .prog → p.KeepsFrame

instance {α : Type} (u : Tree α) : Decidable u.KeepsUnit := inferInstanceAs (Decidable (_ ∧ _))

theorem nodup_of_child? {α : Type} {t c : Tree α} {i : Nat} (h : t.child? i = some c)
    (hnd : t.labels.Nodup) : c.labels.Nodup := by
  have hmem := mem_subtrees_of_child? h
  obtain ⟨l, tag, fs⟩ := t
  rw [labels_node] at hnd
  exact (List.nodup_flatMap.mp (List.nodup_cons.mp hnd).2).1 c hmem

end Tree

namespace Audit

open Foam.Tree Checked

variable {a b : Arena} {c c' : Context} {t u : Tree NodeId}

/-! ## Expressions on integers -/

theorem collect_clean {α : Type} {find : α → Checked Report} {xs : List α}
    (h : ∀ x ∈ xs, find x = .ok .clean) : collect find xs = .ok .clean := by
  induction xs with
  | nil => rfl
  | cons x xs ih =>
      rw [collect, h x List.mem_cons_self, ih fun y hy => h y (List.mem_cons_of_mem _ hy)]
      rfl

theorem operand_intExpr (hu : u.In c.arena) (h : u.IsIntExpr) :
    c.operand u.label = .ok (.ok (.plain .sint)) := by
  have htype : c.typeOf u.label = .ok (.ok (.plain .sint)) := ofFrom_intExpr hu h _ _
  unfold Context.operand
  rw [hu.label_not_null, if_neg Bool.false_ne_true, htype]
  rfl

theorem argCauses_intExpr (hu : u.In c.arena) (h : u.IsIntExpr) (op : Builtin) (i : Nat) :
    c.argCauses op i u.label .sint = .ok [] := by
  unfold Context.argCauses
  rw [operand_intExpr hu h]
  rfl

theorem mapM_nil_of_mem {α : Type} {f : α → Checked (List TypeCause)} {xs : List α}
    (h : ∀ x ∈ xs, f x = .ok []) : xs.mapM f = .ok (List.replicate xs.length []) := by
  induction xs with
  | nil => rfl
  | cons x xs ih =>
      rw [List.mapM_cons, h x List.mem_cons_self, ih fun y hy => h y (List.mem_cons_of_mem _ hy)]
      rfl

theorem builtinCauses_intExpr {l : NodeId} {op : Builtin} {args : List (Tree NodeId)}
    (hu : (node l .bcall (.leaf (Instr.row op) :: args.map .child)).In c.arena)
    (hop : Literal.IsIntOp op args.length) (hargs : ∀ t ∈ args, t.IsIntExpr) :
    c.builtinCauses l = .ok [] := by
  have hrow : c.arena.int l 0 = .ok (Int64.ofNat (Table.ordinal op)) := hu.int_eq rfl
  have hbuiltin : c.arena.callBuiltin? l = .ok (some op) := by
    rw [Arena.callBuiltin?, hrow]
    exact congrArg Except.ok (ofOrdinal?_row op)
  have hlabels : c.arena.builtinArgs l = .ok (args.map label) := by
    obtain ⟨n, hn, -, hslots⟩ := hu.get?
    rw [Arena.builtinArgs, Arena.childrenFrom_of_get? hn (by rw [hslots]; simp), hslots]
    simp [Field.slot, Slot.code?, List.filterMap_map, Function.comp_def]
  have hchild : ∀ t ∈ args, t.In c.arena := by
    intro t ht
    exact hu.child (List.mem_cons_of_mem _ (List.mem_map_of_mem ht))
  unfold Context.builtinCauses
  rw [hbuiltin, Checked.ok_bind]
  simp only [hlabels, Checked.ok_bind]
  rw [mapM_nil_of_mem, Checked.ok_bind, List.flatten_replicate_nil, List.append_nil,
    if_pos (by rw [List.length_map, hop.1, List.length_replicate])]
  · rfl
  · rintro ⟨⟨arg, param⟩, i⟩ hmem
    obtain ⟨harg, hparam⟩ := List.of_mem_zip (List.fst_mem_of_mem_zipIdx hmem)
    rw [hop.1] at hparam
    obtain rfl := List.eq_of_mem_replicate hparam
    obtain ⟨t, ht, rfl⟩ := List.mem_map.mp harg
    exact argCauses_intExpr (hchild t ht) (hargs t ht) op i

theorem findingsAt_clean {id : NodeId} {tag : Tag} (hfault : c.fault? id tag = .ok none)
    (hcauses : c.typeCauses id tag = .ok []) : findingsAt c id tag = .ok .clean := by
  have hfailures : failuresAt c id tag = .ok .clean := by
    unfold failuresAt
    rw [hcauses]
    split <;> rfl
  unfold findingsAt
  rw [hfault, hfailures]
  rfl

/-- Nothing is found in an expression on integers. -/
theorem findings_intExpr (hu : u.In c.arena) (h : u.IsIntExpr) : findings c u = .ok .clean := by
  induction h with
  | @sint l v =>
      have hhere : findingsAt c l .sint = .ok .clean := findingsAt_clean rfl rfl
      rw [findings_node, show c.enter l .sint = .ok c from rfl, Checked.ok_bind, hhere]
      rfl
  | @bcall l op args hop hargs ih =>
      have hhere : findingsAt c l .bcall = .ok .clean := by
        refine findingsAt_clean rfl ?_
        show (if c.config.enabled .bcall then c.builtinCauses l else pure []) = _
        split
        · exact builtinCauses_intExpr hu hop hargs
        · rfl
      have hbelow : collect (findings c) args = .ok .clean := by
        refine collect_clean fun t ht => ih t ht (hu.child ?_)
        exact List.mem_cons_of_mem _ (List.mem_map_of_mem ht)
      rw [findings_node, show c.enter l .bcall = .ok c from rfl, Checked.ok_bind, subtrees_leaf,
        subtrees_map_child, hbelow, hhere]
      rfl

/-! ## Walks -/

/-- What of a report does not depend on where the nodes stand: the kinds and constants of the faults
and the constants of the type failures, in their order. -/
def Report.outline (r : Report) : List (FaultKind × Option Int64) × List (Option Int64) :=
  (r.faults.map fun f => (f.kind, f.constNum), r.failures.map TypeFailure.constNum)

/-- Reports of the same outline. -/
def SameOutline (r r' : Report) : Prop := r'.outline = r.outline

theorem SameOutline.append {r r' s s' : Report} (h : SameOutline r r') (h' : SameOutline s s') :
    SameOutline (r.append s) (r'.append s') := by
  unfold SameOutline Report.outline Report.append at *
  simp_all

theorem SameOutline.isOk_eq {r r' : Report} (h : SameOutline r r') : r'.isOk = r.isOk := by
  obtain ⟨hfaults, hfailures⟩ := Prod.mk.inj h
  have hfaults := congrArg List.isEmpty hfaults
  have hfailures := congrArg List.isEmpty hfailures
  simp only [List.isEmpty_map] at hfaults hfailures
  rw [Report.isOk, Report.isOk, hfaults, hfailures]

theorem collect_sim {α β : Type} {R : α → β → Prop} {find : α → Checked Report}
    {find' : β → Checked Report} {xs : List α} {ys : List β} (h : List.Forall₂ R xs ys)
    (hfind : ∀ x y, x ∈ xs → R x y → Sim SameOutline (find x) (find' y)) :
    Sim SameOutline (collect find xs) (collect find' ys) := by
  induction h with
  | nil => exact .ok rfl
  | @cons x y xs ys hxy _ ih =>
      refine (hfind x y List.mem_cons_self hxy).bind fun r r' hr => ?_
      refine (ih fun x y hx => hfind x y (List.mem_cons_of_mem _ hx)).bind fun s s' hs => ?_
      exact .ok (hr.append hs)

theorem render_sim (hu : u.In b) (id : NodeId) :
    Sim (fun _ _ => True) (a.render id) (b.render u.label) := by
  intro text _
  exact ⟨_, Arena.render_eq hu, trivial⟩

theorem faultAt_sim (h : c.Alike c') (hu : u.In c'.arena) (id : NodeId) (kind : FaultKind) :
    Sim SameOutline (faultAt c id kind) (faultAt c' u.label kind) := by
  refine (render_sim hu id).bind fun _ _ _ => .ok ?_
  rw [SameOutline, Report.outline, Report.outline, h.constNum]
  rfl

theorem failureAt_sim (h : c.Alike c') (hu : u.In c'.arena) (id : NodeId) (cause cause' : TypeCause) :
    Sim SameOutline (failureAt c id cause) (failureAt c' u.label cause') := by
  refine (render_sim hu id).bind fun _ _ _ => .ok ?_
  rw [SameOutline, Report.outline, Report.outline, h.constNum]
  rfl

theorem findingsAt_sim (h : c.Alike c') (hw : c.arena.WellFormed)
    (ht : t.Recodes c.arena c'.arena u) (hwide : t.wide? = none) :
    Sim SameOutline (findingsAt c t.label t.tag) (findingsAt c' u.label u.tag) := by
  rw [(ht.node hw hwide).1]
  refine (fault?_sim h hw ht hwide).bind_eq fun kind => ?_
  refine Sim.bind (R := SameOutline) ?_ fun r r' hr => ?_
  · refine collect_sim (List.forall₂_same.mpr fun _ _ => rfl) ?_
    rintro kind _ _ rfl
    exact faultAt_sim h ht.target _ kind
  · refine Sim.bind (R := SameOutline) ?_ fun s s' hs => .ok (hr.append hs)
    unfold failuresAt
    refine .ite (by rw [h.config]) (fun _ => ?_) fun _ => .ok rfl
    refine (typeCauses_sim h hw ht hwide).bind fun causes causes' hcauses => ?_
    exact collect_sim hcauses fun cause cause' _ _ => failureAt_sim h ht.target _ cause cause'

theorem entryCount_sim (hw : a.WellFormed) {x y : NodeId} (h : Twin? a b (·.wide? = none) x y) :
    Sim Eq (a.entryCount x) (b.entryCount y) := by
  refine .ite (by rw [h.isNull_eq]) (fun _ => .ok rfl) fun hnull => ?_
  obtain ⟨t, u, ht, hwide, rfl, rfl⟩ := (h.of_not_null hnull).trees
  exact ht.slotCount_sim hw hwide

theorem sizeOf_sim (hw : a.WellFormed) {x y : NodeId} (h : Twin? a b (·.wide? = none) x y) :
    Sim Eq (Frame.sizeOf a x) (Frame.sizeOf b y) :=
  .ite (by rw [h.isNull_eq]) (fun _ => .ok rfl) fun hnull => groupSize_sim hw (h.of_not_null hnull)

theorem ofProg_sim (hw : a.WellFormed) (ht : t.Recodes a b u) (htag : t.tag = .prog)
    (hkeeps : t.KeepsFrame) :
    Sim (Frame.Alike a b) (Frame.ofProg a t.label) (Frame.ofProg b u.label) := by
  have hprog : Twin a b Tree.KeepsFrame t.label u.label := .intro ht hkeeps
  rw [Frame.ofProg_eq, Frame.ofProg_eq]
  refine (progLevels_sim hw hprog).bind fun l l' hl => ?_
  refine (entryCount_sim hw (hl.imp fun _ hl => hl.1)).bind_eq fun levels => ?_
  refine (progLocals_sim hw hprog).bind fun g g' hg => ?_
  refine (sizeOf_sim hw (hg.imp fun _ hg => hg.1)).bind_eq fun locals => ?_
  refine (progParams_sim hw hprog).bind fun g g' hg => ?_
  refine (sizeOf_sim hw (hg.imp fun _ hg => hg.1)).bind_eq fun params => ?_
  exact .ok ⟨.present ht ⟨htag, hkeeps⟩, rfl, rfl, rfl⟩

theorem enter_sim (h : c.Alike c') (hw : c.arena.WellFormed) (ht : t.Recodes c.arena c'.arena u)
    (hwide : t.wide? = none) (hkeeps : t.tag = .prog → t.KeepsFrame) :
    Sim (fun d d' => d.Alike d' ∧ d.arena = c.arena ∧ d'.arena = c'.arena) (c.enter t.label t.tag)
      (c'.enter u.label u.tag) := by
  rw [(ht.node hw hwide).1]
  unfold Context.enter
  cases htag : t.tag
  case prog =>
    refine (ofProg_sim hw ht htag (hkeeps htag)).bind fun f f' hf => .ok ⟨?_, rfl, rfl⟩
    exact { h with frame := hf }
  case defn =>
    refine (ht.child_sim hw 0).bind fun x y hxy => ?_
    refine .ite (by rw [hxy.isNull_eq]) (fun _ => .ok ⟨h, rfl, rfl⟩) fun hnull => ?_
    obtain ⟨l, m, hl, -, rfl, rfl⟩ := (hxy.of_not_null hnull).trees
    rw [hl.source.tag_eq, hl.target.tag_eq]
    refine .ite (hl.tag_iff hw (by decide) (by decide)) (fun hconst => ?_) fun _ =>
      .ok ⟨h, rfl, rfl⟩
    have hlwide : l.wide? = none := wide?_of_ne_sint (by rw [hconst]; decide)
    refine (hl.num_sim hw hlwide (by rw [hconst]; decide) 0).bind_eq fun v => .ok ⟨?_, rfl, rfl⟩
    exact { h with constNum := rfl }
  all_goals exact .ok ⟨h, rfl, rfl⟩

/-- In a tree and in what comes back of it the same is found. -/
theorem findings_sim (h : c.Alike c') (hw : c.arena.WellFormed) (ht : t.Recodes c.arena c'.arena u)
    (hkeeps : t.Every fun p => p.tag = .prog → p.KeepsFrame) :
    Sim SameOutline (findings c t) (findings c' u) := by
  induction t generalizing c c' u with
  | node id tag fs ih =>
      cases hwide : (node id tag fs).wide? with
      | some v =>
          obtain rfl : tag = .sint := tag_of_wide hwide
          obtain rfl : fs = [.leaf (.int v)] := fields_of_wide (ht.source.fits hw) hwide
          rw [findings_intExpr ht.source .sint, findings_intExpr ht.target (ht.of_wide hwide)]
          exact .ok rfl
      | none =>
          obtain ⟨id', tag', gs⟩ := u
          rw [findings_node, findings_node]
          refine (enter_sim h hw ht hwide hkeeps.here).bind ?_
          rintro d d' ⟨hd, harena, harena'⟩
          have ht' : (node id tag fs).Recodes d.arena d'.arena (node id' tag' gs) := by
            rwa [harena, harena']
          have hw' : d.arena.WellFormed := by rwa [harena]
          refine Sim.bind (collect_sim (ht'.subtrees_forall₂ hw' hwide) ?_) fun r r' hr => ?_
          · intro t u hmem htu
            have hchild : .child t ∈ fs := mem_subtrees.mp hmem
            exact ih t hchild hd hw' htu ((every_node.mp hkeeps).2 t hchild)
          · exact (findingsAt_sim hd hw' ht' hwide).bind fun s s' hs => .ok (hr.append hs)

/-! ## Audits -/

/-- A literal is no format table, as its slot is no child. -/
theorem not_wide_of_formatSize {f : Tree NodeId} (hw : a.WellFormed) (hf : f.In a) {n : Nat}
    (h : a.formatSize f.label Format.globals = .ok n) : f.wide? = none := by
  by_contra hne
  obtain ⟨v, hv⟩ := Option.ne_none_iff_exists'.mp hne
  have hfields := fields_of_wide (hf.fits hw) hv
  obtain ⟨g, hg, -⟩ := bind_eq_ok.mp h
  unfold Arena.format? at hg
  rw [hf.label_not_null, hf.slotCount_eq, hfields] at hg
  obtain ⟨x, hx, -⟩ := bind_eq_ok.mp (show (a.child f.label 0 >>= _) = _ from hg)
  rcases hf.of_child_ok hx with ⟨hslot, -⟩ | ⟨c, hslot, -⟩
  · rw [hfields] at hslot
    cases hslot
  · rw [hfields] at hslot
    cases hslot

theorem ofUnit_sim (hw : a.WellFormed) (ht : t.Recodes a b u) (hkeeps : t.KeepsUnit)
    (config : Config) :
    Sim (fun v w => v.arena = a ∧ w.arena = b ∧
        (Context.mk v .ofUnit none).Alike (Context.mk w .ofUnit none))
      (UnitContext.ofUnit a config t.label) (UnitContext.ofUnit b config u.label) := by
  intro v hv
  obtain ⟨rfl, rfl, hformats, hcount, hconsts, hglobals, hfluids⟩ := UnitContext.ofUnit_eq_ok.mp hv
  obtain ⟨formats, hformats', htwin⟩ := ht.child_sim hw 0 _ hformats
  have htwin : Twin? v.arena b Tree.KeepsFormats v.formats formats := by
    generalize v.formats = x at htwin hglobals
    cases htwin with
    | absent => exact .absent
    | present h hf => exact .present h ⟨not_wide_of_formatSize hw h.source hglobals, hkeeps.1 _ hf⟩
  obtain ⟨_, hcount', rfl⟩ := entryCount_sim hw (htwin.imp fun _ hf => hf.1) _ hcount
  obtain ⟨_, hconsts', rfl⟩ := formatSize_sim hw htwin _ _ hconsts
  obtain ⟨_, hglobals', rfl⟩ := formatSize_sim hw htwin _ _ hglobals
  obtain ⟨_, hfluids', rfl⟩ := formatSize_sim hw htwin _ _ hfluids
  refine ⟨{ v with arena := b, formats := formats }, UnitContext.ofUnit_eq_ok.mpr
    ⟨rfl, rfl, hformats', hcount', hconsts', hglobals', hfluids'⟩, rfl, rfl, ?_⟩
  exact ⟨rfl, htwin, rfl, rfl, rfl, rfl, ⟨.absent, rfl, rfl, rfl⟩, rfl⟩

/-- The audit of what comes back of a unit answers where that of the unit does, with a report of the
same outline. -/
theorem audit_sim (hw : a.WellFormed) (hw' : b.WellFormed) (ht : t.Recodes a b u)
    (hnd : t.labels.Nodup) (hnd' : u.labels.Nodup) (hkeeps : t.KeepsUnit) (config : Config) :
    Sim SameOutline (audit a config t.label) (audit b config u.label) := by
  intro r hr
  obtain ⟨htag, v, x, hv, hx⟩ := audit_ok hr
  have htag' : b.tag u.label = .ok .unit := by
    rw [ht.source.tag_eq] at htag
    rw [ht.target.tag_eq, (ht.tag_iff hw (by decide) (by decide)).mp (Except.ok.inj htag)]
  obtain ⟨w, hw'', harena, harena', halike⟩ := ofUnit_sim hw ht hkeeps config v hv
  rcases ht.of_child_ok hw hx with ⟨rfl, hy⟩ | ⟨d, d', hd, hd', hdd, rfl, hy⟩
  · rw [audit_eq hw htag hv none hx (by simp)] at hr
    cases hr
    exact ⟨.clean, audit_eq hw' htag' hw'' none hy (by simp), rfl⟩
  · have hin : ∀ s ∈ some d, s.In a ∧ s.labels.Nodup := by
      rintro _ ⟨⟩
      exact ⟨hdd.source, nodup_of_child? hd hnd⟩
    have hin' : ∀ s ∈ some d', s.In b ∧ s.labels.Nodup := by
      rintro _ ⟨⟩
      exact ⟨hdd.target, nodup_of_child? hd' hnd'⟩
    rw [audit_eq hw htag hv (some d) hx hin] at hr
    rw [audit_eq hw' htag' hw'' (some d') hy hin']
    subst harena harena'
    exact findings_sim halike hw hdd (hkeeps.2 d hd) r hr

/-- A unit whose declarations come back as declarations is audited, encoded and decoded. The audit of
what has been decoded answers, and finds faults of the same kinds in the definitions of the same
constants, and as many type failures in the definitions of the same constants, in the same order. -/
theorem audit_decoded {dst : Arena} {config : Config} {r : Report} {bytes : List UInt8}
    (hw : a.WellFormed) (ht : t.In a) (hnd : t.labels.Nodup) (htable : t.InTable)
    (hkeeps : t.KeepsUnit) (hbytes : Codec.encode a t.label = pure bytes)
    (hrun : audit a config t.label = .ok r) (hdst : dst.WellFormed)
    (hroom : dst.Room t.form.recoded.size) : ∃ (u : Tree NodeId) (dst' : Arena) (r' : Report),
      (Codec.decode.run.run (.ofList bytes)).run dst = .ok ((.ok u.label, .mid bytes []), dst') ∧
        u.In dst' ∧ audit dst' config u.label = .ok r' ∧
        (r'.faults.map fun f => (f.kind, f.constNum)) = (r.faults.map fun f => (f.kind, f.constNum)) ∧
        r'.failures.map TypeFailure.constNum = r.failures.map TypeFailure.constNum ∧
        r'.isOk = r.isOk := by
  obtain ⟨u, dst', hdecode, hform, hgrows⟩ :=
    Codec.decode_encode hw ht htable hbytes hdst hroom
  have hu : u.In dst' := hgrows.placed u List.mem_cons_self
  have hnd' : u.labels.Nodup := by simpa using hgrows.nodup
  obtain ⟨r', hrun', hsame⟩ :=
    audit_sim hw hgrows.wellFormed ⟨ht, hu, hform⟩ hnd hnd' hkeeps config r hrun
  obtain ⟨hfaults, hfailures⟩ := Prod.mk.inj hsame
  exact ⟨u, dst', r', hdecode, hu, hrun', hfaults, hfailures, hsame.isOk_eq⟩

/-- A literal outside 32 bits in a procedure, where it is assigned to a truth value. It comes back as a
call, and the constant and the assignment are found again. -/
theorem audit_decoded_wide_assignment :
    let a : Arena := .ofRows [some (.bare .sint [.int 1099511627776]), some (.bare .loc [.int 0]),
      some (.bare .set [.code ⟨1⟩, .code ⟨0⟩]),
      some (.bare .decl [.int 2, .str "b", .int 0, .int 4]),
      some (.bare .ddecl [.int 3, .code ⟨3⟩]), some (.bare .ddecl [.int 3]),
      some (.bare .dfluid []), some (.bare .denv []),
      some (.bare .prog [.int 9, .int 0, .int 0, .int 0, .int 0, .int 0, .int 0, .int 0,
        .code ⟨5⟩, .code ⟨4⟩, .code ⟨6⟩, .code ⟨7⟩, .code ⟨2⟩]), some (.bare .const [.int 0]),
      some (.bare .defn [.code ⟨9⟩, .code ⟨8⟩]), some (.bare .ddef [.code ⟨10⟩]),
      some (.bare .dfmt []), some (.bare .unit [.code ⟨12⟩, .code ⟨11⟩])] []
    let set : Tree NodeId := .node ⟨2⟩ .set [.child (.node ⟨1⟩ .loc [.leaf (.int 0)]),
      .child (.node ⟨0⟩ .sint [.leaf (.int 1099511627776)])]
    let locals : Tree NodeId := .node ⟨4⟩ .ddecl [.leaf (.int 3), .child (.node ⟨3⟩ .decl
      [.leaf (.int 2), .leaf (.str "b"), .leaf (.int 0), .leaf (.int 4)])]
    let prog : Tree NodeId := .node ⟨8⟩ .prog
      (.leaf (.int 9) :: List.replicate 7 (.leaf (.int 0)) ++
        [.child (.node ⟨5⟩ .ddecl [.leaf (.int 3)]), .child locals, .child (.node ⟨6⟩ .dfluid []),
          .child (.node ⟨7⟩ .denv []), .child set])
    let t : Tree NodeId := .node ⟨13⟩ .unit [.child (.node ⟨12⟩ .dfmt []),
      .child (.node ⟨11⟩ .ddef [.child (.node ⟨10⟩ .defn
        [.child (.node ⟨9⟩ .const [.leaf (.int 0)]), .child prog])])]
    let config : Config := ⟨true, fun _ => true⟩
    let bytes : List UInt8 := [39, 156, 194, 32, 137, 128, 13, 0, 0, 0, 69] ++ List.replicate 25 0 ++
      [191, 3, 230, 3, 92, 2, 1, 98, 0, 0, 0, 0, 4, 153, 154, 31, 134, 123, 3, 0, 119, 123, 3, 0, 114,
        5, 0, 0, 2, 0, 5, 0, 0, 0, 31, 5, 0, 0, 0, 0]
    ∃ r : Report, a.WellFormed ∧ t.In a ∧ t.labels.Nodup ∧ t.InTable ∧
      t.KeepsUnit ∧ Codec.encode a t.label = pure bytes ∧ audit a config t.label = .ok r ∧
      r.outline = ([(.badRef, some 0)], [some 0, some 0]) ∧
      Arena.empty.Room t.form.recoded.size ∧ ∃ (u : Tree NodeId) (dst' : Arena) (r' : Report),
        (Codec.decode.run.run (.ofList bytes)).run .empty =
            .ok ((.ok u.label, .mid bytes []), dst') ∧
          u.In dst' ∧ audit dst' config u.label = .ok r' ∧
          (r'.faults.map fun f => (f.kind, f.constNum)) =
            (r.faults.map fun f => (f.kind, f.constNum)) ∧
          r'.failures.map TypeFailure.constNum = r.failures.map TypeFailure.constNum ∧
          r'.isOk = r.isOk := by
  intro a set locals prog t config bytes
  have hw : a.WellFormed := by decide
  have ht : t.In a := by decide
  have hnd : t.labels.Nodup := by decide
  have htable : t.InTable := by decide
  have hkeeps : t.KeepsUnit := by decide
  have hbytes : (Codec.encode a t.label).run = .ok (.ok bytes) := by decide +kernel
  have hroom : Arena.empty.Room t.form.recoded.size := by decide +kernel
  have hrun : ∃ r, audit a config t.label = .ok r ∧
      r.outline = ([(.badRef, some 0)], [some 0, some 0]) := ⟨_, rfl, rfl⟩
  obtain ⟨r, hrun, hfound⟩ := hrun
  exact ⟨r, hw, ht, hnd, htable, hkeeps, hbytes, hrun, hfound, hroom,
    audit_decoded hw ht hnd htable hkeeps hbytes hrun Arena.empty_wellFormed hroom⟩

/-- The unit is a tree with ordinals in their tables that is audited with the one report, encoded,
decoded, and audited with the other. -/
def Reaudited (a : Arena) (t : Tree NodeId) (config : Config) (bytes : List UInt8)
    (r r' : Report) : Prop :=
  a.WellFormed ∧ t.In a ∧ t.labels.Nodup ∧ t.InTable ∧ Codec.encode a t.label = pure bytes ∧
    audit a config t.label = .ok r ∧ ∃ (u : NodeId) (dst : Arena),
      (Codec.decode.run.run (.ofList bytes)).run .empty = .ok ((.ok u, .mid bytes []), dst) ∧
        audit dst config u = .ok r'

theorem reaudited_of_run {config : Config} {bytes : List UInt8} {r r' : Report} (hw : a.WellFormed)
    (ht : t.In a) (hnd : t.labels.Nodup) (htable : t.InTable)
    (hbytes : Codec.encode a t.label = pure bytes) (hrun : audit a config t.label = .ok r)
    (hroom : Arena.empty.Room t.form.recoded.size)
    (hrun' : ((Codec.decode.run.run (.ofList bytes)).run .empty >>= fun p =>
      match p.1.1 with
      | .ok u => audit p.2 config u
      | .error _ => throw .notUnit) = .ok r') : Reaudited a t config bytes r r' := by
  obtain ⟨u, dst, hdecode, -, -⟩ :=
    Codec.decode_encode hw ht htable hbytes Arena.empty_wellFormed hroom
  rw [hdecode] at hrun'
  exact ⟨hw, ht, hnd, htable, hbytes, hrun, u.label, dst, hdecode, hrun'⟩

/-- Not every unit keeps its declarations. As a group of globals, a literal outside 32 bits is empty
and the call that comes back for it is not. As the declaration of a global, a procedure gives it the
type of which its length is the ordinal, and no length comes back. -/
theorem audit_decoded_lost_declarations :
    let literal : Tree NodeId := .node ⟨0⟩ .sint [.leaf (.int 1099511627776)]
    let nil (i : NodeId) : Tree NodeId := .node i .nil []
    let prog : Tree NodeId := .node ⟨5⟩ .prog (.leaf (.int 5) :: List.replicate 7 (.leaf (.int 0)) ++
      [.child (nil ⟨0⟩), .child (nil ⟨1⟩), .child (nil ⟨2⟩), .child (nil ⟨3⟩), .child (nil ⟨4⟩)])
    let global (i j k : NodeId) : Tree NodeId :=
      .node i .defn [.child (.node j .glo [.leaf (.int 0)]), .child (nil k)]
    Reaudited
        (.ofRows [some (.bare .sint [.int 1099511627776]), some (.bare .dfmt [.code ⟨0⟩]),
          some (.bare .glo [.int 0]), some (.bare .nil []), some (.bare .defn [.code ⟨2⟩, .code ⟨3⟩]),
          some (.bare .ddef [.code ⟨4⟩]), some (.bare .unit [.code ⟨1⟩, .code ⟨5⟩])] [])
        (.node ⟨6⟩ .unit [.child (.node ⟨1⟩ .dfmt [.child literal]),
          .child (.node ⟨5⟩ .ddef [.child (global ⟨4⟩ ⟨2⟩ ⟨3⟩)])])
        .standard
        [39, 195, 123, 3, 0, 119, 123, 3, 0, 114, 5, 0, 0, 2, 0, 5, 0, 0, 0, 31, 5, 0, 0, 0, 0, 194,
          32, 135, 0]
        ⟨[⟨.badRef, ⟨2⟩, none, "(Glo 0)"⟩], []⟩ .clean ∧
      Reaudited
        (.ofRows [some (.bare .nil []), some (.bare .nil []), some (.bare .nil []), some (.bare .nil []),
          some (.bare .nil []), some (.bare .prog [.int 5, .int 0, .int 0, .int 0, .int 0, .int 0,
            .int 0, .int 0, .code ⟨0⟩, .code ⟨1⟩, .code ⟨2⟩, .code ⟨3⟩, .code ⟨4⟩]),
          some (.bare .ddecl [.int 10, .code ⟨5⟩]), some (.bare .dfmt [.code ⟨6⟩]),
          some (.bare .glo [.int 0]), some (.bare .nil []), some (.bare .defn [.code ⟨8⟩, .code ⟨9⟩]),
          some (.bare .ddef [.code ⟨10⟩]), some (.bare .unit [.code ⟨7⟩, .code ⟨11⟩])] [])
        (.node ⟨12⟩ .unit
          [.child (.node ⟨7⟩ .dfmt [.child (.node ⟨6⟩ .ddecl [.leaf (.int 10), .child prog])]),
            .child (.node ⟨11⟩ .ddef [.child (global ⟨10⟩ ⟨8⟩ ⟨9⟩)])])
        ⟨true, fun _ => false⟩
        ([39, 195, 230, 10, 128, 13, 0, 0, 0, 34] ++ List.replicate 30 0 ++ [194, 32, 135, 0])
        ⟨[], [⟨⟨10⟩, none, .assigns .nil .sint, "(Def (Glo 0) (Nil))"⟩]⟩ .clean := by
  intro literal nil prog global
  constructor
  · exact reaudited_of_run (by decide) (by decide) (by decide) (by decide)
      (show (Codec.encode _ _).run = .ok (.ok _) by decide +kernel) rfl (by decide +kernel)
      (by decide +kernel)
  · exact reaudited_of_run (by decide) (by decide) (by decide) (by decide)
      (show (Codec.encode _ _).run = .ok (.ok _) by decide +kernel) rfl (by decide +kernel)
      (by decide +kernel)

end Audit

end Foam
