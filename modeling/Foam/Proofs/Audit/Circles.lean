import Foam.Proofs.Arena.Reachable
import Foam.Proofs.Audit.Absent
import Foam.Proofs.Audit.Places

/-!
# Circles

A child can be set to any node, also to one that it lies below. An audit enters each node once all the
same, and where it comes to a node again it reports it. But the report shows the node as text, and a
text follows the children of children without an end if they run in a circle; so does the type of an
assignment that is its own right side.

So in a unit in which every child is present and has its role, the audit comes to an end if there is
no circle under the definitions, and then reports a node each time that it is reached but the first,
and it goes on for ever if there is one (`audit_ends_iff_acyclic`).
-/

namespace Foam

open Checked

/-! ## Computations that end on a condition -/

namespace Checked

variable {α β σ : Type} {p : Prop}

/-- The only thing that keeps the computation from returning is a circle, and `p` excludes that. -/
def EndsIf (p : Prop) (x : Checked α) : Prop := ∀ e, x = .error e → e = .cyclic ∧ ¬p

namespace EndsIf

variable {x : Checked α}

theorem ok (v : α) : EndsIf p (.ok v) := by
  rintro e ⟨⟩

theorem cyclic (h : ¬p) : EndsIf p (.error .cyclic : Checked α) := by
  rintro e ⟨⟩
  exact ⟨rfl, h⟩

theorem of_answers {P : α → Prop} (h : Answers P x) : EndsIf p x := by
  obtain ⟨v, rfl, -⟩ := h
  exact ok v

theorem bind {f : α → Checked β} (h : EndsIf p x) (hf : ∀ v, x = .ok v → EndsIf p (f v)) :
    EndsIf p (x >>= f) := by
  cases x with
  | error e =>
      rintro e' ⟨⟩
      exact h e rfl
  | ok v => exact hf v rfl

theorem mapM {f : α → Checked β} {vs : List α} (h : ∀ v ∈ vs, EndsIf p (f v)) :
    EndsIf p (vs.mapM f) := by
  induction vs with
  | nil => exact ok _
  | cons v vs ih =>
      rw [List.mapM_cons]
      refine (h v List.mem_cons_self).bind fun _ _ => ?_
      exact (ih fun w hw => h w (List.mem_cons_of_mem _ hw)).bind fun _ _ => ok _

theorem run_bind {y : StateT σ Checked α} {f : α → StateT σ Checked β} {s : σ} (h : EndsIf p (y s))
    (hf : ∀ v r, y s = .ok (v, r) → EndsIf p (f v r)) : EndsIf p ((y >>= f) s) :=
  bind h fun q hq => hf q.1 q.2 hq

theorem run_lift_bind {f : α → StateT σ Checked β} {s : σ} (h : EndsIf p x)
    (hf : ∀ v, x = .ok v → EndsIf p (f v s)) : EndsIf p (((x : StateT σ Checked α) >>= f) s) := by
  cases x with
  | error e =>
      rintro e' ⟨⟩
      exact h e rfl
  | ok v => exact hf v rfl

theorem forM {step : α → StateT σ Checked Unit} {vs : List α}
    (h : ∀ v ∈ vs, ∀ s, EndsIf p (step v s)) (s : σ) : EndsIf p (vs.forM step s) := by
  induction vs generalizing s with
  | nil => exact ok _
  | cons v vs ih =>
      refine run_bind (h v List.mem_cons_self s) fun _ r _ => ?_
      exact ih (fun w hw => h w (List.mem_cons_of_mem _ hw)) r

theorem returns (h : EndsIf p x) (hp : p) : ∃ v, x = .ok v := by
  cases x with
  | error e => exact absurd hp (h e rfl).2
  | ok v => exact ⟨v, rfl⟩

theorem eq_cyclic (h : EndsIf p x) (hx : ∀ v, x ≠ .ok v) : x = .error .cyclic := by
  cases x with
  | error e => rw [(h e rfl).1]
  | ok v => exact absurd rfl (hx v)

end EndsIf

end Checked

/-! ## Nodes with all their parts -/

/-- No slot is for a child. -/
def Layout.Childless (l : Layout) : Prop := .child ∉ l.fixed ∧ l.tail ≠ some .child

instance (l : Layout) : Decidable l.Childless := inferInstanceAs (Decidable (_ ∧ _))

theorem Layout.Childless.kindAt?_ne {l : Layout} (h : l.Childless) (i : Nat) :
    l.kindAt? i ≠ some .child := by
  intro hi
  rcases Option.or_eq_some_iff.mp hi with hi | ⟨-, hi⟩
  · exact h.1 (List.mem_of_getElem? hi)
  · exact h.2 hi

namespace Arena

/-- The parts of the node are all there, none of its children is absent or dead, and each has its
role. -/
def Whole (a : Arena) (x : NodeId) : Prop :=
  ∃ n ∈ a.get? x, n.tag.admitsCount n.slots.length = true ∧
    ∀ p ∈ n.slots.zipIdx, ∀ c ∈ p.1.code?, ∃ m ∈ a.get? c, n.tag.admits p.2 m.tag = true

instance (a : Arena) (x : NodeId) : Decidable (a.Whole x) :=
  inferInstanceAs (Decidable (∃ n ∈ a.get? x, n.tag.admitsCount n.slots.length = true ∧
    ∀ p ∈ n.slots.zipIdx, ∀ c ∈ p.1.code?, ∃ m ∈ a.get? c, n.tag.admits p.2 m.tag = true))

/-- All nodes that are reached have all their parts. -/
def WholeFrom (a : Arena) (x : NodeId) : Prop := ∀ y, a.Reaches x y → a.Whole y

variable {a : Arena} {x y c : NodeId} {n : Node} {i : Nat}

theorem Whole.count (h : a.Whole x) (hn : a.get? x = some n) :
    n.tag.admitsCount n.slots.length = true := by
  obtain ⟨m, hm, hcount, -⟩ := h
  rwa [← Option.some.inj (hm.symm.trans hn)]

theorem Whole.child (h : a.Whole x) (hn : a.get? x = some n) (hc : n.slots[i]? = some (.code c)) :
    ∃ m, a.get? c = some m ∧ n.tag.admits i m.tag = true := by
  obtain ⟨k, hk, -, hall⟩ := h
  obtain rfl : k = n := Option.some.inj (hk.symm.trans hn)
  exact hall (.code c, i) (List.mem_zipIdx_iff_getElem?.mpr hc) c rfl

theorem Whole.stands (h : a.Whole x) (hn : a.get? x = some n) :
    ∀ d, .code d ∈ n.slots → a.Stands d := by
  intro d hd
  obtain ⟨i, hi⟩ := List.mem_iff_getElem?.mp hd
  obtain ⟨m, hm, -⟩ := h.child hn hi
  exact .inr ⟨m, hm⟩

/-- Only a slot for a child holds an id. -/
theorem WellFormed.kindAt?_of_code (hw : a.WellFormed) (hn : a.get? x = some n)
    (hc : n.slots[i]? = some (.code c)) : n.tag.layout.kindAt? i = some .child := by
  obtain ⟨haccepts, -⟩ := hw.fits x n hn
  have hi : i < n.slots.length := (List.getElem?_eq_some_iff.mp hc).1
  have hlt : i < (n.tag.layout.kinds n.slots.length).length := by
    rwa [Layout.length_kinds haccepts]
  have hkind := Layout.getElem?_kinds haccepts hi
  rw [List.getElem?_eq_getElem hlt] at hkind
  rw [← hkind, ← beq_iff_eq.mp (hw.fits_at hn hc hkind.symm)]

/-- It is enough to look at nodes that no edge leaves. -/
theorem wholeFrom_of_edgeEnds {ids : List NodeId} (hids : ∀ y ∈ ids, a.Whole y)
    (hends : ∀ y ∈ a.edgeEnds ids, y ∈ ids) (hx : x ∈ ids) : a.WholeFrom x := by
  intro y hy
  exact hids y (hy.mem_of_edgeEnds hends hx)

namespace WholeFrom

theorem here (h : a.WholeFrom x) : a.Whole x := h x (.refl x)

theorem node (h : a.WholeFrom x) : ∃ n, a.get? x = some n := by
  obtain ⟨n, hn, -⟩ := h.here
  exact ⟨n, hn⟩

theorem of_mem (h : a.WholeFrom x) (hn : a.get? x = some n) (hc : c ∈ n.children) : a.WholeFrom c :=
  fun y hy => h y (.step hn hc hy)

/-- What is in a slot for a child is a child, from which again only whole nodes are reached. -/
theorem child (hw : a.WellFormed) (h : a.WholeFrom x) (hn : a.get? x = some n)
    (hc : n.slots[i]? = some (.code c)) :
    c ∈ n.children ∧ a.WholeFrom c ∧ ∃ m, a.get? c = some m ∧ n.tag.admits i m.tag = true := by
  obtain ⟨m, hm, hadmits⟩ := h.here.child hn hc
  have hmem : c ∈ n.children :=
    Node.mem_children.mpr ⟨List.mem_of_getElem? hc, hw.not_null (index_lt_of_get? hm)⟩
  exact ⟨hmem, h.of_mem hn hmem, m, hm, hadmits⟩

end WholeFrom

end Arena

open Arena

/-! ## Declarations run in no circle -/

theorem Tree.In.every_regular {a : Arena} {t : Tree NodeId} (ht : t.In a) (h : a.WholeFrom t.label) :
    t.Every Regular := by
  induction t with
  | node id tag fs ih =>
      obtain ⟨n, hn, rfl, hslots⟩ := ht.get?
      refine every_node.mpr ⟨⟨?_, ?_⟩, fun u hu => ?_⟩
      · have hcount := h.here.count hn
        rwa [hslots, List.length_map] at hcount
      · rintro ⟨f, i⟩ hf c hc
        cases f with
        | leaf s => cases hc
        | child u =>
            obtain rfl : u = c := Option.some.inj hc
            have hfield : fs[i]? = some (.child u) := List.mem_zipIdx_iff_getElem?.mp hf
            have hslot : n.slots[i]? = some (.code u.label) := by
              rw [hslots, List.getElem?_map, hfield]
              rfl
            obtain ⟨m, hm, hadmits⟩ := h.here.child hn hslot
            obtain ⟨k, hk, htag, -⟩ := (ht.child (List.mem_of_getElem? hfield)).node_eq
            obtain rfl : m = k := Option.some.inj (hm.symm.trans hk)
            rwa [htag] at hadmits
      · have hmem : u.label ∈ n.children := by
          rw [ht.children hn]
          exact List.mem_map_of_mem (mem_subtrees.mpr hu)
        exact ih u hu (ht.child hu) (h.of_mem hn hmem)

namespace Arena.WholeFrom

variable {a : Arena} {x : NodeId} {n : Node}

/-- A node whose children unfold to trees does so itself, and all is regular in its tree. -/
theorem is_over (hw : a.WellFormed) (h : a.WholeFrom x) (hn : a.get? x = some n)
    (hbelow : ∀ i c m, n.slots[i]? = some (.code c) → a.WholeFrom c → a.get? c = some m →
      n.tag.admits i m.tag = true → ∃ t : Tree NodeId, t.In a ∧ t.label = c) :
    a.Is (· = n.tag) x := by
  obtain ⟨t, ht, rfl⟩ : ∃ t : Tree NodeId, t.In a ∧ t.label = x := by
    refine exists_in_of_children hw hn fun c hc => ?_
    obtain ⟨i, hi⟩ := List.mem_iff_getElem?.mp (Node.mem_children.mp hc).1
    obtain ⟨-, hwhole, m, hm, hadmits⟩ := h.child hw hn hi
    exact hbelow i c m hi hwhole hm hadmits
  obtain ⟨m, hm, htag, -⟩ := ht.node_eq
  obtain rfl : m = n := Option.some.inj (hm.symm.trans hn)
  exact ⟨t, ht, ht.every_regular h, htag.symm, rfl⟩

/-- No child, no circle. -/
theorem is_of_childless (hw : a.WellFormed) (h : a.WholeFrom x) (hn : a.get? x = some n)
    (hchildless : n.tag.layout.Childless) : a.Is (· = n.tag) x :=
  h.is_over hw hn fun i _ _ hi _ _ _ =>
    absurd (hw.kindAt?_of_code hn hi) (hchildless.kindAt?_ne i)

theorem is_decl (hw : a.WellFormed) (h : a.WholeFrom x) (hn : a.get? x = some n)
    (htag : n.tag.Declares) : a.Is (· = n.tag) x := by
  refine h.is_of_childless hw hn ?_
  rcases htag with htag | htag
  · rw [htag]
    decide
  · rw [htag]
    decide

theorem is_group (hw : a.WellFormed) (h : a.WholeFrom x) (hn : a.get? x = some n)
    (htag : n.tag = .ddecl) : a.Is (· = .ddecl) x := by
  rw [← htag]
  refine h.is_over hw hn fun i c m _ hwhole hm hadmits => ?_
  rw [htag] at hadmits
  have hdeclares : m.tag.Declares := by simpa [Tag.admits, Tag.Declares] using hadmits
  obtain ⟨t, ht, -, -, hlabel⟩ := hwhole.is_decl hw hm hdeclares
  exact ⟨t, ht, hlabel⟩

theorem is_table (hw : a.WellFormed) (h : a.WholeFrom x) (hn : a.get? x = some n)
    (htag : n.tag = .dfmt) : a.Is (· = .dfmt) x := by
  rw [← htag]
  refine h.is_over hw hn fun i c m _ hwhole hm hadmits => ?_
  rw [htag] at hadmits
  obtain ⟨t, ht, -, -, hlabel⟩ := hwhole.is_group hw hm (beq_iff_eq.mp hadmits)
  exact ⟨t, ht, hlabel⟩

end Arena.WholeFrom

/-- Everything that a procedure declares is in its place. -/
structure Arena.WholeParts (a : Arena) (p : NodeId) : Prop where
  params : Answers (a.Is (· = .ddecl)) (a.progParams p)
  locals : Answers (a.Is (· = .ddecl)) (a.progLocals p)
  levels : Answers (a.Is (· = .denv)) (a.progLevels p)

namespace Arena

variable {a : Arena} {p : NodeId} {n : Node}

theorem WholeParts.hasParts (h : a.WholeParts p) : a.HasParts p where
  params := h.params.imp fun _ => .inr
  locals := h.locals.imp fun _ => .inr
  levels := h.levels.imp fun _ => .inr

theorem WholeFrom.wholeParts (hw : a.WellFormed) (h : a.WholeFrom p) (hn : a.get? p = some n)
    (htag : n.tag = .prog) : a.WholeParts p := by
  have hcount := h.here.count hn
  rw [htag, Tag.admitsCount, beq_iff_eq] at hcount
  have hpart : ∀ i < 13, n.tag.layout.kindAt? i = some .child → ∃ c m, a.child p i = .ok c ∧
      a.WholeFrom c ∧ a.get? c = some m ∧ Tag.admits .prog i m.tag = true := by
    intro i hi hkind
    obtain ⟨c, hc⟩ := hw.code_at hn (by omega) hkind
    obtain ⟨-, hwhole, m, hm, hadmits⟩ := h.child hw hn hc
    rw [htag] at hadmits
    exact ⟨c, m, child_of_get? hn hc, hwhole, hm, hadmits⟩
  have hgroup : ∀ i < 13, n.tag.layout.kindAt? i = some .child → Tag.admits .prog i = (· == .ddecl) →
      Answers (a.Is (· = .ddecl)) (a.child p i) := by
    intro i hi hkind hrole
    obtain ⟨c, m, hc, hwhole, hm, hadmits⟩ := hpart i hi hkind
    rw [hrole] at hadmits
    exact ⟨c, hc, hwhole.is_group hw hm (beq_iff_eq.mp hadmits)⟩
  refine ⟨hgroup 8 (by decide) (by rw [htag]; rfl) rfl,
    hgroup 9 (by decide) (by rw [htag]; rfl) rfl, ?_⟩
  obtain ⟨c, m, hc, hwhole, hm, hadmits⟩ := hpart 11 (by decide) (by rw [htag]; rfl)
  have hdenv : m.tag = .denv := beq_iff_eq.mp hadmits
  have his := hwhole.is_of_childless hw hm (by rw [hdenv]; decide)
  rw [hdenv] at his
  exact ⟨c, hc, his⟩

end Arena

/-! ## Texts and types -/

/-- If `p` holds, the id is that of a tree of less than the height. -/
def Arena.LowIf (a : Arena) (p : Prop) (height : Nat) (x : NodeId) : Prop :=
  p → ∃ t : Tree NodeId, t.In a ∧ t.label = x ∧ t.height < height

namespace Arena.LowIf

variable {a : Arena} {p : Prop} {depth : Nat} {x c : NodeId} {n : Node}

theorem not_of_zero (h : a.LowIf p 0 x) : ¬p := by
  intro hp
  obtain ⟨t, -, -, hlt⟩ := h hp
  exact absurd hlt (Nat.not_lt_zero _)

theorem child (h : a.LowIf p (depth + 1) x) (hn : a.get? x = some n) (hc : c ∈ n.children) :
    a.LowIf p depth c := by
  intro hp
  obtain ⟨⟨id, tag, fs⟩, ht, rfl, hlt⟩ := h hp
  rw [ht.children hn] at hc
  obtain ⟨u, hu, rfl⟩ := List.mem_map.mp hc
  have hchild : .child u ∈ fs := Tree.mem_subtrees.mp hu
  have hheight := Tree.height_lt id tag hchild
  exact ⟨u, ht.child hchild, rfl, by omega⟩

/-- Trees in an arena are low. -/
theorem depthBound (h : a.LowIf p depth x) : a.LowIf p a.depthBound x := by
  intro hp
  obtain ⟨t, ht, hlabel, -⟩ := h hp
  exact ⟨t, ht, hlabel, ht.height_lt_depthBound⟩

end Arena.LowIf

variable {a : Arena} {p : Prop} {x : NodeId} {n : Node}

theorem renderFrom_ends (hw : a.WellFormed) {depth : Nat} (h : a.WholeFrom x)
    (hlow : a.LowIf p depth x) : EndsIf p (SExpr.renderFrom a depth x) := by
  induction depth generalizing x with
  | zero => exact .cyclic hlow.not_of_zero
  | succ depth ih =>
      obtain ⟨n, hn⟩ := h.node
      rw [SExpr.renderFrom, hw.not_null (index_lt_of_get? hn), if_neg Bool.false_ne_true,
        node_of_get? hn, ok_bind]
      refine .bind (.mapM ?_) fun _ _ => .ok _
      rintro ⟨kind, s⟩ hs
      cases s with
      | code c =>
          have hslot : .code c ∈ n.slots := by
            rw [← Node.snd_fields (hw.fits x n hn).1]
            exact List.mem_map_of_mem (f := Prod.snd) hs
          obtain ⟨i, hi⟩ := List.mem_iff_getElem?.mp hslot
          obtain ⟨hmem, hwhole, -⟩ := h.child hw hn hi
          exact ih hwhole (hlow.child hn hmem)
      | _ => exact .ok _

/-- Writing out a node from which a circle is reached goes on for ever. -/
theorem renderFrom_eq_cyclic (hw : a.WellFormed) (h : a.WholeFrom x) (hcircle : ¬a.Acyclic x)
    (depth : Nat) : SExpr.renderFrom a depth x = .error .cyclic := by
  have hends : EndsIf False (SExpr.renderFrom a depth x) := renderFrom_ends hw h nofun
  refine hends.eq_cyclic fun text htext => hcircle ?_
  obtain ⟨n, hn⟩ := h.node
  obtain ⟨t, ht, rfl⟩ := exists_in_of_renderFrom hw (hw.not_null (index_lt_of_get? hn)) htext
  exact ht.acyclic

theorem ofFrom_ends {s : Scope} (hw : a.WellFormed) (hs : ∀ tag, s.Serves a tag) {depth : Nat}
    (h : a.WholeFrom x) (hheld : a.IndexesHeld s.formats x) (hlow : a.LowIf p depth x) :
    EndsIf p (ExprType.ofFrom a (s.lookup? a) depth x).run := by
  induction depth generalizing x with
  | zero => exact .cyclic hlow.not_of_zero
  | succ depth ih =>
      obtain ⟨n, hn⟩ := h.node
      rw [ExprType.ofFrom, tag_of_get? hn]
      show EndsIf p (if n.tag = .set ∨ n.tag = .defn then _ else _ : TypeM ExprType).run
      split
      · next hassigns =>
          have hright : n.tag.layout.HasChild 1 := by
            rcases hassigns with htag | htag
            · rw [htag]
              decide
            · rw [htag]
              decide
          obtain ⟨v, hv, hslot⟩ := hw.child_answers hn hright
          obtain ⟨hmem, hwhole, -⟩ := h.child hw hn hslot
          rw [show a.right x = .ok v from hv]
          exact ih hwhole (hheld.of_mem hn hmem) (hlow.child hn hmem)
      · exact .of_answers (ofTag_returns hw hn (hs n.tag) (hheld x (.refl x)))

namespace Audit

/-! ## The rules -/

/-- A context in which everything that is declared is in its place. -/
structure Context.Whole (c : Context) : Prop where
  wellFormed : c.arena.WellFormed
  formats : c.arena.MayBe (· = .dfmt) c.formats
  parts : ¬c.frame.prog.isNull = true → c.arena.WholeParts c.frame.prog

variable {c : Context}

namespace Context.Whole

theorem readable (h : c.Whole) : c.Readable where
  wellFormed := h.wellFormed
  formats := h.formats
  parts := fun hnull => (h.parts hnull).hasParts

theorem serves (h : c.Whole) (tag : Tag) : Scope.Serves ⟨c.frame.prog, c.formats⟩ c.arena tag where
  formats := h.formats
  parts := fun hnull => (h.parts hnull).hasParts
  locals := fun _ i => .ite (fun _ => .ok nofun) fun hnull =>
    (h.parts hnull).locals.bind fun _ hg => groupDecl?_answers h.wellFormed hg i
  params := fun _ i => .ite (fun _ => .ok nofun) fun hnull =>
    (h.parts hnull).params.bind fun _ hg => groupDecl?_answers h.wellFormed hg i

end Context.Whole

section

variable (h : c.Whole) (hx : c.arena.WholeFrom x) {depth : Nat} (hlow : c.arena.LowIf p depth x)

include h hx hlow

theorem render_ends : EndsIf p (c.arena.render x) :=
  renderFrom_ends h.wellFormed hx hlow.depthBound

theorem addFault_ends (kind : FaultKind) (s : State) : EndsIf p (addFault c x kind s) :=
  .run_lift_bind (render_ends h hx hlow) fun _ _ => .ok _

variable (hheld : c.arena.IndexesHeld c.formats x)

include hheld

theorem typeOf_ends : EndsIf p (c.typeOf x) :=
  ofFrom_ends h.wellFormed h.serves hx hheld hlow.depthBound

theorem castFault?_ends (hn : c.arena.get? x = some n) (htag : n.tag = .cast) :
    EndsIf p (c.castFault? x) := by
  rcases castFault?_returns_or h.readable hn (hx.here.stands hn) htag with hreturns |
    ⟨v, -, e, hv, -, -, -, htyped, hfault⟩
  · exact .of_answers hreturns
  · obtain ⟨hmem, hwhole, -⟩ := hx.child h.wellFormed hn ((child_eq_ok hn).mp hv)
    have htype : EndsIf p (c.typeOf v) :=
      typeOf_ends h hwhole (hlow.depthBound.child hn hmem) (hheld.of_mem hn hmem)
    rw [hfault]
    rintro e' ⟨⟩
    exact htype e htyped

/-- The rule for a node comes to an end, if there is no circle. -/
theorem fault?_ends (hn : c.arena.get? x = some n) : EndsIf p (c.fault? x n.tag) := by
  by_cases hcast : n.tag = .cast
  · rw [hcast]
    exact castFault?_ends h hx hlow hheld hn hcast
  · exact .of_answers
      (fault?_returns_of_ne h.readable hn (hx.here.stands hn) (hx.here.count hn) hcast)

theorem examine_ends (hoff : c.config.typeChecking = false) (hn : c.arena.get? x = some n)
    (s : State) : EndsIf p (examine c x n.tag s) := by
  refine .run_lift_bind (fault?_ends h hx hlow hheld hn) fun kind _ => ?_
  refine .run_bind (.forM (fun kind _ s => addFault_ends h hx hlow kind s) s) fun _ s' _ => ?_
  rw [hoff]
  exact .ok _

omit hlow hheld in
/-- Inside a node everything that is declared is in its place, too. -/
theorem enter_whole (hn : c.arena.get? x = some n) :
    Answers (fun inside => inside.Whole ∧ inside.toUnitContext = c.toUnitContext)
      (c.enter x n.tag) := by
  have hw : c.arena.WellFormed := h.wellFormed
  unfold Context.enter
  split
  · next htag =>
      have hparts : c.arena.WholeParts x := hx.wholeParts hw hn htag
      obtain ⟨frame, hframe, -⟩ := ofProg_returns hparts.hasParts
      obtain ⟨hprog, -⟩ := Frame.ofProg_eq_ok.mp hframe
      rw [hframe]
      refine .ok ⟨⟨hw, h.formats, fun _ => ?_⟩, rfl⟩
      show c.arena.WholeParts frame.prog
      rwa [hprog]
  · next htag =>
      obtain ⟨left, hleft, hslot⟩ := hw.child_answers hn (i := 0) (by rw [htag]; decide)
      obtain ⟨-, -, m, hm, -⟩ := hx.child hw hn hslot
      rw [show c.arena.left x = .ok left from hleft, ok_bind, tag_of_get? hm, ok_bind,
        hw.not_null (index_lt_of_get? hm), if_neg Bool.false_ne_true]
      refine .ite (fun hconst => ?_) fun _ => .ok ⟨h, rfl⟩
      refine (hw.int_answers hm (i := 0) (by rw [hconst]; decide)).bind fun v _ => ?_
      exact .ok ⟨⟨hw, h.formats, h.parts⟩, rfl⟩
  · exact .ok ⟨h, rfl⟩

/-! ## The walk -/

/-- Whatever was seen before, the walk comes to an end if there is no circle. -/
theorem visit_ends (hoff : c.config.typeChecking = false) (s : State) :
    EndsIf p (visit depth c x s) := by
  induction depth generalizing c x s with
  | zero => exact .cyclic hlow.not_of_zero
  | succ depth ih =>
      obtain ⟨n, hn⟩ := hx.node
      have hid : x.isNull = false := h.wellFormed.not_null (index_lt_of_get? hn)
      by_cases hseen : x ∈ s.visited
      · rw [visit_seen hid hseen]
        exact addFault_ends h hx hlow _ s
      · rw [visit_fresh hn hid hseen]
        obtain ⟨inside, hinside, hwhole, hunit⟩ := enter_whole h hx hn
        have harena : inside.arena = c.arena := congrArg UnitContext.arena hunit
        have hconfig : inside.config = c.config := congrArg UnitContext.config hunit
        have hformats : inside.formats = c.formats := congrArg UnitContext.formats hunit
        rw [hinside]
        have hbelow : ∀ y ∈ n.children, ∀ s, EndsIf p (visit depth inside y s) := by
          intro y hy s
          refine ih hwhole ?_ ?_ ?_ (by rwa [hconfig]) s
          · rw [harena]
            exact hx.of_mem hn hy
          · rw [harena]
            exact hlow.child hn hy
          · rw [harena, hformats]
            exact hheld.of_mem hn hy
        refine .run_lift_bind (.ok inside) ?_
        rintro _ ⟨⟩
        refine .run_bind (.forM hbelow _) fun _ s' _ => ?_
        rw [← harena] at hx hlow hn hheld
        exact examine_ends hwhole hx hlow (hformats ▸ hheld) (by rwa [hconfig]) hn s'

end

/-! ## Audits -/

theorem audit_ends {a : Arena} {unit formats defs : NodeId} {n : Node} (hw : a.WellFormed)
    (hwhole : a.WholeFrom unit) (hn : a.get? unit = some n) (htag : n.tag = .unit)
    (hformats : a.unitFormats unit = .ok formats) (hdefs : a.unitDefs unit = .ok defs)
    (hheld : a.IndexesHeld formats defs) :
    EndsIf (a.Acyclic defs) (audit a .standard unit) := by
  obtain ⟨-, hbelow, -⟩ := hwhole.child hw hn ((child_eq_ok hn).mp hdefs)
  have htable : a.MayBe (· = .dfmt) formats := by
    obtain ⟨-, hwhole, m, hm, hadmits⟩ := hwhole.child hw hn ((child_eq_ok hn).mp hformats)
    rw [htag] at hadmits
    exact .inr (hwhole.is_table hw hm (beq_iff_eq.mp hadmits))
  obtain ⟨u, hu, rfl, hconfig, rfl⟩ := ofUnit_answers hw hformats htable .standard
  have hcontext : (Context.mk u .ofUnit none).Whole := ⟨hw, htable, fun h => absurd rfl h⟩
  have hlow : u.arena.LowIf (u.arena.Acyclic defs) (u.arena.depthBound + 1) defs := by
    intro hacyclic
    obtain ⟨t, ht, hlabel⟩ := hacyclic.exists_in hw fun x hx =>
      WholeFrom.node fun y hy => hbelow y (hx.trans hy)
    exact ⟨t, ht, hlabel, Nat.lt_succ_of_lt ht.height_lt_depthBound⟩
  unfold audit
  rw [tag_of_get? hn, htag, ok_bind, if_pos rfl, hu, ok_bind, hdefs, ok_bind]
  refine .bind (visit_ends hcontext hbelow hlow hheld ?_ _) fun _ _ => .ok _
  show u.config.typeChecking = false
  rw [hconfig]
  rfl

theorem acyclic_of_audit {a : Arena} {config : Config} {unit defs : NodeId} {r : Report}
    (hw : a.WellFormed) (hdefs : a.unitDefs unit = .ok defs) (hnull : defs.isNull = false)
    (hrun : audit a config unit = .ok r) : a.Acyclic defs := by
  obtain ⟨u, top, s, -, rfl, hin, -⟩ := audit_follows hw hdefs hrun
  cases top with
  | none => cases hnull
  | some t => exact (hin t rfl).acyclic

/-- In a unit that has all its parts, and in which no index of a field overflows, the audit in the
standard configuration comes to an end if and only if no node under the definitions is below itself. If
it does, it reports a node as often as it
was reached after the first time. If it does not, the text of every node that a circle is reached
from has no end. -/
theorem audit_ends_iff_acyclic {a : Arena} {unit formats defs : NodeId} {n : Node}
    (hw : a.WellFormed) (hwhole : a.WholeFrom unit) (hn : a.get? unit = some n) (htag : n.tag = .unit)
    (hformats : a.unitFormats unit = .ok formats) (hdefs : a.unitDefs unit = .ok defs)
    (hheld : a.IndexesHeld formats defs) :
    (a.Acyclic defs → ∃ r ids, audit a .standard unit = .ok r ∧ ids.Nodup ∧
      (∀ x, x ∈ ids ↔ a.Reaches defs x) ∧
      ∀ x ∈ ids, r.sharings x + 1 = (defs :: a.edgeEnds ids).count x) ∧
    (¬a.Acyclic defs → audit a .standard unit = .error .cyclic ∧
      ∀ x, a.Reaches defs x → ¬a.Acyclic x → ∀ depth,
        SExpr.renderFrom a depth x = .error .cyclic) := by
  have hends := audit_ends hw hwhole hn htag hformats hdefs hheld
  obtain ⟨-, hbelow, m, hm, -⟩ := hwhole.child hw hn ((child_eq_ok hn).mp hdefs)
  have hnull : defs.isNull = false := hw.not_null (index_lt_of_get? hm)
  constructor
  · intro hacyclic
    obtain ⟨r, hrun⟩ := hends.returns hacyclic
    obtain ⟨u, top, s, -, rfl, hin, hfollows, rfl⟩ := audit_follows hw hdefs hrun
    cases top with
    | none => cases hnull
    | some t =>
        have ht : t.In a := hin t rfl
        have hagain : s.again = (t.walk [] []).again := hfollows.again
        have hedges : (t.walk [] []).Accounts a [] [t.label] := ht.walk_accounts
        refine ⟨_, (t.walk [] []).ids, hrun, hedges.nodup, ht.mem_walk_ids, fun x hx => ?_⟩
        have hcount := hedges.count_again x
        rw [List.count_eq_one_of_mem hedges.nodup hx, ← List.count_append] at hcount
        rw [sharings_eq, hagain, Nat.add_comm]
        exact hcount.symm
  · intro hcircle
    refine ⟨hends.eq_cyclic fun r hr => hcircle (acyclic_of_audit hw hdefs hnull hr), ?_⟩
    intro x hx hx' depth
    exact renderFrom_eq_cyclic hw (fun y hy => hbelow y (hx.trans hy)) hx' depth

/-- The same unit twice. Once the value of the definition has one child in two places, which is
reported, and once it is a cast of itself. -/
theorem audit_ends_iff_acyclic_of_shared_and_of_circle :
    let unitOf (value : Node) : Arena := .ofRows [
      some (.bare .gdecl [.int 8, .str "g", .int 0, .int 4, .int 0, .int 0]),
      some (.bare .ddecl [.int 10, .code ⟨0⟩]), some (.bare .dfmt [.code ⟨1⟩]),
      some (.bare .glo [.int 0]), some (.bare .nil []), some value,
      some (.bare .defn [.code ⟨3⟩, .code ⟨5⟩]), some (.bare .ddef [.code ⟨6⟩]),
      some (.bare .unit [.code ⟨2⟩, .code ⟨7⟩])] []
    let shared := unitOf (.bare .seq [.code ⟨4⟩, .code ⟨4⟩])
    let circle := unitOf (.bare .cast [.int 8, .code ⟨5⟩])
    (shared.WellFormed ∧ shared.WholeFrom ⟨8⟩ ∧ shared.unitFormats ⟨8⟩ = .ok ⟨2⟩ ∧
      shared.unitDefs ⟨8⟩ = .ok ⟨7⟩ ∧ shared.IndexesHeld ⟨2⟩ ⟨7⟩ ∧
      shared.Acyclic ⟨7⟩ ∧ ∃ r ids, audit shared .standard ⟨8⟩ = .ok r ∧ ids.Nodup ∧
        (∀ x, x ∈ ids ↔ shared.Reaches ⟨7⟩ x) ∧
        ∀ x ∈ ids, r.sharings x + 1 = (⟨7⟩ :: shared.edgeEnds ids).count x) ∧
    circle.WellFormed ∧ circle.WholeFrom ⟨8⟩ ∧ circle.unitFormats ⟨8⟩ = .ok ⟨2⟩ ∧
      circle.unitDefs ⟨8⟩ = .ok ⟨7⟩ ∧ circle.IndexesHeld ⟨2⟩ ⟨7⟩ ∧
      ¬circle.Acyclic ⟨7⟩ ∧ audit circle .standard ⟨8⟩ = .error .cyclic ∧
        ∀ x, circle.Reaches ⟨7⟩ x → ¬circle.Acyclic x → ∀ depth,
          SExpr.renderFrom circle depth x = .error .cyclic := by
  intro unitOf shared circle
  let nil : Field (Tree NodeId) := .child (.node ⟨4⟩ .nil [])
  let defs : Tree NodeId := .node ⟨7⟩ .ddef [.child (.node ⟨6⟩ .defn
    [.child (.node ⟨3⟩ .glo [.leaf (.int 0)]), .child (.node ⟨5⟩ .seq [nil, nil])])]
  have hin : defs.In shared := by decide
  have hacyclic : shared.Acyclic ⟨7⟩ := hin.acyclic
  let ids : List NodeId := (List.range 9).map fun i => ⟨UInt32.ofNat i⟩
  have hshared : shared.WholeFrom ⟨8⟩ :=
    wholeFrom_of_edgeEnds (show ∀ y ∈ ids, shared.Whole y by decide) (by decide) (by decide)
  have hcircle : circle.WholeFrom ⟨8⟩ :=
    wholeFrom_of_edgeEnds (show ∀ y ∈ ids, circle.Whole y by decide) (by decide) (by decide)
  have hreaches : circle.Reaches ⟨7⟩ ⟨5⟩ :=
    .step rfl (List.mem_singleton_self _) (.step rfl (by decide) (.refl _))
  have hnot : ¬circle.Acyclic ⟨7⟩ := fun h => h ⟨5⟩ _ hreaches rfl ⟨5⟩ (by decide) (.refl _)
  have hheld : shared.IndexesHeld ⟨2⟩ ⟨7⟩ :=
    indexesHeld_of_edgeEnds (show ∀ y ∈ ids, shared.tag y ≠ .ok .trelt by decide) (by decide)
      (by decide)
  have hheld' : circle.IndexesHeld ⟨2⟩ ⟨7⟩ :=
    indexesHeld_of_edgeEnds (show ∀ y ∈ ids, circle.tag y ≠ .ok .trelt by decide) (by decide)
      (by decide)
  have hw : shared.WellFormed := by decide
  have hw' : circle.WellFormed := by decide
  obtain ⟨hends, -⟩ := audit_ends_iff_acyclic hw hshared rfl rfl rfl rfl hheld
  obtain ⟨-, hcyclic⟩ := audit_ends_iff_acyclic hw' hcircle rfl rfl rfl rfl hheld'
  exact ⟨⟨hw, hshared, rfl, rfl, hheld, hacyclic, hends hacyclic⟩, hw', hcircle, rfl, rfl, hheld', hnot,
    hcyclic hnot⟩

/-- Pushing nodes and setting a child is all it takes. -/
theorem not_audit_returns_of_circle :
    ¬∀ (ops : List Operation) (a : Arena) (unit : NodeId),
      (∀ op ∈ ops, (∃ tag slots, op = .push tag slots) ∨ ∃ x i c, op = .setChild x i c) →
      ops.forM Operation.run .empty = .ok ((), a) → a.tag unit = .ok .unit → a.WholeFrom unit →
      ∃ r, audit a .standard unit = .ok r := by
  intro h
  let ops : List Operation := [
    .push .gdecl [.int 8, .str "g", .int 0, .int 4, .int 0, .int 0],
    .push .ddecl [.int 10, .code ⟨0⟩], .push .dfmt [.code ⟨1⟩], .push .glo [.int 0], .push .nil [],
    .push .cast [.int 8, .code ⟨4⟩], .push .defn [.code ⟨3⟩, .code ⟨5⟩], .push .ddef [.code ⟨6⟩],
    .push .unit [.code ⟨2⟩, .code ⟨7⟩], .setChild ⟨5⟩ 1 ⟨5⟩]
  let a : Arena := .ofRows [some (.bare .gdecl [.int 8, .str "g", .int 0, .int 4, .int 0, .int 0]),
    some (.bare .ddecl [.int 10, .code ⟨0⟩]), some (.bare .dfmt [.code ⟨1⟩]),
    some (.bare .glo [.int 0]), some (.bare .nil []), some (.bare .cast [.int 8, .code ⟨5⟩]),
    some (.bare .defn [.code ⟨3⟩, .code ⟨5⟩]), some (.bare .ddef [.code ⟨6⟩]),
    some (.bare .unit [.code ⟨2⟩, .code ⟨7⟩])] []
  have hops : ops.forM Operation.run .empty = .ok ((), a) := by rfl
  let ids : List NodeId := (List.range 9).map fun i => ⟨UInt32.ofNat i⟩
  have hwhole : a.WholeFrom ⟨8⟩ :=
    wholeFrom_of_edgeEnds (show ∀ y ∈ ids, a.Whole y by decide) (by decide) (by decide)
  have haudit : audit a .standard ⟨8⟩ = .error .cyclic := by rfl
  obtain ⟨r, hr⟩ := h ops a ⟨8⟩ (by simp [ops]) hops rfl hwhole
  cases haudit.symm.trans hr

end Audit

end Foam
