import Foam.Proofs.Arena.Equal
import Foam.Proofs.Arena.Growth
import Foam.Proofs.Arena.Reach
import Foam.Proofs.Arena.Step
import Foam.Proofs.Arena.Walks
import Foam.Proofs.Sound

/-!
# Copying a tree

A copy is made node by node, children first, each node being looked up while the copies of others
are already there. What is copied is not touched by that, so each child is copied as if it were
alone, and a node that is reached on two paths is copied twice.

A tree in an arena and its copy have the same form. Node by node the copy has the notes of what it
was made from, so the nodes of the copy can be mapped back to the nodes of the original.
-/

namespace Foam

/-- The child in the slot, present or not, gives way to another. -/
def Slot.mapChild (f : NodeId → NodeId) : Slot → Slot
  | .code c => .code (f c)
  | s => s

namespace Arena

variable {a b c d : Arena} {t u : Tree NodeId} {fs : List (Field (Tree NodeId))}

/-! ## One node -/

/-- A node that has just been made can be changed into another that fits. -/
theorem Adds.modify {id : NodeId} {n : Node} {f : Node → Node} (h : Adds a id n b)
    (hf : (f n).Fits) : ∃ c, modifyNode id f b = .ok ((), c) ∧ Adds a id (f n) c := by
  refine ⟨_, modifyNode_of_get? h.here, ?_⟩
  constructor
  · exact h.fresh
  · exact h.not_null
  · rw [get?_write h.here, if_pos rfl]
  · intro x hx
    rw [get?_write h.here, if_neg hx]
    exact h.elsewhere x hx
  · exact modify_wellFormed h.wellFormed h.here hf
  · exact h.liveCount

/-- A new node is given a span and a symbol. -/
theorem push_noted {tag : Tag} {slots : List Slot} (hw : b.WellFormed) (hr : b.Room 1)
    (hfits : (Node.bare tag slots).Fits) (span : Span) (symbol : Option UInt32) :
    ∃ id c, (∀ {α : Type} (k : NodeId → ArenaM α), (do
        let new ← push tag slots
        setSpan new span
        setSymbol new symbol
        k new) b = k id c) ∧ Adds b id ⟨tag, slots, span, symbol, none⟩ c := by
  obtain ⟨id, b₁, hpush, h₁⟩ := push_adds hw hr hfits
  obtain ⟨b₂, hspan, h₂⟩ := h₁.modify (f := fun n => { n with span := span }) hfits
  obtain ⟨c, hsymbol, h₃⟩ := h₂.modify (f := fun n => { n with symbol := symbol }) hfits
  refine ⟨id, c, fun k => ?_, h₃⟩
  rw [ArenaM.bind_ok hpush, setSpan_eq, setSymbol_eq]
  exact (ArenaM.bind_ok hspan).trans (ArenaM.bind_ok hsymbol)

/-- What a copy within the arena keeps of optimizer info. -/
def keptInfo (n : Node) : Option UInt32 :=
  if n.tag ∈ [Tag.loc, .par, .lex, .glo] then none else n.optInfo

theorem isVarRef_iff {tag : Tag} :
    tag.isVarRef = true ↔ tag ∈ [Tag.loc, .par, .lex, .glo] := by
  cases tag <;> simp [Tag.isVarRef]

theorem copyHeader_adds {id : NodeId} {n : Node} {slots : List Slot} (hw : b.WellFormed)
    (hr : b.Room 1) (hn : b.get? id = some n) (hfits : (Node.bare n.tag slots).Fits) :
    ∃ new c, copyHeader id n.tag slots b = .ok (new, c) ∧
      Adds b new ⟨n.tag, slots, n.span, n.symbol, keptInfo n⟩ c := by
  have hnode : ((b.node id : Checked Node) : ArenaM Node) b = .ok (n, b) :=
    Checked.run_lift_eq_ok.mpr ⟨node_of_get? hn, rfl⟩
  obtain ⟨new, b₁, hrun, h₁⟩ := push_noted hw hr hfits n.span n.symbol
  have hheader : copyHeader id n.tag slots b =
      (do if !n.tag.isVarRef then setOptInfo new n.optInfo
          return new : ArenaM NodeId) b₁ := by
    rw [copyHeader, Checked.get_bind, ArenaM.bind_ok hnode]
    exact hrun _
  rw [hheader]
  cases hvar : n.tag.isVarRef with
  | true =>
      refine ⟨new, b₁, rfl, ?_⟩
      rwa [keptInfo, if_pos (isVarRef_iff.mp hvar)]
  | false =>
      have hout : n.tag ∉ [Tag.loc, .par, .lex, .glo] := by
        rw [← isVarRef_iff, hvar]
        exact Bool.false_ne_true
      obtain ⟨c, hinfo, h₂⟩ := h₁.modify (f := fun m => { m with optInfo := n.optInfo }) hfits
      rw [← setOptInfo_eq] at hinfo
      refine ⟨new, c, ArenaM.bind_ok hinfo, ?_⟩
      rwa [keptInfo, if_neg hout]

/-! ## What is copied -/

/-- Every node of `a` stands in `b` as well. -/
def Extends (a b : Arena) : Prop := ∀ x n, a.get? x = some n → b.get? x = some n

theorem Grows.toExtends {ts : List (Tree NodeId)} (h : Grows a ts b) : Extends a b :=
  fun _ _ hx => h.get?_eq_some hx

theorem Adds.toExtends {id : NodeId} {n : Node} (h : Adds a id n b) : Extends a b := by
  intro x m hx
  rw [h.elsewhere x, hx]
  rintro rfl
  rw [h.fresh] at hx
  cases hx

theorem Extends.trans (h : Extends a b) (h' : Extends b c) : Extends a c :=
  fun x n hx => h' x n (h x n hx)

theorem Extends.tree_in (h : Extends a b) (ht : t.In a) : t.In b := by
  apply ht.congr
  intro x hx
  obtain ⟨-, n, hn⟩ := Tree.mem_labels_live ht hx
  rw [hn, h x n hn]

variable {info : Node → Option UInt32}

/-- The node `y` of `c` has the notes of the node `x` of `a`, of the optimizer info what `info` leaves
of it. -/
def Noted (info : Node → Option UInt32) (a c : Arena) (x y : NodeId) : Prop :=
  ∃ m n, a.get? x = some m ∧ c.get? y = some n ∧ n.span = m.span ∧ n.symbol = m.symbol ∧
    n.optInfo = info m

theorem Noted.mono {x y : NodeId} (h : Noted info a c x y) (hc : Extends c d) :
    Noted info a d x y := by
  obtain ⟨m, n, hm, hn, hnotes⟩ := h
  exact ⟨m, n, hm, hc y n hn, hnotes⟩

/-- The run makes a copy of the tree `t` of `a` in every arena with room for it that extends `e`. -/
def Copies (info : Node → Option UInt32) (a e : Arena) (t : Tree NodeId) (x : ArenaM NodeId) :
    Prop :=
  ∀ b : Arena, b.WellFormed → b.Room t.size → Extends e b → ∃ (u : Tree NodeId) (c : Arena),
    x b = .ok (u.label, c) ∧ Grows b [u] c ∧ u.form = t.form ∧
      List.Forall₂ (Noted info a c) t.labels u.labels

/-! ## The slots of a node -/

/-- The copy of a slot, given that of a child. -/
def copySlot (child : NodeId → ArenaM NodeId) : Slot → ArenaM Slot
  | .code c => return .code (← child c)
  | s => return s

theorem copySlot_leaf {child : NodeId → ArenaM NodeId} (hnull : child .null = pure .null) {s : Slot}
    (hs : s.child? = none) : copySlot child s = pure s := by
  cases s with
  | code c =>
      rw [null_of_child? hs, copySlot, hnull]
      rfl
  | _ => rfl

theorem Grows.room {us : List (Tree NodeId)} {n k : Nat} (h : Grows b us c)
    (hsize : (us.flatMap Tree.labels).length = n) (hr : b.Room (n + k)) : c.Room k := by
  rwa [Room, h.liveCount, hsize, Nat.add_assoc]

/-- In a run over its slots, what is under a node is copied child by child. -/
theorem mapM_copies {child : NodeId → ArenaM NodeId} {e : Arena} (hnull : child .null = pure .null)
    (hleaf : ∀ s, .leaf s ∈ fs → s.child? = none)
    (hchild : ∀ t, .child t ∈ fs → Copies info a e t (child t.label)) (hw : b.WellFormed)
    (hr : b.Room (Tree.sizeAll fs)) (he : Extends e b) :
    ∃ (gs : List (Field (Tree NodeId))) (c : Arena),
      (fs.map Field.slot).mapM (copySlot child) b = .ok (gs.map Field.slot, c) ∧
      Grows b (Tree.subtrees gs) c ∧ (∀ s, .leaf s ∈ gs → s.child? = none) ∧
      gs.map (Field.map Tree.form) = fs.map (Field.map Tree.form) ∧
      List.Forall₂ (Noted info a c) ((Tree.subtrees fs).flatMap Tree.labels)
        ((Tree.subtrees gs).flatMap Tree.labels) := by
  induction fs generalizing b with
  | nil => exact ⟨[], b, rfl, .nil hw, fun _ h => absurd h List.not_mem_nil, rfl, .nil⟩
  | cons f fs ih =>
      have ih := fun {b : Arena} => @ih b (fun s hs => hleaf s (List.mem_cons_of_mem _ hs))
        (fun t ht => hchild t (List.mem_cons_of_mem _ ht))
      rw [List.map_cons, List.mapM_cons]
      cases f with
      | leaf s =>
          have hs : s.child? = none := hleaf s List.mem_cons_self
          obtain ⟨gs, c, hrun, hgrows, hleaf', hform, hnoted⟩ := ih hw hr he
          refine ⟨.leaf s :: gs, c, ?_, hgrows, ?_, ?_, hnoted⟩
          · rw [Field.slot, copySlot_leaf hnull hs, pure_bind]
            exact ArenaM.bind_ok hrun
          · intro r hr
            rcases List.mem_cons.mp hr with hr | hr
            · cases hr
              exact hs
            · exact hleaf' r hr
          · rw [List.map_cons, List.map_cons, hform]
      | child t =>
          have hrt : b.Room t.size := Nat.le_trans (Nat.add_le_add_left (Nat.le_add_right ..) _) hr
          obtain ⟨u, b₁, hu, hgrows₁, hform₁, hnoted₁⟩ :=
            hchild t List.mem_cons_self b hw hrt he
          have hsize : ([u].flatMap Tree.labels).length = t.size := by
            rw [List.flatMap_singleton, ← hnoted₁.length_eq, Tree.length_labels]
          obtain ⟨gs, c, hrun, hgrows, hleaf', hform, hnoted⟩ :=
            ih hgrows₁.wellFormed (hgrows₁.room hsize hr) (he.trans hgrows₁.toExtends)
          refine ⟨.child u :: gs, c, ?_, hgrows₁.append hgrows, ?_, ?_, ?_⟩
          · have hslot : copySlot child (.code t.label) b = .ok (.code u.label, b₁) :=
              ArenaM.bind_ok hu
            rw [Field.slot, ArenaM.bind_ok hslot]
            exact ArenaM.bind_ok hrun
          · intro r hr
            rcases List.mem_cons.mp hr with hr | hr
            · cases hr
            · exact hleaf' r hr
          · rw [List.map_cons, List.map_cons, hform, Field.map, Field.map, hform₁]
          · rw [Tree.subtrees_child, Tree.subtrees_child, List.flatMap_cons, List.flatMap_cons]
            -- what has been copied first keeps its notes while the rest is copied
            exact List.rel_append (hnoted₁.imp fun x y h => h.mono hgrows.toExtends) hnoted

/-- Fields of the same forms fit the tag where those of a tree in an arena do. -/
theorem bare_fits_of_forms {id : NodeId} {tag : Tag} {gs : List (Field (Tree NodeId))}
    (ha : a.WellFormed) (ht : (Tree.node id tag fs).In a)
    (hform : gs.map (Field.map Tree.form) = fs.map (Field.map Tree.form)) :
    (Node.bare tag (gs.map Field.slot)).Fits := by
  have htree : (Tree.node id tag gs).form = (Tree.node id tag fs).form := by
    rw [Tree.form_node, Tree.form_node, hform]
  have hfits : (Tree.node id tag gs).Fits := by
    apply (Tree.obeys_form _).mp
    rw [htree]
    exact (Tree.obeys_form _).mpr (ht.fits ha)
  obtain ⟨haccepts, hobeys, -⟩ := Tree.obeys_node.mp hfits
  exact Field.node_fits (fun _ _ h => h) haccepts hobeys

/-! ## The walk -/

/-- A walk that copies the slots of a node of `a` and then makes a node of them, one like that of
which it is the copy. Meanwhile the nodes of `e` stay. -/
structure CopyWalk (info : Node → Option UInt32) (a e : Arena)
    (walk : (depth : Nat) → NodeId → ArenaM NodeId)
    (make : NodeId → Node → List Slot → ArenaM NodeId) : Prop where
  null : ∀ depth, walk (depth + 1) .null = pure .null
  node : ∀ depth id n b, id.isNull = false → a.get? id = some n → Extends e b →
    walk (depth + 1) id b = (n.slots.mapM (copySlot (walk depth)) >>= make id n) b
  make : ∀ id n b slots, a.get? id = some n → Extends e b → b.WellFormed → b.Room 1 →
    (Node.bare n.tag slots).Fits → ∃ new c, make id n slots b = .ok (new, c) ∧
      Adds b new ⟨n.tag, slots, n.span, n.symbol, info n⟩ c

namespace CopyWalk

variable {e : Arena} {walk : (depth : Nat) → NodeId → ArenaM NodeId}
  {make : NodeId → Node → List Slot → ArenaM NodeId}

/-- A node is copied if each of its children is. -/
theorem node_copies (h : CopyWalk info a e walk make) (ha : a.WellFormed) {id : NodeId} {tag : Tag}
    (ht : (Tree.node id tag fs).In a) {depth : Nat} (hd : 0 < depth)
    (hchild : ∀ t, .child t ∈ fs → Copies info a e t (walk depth t.label)) :
    Copies info a e (.node id tag fs) (walk (depth + 1) id) := by
  intro b hw hr he
  obtain ⟨n, hn, rfl, hslots⟩ := ht.get?
  have hnull : walk depth .null = pure .null := by
    obtain ⟨d, rfl⟩ := Nat.exists_eq_add_of_lt hd
    rw [Nat.zero_add]
    exact h.null d
  have hrfs : b.Room (Tree.sizeAll fs) := Nat.le_trans (Nat.add_le_add_left (Nat.le_succ _) _) hr
  obtain ⟨gs, b₁, hrun, hgrows, hleaf, hform, hnoted⟩ :=
    mapM_copies hnull (fun s hs => ht.leaf hs) hchild hw hrfs he
  have hone : b₁.Room 1 :=
    hgrows.room (hnoted.length_eq.symm.trans (Tree.length_labelsAll fs)) hr
  obtain ⟨new, c, hnew, hadds⟩ := h.make id n b₁ _ hn (he.trans hgrows.toExtends)
    hgrows.wellFormed hone (bare_fits_of_forms ha ht hform)
  have hbelow : Grows b ([] ++ Tree.subtrees gs) b₁ := hgrows
  have hgrows' := hbelow.node hleaf hadds rfl
  refine ⟨.node new n.tag gs, c, ?_, hgrows', ?_, ?_⟩
  · rw [h.node depth id n b ht.label_not_null hn he, hslots, ArenaM.bind_ok hrun]
    exact hnew
  · rw [Tree.form_node, Tree.form_node, hform]
  · rw [Tree.labels_node, Tree.labels_node]
    exact .cons ⟨n, _, hn, hadds.here, rfl, rfl, rfl⟩
      (hnoted.imp fun x y h => h.mono hadds.toExtends)

theorem copies (h : CopyWalk info a e walk make) (ha : a.WellFormed) (ht : t.In a) {depth : Nat}
    (hd : t.height < depth) : Copies info a e t (walk depth t.label) := by
  induction t generalizing depth with
  | node id tag fs ih =>
      obtain ⟨d, rfl⟩ : ∃ d, depth = d + 1 := ⟨depth - 1, by omega⟩
      -- the depth that is left is enough for a null child too
      have hpos : 0 < d := (Nat.succ_pos _).trans_le (Nat.le_of_lt_succ hd)
      apply h.node_copies ha ht hpos
      intro t hmem
      apply ih t hmem (ht.child hmem)
      exact (Tree.height_lt id tag hmem).trans_le (Nat.le_of_lt_succ hd)

end CopyWalk

theorem copyFrom_walk (a : Arena) :
    CopyWalk keptInfo a a copyFrom fun id n => copyHeader id n.tag where
  null depth := by
    rw [copyFrom]
    rfl
  node depth id n b hid hn he := by
    have hnode : ((b.node id : Checked Node) : ArenaM Node) b = .ok (n, b) :=
      Checked.run_lift_eq_ok.mpr ⟨node_of_get? (he id n hn), rfl⟩
    rw [copyFrom, hid, if_neg Bool.false_ne_true, Checked.get_bind, ArenaM.bind_ok hnode]
    rfl
  make id n b slots hn he hw hr hfits := copyHeader_adds hw hr (he id n hn) hfits

theorem copyIntoFrom_walk (a : Arena) :
    CopyWalk (fun _ => none) a .empty (copyIntoFrom a) fun _ n slots => do
      let new ← push n.tag slots
      setSpan new n.span
      setSymbol new n.symbol
      return new where
  null depth := by
    rw [copyIntoFrom]
    rfl
  node depth id n b hid hn _ := by
    have hnode : ((a.node id : Checked Node) : ArenaM Node) b = .ok (n, b) :=
      Checked.run_lift_eq_ok.mpr ⟨node_of_get? hn, rfl⟩
    rw [copyIntoFrom, hid, if_neg Bool.false_ne_true, ArenaM.bind_ok hnode]
    rfl
  make id n b slots _ _ hw hr hfits := by
    obtain ⟨new, c, hrun, hadds⟩ := push_noted hw hr hfits n.span n.symbol
    exact ⟨new, c, hrun pure, hadds⟩

/-! ## Sources -/

theorem mapChild_leaf {g : NodeId → NodeId} (hnull : g .null = .null) {s : Slot}
    (hs : s.child? = none) : s.mapChild g = s := by
  cases s with
  | code c => rw [null_of_child? hs, Slot.mapChild, hnull]
  | _ => rfl

/-- Where a relabelled tree stands, the children of a node are the children of its new self under
their new labels. -/
theorem slots_of_map {g : NodeId → NodeId} (hnull : g .null = .null) (hu : u.In c)
    (hg : (u.map g).In a) {y : NodeId} (hy : y ∈ u.labels) :
    ∃ m n, a.get? (g y) = some m ∧ c.get? y = some n ∧ n.tag = m.tag ∧
      m.slots = n.slots.map (Slot.mapChild g) := by
  induction u with
  | node id tag fs ih =>
      rw [Tree.labels_node] at hy
      rcases List.mem_cons.mp hy with rfl | hy
      · rw [Tree.map_node] at hg
        obtain ⟨m, hm, hmtag, hmslots⟩ := hg.get?
        obtain ⟨n, hn, hntag, hnslots⟩ := hu.get?
        refine ⟨m, n, hm, hn, hntag.trans hmtag.symm, ?_⟩
        rw [hmslots, hnslots, List.map_map, List.map_map]
        apply List.map_congr_left
        intro f hf
        cases f with
        | leaf s => exact (mapChild_leaf hnull (hu.leaf hf)).symm
        | child t => exact congrArg Slot.code (Tree.label_map g t)
      · obtain ⟨t, ht, hy⟩ := List.mem_flatMap.mp hy
        have hchild : .child t ∈ fs := Tree.mem_subtrees.mp ht
        have hmap : .child (t.map g) ∈ fs.map (Field.map (Tree.map g)) :=
          Tree.child_mem_map.mpr ⟨t, hchild, rfl⟩
        rw [Tree.map_node] at hg
        exact ih t hchild (hu.child hchild) (hg.child hmap) hy

/-- Every node of a copy is made from a node of the original, child by child. -/
theorem exists_source (ht : t.In a) (hu : u.In c) (hnd : u.labels.Nodup) (hform : u.form = t.form)
    (hnoted : List.Forall₂ (Noted info a c) t.labels u.labels) :
    ∃ source : NodeId → NodeId, source u.label = t.label ∧ ∀ z ∈ u.labels, ∃ m n,
      a.get? (source z) = some m ∧ c.get? z = some n ∧ n.tag = m.tag ∧
      m.slots = n.slots.map (Slot.mapChild source) ∧ n.span = m.span ∧ n.symbol = m.symbol ∧
      n.optInfo = info m := by
  have hnull : NodeId.null ∉ u.labels := by
    intro hmem
    cases (Tree.mem_labels_live hu hmem).1
  have hlen : (NodeId.null :: u.labels).length = (NodeId.null :: t.labels).length :=
    congrArg Nat.succ hnoted.length_eq.symm
  have hinst : Nonempty NodeId := ⟨.null⟩
  obtain ⟨g, hg⟩ := exists_map_eq (List.nodup_cons.mpr ⟨hnull, hnd⟩) hlen
  obtain ⟨hgnull, hglabels⟩ := List.cons.inj hg
  have hmap : u.map g = t := by
    apply Tree.eq_of_form_of_labels
    · rw [Tree.form_map, hform]
    · rw [Tree.labels_map, hglabels]
  refine ⟨g, ?_, ?_⟩
  · rw [← hmap, Tree.label_map]
  · intro z hz
    obtain ⟨m, n, hm, hn, htag, hslots⟩ := slots_of_map hgnull hu (hmap ▸ ht) hz
    rw [← hglabels, List.forall₂_map_left_iff, List.forall₂_same] at hnoted
    obtain ⟨m', n', hm', hn', hnotes⟩ := hnoted z hz
    obtain rfl : m = m' := Option.some.inj (hm.symm.trans hm')
    obtain rfl : n = n' := Option.some.inj (hn.symm.trans hn')
    exact ⟨m, n, hm, hn, htag, hslots, hnotes⟩

/-! ## Deep copies -/

/-- From `b` to `c` a deep copy is made, with root `y`, of what is under `x` in `a`. Of the optimizer
info of a node its copy has what `info` says. -/
structure DeepCopy (info : Node → Option UInt32) (a : Arena) (x : NodeId) (b : Arena) (y : NodeId)
    (c : Arena) : Prop where
  /-- What is reached from the root of the copy is new, and no node of it is shared. -/
  separate : ∃ ids, c.StrictTree y ids ∧ ∀ z ∈ ids, b.contains z = false
  equal : a.equal x c y = .ok true
  /-- Every node of the copy is made from one of the original, and so are the nodes under it. -/
  source : ∃ source : NodeId → NodeId, source y = x ∧ ∀ z, c.Reaches y z → ∃ m n,
    a.get? (source z) = some m ∧ c.get? z = some n ∧ n.tag = m.tag ∧
    m.slots = n.slots.map (Slot.mapChild source) ∧ n.span = m.span ∧ n.symbol = m.symbol ∧
    n.optInfo = info m
  liveCount : ∃ n, a.nodeCount x = .ok n ∧ c.liveCount = b.liveCount + n
  kept : Extends b c
  freed : ∃ d, free y c = .ok ((), d) ∧ Restores b d

theorem deepCopy_of_grows (ha : a.WellFormed) (hb : b.WellFormed) (ht : t.In a) (hgrows : Grows b [u] c)
    (hform : u.form = t.form) (hnoted : List.Forall₂ (Noted info a c) t.labels u.labels) :
    DeepCopy info a t.label b u.label c := by
  have hu : u.In c := hgrows.placed u List.mem_cons_self
  have hlabels : [u].flatMap Tree.labels = u.labels := List.flatMap_singleton _ _
  have hnd : u.labels.Nodup := hlabels ▸ hgrows.nodup
  constructor
  · refine ⟨u.labels, hu.strictTree hnd, ?_⟩
    intro z hz
    exact hb.aligned.contains_of_fresh (hgrows.fresh z (hlabels ▸ hz))
  · exact equal_of_form ha hgrows.wellFormed ht hu hform.symm
  · obtain ⟨source, hroot, hsource⟩ := exists_source ht hu hnd hform hnoted
    exact ⟨source, hroot, fun z hz => hsource z (hu.mem_labels hz)⟩
  · refine ⟨t.size, nodeCount_eq ht, ?_⟩
    rw [hgrows.liveCount, hlabels, ← hnoted.length_eq, Tree.length_labels]
  · exact hgrows.toExtends
  · exact hgrows.free

/-- What is under a node, without a circle and without a dead id, is copied in full wherever there is
room for as many nodes as are counted in it. Within the arena the copy keeps the optimizer info of
what is no reference to a variable, and in another arena of nothing. -/
theorem copy_deepCopy {x : NodeId} (ha : a.WellFormed) (hacyclic : a.Acyclic x)
    (hlive : ∀ z, a.Reaches x z → ∃ n, a.get? z = some n)
    (hra : ∀ n, a.nodeCount x = .ok n → a.Room n) :
    (∃ y c, copy x a = .ok (y, c) ∧ DeepCopy keptInfo a x a y c ∧ c.equal x c y = .ok true) ∧
      ∀ b : Arena, b.WellFormed → (∀ n, a.nodeCount x = .ok n → b.Room n) →
        ∃ y c, copyInto a x b = .ok (y, c) ∧ DeepCopy (fun _ => none) a x b y c := by
  obtain ⟨t, ht, rfl⟩ := hacyclic.exists_in ha hlive
  have hheight : t.height < a.depthBound := ht.height_lt_depthBound
  constructor
  · have hdepth : t.height < a.depthBound * (a.slotTotal + 2) :=
      hheight.trans_le (Nat.le_mul_of_pos_right _ (Nat.succ_pos _))
    obtain ⟨u, c, hrun, hgrows, hform, hnoted⟩ :=
      (copyFrom_walk a).copies ha ht hdepth a ha (hra _ (nodeCount_eq ht)) fun _ _ h => h
    refine ⟨u.label, c, hrun, deepCopy_of_grows ha ha ht hgrows hform hnoted, ?_⟩
    exact equal_of_form hgrows.wellFormed hgrows.wellFormed (hgrows.toExtends.tree_in ht)
      (hgrows.placed u List.mem_cons_self) hform.symm
  · intro b hb hrb
    have hempty : Extends .empty b := by
      intro z n hz
      cases hz
    obtain ⟨u, c, hrun, hgrows, hform, hnoted⟩ :=
      (copyIntoFrom_walk a).copies ha ht hheight b hb (hrb _ (nodeCount_eq ht)) hempty
    exact ⟨u.label, c, hrun, deepCopy_of_grows ha hb ht hgrows hform hnoted⟩

/-- A sequence of one local variable twice, copied over a vacant row and into an arena that has a
node. -/
theorem copy_deepCopy_of_shared :
    let a : Arena := .ofRows [some ⟨.loc, [.int 2], ⟨1, 4⟩, some 7, some 3⟩, none,
      some ⟨.seq, [.code ⟨0⟩, .code .null, .code ⟨0⟩], ⟨0, 9⟩, none, some 5⟩] [⟨1⟩]
    let b : Arena := .ofRows [some (.bare .nil [])] []
    a.WellFormed ∧ b.WellFormed ∧ a.Acyclic ⟨2⟩ ∧
      (∀ z, a.Reaches ⟨2⟩ z → ∃ n, a.get? z = some n) ∧
      (∀ n, a.nodeCount ⟨2⟩ = .ok n → a.Room n) ∧ (∀ n, a.nodeCount ⟨2⟩ = .ok n → b.Room n) ∧
      (∃ y c, copy ⟨2⟩ a = .ok (y, c) ∧ DeepCopy keptInfo a ⟨2⟩ a y c ∧
        c.equal ⟨2⟩ c y = .ok true) ∧
      ∃ y c, copyInto a ⟨2⟩ b = .ok (y, c) ∧ DeepCopy (fun _ => none) a ⟨2⟩ b y c := by
  intro a b
  let loc : Tree NodeId := .node ⟨0⟩ .loc [.leaf (.int 2)]
  let t : Tree NodeId := .node ⟨2⟩ .seq [.child loc, .leaf (.code .null), .child loc]
  have ha : a.WellFormed := by decide
  have hb : b.WellFormed := by decide
  have ht : t.In a := by decide
  have hacyclic : a.Acyclic ⟨2⟩ := ht.acyclic
  have hlive : ∀ z, a.Reaches ⟨2⟩ z → ∃ n, a.get? z = some n := by
    intro z hz
    exact (Tree.mem_labels_live ht (ht.mem_labels hz)).2
  have hcount : ∀ n, a.nodeCount ⟨2⟩ = .ok n → n = 3 := by
    intro n hn
    exact Except.ok.inj (hn.symm.trans (nodeCount_eq ht))
  have hra : ∀ n, a.nodeCount ⟨2⟩ = .ok n → a.Room n := by
    intro n hn
    rw [hcount n hn]
    decide
  have hrb : ∀ n, a.nodeCount ⟨2⟩ = .ok n → b.Room n := by
    intro n hn
    rw [hcount n hn]
    decide
  obtain ⟨hcopy, hinto⟩ := copy_deepCopy ha hacyclic hlive hra
  exact ⟨ha, hb, hacyclic, hlive, hra, hrb, hcopy, hinto b hb hrb⟩

end Arena

end Foam
