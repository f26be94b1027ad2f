import Foam.Proofs.Arena.Reach
import Foam.Proofs.Fields
import Foam.Typing

/-!
# Children in their roles

Instructions that hold declarations and formats say what their children are: the groups of a format
table are groups, and so on. Any child may be absent. In trees where every child that is present has
its role, what is looked up is found to be there or not, without a refusal, and an expression has a
type or an error, with three exceptions that `Resolves`, `assigned?` and `IndexHeld` leave out: a
local or parameter where the procedure lacks the group for it, an assignment without a right side, and
a field of an array element whose index overflows.
-/

namespace Foam

/-! ## Roles -/

namespace Tag

/-- Whether a child with the tag has the role that its parent gives it in the slot. -/
def admits : (parent : Tag) → (slot : Nat) → (child : Tag) → Bool
  | .unit, 0, t => t == .dfmt
  | .unit, 1, t => t == .ddef
  | .dfmt, _, t => t == .ddecl
  | .ddecl, _, t => t == .decl || t == .gdecl
  | .ddef, _, t => t == .defn
  | .prog, 8, t => t == .ddecl
  | .prog, 9, t => t == .ddecl
  | .prog, 10, t => t == .dfluid
  | .prog, 11, t => t == .denv
  | .prog, 12, t => t == .seq
  | _, _, _ => true

/-- A procedure has its five parts, and a call by protocol a slot for what is called. -/
def admitsCount : Tag → Nat → Bool
  | .prog, n => n == 13
  | .pcall, n => 3 ≤ n
  | _, _ => true

end Tag

namespace Tree

variable {α : Type}

/-- The children of the root that are present have their roles. -/
def Regular (t : Tree α) : Prop :=
  t.tag.admitsCount t.fields.length = true ∧
    ∀ p ∈ t.fields.zipIdx, ∀ c ∈ p.1.child?, t.tag.admits p.2 c.tag = true

instance (t : Tree α) : Decidable t.Regular := inferInstanceAs (Decidable (_ ∧ _))

theorem Regular.admits {t c : Tree α} {i : Nat} (h : t.Regular) (hc : t.child? i = some c) :
    t.tag.admits i c.tag = true := by
  obtain ⟨f, hf, hfc⟩ := Option.bind_eq_some_iff.mp hc
  exact h.2 (f, i) (List.mem_zipIdx_iff_getElem?.mpr hf) c hfc

theorem Every.child? {P : Tree α → Prop} {t c : Tree α} {i : Nat} (h : t.Every P)
    (hc : t.child? i = some c) : c.Every P := by
  obtain ⟨l, tag, fs⟩ := t
  exact (every_node.mp h).2 c (mem_subtrees.mp (mem_subtrees_of_child? hc))

end Tree

namespace Arena

/-- The id of a tree with a tag of the kind, in which all children have their roles. -/
def Is (a : Arena) (kind : Tag → Prop) (x : NodeId) : Prop :=
  ∃ t : Tree NodeId, t.In a ∧ t.Every Tree.Regular ∧ kind t.tag ∧ t.label = x

/-- The id of an absent child, or of such a tree. -/
def MayBe (a : Arena) (kind : Tag → Prop) (x : NodeId) : Prop := x = .null ∨ a.Is kind x

variable {a : Arena} {kind kind' : Tag → Prop} {x : NodeId}

theorem MayBe.of_not_null (h : a.MayBe kind x) (hx : ¬x.isNull = true) : a.Is kind x := by
  rcases h with rfl | h
  · exact absurd rfl hx
  · exact h

theorem MayBe.imp (h : a.MayBe kind x) (hkind : ∀ tag, kind tag → kind' tag) : a.MayBe kind' x := by
  rcases h with h | ⟨t, ht, hr, htag, hx⟩
  · exact .inl h
  · exact .inr ⟨t, ht, hr, hkind _ htag, hx⟩

theorem MayBe.present (h : a.MayBe kind x) : ∀ y ∈ Arena.present x, a.Is kind y := by
  intro y hy
  unfold Arena.present at hy
  split at hy
  · cases hy
  · next hx => exact Option.some.inj hy ▸ h.of_not_null hx

end Arena

namespace Arena

/-- The id of an absent child, or of any node. -/
def Stands (a : Arena) (x : NodeId) : Prop := x = .null ∨ ∃ n, a.get? x = some n

variable {a : Arena} {x : NodeId}

theorem Stands.of_not_null (h : a.Stands x) (hx : ¬x.isNull = true) : ∃ n, a.get? x = some n := by
  rcases h with rfl | h
  · exact absurd rfl hx
  · exact h

end Arena

open Checked

/-! ## Slots -/

/-- Every node with the layout has an integer in slot `i`. -/
def Layout.HasInt (l : Layout) (i : Nat) : Prop := ∃ k ∈ l.fixed[i]?, k.isIntegral = true

instance (l : Layout) (i : Nat) : Decidable (l.HasInt i) :=
  inferInstanceAs (Decidable (∃ k ∈ l.fixed[i]?, k.isIntegral = true))

/-- Every node with the layout has a child in slot `i`, present or not. -/
def Layout.HasChild (l : Layout) (i : Nat) : Prop := l.fixed[i]? = some .child

instance (l : Layout) (i : Nat) : Decidable (l.HasChild i) :=
  inferInstanceAs (Decidable (l.fixed[i]? = some .child))

namespace Arena

variable {a : Arena} {x : NodeId} {n : Node} {i : Nat} {k : FieldKind}

theorem tag_answers (hn : a.get? x = some n) : Returns (a.tag x) := ⟨_, tag_of_get? hn, trivial⟩

theorem slotCount_answers (hn : a.get? x = some n) : Returns (a.slotCount x) :=
  ⟨_, slotCount_of_get? hn, trivial⟩

namespace WellFormed

/-- What every node with the layout has, a node of the arena has. -/
theorem fixed_slot (hw : a.WellFormed) (hn : a.get? x = some n)
    (h : n.tag.layout.fixed[i]? = some k) :
    i < n.slots.length ∧ n.tag.layout.kindAt? i = some k := by
  have hi : i < n.tag.layout.minSlots := (List.getElem?_eq_some_iff.mp h).1
  refine ⟨?_, (Layout.kindAt?_fixed hi).trans h⟩
  have haccepts := (hw.fits x n hn).1
  unfold Layout.accepts at haccepts
  split at haccepts
  · exact Nat.lt_of_lt_of_le hi (of_decide_eq_true haccepts)
  · rw [beq_iff_eq] at haccepts
    exact haccepts ▸ hi

theorem int_answers (hw : a.WellFormed) (hn : a.get? x = some n) (h : n.tag.layout.HasInt i) :
    Returns (a.int x i) := by
  obtain ⟨k, hk, hint⟩ := h
  obtain ⟨hi, hkind⟩ := hw.fixed_slot hn hk
  obtain ⟨v, hv⟩ := hw.int_at hn hi hkind hint
  exact ⟨v, int_of_get? hn hv, trivial⟩

theorem child_answers (hw : a.WellFormed) (hn : a.get? x = some n)
    (h : n.tag.layout.HasChild i) :
    Answers (fun c => n.slots[i]? = some (.code c)) (a.child x i) := by
  obtain ⟨hi, hkind⟩ := hw.fixed_slot hn h
  obtain ⟨c, hc⟩ := hw.code_at hn hi hkind
  exact ⟨c, child_of_get? hn hc, hc⟩

end WellFormed

end Arena

namespace Tree

variable {a : Arena} {t : Tree NodeId} {i : Nat} {k : FieldKind}

theorem In.fixed_slot (hw : a.WellFormed) (ht : t.In a) (h : t.tag.layout.fixed[i]? = some k) :
    i < t.fields.length ∧ t.tag.layout.kindAt? i = some k := by
  obtain ⟨n, hn, htag, hslots⟩ := ht.node_eq
  rw [← htag] at h ⊢
  obtain ⟨hi, hkind⟩ := hw.fixed_slot hn h
  rw [hslots, List.length_map] at hi
  exact ⟨hi, hkind⟩

theorem In.tag_answers (ht : t.In a) : Returns (a.tag t.label) := ⟨_, ht.tag_eq, trivial⟩

theorem In.slotCount_answers (ht : t.In a) : Returns (a.slotCount t.label) :=
  ⟨_, ht.slotCount_eq, trivial⟩

theorem In.int_at_answers (hw : a.WellFormed) (ht : t.In a) (hi : i < t.fields.length)
    (hk : t.tag.layout.kindAt? i = some k) (hint : k.isIntegral = true) :
    Returns (a.int t.label i) := by
  obtain ⟨n, hn, htag, hslots⟩ := ht.node_eq
  obtain ⟨v, hv⟩ := hw.int_at hn (by rwa [hslots, List.length_map]) (by rwa [htag]) hint
  exact ⟨v, Arena.int_of_get? hn hv, trivial⟩

theorem In.int_answers (hw : a.WellFormed) (ht : t.In a) (h : t.tag.layout.HasInt i) :
    Returns (a.int t.label i) := by
  obtain ⟨n, hn, htag, -⟩ := ht.node_eq
  exact hw.int_answers hn (htag ▸ h)

theorem In.child_at_eq (hw : a.WellFormed) (ht : t.In a) (hi : i < t.fields.length)
    (hk : t.tag.layout.kindAt? i = some .child) :
    a.child t.label i = .ok ((t.child? i).elim .null label) := by
  obtain ⟨n, hn, htag, hslots⟩ := ht.node_eq
  obtain ⟨x, hx⟩ := hw.code_at hn (by rwa [hslots, List.length_map]) (by rwa [htag])
  have hread := Arena.child_of_get? hn hx
  rw [hread]
  rcases ht.of_child_ok hread with ⟨hf, rfl⟩ | ⟨c, hf, rfl⟩
  · rw [child?, hf]
    rfl
  · rw [child?, hf]
    rfl

theorem In.child_eq_elim (hw : a.WellFormed) (ht : t.In a) (h : t.tag.layout.HasChild i) :
    a.child t.label i = .ok ((t.child? i).elim .null label) := by
  obtain ⟨hi, hkind⟩ := ht.fixed_slot hw h
  exact ht.child_at_eq hw hi hkind

/-- No child of a tree is dead. -/
theorem In.stands {n : Node} (ht : t.In a) (hn : a.get? t.label = some n) :
    ∀ c, .code c ∈ n.slots → a.Stands c := by
  intro c hc
  cases hnull : c.isNull with
  | true => exact .inl (beq_iff_eq.mp hnull)
  | false =>
      obtain ⟨id, tag, fs⟩ := t
      have hmem : c ∈ n.children := Node.mem_children.mpr ⟨hc, hnull⟩
      rw [ht.children hn] at hmem
      obtain ⟨u, hu, rfl⟩ := List.mem_map.mp hmem
      obtain ⟨m, hm, -⟩ := (ht.child (mem_subtrees.mp hu)).node_eq
      exact .inr ⟨m, hm⟩

/-- A child is absent or has its role. -/
theorem In.mayBe_child (ht : t.In a) (hr : t.Every Regular) (i : Nat) :
    a.MayBe (fun tag => t.tag.admits i tag = true) ((t.child? i).elim .null label) := by
  cases hc : t.child? i with
  | none => exact .inl rfl
  | some c => exact .inr ⟨c, ht.of_child? hc, hr.child? hc, hr.here.admits hc, rfl⟩

end Tree

/-! ## Groups and formats -/

/-- Tags of declarations. -/
def Tag.Declares (tag : Tag) : Prop := tag = .decl ∨ tag = .gdecl

variable {a : Arena} {x : NodeId}

theorem groupSize_answers {kind : Tag → Prop} (h : a.Is kind x) : Returns (a.groupSize x) := by
  obtain ⟨g, hg, -, -, rfl⟩ := h
  exact hg.slotCount_answers.bind fun _ _ => .ok trivial

theorem groupDecl?_answers (hw : a.WellFormed) (h : a.Is (· = .ddecl) x) (i : Int) :
    Answers (fun d => ∀ y ∈ d, a.Is Tag.Declares y) (a.groupDecl? x i) := by
  obtain ⟨g, hg, hr, htag, rfl⟩ := h
  refine .ite (fun _ => .ok nofun) fun _ => ?_
  rw [Arena.groupSize, hg.slotCount_eq]
  refine .ite (fun hi => ?_) fun _ => .ok nofun
  have hchild := hg.child_at_eq hw (i := 1 + i.toNat) (by omega) (by rw [htag, Nat.add_comm]; rfl)
  rw [hchild]
  refine .ok (((hg.mayBe_child hr _).imp fun tag hadmits => ?_).present)
  rw [htag] at hadmits
  simpa [Tag.admits, Tag.Declares] using hadmits

theorem format?_answers (hw : a.WellFormed) (h : a.MayBe (· = .dfmt) x) (i : Int) :
    Answers (fun g => ∀ y ∈ g, a.Is (· = .ddecl) y) (a.format? x i) := by
  unfold Arena.format?
  refine .ite (fun _ => .ok nofun) fun hx => ?_
  rw [Bool.or_eq_true, not_or] at hx
  obtain ⟨f, hf, hr, htag, rfl⟩ := h.of_not_null hx.2
  rw [hf.slotCount_eq]
  refine .ite (fun hi => ?_) fun _ => .ok nofun
  rw [hf.child_at_eq hw hi (by rw [htag]; rfl)]
  refine .ok (((hf.mayBe_child hr _).imp fun tag hadmits => ?_).present)
  rw [htag] at hadmits
  simpa [Tag.admits] using hadmits

theorem formatSize_answers (hw : a.WellFormed) (h : a.MayBe (· = .dfmt) x) (i : Int) :
    Returns (a.formatSize x i) := by
  refine (format?_answers hw h i).bind fun g hg => ?_
  cases g with
  | none => exact .ok trivial
  | some g => exact groupSize_answers (hg g rfl)

theorem formatDecl?_answers (hw : a.WellFormed) (h : a.MayBe (· = .dfmt) x) (i j : Int) :
    Answers (fun d => ∀ y ∈ d, a.Is Tag.Declares y) (a.formatDecl? x i j) := by
  refine (format?_answers hw h i).bind fun g hg => ?_
  cases g with
  | none => exact .ok nofun
  | some g => exact groupDecl?_answers hw (hg g rfl) j

theorem groupUsage?_answers (hw : a.WellFormed) (h : a.Is (· = .ddecl) x) :
    Returns (a.groupUsage? x) := by
  obtain ⟨g, hg, -, htag, rfl⟩ := h
  exact (hg.int_answers hw (by rw [htag]; decide)).bind fun _ _ => .ok trivial

theorem formatUsage?_answers (hw : a.WellFormed) (h : a.MayBe (· = .dfmt) x) (i : Int) :
    Returns (a.formatUsage? x i) := by
  refine (format?_answers hw h i).bind fun g hg => ?_
  cases g with
  | none => exact .ok trivial
  | some g => exact groupUsage?_answers hw (hg g rfl)

/-- The type of a declaration is in the same slot in both forms, and so is the format. -/
theorem decl_int_answers (hw : a.WellFormed) (h : a.Is Tag.Declares x) :
    Returns (a.int x 0) ∧ Returns (a.int x 3) := by
  obtain ⟨d, hd, -, htag | htag, rfl⟩ := h
  · exact ⟨hd.int_answers hw (by rw [htag]; decide), hd.int_answers hw (by rw [htag]; decide)⟩
  · exact ⟨hd.int_answers hw (by rw [htag]; decide), hd.int_answers hw (by rw [htag]; decide)⟩

theorem declType?_answers (hw : a.WellFormed) (h : a.Is Tag.Declares x) :
    Returns (a.declType? x) :=
  (decl_int_answers hw h).1.bind fun _ _ => .ok trivial

/-! ## Records that end in an array -/

theorem leadingCount?_answers (hw : a.WellFormed) (h : a.Is (· = .ddecl) x) :
    Returns (a.leadingCount? x) := by
  refine (groupDecl?_answers hw h 0).bind fun d hd => ?_
  cases d with
  | none => exact .ok trivial
  | some d => exact (decl_int_answers hw (hd d rfl)).2.bind fun _ _ => .ok trivial

theorem leadingDecl?_answers (hw : a.WellFormed) (h : a.Is (· = .ddecl) x) (i : Int) :
    Answers (fun d => ∀ y ∈ d, a.Is Tag.Declares y) (a.leadingDecl? x i) := by
  refine .ite (fun _ => .ok nofun) fun _ => (leadingCount?_answers hw h).bind fun n _ => ?_
  cases n with
  | none => exact .ok nofun
  | some n => exact .ite (fun _ => .ok nofun) fun _ => groupDecl?_answers hw h _

theorem elementDecl?_answers (hw : a.WellFormed) (h : a.Is (· = .ddecl) x) {i : Int}
    (hheld : ∀ n, a.leadingCount? x = .ok (some n) → 1 + n.toInt + i ≤ Int64.maxValue.toInt) :
    Answers (fun d => ∀ y ∈ d, a.Is Tag.Declares y) (a.elementDecl? x i) := by
  refine .ite (fun _ => .ok nofun) fun _ => (leadingCount?_answers hw h).bind_eq fun n hn _ => ?_
  cases n with
  | none => exact .ok nofun
  | some n => exact .ite (fun _ => groupDecl?_answers hw h _) fun hover => absurd (hheld n hn) hover

/-! ## Procedures -/

/-- Where a procedure declares something, it has a node in its role or nothing. -/
structure Arena.HasParts (a : Arena) (p : NodeId) : Prop where
  params : Answers (a.MayBe (· = .ddecl)) (a.progParams p)
  locals : Answers (a.MayBe (· = .ddecl)) (a.progLocals p)
  levels : Answers (a.MayBe (· = .denv)) (a.progLevels p)

namespace Tree

variable {p : Tree NodeId}

/-- The parts of a procedure are absent or have their roles. -/
theorem In.part_eq (hw : a.WellFormed) (hp : p.In a) (hr : p.Every Regular) (htag : p.tag = .prog)
    {i : Nat} (hi : 8 ≤ i) (hlt : i < 13) :
    a.child p.label i = .ok ((p.child? i).elim .null label) := by
  have hcount := hr.here.1
  rw [htag, Tag.admitsCount, beq_iff_eq] at hcount
  refine hp.child_at_eq hw (by omega) ?_
  rw [htag]
  obtain ⟨k, rfl⟩ := Nat.exists_eq_add_of_le' hi
  rfl

/-- The groups and the levels of the procedure are absent or have their roles. -/
theorem In.hasParts (hw : a.WellFormed) (hp : p.In a) (hr : p.Every Regular) (htag : p.tag = .prog) :
    a.HasParts p.label := by
  have hpart : ∀ i kind, 8 ≤ i → i < 13 → Tag.admits .prog i = (· == kind) →
      Answers (a.MayBe (· = kind)) (a.child p.label i) := by
    intro i kind hi hlt hadmits
    rw [hp.part_eq hw hr htag hi hlt]
    have hrole := hp.mayBe_child hr i
    rw [htag, hadmits] at hrole
    exact .ok (hrole.imp fun _ => beq_iff_eq.mp)
  exact ⟨hpart 8 _ (by decide) (by decide) rfl, hpart 9 _ (by decide) (by decide) rfl,
    hpart 11 _ (by decide) (by decide) rfl⟩

end Tree

theorem levelFormat?_answers (hw : a.WellFormed) {p : NodeId} (h : a.HasParts p) (level : Int) :
    Returns (a.levelFormat? p level) := by
  refine h.levels.bind fun levels hlevels => .ite (fun _ => .ok trivial) fun hnull => ?_
  rw [Bool.or_eq_true, not_or] at hnull
  obtain ⟨l, hl, -, htag, rfl⟩ := hlevels.of_not_null hnull.2
  rw [hl.slotCount_eq]
  refine .ite (fun hlt => ?_) fun _ => .ok trivial
  refine (hl.int_at_answers hw hlt (k := .index) (by rw [htag]; rfl) rfl).bind ?_
  exact fun _ _ => .ok trivial

/-! ## Lookups -/

namespace Tree

variable {α : Type}

/-- What is assigned in the end: of an assignment the right side, or what that assigns. What is no
assignment stands for itself. -/
def assigned? : Tree α → Option (Tree α)
  | node _ .set [_, .child v] => v.assigned?
  | node _ .defn [_, .child v] => v.assigned?
  | node _ .set _ => none
  | node _ .defn _ => none
  | t => some t

/-- The procedure, if there is one, has the group that a local or a parameter is looked up in. -/
def Resolves (prog? : Option (Tree α)) (e : Tree α) : Prop :=
  ∀ p ∈ prog?, (e.tag = .loc → (p.child? 9).isSome = true) ∧
    (e.tag = .par → (p.child? 8).isSome = true)

instance (prog? : Option (Tree α)) (e : Tree α) : Decidable (e.Resolves prog?) :=
  inferInstanceAs (Decidable (∀ p ∈ prog?, _ ∧ _))

/-- The type of the tree can be asked for, inside the procedure. -/
def Typable (prog? : Option (Tree α)) (t : Tree α) : Prop := ∃ e ∈ t.assigned?, e.Resolves prog?

instance (prog? : Option (Tree α)) (t : Tree α) : Decidable (t.Typable prog?) :=
  inferInstanceAs (Decidable (∃ e ∈ t.assigned?, e.Resolves prog?))

theorem assigned?_of_ne {t : Tree α} (hset : t.tag ≠ .set) (hdefn : t.tag ≠ .defn) :
    t.assigned? = some t := by
  obtain ⟨l, tag, fs⟩ := t
  unfold assigned?
  split
  · next heq => exact absurd (Tree.node.inj heq).2.1 hset
  · next heq => exact absurd (Tree.node.inj heq).2.1 hdefn
  · next heq => exact absurd (Tree.node.inj heq).2.1 hset
  · next heq => exact absurd (Tree.node.inj heq).2.1 hdefn
  · rfl

theorem assigned?_of_assigns {t e : Tree α} (htag : t.tag = .set ∨ t.tag = .defn)
    (h : t.assigned? = some e) : ∃ v, t.child? 1 = some v ∧ v.assigned? = some e := by
  obtain ⟨l, tag, fs⟩ := t
  unfold assigned? at h
  split at h
  · next heq =>
      cases heq
      exact ⟨_, rfl, h⟩
  · next heq =>
      cases heq
      exact ⟨_, rfl, h⟩
  · cases h
  · cases h
  · next hset hdefn =>
      rcases htag with htag | htag
      · exact absurd (congrArg (Tree.node l · fs) htag) (hset l fs)
      · exact absurd (congrArg (Tree.node l · fs) htag) (hdefn l fs)

end Tree

/-- A scope in a unit whose children have their roles: the procedure, if there is one, and the format
table. -/
structure Scope.Regular (a : Arena) (prog? : Option (Tree NodeId)) (s : Scope) : Prop where
  formats : a.MayBe (· = .dfmt) s.formats
  prog_eq : s.prog = prog?.elim .null Tree.label
  prog : ∀ p ∈ prog?, p.In a ∧ p.Every Tree.Regular ∧ p.tag = .prog

variable {s : Scope} {prog? : Option (Tree NodeId)} {t : Tree NodeId}

theorem progDecl?_answers (hw : a.WellFormed) (h : s.Regular a prog?) {i : Nat}
    (hrole : ∀ tag, Tag.admits .prog i tag = true → tag = .ddecl) (hi : 8 ≤ i) (hlt : i < 13)
    (hpart : ∀ p ∈ prog?, (p.child? i).isSome = true) (index : Int) :
    Answers (fun d => ∀ y ∈ d, a.Is Tag.Declares y)
      (s.progDecl? a (fun a p => a.child p i) index) := by
  unfold Scope.progDecl?
  rw [h.prog_eq]
  cases prog? with
  | none => exact .ok nofun
  | some p =>
      obtain ⟨hp, hr, htag⟩ := h.prog p rfl
      rw [Option.elim_some, hp.label_not_null, if_neg Bool.false_ne_true]
      show Answers _ (a.child p.label i >>= fun group => a.groupDecl? group index)
      rw [hp.part_eq hw hr htag hi hlt]
      obtain ⟨g, hg⟩ := Option.isSome_iff_exists.mp (hpart p rfl)
      rw [hg]
      have hadmits := hr.here.admits hg
      rw [htag] at hadmits
      exact groupDecl?_answers hw ⟨g, hp.of_child? hg, hr.child? hg, hrole _ hadmits, rfl⟩ index

namespace Arena

/-- If the node refers to a field of an array element, 64 bits hold the index of the field. -/
def IndexHeld (a : Arena) (formats x : NodeId) : Prop :=
  ∀ format field group n, a.tag x = .ok .trelt → a.int x 0 = .ok format → a.int x 3 = .ok field →
    a.format? formats format.toInt = .ok (some group) → a.leadingCount? group = .ok (some n) →
    1 + n.toInt + field.toInt ≤ Int64.maxValue.toInt

/-- No node that is reached refers to a field whose index overflows. -/
def IndexesHeld (a : Arena) (formats x : NodeId) : Prop := ∀ y, a.Reaches x y → a.IndexHeld formats y

variable {formats c : NodeId} {n : Node}

/-- Where no node refers to such a field, there is nothing to look at. It is enough to go through
nodes that no edge leaves. -/
theorem indexesHeld_of_edgeEnds {ids : List NodeId} (hids : ∀ y ∈ ids, a.tag y ≠ .ok .trelt)
    (hends : ∀ y ∈ a.edgeEnds ids, y ∈ ids) (hx : x ∈ ids) : a.IndexesHeld formats x :=
  fun y hy _ _ _ _ htag => absurd htag (hids y (hy.mem_of_edgeEnds hends hx))

theorem IndexesHeld.of_mem (h : a.IndexesHeld formats x) (hn : a.get? x = some n)
    (hc : c ∈ n.children) : a.IndexesHeld formats c :=
  fun y hy => h y (.step hn hc hy)

theorem IndexesHeld.child {t u : Tree NodeId} (h : a.IndexesHeld formats t.label) (ht : t.In a)
    (hu : u ∈ Tree.subtrees t.fields) : a.IndexesHeld formats u.label := by
  obtain ⟨id, tag, fs⟩ := t
  obtain ⟨n, hn, -⟩ := ht.get?
  refine h.of_mem hn ?_
  rw [ht.children hn]
  exact List.mem_map_of_mem hu

end Arena

/-- What a reference with the tag asks the scope for, it answers. -/
structure Scope.Serves (s : Scope) (a : Arena) (tag : Tag) : Prop where
  formats : a.MayBe (· = .dfmt) s.formats
  parts : ¬s.prog.isNull = true → a.HasParts s.prog
  locals : tag = .loc → ∀ i, Answers (fun d => ∀ y ∈ d, a.Is Tag.Declares y)
    (s.progDecl? a Arena.progLocals i)
  params : tag = .par → ∀ i, Answers (fun d => ∀ y ∈ d, a.Is Tag.Declares y)
    (s.progDecl? a Arena.progParams i)

theorem Scope.Regular.serves (hw : a.WellFormed) (h : s.Regular a prog?) (hres : t.Resolves prog?) :
    s.Serves a t.tag where
  formats := h.formats
  parts := by
    rw [h.prog_eq]
    intro hnull
    cases prog? with
    | none => exact absurd rfl hnull
    | some p =>
        obtain ⟨hp, hr, htag⟩ := h.prog p rfl
        exact hp.hasParts hw hr htag
  locals := fun htag => progDecl?_answers hw h (i := 9) (fun _ => beq_iff_eq.mp) (by decide)
    (by decide) fun p hp => (hres p hp).1 htag
  params := fun htag => progDecl?_answers hw h (i := 8) (fun _ => beq_iff_eq.mp) (by decide)
    (by decide) fun p hp => (hres p hp).2 htag

variable {n : Node}

/-- What a reference looks up is a declaration, if it is there. -/
theorem lookup?_answers (hw : a.WellFormed) (hn : a.get? x = some n) (h : s.Serves a n.tag)
    (hheld : a.IndexHeld s.formats x) :
    Answers (fun d => ∀ y ∈ d, a.Is Tag.Declares y) (s.lookup? a x) := by
  have hint : ∀ i, n.tag.layout.HasInt i → Returns (a.int x i) := fun i hi => hw.int_answers hn hi
  unfold Scope.lookup?
  rw [Arena.tag_of_get? hn, ok_bind]
  cases htag : n.tag
  case loc => exact (hint 0 (by rw [htag]; decide)).bind fun v _ => h.locals htag _
  case par => exact (hint 0 (by rw [htag]; decide)).bind fun v _ => h.params htag _
  case glo | fluid | const =>
    refine (hint 0 (by rw [htag]; decide)).bind fun v _ => ?_
    exact formatDecl?_answers hw h.formats _ _
  case lex =>
    refine .ite (fun _ => .ok nofun) fun hnull => ?_
    refine (hint 0 (by rw [htag]; decide)).bind fun level _ => ?_
    refine (levelFormat?_answers hw (h.parts hnull) _).bind fun format _ => ?_
    cases format with
    | none => exact .ok nofun
    | some format =>
        refine (hint 1 (by rw [htag]; decide)).bind fun i _ => ?_
        exact formatDecl?_answers hw h.formats _ _
  case relt =>
    refine (hint 0 (by rw [htag]; decide)).bind fun format _ => ?_
    refine (hint 2 (by rw [htag]; decide)).bind fun i _ => ?_
    exact formatDecl?_answers hw h.formats _ _
  case eelt =>
    refine (hint 0 (by rw [htag]; decide)).bind fun format _ => ?_
    refine (hint 3 (by rw [htag]; decide)).bind fun i _ => ?_
    exact formatDecl?_answers hw h.formats _ _
  case irelt =>
    refine (hint 0 (by rw [htag]; decide)).bind fun format _ => ?_
    refine (format?_answers hw h.formats _).bind fun g hg => ?_
    cases g with
    | none => exact .ok nofun
    | some g =>
        refine (hint 2 (by rw [htag]; decide)).bind fun i _ => ?_
        exact leadingDecl?_answers hw (hg g rfl) _
  case trelt =>
    refine (hint 0 (by rw [htag]; decide)).bind_eq fun format hformat _ => ?_
    refine (format?_answers hw h.formats _).bind_eq fun g hg hgroup => ?_
    cases g with
    | none => exact .ok nofun
    | some g =>
        refine (hint 3 (by rw [htag]; decide)).bind_eq fun i hi _ => ?_
        refine elementDecl?_answers hw (hgroup g rfl) fun k hk => ?_
        exact hheld format i g k (htag ▸ Arena.tag_of_get? hn) hformat hi hg hk
  all_goals exact .ok nofun

/-! ## Types -/

/-- The computation ends in a type or an error. -/
def TypeM.Returns {α : Type} (x : TypeM α) : Prop := Checked.Returns x.run

namespace TypeM.Returns

variable {α β : Type}

theorem pure (v : α) : TypeM.Returns (pure v) := .ok trivial

theorem throw (e : ExprTypeError) : TypeM.Returns (throw e : TypeM α) := .ok trivial

theorem bind {x : TypeM α} {f : α → TypeM β} (h : TypeM.Returns x)
    (hf : ∀ v, TypeM.Returns (f v)) : TypeM.Returns (x >>= f) := by
  refine Checked.Answers.bind h fun r _ => ?_
  cases r with
  | error e => exact .ok trivial
  | ok v => exact hf v

/-- A computation that does not fail comes first. -/
theorem read {P : α → Prop} {x : Checked α} {f : α → TypeM β} (h : Answers P x)
    (hf : ∀ v, P v → TypeM.Returns (f v)) : TypeM.Returns ((x : TypeM α) >>= f) := by
  obtain ⟨v, rfl, hv⟩ := h
  exact hf v hv

end TypeM.Returns

open ExprType

theorem typeIn_returns (hw : a.WellFormed) (hn : a.get? x = some n) {i : Nat}
    (h : n.tag.layout.HasInt i) : TypeM.Returns (typeIn a x i) := by
  refine .read (hw.int_answers hn h) fun v _ => ?_
  split
  · exact .pure _
  · exact .read (Arena.tag_answers hn) fun _ _ => .throw _

theorem resultOf_returns (hw : a.WellFormed) (hn : a.get? x = some n)
    (h : n.tag.layout.HasInt 0) : TypeM.Returns (resultOf a x) := by
  refine .read (hw.int_answers hn h) fun v _ => ?_
  split
  · exact .pure _
  · exact .read (Arena.tag_answers hn) fun _ _ => .throw _

theorem declared_returns (hw : a.WellFormed) (hn : a.get? x = some n) (h : s.Serves a n.tag)
    (hheld : a.IndexHeld s.formats x) :
    TypeM.Returns (declared a (s.lookup? a) x) := by
  refine .read (Arena.tag_answers hn) fun tag _ => ?_
  refine .read (lookup?_answers hw hn h hheld) fun d hd => ?_
  cases d with
  | none => exact .throw _
  | some d =>
      have hdecl := hd d rfl
      obtain ⟨htype, hformat⟩ := decl_int_answers hw hdecl
      refine .read (declType?_answers hw hdecl) fun type _ => ?_
      cases type with
      | none =>
          obtain ⟨u, hu, -, -, rfl⟩ := hdecl
          exact .read hu.tag_answers fun _ _ => .read htype fun _ _ => .throw _
      | some type =>
          show TypeM.Returns (if _ then _ else _)
          split
          · exact .read hformat fun _ _ => .pure _
          · exact .pure _

theorem ofTag_returns (hw : a.WellFormed) (hn : a.get? x = some n) (h : s.Serves a n.tag)
    (hheld : a.IndexHeld s.formats x) :
    TypeM.Returns (ofTag a (s.lookup? a) x n.tag) := by
  have hint : n.tag.layout.HasInt 0 → Returns (a.int x 0) := hw.int_answers hn
  have htype : ∀ i, n.tag.layout.HasInt i → TypeM.Returns (typeIn a x i) :=
    fun i => typeIn_returns hw hn
  have hresult : n.tag.layout.HasInt 0 → TypeM.Returns (resultOf a x) := resultOf_returns hw hn
  have hdeclared := declared_returns hw hn h hheld
  revert hint htype hresult
  generalize n.tag = tag
  intro hint htype hresult
  unfold ofTag
  cases tag
  case record | arr | rnew | mfmt | trnew | anew =>
    exact .read (hint (by decide)) fun _ _ => .pure _
  case bval | bcall => exact (hresult (by decide)).bind fun _ => .pure _
  case cast | aelt | ccall | ocall => exact (htype 0 (by decide)).bind fun _ => .pure _
  case pcall => exact (htype 1 (by decide)).bind fun _ => .pure _
  case par | loc | glo | fluid | const | lex | relt | irelt | trelt | eelt => exact hdeclared
  all_goals first
    | exact .pure _
    | exact .throw _

theorem ofFrom_returns (hw : a.WellFormed) (h : s.Regular a prog?) (ht : t.In a)
    (htyped : t.Typable prog?) (hheld : a.IndexesHeld s.formats t.label) {depth : Nat}
    (hd : t.height < depth) :
    TypeM.Returns (ofFrom a (s.lookup? a) depth t.label) := by
  induction depth generalizing t with
  | zero => exact absurd hd (Nat.not_lt_zero _)
  | succ depth ih =>
      obtain ⟨e, he, hres⟩ := htyped
      rw [ofFrom, ht.tag_eq]
      show TypeM.Returns (if t.tag = .set ∨ t.tag = .defn then _ else _)
      split
      · next hassigns =>
          obtain ⟨v, hv, hassigned⟩ := Tree.assigned?_of_assigns hassigns he
          have hright : a.right t.label = .ok v.label := ht.child_eq hv
          rw [hright]
          have hlt := height_lt_of_child? hv
          refine ih (ht.of_child? hv) ⟨e, hassigned, hres⟩ ?_ (by omega)
          exact hheld.child ht (mem_subtrees_of_child? hv)
      · next hother =>
          rw [not_or] at hother
          rw [Tree.assigned?_of_ne hother.1 hother.2, Option.mem_some] at he
          obtain ⟨n, hn, htag, -⟩ := ht.node_eq
          rw [← htag]
          exact ofTag_returns hw hn (htag ▸ h.serves hw (he ▸ hres)) (hheld _ (.refl _))

/-- An expression has a type, or an error says why it has none. -/
theorem of_returns (hw : a.WellFormed) (h : s.Regular a prog?) (ht : t.In a)
    (htyped : t.Typable prog?) (hheld : a.IndexesHeld s.formats t.label) :
    Returns (ExprType.of a (s.lookup? a) t.label) :=
  ofFrom_returns hw h ht htyped hheld ht.height_lt_depthBound

end Foam
