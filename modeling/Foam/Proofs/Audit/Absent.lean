import Foam.Proofs.Audit.Sites
import Foam.Proofs.Roles
import Foam.Proofs.SExpr.Text

/-!
# Absent children

In a unit whose present children have their roles, every rule is a computation that returns, since
it reads slots that the layout provides and looks declarations up in groups (`fault?_returns`,
`typeCauses_returns`). So the walk comes to an end at any node (`visit_returns`), and the audit too.

The rules pass over an absent child, except where it decides the type of another: what an assignment
without a right side assigns, or what a local is in a procedure without a group of locals, is refused.
`Askable` is about the places where that can come up.
-/

namespace Foam

open Checked

/-! ## What the rules ask for -/

namespace Tree

variable {α : Type}

/-- A cast to a pointer. -/
def isPointerCast : Tree α → Bool
  | node _ .cast (.leaf (.int type) :: _) => Tag.ofOrdinal? type.toInt == some .ptr
  | _ => false

theorem In.isPointerCast {a : Arena} {t : Tree NodeId} {v : Int64} (ht : t.In a)
    (htag : t.tag = .cast) (hv : a.int t.label 0 = .ok v)
    (hptr : Tag.ofOrdinal? v.toInt = some .ptr) : t.isPointerCast = true := by
  have hfield := ht.int_eq_ok.mp hv
  obtain ⟨l, tag, fs⟩ := t
  obtain rfl : tag = .cast := htag
  cases fs with
  | nil => cases hfield
  | cons f fs =>
      obtain rfl : f = .leaf (.int v) := Option.some.inj hfield
      rw [Tree.isPointerCast, hptr]
      rfl

/-- A rule may ask for the types of the children that are present. -/
def asks (config : Audit.Config) (t : Tree α) : Bool :=
  match t.tag with
  | .cast => t.isPointerCast || config.typeChecking && config.enabled .cast
  | .set | .defn => config.typeChecking && (t.child? 0).isSome && (t.child? 1).isSome
  | .branch => config.typeChecking && config.enabled .branch
  | .ret => config.typeChecking && config.enabled .ret
  | .bcall => config.typeChecking && config.enabled .bcall
  | .values => config.typeChecking && config.enabled .values
  | _ => false

/-- If a rule may ask for the types of the children, these can be asked for. -/
def Askable (config : Audit.Config) (prog? : Option (Tree α)) (t : Tree α) : Prop :=
  t.asks config = true → ∀ c ∈ subtrees t.fields, c.Typable prog?

instance (config : Audit.Config) (prog? : Option (Tree α)) (t : Tree α) :
    Decidable (t.Askable config prog?) :=
  inferInstanceAs (Decidable (t.asks config = true → ∀ c ∈ subtrees t.fields, c.Typable prog?))

end Tree

namespace Audit

/-- A context in a unit whose children have their roles. -/
structure Context.Regular (c : Context) (prog? : Option (Tree NodeId)) : Prop where
  wellFormed : c.arena.WellFormed
  scope : Scope.Regular c.arena prog? ⟨c.frame.prog, c.formats⟩

/-- A context in which the rules can read what is declared. -/
structure Context.Readable (c : Context) : Prop where
  wellFormed : c.arena.WellFormed
  formats : c.arena.MayBe (· = .dfmt) c.formats
  parts : ¬c.frame.prog.isNull = true → c.arena.HasParts c.frame.prog

variable {c : Context} {prog? : Option (Tree NodeId)} {t : Tree NodeId} {x : NodeId} {n : Node}

theorem Context.Regular.readable (h : c.Regular prog?) : c.Readable where
  wellFormed := h.wellFormed
  formats := h.scope.formats
  parts := by
    have hprog : c.frame.prog = prog?.elim .null Tree.label := h.scope.prog_eq
    rw [hprog]
    intro hnull
    cases prog? with
    | none => exact absurd rfl hnull
    | some p =>
        obtain ⟨hp, hr, htag⟩ := h.scope.prog p rfl
        exact hp.hasParts h.wellFormed hr htag

theorem typeOf_returns (h : c.Regular prog?) (ht : t.In c.arena) (htyped : t.Typable prog?)
    (hheld : c.arena.IndexesHeld c.formats t.label) : Returns (c.typeOf t.label) :=
  of_returns h.wellFormed h.scope ht htyped hheld

/-! ## Structural rules -/

section

variable (h : c.Readable)

include h

theorem formatSize_returns (i : Int) : Returns (c.formatSize i) :=
  formatSize_answers h.wellFormed h.formats i

theorem levelFormat?_returns (level : Int) : Returns (c.frame.levelFormat? c.arena level) := by
  refine .ite (fun _ => .ok trivial) fun hnull => ?_
  exact (levelFormat?_answers h.wellFormed (h.parts hnull) level).bind fun _ _ => .ok trivial

variable (hn : c.arena.get? x = some n)

include hn

/-- A rule that reads a child finds it absent or live. -/
theorem child_stands (hchildren : ∀ d, .code d ∈ n.slots → c.arena.Stands d) {i : Nat}
    (hi : n.tag.layout.HasChild i) : Answers c.arena.Stands (c.arena.child x i) := by
  obtain ⟨d, hd, hslot⟩ := h.wellFormed.child_answers hn hi
  exact ⟨d, hd, hchildren d (List.mem_of_getElem? hslot)⟩

theorem bounded_returns (htag : n.tag.layout.HasInt 0) (count : Nat) :
    Returns (do return Context.bounded (← c.arena.int x 0) count) :=
  (h.wellFormed.int_answers hn htag).bind fun _ _ => .ok trivial

theorem lexFault?_returns (htag : n.tag = .lex) : Returns (c.lexFault? x) := by
  have hint : ∀ i, n.tag.layout.HasInt i → Returns (c.arena.int x i) :=
    fun i => h.wellFormed.int_answers hn
  refine (hint 0 (by rw [htag]; decide)).bind fun level _ => .ite (fun _ => .ok trivial) fun _ => ?_
  refine (levelFormat?_returns h _).bind fun format _ => ?_
  cases format with
  | none => exact .ok trivial
  | some format =>
      refine .ite (fun _ => (hint 1 (by rw [htag]; decide)).bind fun i _ => ?_) fun _ => .ok trivial
      exact (formatSize_returns h format).bind fun _ _ => .ok trivial

theorem envElementFault?_returns (htag : n.tag = .eelt) : Returns (c.envElementFault? x) := by
  have hint : ∀ i, n.tag.layout.HasInt i → Returns (c.arena.int x i) :=
    fun i => h.wellFormed.int_answers hn
  refine (hint 0 (by rw [htag]; decide)).bind fun format _ => .ite (fun _ => ?_) fun _ => .ok trivial
  refine (hint 3 (by rw [htag]; decide)).bind fun i _ => (formatSize_returns h _).bind fun size _ => ?_
  refine .ite (fun _ => ?_) fun _ => .ok trivial
  exact (hint 2 (by rw [htag]; decide)).bind fun _ _ => .ok trivial

theorem declFault?_returns (htag : n.tag = .decl) : Returns (c.declFault? x) := by
  have hint : ∀ i, n.tag.layout.HasInt i → Returns (c.arena.int x i) :=
    fun i => h.wellFormed.int_answers hn
  refine (hint 3 (by rw [htag]; decide)).bind fun format _ => ?_
  have htype : Returns (c.arena.declType? x) :=
    (hint 0 (by rw [htag]; decide)).bind fun _ _ => .ok trivial
  refine htype.bind fun type _ => ?_
  split
  · split <;> exact .ok trivial
  all_goals exact .ok trivial

omit h in
theorem levelsFault?_returns : Returns (c.levelsFault? x) := by
  have hformats : c.arena.intsFrom x 0 = .ok (n.slots.filterMap Slot.int?) := by
    rw [Arena.intsFrom, Arena.slotsFrom, Arena.slots_of_get? hn]
    rfl
  exact ⟨_, by rw [Context.levelsFault?, hformats]; rfl, trivial⟩

theorem javaSignature?_answers (htag : n.tag = .glo) :
    Answers (fun g => ∀ y ∈ g, c.arena.Is (· = .ddecl) y) (c.javaSignature? x) := by
  refine (h.wellFormed.int_answers hn (by rw [htag]; decide)).bind fun i _ => ?_
  refine (formatDecl?_answers h.wellFormed h.formats _ _).bind fun d hd => ?_
  cases d with
  | none => exact .ok nofun
  | some d =>
      refine (decl_int_answers h.wellFormed (hd d rfl)).2.bind fun format _ => ?_
      refine (format?_answers h.wellFormed h.formats _).bind fun g hg => ?_
      cases g with
      | none => exact .ok nofun
      | some g =>
          refine (groupUsage?_answers h.wellFormed (hg g rfl)).bind fun usage _ => .ok ?_
          split
          · exact hg
          · exact nofun

variable (hchildren : ∀ d, .code d ∈ n.slots → c.arena.Stands d)

include hchildren

theorem assignFault?_returns (htag : n.tag.layout.HasChild 0) : Returns (c.assignFault? x) := by
  refine (child_stands h hn hchildren htag).bind fun left hleft => ?_
  refine .ite (fun _ => .ok trivial) fun hnull => ?_
  obtain ⟨l, hl⟩ := hleft.of_not_null hnull
  refine (Arena.tag_answers hl).bind fun tag _ => .ite (fun _ => ?_) fun _ => .ok trivial
  exact (Arena.slotCount_answers hl).bind fun _ _ => .ok trivial

theorem rawFormatFault?_returns (htag : n.tag = .rrfmt) : Returns (c.rawFormatFault? x) := by
  refine (child_stands h hn hchildren (by rw [htag]; decide)).bind fun format hformat => ?_
  refine .ite (fun _ => .ok trivial) fun hnull => ?_
  obtain ⟨f, hf⟩ := hformat.of_not_null hnull
  exact (Arena.tag_answers hf).bind fun _ _ => .ok trivial

/-- The rule for a cast fails only where the type of what is cast to a pointer does. -/
theorem castFault?_returns_or (htag : n.tag = .cast) : Returns (c.castFault? x) ∨
    ∃ v type e, c.arena.child x 1 = .ok v ∧ v.isNull = false ∧ c.arena.int x 0 = .ok type ∧
      Tag.ofOrdinal? type.toInt = some .ptr ∧ c.typeOf v = .error e ∧
      c.castFault? x = .error e := by
  obtain ⟨v, hv, hstands⟩ := child_stands h hn hchildren (i := 1) (by rw [htag]; decide)
  obtain ⟨type, htype, -⟩ := h.wellFormed.int_answers hn (i := 0) (by rw [htag]; decide)
  unfold Context.castFault?
  rw [hv, ok_bind]
  cases hnull : v.isNull with
  | true => exact .inl (.ok trivial)
  | false =>
      rw [if_neg Bool.false_ne_true]
      obtain ⟨m, hm⟩ := hstands.of_not_null (Bool.eq_false_iff.mp hnull)
      rw [Arena.tag_of_get? hm, ok_bind]
      by_cases hvalues : m.tag = .values
      · rw [if_pos hvalues]
        exact .inl (.ok trivial)
      rw [if_neg hvalues, htype, ok_bind]
      split
      · next hptr =>
          cases htyped : c.typeOf v with
          | error e => exact .inr ⟨v, type, e, rfl, hnull, rfl, hptr, htyped, rfl⟩
          | ok r => cases r <;> exact .inl (.ok trivial)
      · exact .inl (.ok trivial)
      · exact .inl (.ok trivial)

theorem callFault?_returns (hcount : n.tag.admitsCount n.slots.length = true) (htag : n.tag = .pcall) :
    Returns (c.callFault? x) := by
  rw [htag] at hcount
  have hcount : 3 ≤ n.slots.length := of_decide_eq_true hcount
  refine (h.wellFormed.int_answers hn (by rw [htag]; decide)).bind fun v _ => ?_
  refine .ite (fun _ => .ok trivial) fun _ => ?_
  obtain ⟨op, hop⟩ := h.wellFormed.code_at hn (i := 2) (by omega) (by rw [htag]; rfl)
  rw [Arena.child_of_get? hn hop]
  refine .ite (fun _ => .ok trivial) fun hnull => ?_
  obtain ⟨m, hm⟩ := (hchildren op (List.mem_of_getElem? hop)).of_not_null hnull
  rw [Arena.tag_of_get? hm, ok_bind]
  cases htag : m.tag
  case arr =>
    exact (h.wellFormed.int_answers hm (by rw [htag]; decide)).bind fun _ _ => .ok trivial
  case glo =>
    refine (Arena.slotCount_answers hn).bind fun _ _ => ?_
    refine (javaSignature?_answers h hm htag).bind fun g hg => ?_
    cases g with
    | none => exact .ok trivial
    | some g => exact (groupSize_answers (hg g rfl)).bind fun _ _ => .ok trivial
  all_goals exact .ok trivial

/-- The rule for a node that is no cast comes to an end. -/
theorem fault?_returns_of_ne (hcount : n.tag.admitsCount n.slots.length = true)
    (hcast : n.tag ≠ .cast) : Returns (c.fault? x n.tag) := by
  unfold Context.fault?
  cases htag : n.tag
  case set | defn => exact assignFault?_returns h hn hchildren (by rw [htag]; decide)
  case loc | par | const | glo | fluid | env | relt | rnew | pushEnv =>
    exact bounded_returns h hn (by rw [htag]; decide) _
  case rrelt =>
    exact (h.wellFormed.int_answers hn (by rw [htag]; decide)).bind fun _ _ => .ok trivial
  case lex => exact lexFault?_returns h hn htag
  case eelt => exact envElementFault?_returns h hn htag
  case rrfmt => exact rawFormatFault?_returns h hn hchildren htag
  case cast => exact absurd htag hcast
  case decl => exact declFault?_returns h hn htag
  case denv => exact levelsFault?_returns hn
  case pcall => exact callFault?_returns h hn hchildren hcount htag
  all_goals exact .ok trivial

end

theorem castFault?_returns (h : c.Regular prog?) (ht : t.In c.arena) (htag : t.tag = .cast)
    (hask : t.Askable c.config prog?) (hheld : c.arena.IndexesHeld c.formats t.label) :
    Returns (c.castFault? t.label) := by
  obtain ⟨n, hn, hntag, -⟩ := ht.node_eq
  rcases castFault?_returns_or h.readable hn (ht.stands hn) (hntag.trans htag) with hreturns |
    ⟨v, type, e, hv, hnull, htype, hptr, htyped, -⟩
  · exact hreturns
  · have hasks : t.asks c.config = true := by
      rw [Tree.asks, htag, ht.isPointerCast htag htype hptr, Bool.true_or]
    rcases ht.of_child_ok hv with ⟨-, rfl⟩ | ⟨u, hu, rfl⟩
    · cases hnull
    · have hchild : t.child? 1 = some u := by
        rw [Tree.child?, hu]
        rfl
      obtain ⟨r, hr, -⟩ := typeOf_returns h (ht.of_child? hchild)
        (hask hasks u (mem_subtrees_of_child? hchild))
        (hheld.child ht (mem_subtrees_of_child? hchild))
      cases htyped.symm.trans hr

/-- The rule for a node comes to an end. -/
theorem fault?_returns (h : c.Regular prog?) (ht : t.In c.arena) (hr : t.Regular)
    (hask : t.Askable c.config prog?) (hheld : c.arena.IndexesHeld c.formats t.label) :
    Returns (c.fault? t.label t.tag) := by
  by_cases hcast : t.tag = .cast
  · rw [hcast]
    exact castFault?_returns h ht hcast hask hheld
  · obtain ⟨n, hn, hntag, hslots⟩ := ht.node_eq
    have hcount : n.tag.admitsCount n.slots.length = true := by
      rw [hntag, hslots, List.length_map]
      exact hr.1
    rw [← hntag] at hcast ⊢
    exact fault?_returns_of_ne h.readable hn (ht.stands hn) hcount hcast

/-! ## Typing rules -/

/-- An absent child, or one whose type can be asked for. -/
def Context.MayType (c : Context) (prog? : Option (Tree NodeId)) (x : NodeId) : Prop :=
  x = .null ∨ ∃ v : Tree NodeId, v.In c.arena ∧ v.Typable prog? ∧
    c.arena.IndexesHeld c.formats v.label ∧ x = v.label

section

variable (ht : t.In c.arena) (hheld : c.arena.IndexesHeld c.formats t.label)
  (htyped : ∀ v ∈ Tree.subtrees t.fields, v.Typable prog?)

include ht hheld htyped

theorem mayType_subtree {v : Tree NodeId} (hv : v ∈ Tree.subtrees t.fields) (hin : v.In c.arena) :
    c.MayType prog? v.label :=
  .inr ⟨v, hin, htyped v hv, hheld.child ht hv, rfl⟩

theorem mayType_child (i : Nat) : c.MayType prog? ((t.child? i).elim .null Tree.label) := by
  cases hv : t.child? i with
  | none => exact .inl rfl
  | some v => exact mayType_subtree ht hheld htyped (mem_subtrees_of_child? hv) (ht.of_child? hv)

theorem mayType_childrenFrom {i : Nat} (hi : i ≤ t.fields.length) :
    Answers (fun xs => ∀ x ∈ xs, c.MayType prog? x) (c.arena.childrenFrom t.label i) := by
  obtain ⟨n, hn, -, hslots⟩ := ht.node_eq
  refine ⟨_, Arena.childrenFrom_of_get? hn (by rwa [hslots, List.length_map]), fun x hx => ?_⟩
  obtain ⟨s, hs, hsx⟩ := List.mem_filterMap.mp hx
  rw [hslots] at hs
  obtain ⟨f, hf, rfl⟩ := List.mem_map.mp (List.mem_of_mem_drop hs)
  obtain ⟨l, tag, fs⟩ := t
  cases f with
  | leaf s =>
      cases s with
      | code d =>
          cases hsx
          exact .inl (Arena.null_of_child? (ht.leaf hf))
      | _ => cases hsx
  | child v =>
      cases hsx
      exact mayType_subtree ht hheld htyped (Tree.mem_subtrees.mpr hf) (ht.child hf)

end

section

variable (h : c.Regular prog?)

include h

theorem operand_returns (hx : c.MayType prog? x) : Returns (c.operand x) := by
  rcases hx with rfl | ⟨v, hv, htyped, hheld, rfl⟩
  · exact .ok trivial
  · refine .ite (fun _ => .ok trivial) fun _ => (typeOf_returns h hv htyped hheld).bind fun r _ => ?_
    cases r <;> exact .ok trivial

theorem envCauses_returns (format : Int64) : Returns (c.envCauses format) := by
  refine .ite (fun _ => .ok trivial) fun _ => ?_
  refine (formatUsage?_answers h.wellFormed h.scope.formats _).bind fun usage _ => ?_
  cases usage <;> exact .ok trivial

theorem recordCauses_returns (type : ExprType) : Returns (c.recordCauses type) := by
  refine .ite (fun _ => .ok trivial) fun _ => ?_
  refine (formatUsage?_answers h.wellFormed h.scope.formats _).bind fun usage _ => ?_
  exact .ite (fun _ => .ok trivial) fun _ => .ok trivial

theorem valueCauses_returns {group : NodeId} (hgroup : c.arena.Is (· = .ddecl) group) (i : Nat)
    (hx : c.MayType prog? x) : Returns (c.valueCauses group i x) := by
  refine (operand_returns h hx).bind fun r _ => ?_
  cases r with
  | error e => exact .ok trivial
  | ok type =>
      refine (groupDecl?_answers h.wellFormed hgroup i).bind fun d hd => ?_
      cases d with
      | none => exact .ok trivial
      | some d =>
          obtain ⟨-, hformat⟩ := decl_int_answers h.wellFormed (hd d rfl)
          have hrecord := recordCauses_returns h type
          refine (declType?_answers h.wellFormed (hd d rfl)).bind fun declared _ => ?_
          refine .ite (fun _ => hformat.bind fun format _ => ?_) fun _ => ?_
          · exact hrecord.bind fun _ _ => .ok trivial
          · exact hrecord.bind fun _ _ => .ok trivial

theorem valuesCauses_returns (ht : t.In c.arena) (htag : t.tag = .values)
    (hask : t.Askable c.config prog?) (hheld : c.arena.IndexesHeld c.formats t.label)
    (hon : c.config.typeChecking = true) (format : Int64) :
    Returns (c.valuesCauses t.label format) := by
  unfold Context.valuesCauses
  refine .ite (fun _ => .ok trivial) fun hvalues => ht.slotCount_answers.bind fun given _ => ?_
  have hasks : t.asks c.config = true := by
    rw [Tree.asks, htag, hon]
    simpa using hvalues
  refine .ite_join (fun slots => ?_) (fun _ hnext => hnext 0) fun _ =>
    formatSize_returns h.readable _
  refine .ite (fun _ => .ok trivial) fun _ => ?_
  refine (format?_answers h.wellFormed h.scope.formats _).bind fun g hg => ?_
  cases g with
  | none => exact .ok trivial
  | some g =>
      refine (mayType_childrenFrom ht hheld (hask hasks) (Nat.zero_le _)).bind fun vs hvs => ?_
      refine (Answers.mapM ?_).bind fun _ _ => .ok trivial
      rintro ⟨v, i⟩ hv
      exact valueCauses_returns h (hg g rfl) i (hvs v (List.fst_mem_of_mem_zipIdx hv))

theorem argCauses_returns (op : Builtin) (i : Nat) (hx : c.MayType prog? x) (param : Tag) :
    Returns (c.argCauses op i x param) := by
  refine (operand_returns h hx).bind fun r _ => ?_
  cases r with
  | error e => exact .ok trivial
  | ok type => exact (recordCauses_returns h type).bind fun _ _ => .ok trivial

variable (ht : t.In c.arena) (hon : c.config.typeChecking = true)
  (hask : t.Askable c.config prog?) (hheld : c.arena.IndexesHeld c.formats t.label)

include ht hon hask hheld

theorem branchCauses_returns (htag : t.tag = .branch) (hbranch : c.config.enabled .branch = true) :
    Returns (c.branchCauses t.label) := by
  have htyped := hask (by rw [Tree.asks, htag, hon, hbranch]; rfl)
  unfold Context.branchCauses
  rw [ht.child_eq_elim h.wellFormed (by rw [htag]; decide)]
  refine (operand_returns h (mayType_child ht hheld htyped 0)).bind fun r _ => ?_
  cases r <;> exact .ok trivial

theorem castCauses_returns (htag : t.tag = .cast) (hcast : c.config.enabled .cast = true) :
    Returns (c.castCauses t.label) := by
  have htyped := hask (by rw [Tree.asks, htag, hon, hcast]; simp)
  unfold Context.castCauses
  rw [ht.child_eq_elim h.wellFormed (by rw [htag]; decide)]
  refine (operand_returns h (mayType_child ht hheld htyped 1)).bind fun r _ => ?_
  cases r <;> exact .ok trivial

theorem builtinCauses_returns (htag : t.tag = .bcall) (hbcall : c.config.enabled .bcall = true) :
    Returns (c.builtinCauses t.label) := by
  have htyped := hask (by rw [Tree.asks, htag, hon, hbcall]; rfl)
  have hop : Returns (c.arena.callBuiltin? t.label) :=
    (ht.int_answers h.wellFormed (by rw [htag]; decide)).bind fun _ _ => .ok trivial
  have hlength : 0 < t.fields.length :=
    (ht.fixed_slot h.wellFormed (i := 0) (k := .builtin) (by rw [htag]; rfl)).1
  refine hop.bind fun op _ => ?_
  cases op with
  | none => exact .ok trivial
  | some op =>
      refine (mayType_childrenFrom ht hheld htyped (i := 1) hlength).bind fun args hargs => ?_
      refine (Answers.mapM ?_).bind fun _ _ => .ok trivial
      rintro ⟨⟨arg, param⟩, i⟩ hp
      have hpair : (arg, param) ∈ args.zip op.params := List.fst_mem_of_mem_zipIdx hp
      exact argCauses_returns h op i (hargs arg (List.of_mem_zip hpair).1) param

/-- The values on the left of an assignment or in a result, too, are of types that can be asked
for. -/
theorem assignCauses_returns (htag : t.tag = .set ∨ t.tag = .defn)
    (hvalues : ∀ v ∈ Tree.subtrees t.fields, v.Askable c.config prog?) :
    Returns (c.assignCauses t.label) := by
  have hchild : ∀ i < 2, t.tag.layout.HasChild i := by
    rcases htag with htag | htag
    · rw [htag]
      decide
    · rw [htag]
      decide
  unfold Context.assignCauses Arena.left Arena.right
  rw [ht.child_eq_elim h.wellFormed (hchild 0 (by decide)),
    ht.child_eq_elim h.wellFormed (hchild 1 (by decide)), ok_bind, ok_bind]
  refine .ite (fun _ => .ok trivial) fun hnull => ?_
  cases hl : t.child? 0 with
  | none => simp [hl, NodeId.isNull] at hnull
  | some l =>
      cases hr : t.child? 1 with
      | none => simp [hr, NodeId.isNull] at hnull
      | some r =>
          have hlin : l.In c.arena := ht.of_child? hl
          have hrin : r.In c.arena := ht.of_child? hr
          have hasks : t.asks c.config = true := by
            rcases htag with htag | htag <;> rw [Tree.asks, htag, hon, hl, hr] <;> rfl
          have hleft := operand_returns h (mayType_child (c := c) ht hheld (hask hasks) 0)
          have hright := operand_returns h (mayType_child (c := c) ht hheld (hask hasks) 1)
          rw [hl] at hleft
          rw [hr] at hright
          rw [Option.elim_some, Option.elim_some, hlin.tag_eq, hrin.tag_eq, ok_bind]
          refine .ite (fun htag => ?_) fun _ => .ite (fun _ => .ok trivial) fun _ => ?_
          · refine .ite (fun hmfmt => ?_) fun _ => .ok trivial
            refine (hrin.int_answers h.wellFormed (by rw [hmfmt]; decide)).bind fun format _ => ?_
            exact valuesCauses_returns h hlin htag (hvalues l (mem_subtrees_of_child? hl))
              (hheld.child ht (mem_subtrees_of_child? hl)) hon format
          · refine hleft.bind fun e _ => hright.bind fun f _ => ?_
            cases e <;> cases f <;> exact .ok trivial

theorem returnCauses_returns (htag : t.tag = .ret) (hret : c.config.enabled .ret = true)
    (hvalues : ∀ v ∈ Tree.subtrees t.fields, v.Askable c.config prog?) :
    Returns (c.returnCauses t.label) := by
  have htyped := hask (by rw [Tree.asks, htag, hon, hret]; rfl)
  have hprog : c.frame.prog = prog?.elim .null Tree.label := h.scope.prog_eq
  unfold Context.returnCauses
  rw [hprog]
  cases prog? with
  | none => exact .ok trivial
  | some p =>
      obtain ⟨hp, hr, hptag⟩ := h.scope.prog p rfl
      have hresult : Returns (c.arena.progResult? p.label) :=
        (hp.int_answers h.wellFormed (by rw [hptag]; decide)).bind fun _ _ => .ok trivial
      have hformat : Returns (c.arena.progFormat p.label) :=
        hp.int_answers h.wellFormed (by rw [hptag]; decide)
      have hoperand := operand_returns h (mayType_child ht hheld htyped 0)
      refine .ite (fun _ => .ok trivial) fun _ => ?_
      rw [ht.child_eq_elim h.wellFormed (by rw [htag]; decide), ok_bind]
      refine hresult.bind fun result _ => ?_
      split
      · exact .ok trivial
      · refine .ite (fun _ => .ok trivial) fun hnull => ?_
        cases hv : t.child? 0 with
        | none => simp [hv, NodeId.isNull] at hnull
        | some v =>
            have hin : v.In c.arena := ht.of_child? hv
            rw [Option.elim_some, hin.tag_eq, ok_bind]
            refine .ite (fun htag => hformat.bind fun format _ => ?_) fun _ => .ok trivial
            exact valuesCauses_returns h hin htag (hvalues v (mem_subtrees_of_child? hv))
              (hheld.child ht (mem_subtrees_of_child? hv)) hon format
      · refine hoperand.bind fun r _ => ?_
        cases r <;> exact .ok trivial

/-- The typing rule for a node comes to an end. -/
theorem typeCauses_returns (hvalues : ∀ v ∈ Tree.subtrees t.fields, v.Askable c.config prog?) :
    Returns (c.typeCauses t.label t.tag) := by
  unfold Context.typeCauses
  cases htag : t.tag
  case set => exact assignCauses_returns h ht hon hask hheld (.inl htag) hvalues
  case defn => exact assignCauses_returns h ht hon hask hheld (.inr htag) hvalues
  case branch =>
    exact .ite (fun hbranch => branchCauses_returns h ht hon hask hheld htag hbranch) fun _ => .ok trivial
  case ret =>
    exact .ite (fun hret => returnCauses_returns h ht hon hask hheld htag hret hvalues) fun _ =>
      .ok trivial
  case cast =>
    exact .ite (fun hcast => castCauses_returns h ht hon hask hheld htag hcast) fun _ => .ok trivial
  case bcall =>
    exact .ite (fun hbcall => builtinCauses_returns h ht hon hask hheld htag hbcall) fun _ => .ok trivial
  case pushEnv | eelt =>
    exact (ht.int_answers h.wellFormed (by rw [htag]; decide)).bind fun f _ => envCauses_returns h f
  all_goals exact .ok trivial

end

/-! ## The walk -/

theorem collect_returns {α : Type} {find : α → Checked Report} {xs : List α}
    (h : ∀ x ∈ xs, Returns (find x)) : Returns (collect find xs) := by
  induction xs with
  | nil => exact .ok trivial
  | cons x xs ih =>
      refine (h x List.mem_cons_self).bind fun _ _ => ?_
      exact (ih fun y hy => h y (List.mem_cons_of_mem _ hy)).bind fun _ _ => .ok trivial

theorem faultAt_returns (ht : t.In c.arena) (kind : FaultKind) :
    Returns (faultAt c t.label kind) := by
  rw [faultAt, Arena.render_eq ht]
  exact .ok trivial

theorem failureAt_returns (ht : t.In c.arena) (cause : TypeCause) :
    Returns (failureAt c t.label cause) := by
  rw [failureAt, Arena.render_eq ht]
  exact .ok trivial

theorem findingsAt_returns (h : c.Regular prog?) (ht : t.In c.arena) (hr : t.Regular)
    (hask : t.Askable c.config prog?) (hheld : c.arena.IndexesHeld c.formats t.label)
    (hvalues : ∀ v ∈ Tree.subtrees t.fields, v.Askable c.config prog?) :
    Returns (findingsAt c t.label t.tag) := by
  refine (fault?_returns h ht hr hask hheld).bind fun kind _ => ?_
  refine (collect_returns fun _ _ => faultAt_returns ht _).bind fun faults _ => ?_
  have hfailures : Returns (failuresAt c t.label t.tag) := by
    refine .ite (fun hon => ?_) fun _ => .ok trivial
    refine (typeCauses_returns h ht hon hask hheld hvalues).bind fun causes _ => ?_
    exact collect_returns fun _ _ => failureAt_returns ht _
  exact hfailures.bind fun _ _ => .ok trivial

theorem entryCount_returns {a : Arena} {kind : Tag → Prop} {y : NodeId} (h : a.MayBe kind y) :
    Returns (a.entryCount y) := by
  refine .ite (fun _ => .ok trivial) fun hnull => ?_
  obtain ⟨l, hl, -, -, rfl⟩ := h.of_not_null hnull
  exact hl.slotCount_answers

theorem ofProg_returns {a : Arena} {p : NodeId} (h : a.HasParts p) : Returns (Frame.ofProg a p) := by
  have hsize : ∀ g, a.MayBe (· = .ddecl) g → Returns (Frame.sizeOf a g) := fun g hg =>
    .ite (fun _ => .ok trivial) fun hnull => groupSize_answers (hg.of_not_null hnull)
  rw [Frame.ofProg_eq]
  refine h.levels.bind fun levels hlevels => (entryCount_returns hlevels).bind fun _ _ => ?_
  refine h.locals.bind fun locals hlocals => (hsize locals hlocals).bind fun _ _ => ?_
  exact h.params.bind fun params hparams => (hsize params hparams).bind fun _ _ => .ok trivial

/-- The procedure around what is inside a node. -/
theorem enter_answers {around : List (Tree NodeId)} (h : c.Regular (around.find? (·.tag == .prog)))
    (ht : t.In c.arena) (hr : t.Every Tree.Regular) :
    Answers (fun inside => inside.Regular ((t :: around).find? (·.tag == .prog)) ∧
      inside.toUnitContext = c.toUnitContext) (c.enter t.label t.tag) := by
  have hframe : Returns (c.frame.inside c.arena t) := by
    unfold Frame.inside
    exact .ite (fun htag => ofProg_returns (ht.hasParts h.wellFormed hr htag)) fun _ => .ok trivial
  obtain ⟨frame, hframe, -⟩ := hframe
  refine ⟨{ c with frame := frame, constNum := t.constDefined?.or c.constNum }, ?_,
    ⟨h.wellFormed, ?_⟩, rfl⟩
  · rw [enter_eq h.wellFormed ht, hframe]
    rfl
  rw [List.find?_cons]
  unfold Frame.inside at hframe
  split at hframe
  · next htag =>
      obtain ⟨hprog, -⟩ := Frame.ofProg_eq_ok.mp hframe
      rw [htag]
      refine ⟨h.scope.formats, hprog, fun p hp => ?_⟩
      obtain rfl := Option.some.inj hp
      exact ⟨ht, hr, htag⟩
  · next htag =>
      cases hframe
      rw [beq_false_of_ne htag]
      exact h.scope

theorem forM_returns {step : NodeId → AuditM Unit} {ts : List (Tree NodeId)}
    (h : ∀ t ∈ ts, ∀ s, ∃ s', step t.label s = .ok ((), s')) (s : State) :
    ∃ s', (ts.map Tree.label).forM step s = .ok ((), s') := by
  induction ts generalizing s with
  | nil => exact ⟨s, rfl⟩
  | cons t ts ih =>
      obtain ⟨s₁, hfirst⟩ := h t List.mem_cons_self s
      obtain ⟨s', hrest⟩ := ih (fun u hu => h u (List.mem_cons_of_mem _ hu)) s₁
      exact ⟨s', run_bind_eq_ok.mpr ⟨(), s₁, hfirst, hrest⟩⟩

/-- The walk comes to an end, whatever was seen before. -/
theorem visit_returns {around : List (Tree NodeId)}
    (h : c.Regular (around.find? (·.tag == .prog))) (ht : t.In c.arena)
    (hr : t.Every Tree.Regular) (hheld : c.arena.IndexesHeld c.formats t.label)
    (hask : ∀ s ∈ t.postorder around, s.node.Askable c.config s.prog?) {depth : Nat}
    (hd : t.height < depth) (s : State) : ∃ s', visit depth c t.label s = .ok ((), s') := by
  induction t generalizing c around depth s with
  | node id tag fs ih =>
      obtain ⟨d, rfl⟩ : ∃ d, depth = d + 1 := ⟨depth - 1, by omega⟩
      have hid : id.isNull = false := ht.label_not_null
      by_cases hseen : id ∈ s.visited
      · rw [Tree.label, visit_seen hid hseen, addFault]
        obtain ⟨text, htext⟩ : ∃ text, c.arena.render id = .ok text := ⟨_, Arena.render_eq ht⟩
        exact ⟨_, run_lift_bind_eq_ok.mpr ⟨text, htext, rfl⟩⟩
      · obtain ⟨n, hn, rfl, -⟩ := ht.get?
        obtain ⟨inside, hinside, hregular, hunit⟩ := enter_answers h ht hr
        have harena : inside.arena = c.arena := congrArg UnitContext.arena hunit
        have hconfig : inside.config = c.config := congrArg UnitContext.config hunit
        have hformats : inside.formats = c.formats := congrArg UnitContext.formats hunit
        rw [Tree.label, visit_fresh hn hid hseen, ht.children hn]
        have hplaces : ∀ v ∈ Tree.subtrees fs, ∀ s ∈ v.postorder (.node id n.tag fs :: around),
            s.node.Askable inside.config s.prog? := by
          intro v hv s hs
          rw [hconfig]
          refine hask s ?_
          rw [Tree.postorder_node]
          exact List.mem_append_left _ (List.mem_flatMap.mpr ⟨v, hv, hs⟩)
        have hbelow : ∀ v ∈ Tree.subtrees fs, ∀ s, ∃ s', visit d inside v.label s = .ok ((), s') := by
          intro v hv s
          have hchild : .child v ∈ fs := Tree.mem_subtrees.mp hv
          have hlt := Tree.height_lt id n.tag hchild
          refine ih v hchild hregular (by rw [harena]; exact ht.child hchild)
            ((Tree.every_node.mp hr).2 v hchild) ?_ (hplaces v hv) (by omega) s
          rw [harena, hformats]
          exact hheld.child ht hv
        obtain ⟨s₁, hbelow⟩ := forM_returns hbelow ⟨id :: s.visited, s.faults, s.failures⟩
        have hrules : Returns (findingsAt inside id n.tag) := by
          refine findingsAt_returns (t := .node id n.tag fs) hregular (by rwa [harena]) hr.here ?_
            (by rwa [harena, hformats]) fun v hv => hplaces v hv _ (Tree.mem_postorder_self v _)
          by_cases hprog : n.tag = .prog
          · intro hasks
            rw [Tree.asks, Tree.tag, hprog] at hasks
            cases hasks
          · rw [List.find?_cons, Tree.tag, beq_false_of_ne hprog, hconfig]
            exact hask _ (Tree.mem_postorder_self _ _)
        obtain ⟨r, hr, -⟩ := hrules
        refine ⟨s₁.add [] r, run_lift_bind_eq_ok.mpr ⟨inside, hinside, ?_⟩⟩
        refine run_bind_eq_ok.mpr ⟨(), s₁, hbelow, ?_⟩
        rw [show examine inside id n.tag s₁ = _ from examine_finds inside id n.tag s₁, hr]
        rfl

theorem ofUnit_answers {a : Arena} {unit : NodeId} (hw : a.WellFormed)
    {formats : NodeId} (hformats : a.unitFormats unit = .ok formats)
    (h : a.MayBe (· = .dfmt) formats) (config : Config) :
    Answers (fun v => v.arena = a ∧ v.config = config ∧ v.formats = formats)
      (UnitContext.ofUnit a config unit) := by
  rw [UnitContext.ofUnit_eq, hformats, ok_bind]
  refine (entryCount_returns h).bind fun _ _ => (formatSize_answers hw h _).bind fun _ _ => ?_
  refine (formatSize_answers hw h _).bind fun _ _ => (formatSize_answers hw h _).bind fun _ _ => ?_
  exact .ok ⟨rfl, rfl, rfl⟩

theorem ofUnit_returns {a : Arena} {u : Tree NodeId} (hw : a.WellFormed) (hu : u.In a)
    {formats : NodeId} (htag : u.tag = .unit) (hr : u.Every Tree.Regular)
    (hformats : a.unitFormats u.label = .ok formats) (config : Config) :
    a.MayBe (· = .dfmt) formats ∧
      Answers (fun v => v.arena = a ∧ v.config = config ∧ v.formats = formats)
        (UnitContext.ofUnit a config u.label) := by
  have hrole := hu.mayBe_child hr 0
  rw [htag] at hrole
  have htable : a.MayBe (· = .dfmt) formats := by
    rw [Arena.unitFormats, hu.child_eq_elim hw (by rw [htag]; decide), Except.ok.injEq] at hformats
    exact hformats ▸ hrole.imp fun _ => beq_iff_eq.mp
  exact ⟨htable, ofUnit_answers hw hformats htable config⟩

/-- The audit of a unit without a circle, in which the children that are present have their roles,
returns a report if the types that rules may ask for can be asked for: a rule that types an assignment
needs its right side, one that types a local or a parameter the group of declarations that the
procedure around it should have, and one that types a field of an array element an index that does not
overflow. Other children may be absent. Where a rule that may ask for a type does not do so, the audit
returns without these conditions, too. -/
theorem audit_returns {a : Arena} {config : Config} {u : Tree NodeId} {formats : NodeId}
    (hw : a.WellFormed) (hu : u.In a) (htag : u.tag = .unit) (hr : u.Every Tree.Regular)
    (hformats : a.unitFormats u.label = .ok formats) (hheld : a.IndexesHeld formats u.label)
    (hask : ∀ defs ∈ u.child? 1, ∀ s ∈ defs.postorder [], s.node.Askable config s.prog?) :
    ∃ r, audit a config u.label = .ok r := by
  obtain ⟨htable, v, hv, rfl, rfl, rfl⟩ := ofUnit_returns hw hu htag hr hformats config
  unfold audit
  rw [hu.tag_eq, htag, ok_bind, if_pos rfl, hv, ok_bind, Arena.unitDefs,
    hu.child_eq_elim hw (by rw [htag]; decide), ok_bind]
  cases hdefs : u.child? 1 with
  | none => exact ⟨_, rfl⟩
  | some defs =>
      have hin : defs.In v.arena := hu.of_child? hdefs
      have hregular : (Context.mk v .ofUnit none).Regular
          (([] : List (Tree NodeId)).find? (·.tag == .prog)) :=
        ⟨hw, htable, rfl, nofun⟩
      have hbelow := hheld.child hu (mem_subtrees_of_child? hdefs)
      obtain ⟨s, hs⟩ := visit_returns hregular hin (hr.child? hdefs) hbelow (hask defs hdefs)
        (Nat.lt_succ_of_lt hin.height_lt_depthBound) ⟨[], [], []⟩
      refine ⟨⟨s.faults, s.failures⟩, ?_⟩
      show (visit (v.arena.depthBound + 1) ⟨v, .ofUnit, none⟩ defs.label ⟨[], [], []⟩ >>= _) = _
      rw [hs]
      rfl

/-- With all typing rules on, in a unit without a format table: a procedure that has only its body,
with an absent statement, an assignment without a right side, a cast of nothing to a pointer and a
call of nothing. -/
theorem audit_returns_of_absent :
    let a : Arena := .ofRows [some (.bare .unit [.code .null, .code ⟨1⟩]),
      some (.bare .ddef [.code .null, .code ⟨2⟩]), some (.bare .defn [.code .null, .code ⟨3⟩]),
      some (.bare .prog [.int 0, .int 0, .int 5, .int 0, .int 0, .int 0, .int 0, .int 0,
        .code .null, .code .null, .code .null, .code .null, .code ⟨4⟩]),
      some (.bare .seq [.code ⟨5⟩, .code .null, .code ⟨7⟩, .code ⟨8⟩, .code ⟨10⟩]),
      some (.bare .set [.code ⟨6⟩, .code .null]), some (.bare .glo [.int 0]),
      some (.bare .cast [.int 17, .code .null]), some (.bare .ret [.code ⟨9⟩]),
      some (.bare .lex [.int 0, .int 0]), some (.bare .pcall [.int 5, .int 3, .code .null])] []
    let parts : List (Field (Tree NodeId)) := List.replicate 4 (.leaf (.code .null))
    let body : Tree NodeId := .node ⟨4⟩ .seq [.child (.node ⟨5⟩ .set
      [.child (.node ⟨6⟩ .glo [.leaf (.int 0)]), .leaf (.code .null)]), .leaf (.code .null),
      .child (.node ⟨7⟩ .cast [.leaf (.int 17), .leaf (.code .null)]),
      .child (.node ⟨8⟩ .ret [.child (.node ⟨9⟩ .lex [.leaf (.int 0), .leaf (.int 0)])]),
      .child (.node ⟨10⟩ .pcall [.leaf (.int 5), .leaf (.int 3), .leaf (.code .null)])]
    let prog : Tree NodeId := .node ⟨3⟩ .prog
      ([.leaf (.int 0), .leaf (.int 0), .leaf (.int 5), .leaf (.int 0), .leaf (.int 0),
        .leaf (.int 0), .leaf (.int 0), .leaf (.int 0)] ++ parts ++ [.child body])
    let u : Tree NodeId := .node ⟨0⟩ .unit [.leaf (.code .null), .child (.node ⟨1⟩ .ddef
      [.leaf (.code .null), .child (.node ⟨2⟩ .defn [.leaf (.code .null), .child prog])])]
    let config : Config := ⟨true, fun _ => true⟩
    a.WellFormed ∧ u.In a ∧ u.tag = .unit ∧ u.Every Tree.Regular ∧
      a.unitFormats u.label = .ok .null ∧ a.IndexesHeld .null u.label ∧
      (∀ defs ∈ u.child? 1, ∀ s ∈ defs.postorder [], s.node.Askable config s.prog?) ∧
      ∃ r, audit a config u.label = .ok r := by
  intro a parts body prog u config
  have hw : a.WellFormed := by decide
  have hu : u.In a := by decide
  have hr : u.Every Tree.Regular := by decide
  have hask : ∀ defs ∈ u.child? 1, ∀ s ∈ defs.postorder [], s.node.Askable config s.prog? := by
    decide
  have hheld : a.IndexesHeld .null u.label :=
    Arena.indexesHeld_of_edgeEnds (show ∀ y ∈ u.labels, a.tag y ≠ .ok .trelt by decide) (by decide)
      (by decide)
  exact ⟨hw, hu, rfl, hr, rfl, hheld, hask, audit_returns hw hu rfl hr rfl hheld hask⟩

/-- Neither condition on the types can be left out, and the standard configuration is enough. What is
cast to a pointer here is an assignment without a right side, and a local of a procedure that has no
group of locals. -/
theorem audit_refused_of_absent :
    let globals (type : Int64) (name : String) : Tree NodeId := .node ⟨2⟩ .dfmt [.child
      (.node ⟨1⟩ .ddecl [.leaf (.int 10), .child (.node ⟨0⟩ .gdecl [.leaf (.int type),
        .leaf (.str name), .leaf (.int 0), .leaf (.int 4), .leaf (.int 0), .leaf (.int 0)])])]
    let global : Tree NodeId := .node ⟨3⟩ .glo [.leaf (.int 0)]
    let assigned : Tree NodeId := .node ⟨6⟩ .cast [.leaf (.int 17), .child
      (.node ⟨5⟩ .set [.child (.node ⟨4⟩ .nil []), .leaf (.code .null)])]
    let body : Tree NodeId := .node ⟨9⟩ .seq [.child (.node ⟨8⟩ .cast [.leaf (.int 17),
      .child (.node ⟨7⟩ .loc [.leaf (.int 0)])])]
    let prog : Tree NodeId := .node ⟨10⟩ .prog (List.replicate 8 (.leaf (.int 0)) ++
      [.child (.node ⟨4⟩ .ddecl [.leaf (.int 2)]), .leaf (.code .null), .child (.node ⟨5⟩ .dfluid []),
        .child (.node ⟨6⟩ .denv []), .child body])
    let Refused (a : Arena) (u : Tree NodeId) : Prop := a.WellFormed ∧ u.In a ∧ u.tag = .unit ∧
      u.Every Tree.Regular ∧ audit a .standard u.label = .error (.notLive .null)
    Refused
        (.ofRows [some (.bare .gdecl [.int 17, .str "g", .int 0, .int 4, .int 0, .int 0]),
          some (.bare .ddecl [.int 10, .code ⟨0⟩]), some (.bare .dfmt [.code ⟨1⟩]),
          some (.bare .glo [.int 0]), some (.bare .nil []), some (.bare .set [.code ⟨4⟩, .code .null]),
          some (.bare .cast [.int 17, .code ⟨5⟩]), some (.bare .defn [.code ⟨3⟩, .code ⟨6⟩]),
          some (.bare .ddef [.code ⟨7⟩]), some (.bare .unit [.code ⟨2⟩, .code ⟨8⟩])] [])
        (.node ⟨9⟩ .unit [.child (globals 17 "g"), .child
          (.node ⟨8⟩ .ddef [.child (.node ⟨7⟩ .defn [.child global, .child assigned])])]) ∧
      Refused
        (.ofRows [some (.bare .gdecl [.int 30, .str "f", .int 0, .int 4, .int 0, .int 0]),
          some (.bare .ddecl [.int 10, .code ⟨0⟩]), some (.bare .dfmt [.code ⟨1⟩]),
          some (.bare .glo [.int 0]), some (.bare .ddecl [.int 2]), some (.bare .dfluid []),
          some (.bare .denv []), some (.bare .loc [.int 0]), some (.bare .cast [.int 17, .code ⟨7⟩]),
          some (.bare .seq [.code ⟨8⟩]), some (.bare .prog [.int 0, .int 0, .int 0, .int 0, .int 0,
            .int 0, .int 0, .int 0, .code ⟨4⟩, .code .null, .code ⟨5⟩, .code ⟨6⟩, .code ⟨9⟩]),
          some (.bare .defn [.code ⟨3⟩, .code ⟨10⟩]), some (.bare .ddef [.code ⟨11⟩]),
          some (.bare .unit [.code ⟨2⟩, .code ⟨12⟩])] [])
        (.node ⟨13⟩ .unit [.child (globals 30 "f"), .child
          (.node ⟨12⟩ .ddef [.child (.node ⟨11⟩ .defn [.child global, .child prog])])]) := by
  intro globals global assigned body prog Refused
  constructor
  · exact ⟨by decide, by decide, rfl, by decide, by decide +kernel⟩
  · exact ⟨by decide, by decide, rfl, by decide, by decide +kernel⟩

end Audit

end Foam
