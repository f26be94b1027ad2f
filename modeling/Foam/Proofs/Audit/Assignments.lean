import Foam.Proofs.Audit.Places

/-!
# Assignments of arrays

An assignment of one array to another is held against the types of the elements. The rule passes
over the number of the empty format besides the type of elements that are not known. As the ordinal
of a type that number stands for half integers, so arrays of these are taken for any others
(`assignable_arrays`). Elements of all other types are told apart (`audit_arrayAssignments`).
-/

namespace Foam

/-! ## References to arrays -/

/-- The reference refers to an array whose elements have the type with the given ordinal. -/
structure Scope.RefersToArray (s : Scope) (a : Arena) (ref : NodeId) (element : Int64) : Prop where
  tag : ∃ tag ∈ [Tag.loc, .par, .glo, .fluid, .lex, .relt, .eelt], a.tag ref = .ok tag
  decl : ∃ decl, s.lookup? a ref = .ok (some decl) ∧ a.declType? decl = .ok (some .arr) ∧
    a.declFormat decl = .ok element

namespace Scope.RefersToArray

variable {s : Scope} {a : Arena} {ref : NodeId} {element : Int64}

theorem not_null (h : s.RefersToArray a ref element) (hw : a.WellFormed) : ref.isNull = false := by
  obtain ⟨tag, -, htag⟩ := h.tag
  obtain ⟨n, hn, -⟩ := Checked.bind_eq_ok.mp htag
  exact hw.not_null (Arena.index_lt_of_get? (Arena.get?_of_node_ok hn))

/-- A reference has the type of its declaration. -/
theorem type_eq (h : s.RefersToArray a ref element) :
    ExprType.of a (s.lookup? a) ref = .ok (.ok ⟨.arr, element⟩) := by
  obtain ⟨tag, hmem, htag⟩ := h.tag
  obtain ⟨decl, hdecl, htype, hformat⟩ := h.decl
  have hread {α β : Type} (v : α) (f : α → TypeM β) :
      ((liftM (Except.ok v : Checked α) : TypeM α) >>= f) = f v := rfl
  have hdeclared (hconst : tag ≠ .const) :
      ExprType.declared a (s.lookup? a) ref = (pure ⟨.arr, element⟩ : TypeM ExprType) := by
    unfold ExprType.declared
    simp only [htag, hdecl, htype, hformat, hread]
    rw [if_pos ⟨hconst, .inr (.inl trivial)⟩]
  unfold ExprType.of Arena.depthBound
  rw [ExprType.ofFrom, htag, hread]
  simp only [List.mem_cons, List.not_mem_nil, or_false] at hmem
  rcases hmem with rfl | rfl | rfl | rfl | rfl | rfl | rfl
  all_goals exact hdeclared (by decide)

end Scope.RefersToArray

namespace Audit

open Checked

/-! ## The rule -/

/-- The rule for arrays tells the element types apart. It passes over `Nil`, which stands for a type
that is not known, and over half integers. -/
def Clash (e e' : Int64) : Prop :=
  e ≠ e' ∧ ∀ t ∈ [Tag.nil, .hint], e.toInt ≠ t.ordinal ∧ e'.toInt ≠ t.ordinal

instance (e e' : Int64) : Decidable (Clash e e') :=
  inferInstanceAs (Decidable (e ≠ e' ∧ ∀ t ∈ [Tag.nil, .hint], e.toInt ≠ t.ordinal ∧
    e'.toInt ≠ t.ordinal))

/-- The number of the empty format is the ordinal of half integers. -/
theorem assignable_arrays (e e' : Int64) :
    Context.assignable ⟨.arr, e⟩ ⟨.arr, e'⟩ = if Clash e e' then [.elementTypes] else [] := by
  have hclash : (e != e' && !([0, Format.empty] : List Int).contains e.toInt &&
      !([0, Format.empty] : List Int).contains e'.toInt) = true ↔ Clash e e' := by
    have hnil : ((Tag.ordinal .nil : Nat) : Int) = 0 := rfl
    have hhint : ((Tag.ordinal .hint : Nat) : Int) = Format.empty := rfl
    simp [Clash, hnil, hhint]
    tauto
  show (if (Tag.arr = .arr ∧ _) then [TypeCause.elementTypes] else []) = _
  exact if_congr (by rw [eq_self, true_and]; exact hclash) rfl rfl

variable {c : Context} {x y id : NodeId} {e e' : Int64}

theorem operand_array (hw : c.arena.WellFormed)
    (h : Scope.RefersToArray ⟨c.frame.prog, c.formats⟩ c.arena x e) :
    c.operand x = .ok (.ok ⟨.arr, e⟩) := by
  have htype : c.typeOf x = .ok (.ok ⟨.arr, e⟩) := h.type_eq
  unfold Context.operand
  rw [h.not_null hw, if_neg Bool.false_ne_true, htype]
  rfl

theorem assignCauses_arrays (hw : c.arena.WellFormed) (hx : c.arena.left id = .ok x)
    (hy : c.arena.right id = .ok y)
    (hleft : Scope.RefersToArray ⟨c.frame.prog, c.formats⟩ c.arena x e)
    (hright : Scope.RefersToArray ⟨c.frame.prog, c.formats⟩ c.arena y e') :
    c.assignCauses id = .ok (if Clash e e' then [.elementTypes] else []) := by
  have hnull : (x.isNull || y.isNull) = false := by
    rw [hleft.not_null hw, hright.not_null hw]
    rfl
  obtain ⟨tag, hmem, htag⟩ := hleft.tag
  have hassignable : ∀ t ∈ [Tag.loc, .par, .glo, .fluid, .lex, .relt, .eelt],
      t ≠ .values ∧ (!t.isRef && t != .fluid) = false := by decide
  obtain ⟨hvalues, href⟩ := hassignable tag hmem
  unfold Context.assignCauses
  rw [hx, ok_bind, hy, ok_bind, hnull, if_neg Bool.false_ne_true, htag, ok_bind, if_neg hvalues,
    href, if_neg Bool.false_ne_true, operand_array hw hleft, operand_array hw hright,
    ← assignable_arrays]
  rfl

/-! ## Audits -/

theorem Frame.prog_ofProg? {a : Arena} {p : Option (Tree NodeId)} {f : Frame}
    (h : Frame.ofProg? a p = .ok f) : f.prog = p.elim .null Tree.label := by
  cases p with
  | none =>
      cases h
      rfl
  | some t => exact (Frame.ofProg_eq_ok.mp h).1

/-- With typing rules on, whichever groups they are, an audit finds every assignment of an array to
an array whose elements have clashing types, wherever it stands below the definitions. The one
failure at the node is this, and there is none at an assignment of arrays whose element types do
not clash. -/
theorem audit_arrayAssignments {a : Arena} {config : Config} {unit root formats : NodeId}
    {r : Report} (hw : a.WellFormed) (hon : config.typeChecking = true)
    (hroot : a.unitDefs unit = .ok root) (hformats : a.unitFormats unit = .ok formats)
    (hrun : audit a config unit = .ok r) :
    ∃ sites, FirstPlaces a root sites ∧
      ∀ s ∈ sites, s.node.tag = .set ∨ s.node.tag = .defn → ∀ x y e e',
        a.left s.node.label = .ok x → a.right s.node.label = .ok y →
        Scope.RefersToArray ⟨s.prog?.elim .null Tree.label, formats⟩ a x e →
        Scope.RefersToArray ⟨s.prog?.elim .null Tree.label, formats⟩ a y e' →
        (Clash e e' → ∃ text, a.render s.node.label = .ok text ∧
          r.failures.filter (·.node == s.node.label) =
            [⟨s.node.label, s.constNum?, .elementTypes, text⟩]) ∧
        (¬Clash e e' → r.failures.filter (·.node == s.node.label) = []) := by
  obtain ⟨u, sites, rules, hu, hplaces, hrules, hfailures⟩ := audit_places hw hroot hrun
  obtain ⟨rfl, rfl, hformats', -⟩ := UnitContext.ofUnit_eq_ok.mp hu
  obtain rfl : u.formats = formats := Except.ok.inj (hformats'.symm.trans hformats)
  refine ⟨sites, hplaces, fun s hs htag x y e e' hx hy hleft hright => ?_⟩
  obtain ⟨here, hhere, hfilter⟩ := failures_at_place hon hplaces.nodup hrules hs
  obtain ⟨c, causes, text, hc, hcauses, htext, hfound⟩ := failures_at_site hon hhere
  obtain ⟨rfl, hframe, hnum⟩ := contextAt_eq_ok.mp hc
  have hrule : c.typeCauses s.node.label s.node.tag = c.assignCauses s.node.label := by
    rcases htag with htag | htag
    · rw [htag]
      rfl
    · rw [htag]
      rfl
  rw [← Frame.prog_ofProg? hframe] at hleft hright
  rw [hrule, assignCauses_arrays hw hx hy hleft hright] at hcauses
  obtain rfl := Except.ok.inj hcauses
  rw [← hfailures, hfilter, hfound, failuresBy, hnum]
  constructor
  · intro hclash
    rw [if_pos hclash] at htext ⊢
    exact ⟨text, htext (List.cons_ne_nil _ _), rfl⟩
  · intro hclash
    rw [if_neg hclash]
    rfl

/-- Global zero is an array of half integers, global one of integers and global two of characters.
The assignment between the last two is a failure, and the one between the first two is none. -/
theorem audit_arrayAssignments_of_globals :
    let a : Arena := .ofRows [some (.bare .gdecl [.int 80, .str "h", .int 0, .int 4, .int 0, .int 0]),
      some (.bare .gdecl [.int 80, .str "s", .int 0, .int 5, .int 0, .int 0]),
      some (.bare .gdecl [.int 80, .str "c", .int 0, .int 1, .int 0, .int 0]),
      some (.bare .ddecl [.int 10, .code ⟨0⟩, .code ⟨1⟩, .code ⟨2⟩]),
      some (.bare .dfmt [.code ⟨3⟩]), some (.bare .glo [.int 1]), some (.bare .glo [.int 2]),
      some (.bare .defn [.code ⟨5⟩, .code ⟨6⟩]), some (.bare .glo [.int 0]),
      some (.bare .glo [.int 1]), some (.bare .defn [.code ⟨8⟩, .code ⟨9⟩]),
      some (.bare .ddef [.code ⟨7⟩, .code ⟨10⟩]), some (.bare .unit [.code ⟨4⟩, .code ⟨11⟩])] []
    let config : Config := ⟨true, fun _ => false⟩
    let r : Report := ⟨[], [⟨⟨7⟩, none, .elementTypes, "(Def (Glo 1) (Glo 2))"⟩]⟩
    a.WellFormed ∧ config.typeChecking = true ∧ a.unitDefs ⟨12⟩ = .ok ⟨11⟩ ∧
      a.unitFormats ⟨12⟩ = .ok ⟨4⟩ ∧ audit a config ⟨12⟩ = .ok r ∧
      (Scope.RefersToArray ⟨.null, ⟨4⟩⟩ a ⟨5⟩ 5 ∧ Scope.RefersToArray ⟨.null, ⟨4⟩⟩ a ⟨6⟩ 1 ∧
        Scope.RefersToArray ⟨.null, ⟨4⟩⟩ a ⟨8⟩ 4 ∧ Clash 5 1 ∧ ¬Clash 4 5) ∧
      ∃ sites, FirstPlaces a ⟨11⟩ sites ∧
        ∀ s ∈ sites, s.node.tag = .set ∨ s.node.tag = .defn → ∀ x y e e',
          a.left s.node.label = .ok x → a.right s.node.label = .ok y →
          Scope.RefersToArray ⟨s.prog?.elim .null Tree.label, ⟨4⟩⟩ a x e →
          Scope.RefersToArray ⟨s.prog?.elim .null Tree.label, ⟨4⟩⟩ a y e' →
          (Clash e e' → ∃ text, a.render s.node.label = .ok text ∧
            r.failures.filter (·.node == s.node.label) =
              [⟨s.node.label, s.constNum?, .elementTypes, text⟩]) ∧
          (¬Clash e e' → r.failures.filter (·.node == s.node.label) = []) := by
  intro a config r
  have hw : a.WellFormed := by decide
  have hroot : a.unitDefs ⟨12⟩ = .ok ⟨11⟩ := by rfl
  have hformats : a.unitFormats ⟨12⟩ = .ok ⟨4⟩ := by rfl
  have hrun : audit a config ⟨12⟩ = .ok r := by rfl
  have hfirst : Scope.RefersToArray ⟨.null, ⟨4⟩⟩ a ⟨8⟩ 4 :=
    ⟨⟨.glo, by decide, by rfl⟩, ⟨0⟩, by rfl, by rfl, by rfl⟩
  have hsecond : Scope.RefersToArray ⟨.null, ⟨4⟩⟩ a ⟨5⟩ 5 :=
    ⟨⟨.glo, by decide, by rfl⟩, ⟨1⟩, by rfl, by rfl, by rfl⟩
  have hthird : Scope.RefersToArray ⟨.null, ⟨4⟩⟩ a ⟨6⟩ 1 :=
    ⟨⟨.glo, by decide, by rfl⟩, ⟨2⟩, by rfl, by rfl, by rfl⟩
  exact ⟨hw, rfl, hroot, hformats, hrun, ⟨hsecond, hthird, hfirst, by decide, by decide⟩,
    audit_arrayAssignments hw rfl hroot hformats hrun⟩

/-- So not every assignment between arrays of known, distinct element types is found: one of the
types may be that of half integers. -/
theorem not_audit_arrayAssignments_reported :
    ¬ ∀ (a : Arena) (config : Config) (unit formats : NodeId) (defs : Tree NodeId) (r : Report),
      a.WellFormed → config.typeChecking = true → a.unitFormats unit = .ok formats →
      a.unitDefs unit = .ok defs.label → defs.In a → defs.labels.Nodup →
      audit a config unit = .ok r →
      ∀ s ∈ defs.postorder [], s.node.tag = .set ∨ s.node.tag = .defn → ∀ x y e e' t t',
        a.left s.node.label = .ok x → a.right s.node.label = .ok y →
        Scope.RefersToArray ⟨s.prog?.elim .null Tree.label, formats⟩ a x e →
        Scope.RefersToArray ⟨s.prog?.elim .null Tree.label, formats⟩ a y e' →
        Tag.ofOrdinal? e.toInt = some t → Tag.ofOrdinal? e'.toInt = some t' →
        t.isDataType ∨ t = .bint → t'.isDataType ∨ t' = .bint → t ≠ .nil → t' ≠ .nil → e ≠ e' →
        ∃ f ∈ r.failures, f.node = s.node.label := by
  intro h
  let a : Arena := .ofRows [some (.bare .gdecl [.int 80, .str "h", .int 0, .int 4, .int 0, .int 0]),
    some (.bare .gdecl [.int 80, .str "s", .int 0, .int 5, .int 0, .int 0]),
    some (.bare .ddecl [.int 10, .code ⟨0⟩, .code ⟨1⟩]), some (.bare .dfmt [.code ⟨2⟩]),
    some (.bare .glo [.int 0]), some (.bare .glo [.int 1]),
    some (.bare .defn [.code ⟨4⟩, .code ⟨5⟩]), some (.bare .ddef [.code ⟨6⟩]),
    some (.bare .unit [.code ⟨3⟩, .code ⟨7⟩])] []
  let defn : Tree NodeId := .node ⟨6⟩ .defn
    [.child (.node ⟨4⟩ .glo [.leaf (.int 0)]), .child (.node ⟨5⟩ .glo [.leaf (.int 1)])]
  let defs : Tree NodeId := .node ⟨7⟩ .ddef [.child defn]
  have hplace : (defs.postorder [])[2]? = some ⟨defn, [defs]⟩ := by rfl
  have hleft : Scope.RefersToArray ⟨.null, ⟨3⟩⟩ a ⟨4⟩ 4 :=
    ⟨⟨.glo, by decide, by rfl⟩, ⟨0⟩, by rfl, by rfl, by rfl⟩
  have hright : Scope.RefersToArray ⟨.null, ⟨3⟩⟩ a ⟨5⟩ 5 :=
    ⟨⟨.glo, by decide, by rfl⟩, ⟨1⟩, by rfl, by rfl, by rfl⟩
  obtain ⟨f, hf, -⟩ := h a ⟨true, fun _ => true⟩ ⟨8⟩ ⟨3⟩ defs .clean (by decide) rfl (by rfl)
    (by rfl) (by decide) (by decide) (by rfl) _ (List.mem_of_getElem? hplace) (.inr rfl) ⟨4⟩ ⟨5⟩ 4 5
    .hint .sint (by rfl) (by rfl) hleft hright (by rfl) (by rfl) (.inl (by rfl)) (.inl (by rfl))
    (by decide) (by decide) (by decide)
  exact absurd hf List.not_mem_nil

end Audit

end Foam
