import Foam.Proofs.Audit.Findings
import Foam.Proofs.Codec.Declared

/-!
# The rules before and after

A rule that is held against a node finds the same in what comes back of the node, where the contexts
are alike. Only the node, its operands and the declarations it refers to matter to a rule, and what it
asks of them does not tell a wide literal from the call that stands for it.
-/

namespace Foam

namespace Audit

open Foam.Tree Checked

variable {c c' : Context} {t u : Tree NodeId}

/-! ## Contexts -/

/-- Frames of a procedure and of what comes back of it, or of no procedure. -/
structure Frame.Alike (a b : Arena) (f f' : Frame) : Prop where
  prog : Twin? a b (fun p => p.tag = .prog ∧ p.KeepsFrame) f.prog f'.prog
  levels : f'.levels = f.levels
  locals : f'.locals = f.locals
  params : f'.params = f.params

/-- Contexts that say the same of a node and of what comes back of it. -/
structure Context.Alike (c c' : Context) : Prop where
  config : c'.config = c.config
  formats : Twin? c.arena c'.arena Tree.KeepsFormats c.formats c'.formats
  formatCount : c'.formatCount = c.formatCount
  constCount : c'.constCount = c.constCount
  globalCount : c'.globalCount = c.globalCount
  fluidCount : c'.fluidCount = c.fluidCount
  frame : Frame.Alike c.arena c'.arena c.frame c'.frame
  constNum : c'.constNum = c.constNum

namespace Context.Alike

theorem hasFormat (h : c.Alike c') (i : Int) : c'.hasFormat i = c.hasFormat i := by
  rw [UnitContext.hasFormat, UnitContext.hasFormat, h.formatCount]

theorem formatSize_sim (h : c.Alike c') (hw : c.arena.WellFormed) (i : Int) :
    Sim Eq (c.formatSize i) (c'.formatSize i) :=
  Foam.formatSize_sim hw h.formats i

theorem levelFormat?_sim (h : c.Alike c') (hw : c.arena.WellFormed) (level : Int) :
    Sim Eq (c.frame.levelFormat? c.arena level) (c'.frame.levelFormat? c'.arena level) := by
  refine .ite (by rw [h.frame.prog.isNull_eq]) (fun _ => .ok rfl) fun hnull => ?_
  have hprog := (h.frame.prog.of_not_null hnull).imp fun _ hp => hp.2
  exact (Foam.levelFormat?_sim hw hprog level).bind_eq fun _ => .ok rfl

theorem typeOf_sim (h : c.Alike c') (hw : c.arena.WellFormed) (ht : t.Recodes c.arena c'.arena u) :
    Sim (Outcome Eq) (c.typeOf t.label) (c'.typeOf u.label) :=
  of_sim hw ⟨h.frame.prog.imp fun _ hp => hp.2, h.formats⟩ ht

end Context.Alike

/-! ## Structural rules -/

section

variable (hw : c.arena.WellFormed) (ht : t.Recodes c.arena c'.arena u)

include hw ht

theorem assignFault?_sim : Sim Eq (c.assignFault? t.label) (c'.assignFault? u.label) := by
  refine (ht.child_sim hw 0).bind fun x y hxy => ?_
  refine .ite (by rw [hxy.isNull_eq]) (fun _ => .ok rfl) fun hnull => ?_
  cases hxy.of_not_null hnull with
  | @intro l m hl _ =>
      rw [hl.source.tag_eq, hl.target.tag_eq]
      refine .ite (hl.tag_iff hw (by decide) (by decide)) (fun hvalues => ?_) fun _ => .ok rfl
      have hwide : l.wide? = none := wide?_of_ne_sint (by rw [hvalues]; decide)
      exact (hl.slotCount_sim hw hwide).bind_eq fun n => .ok rfl

theorem rawFormatFault?_sim : Sim Eq (c.rawFormatFault? t.label) (c'.rawFormatFault? u.label) := by
  refine (ht.child_sim hw 0).bind fun x y hxy => ?_
  refine .ite (by rw [hxy.isNull_eq]) (fun _ => .ok rfl) fun hnull => ?_
  cases hxy.of_not_null hnull with
  | intro hl _ =>
      rw [hl.source.tag_eq, hl.target.tag_eq]
      refine .ok ?_
      rw [hl.tag_beq hw (by decide) (by decide)]

variable (hwide : t.wide? = none) (htag : t.tag ≠ .prog)

include hwide htag

theorem bounded_sim {count count' : Nat} (hcount : count' = count) :
    Sim Eq (do return Context.bounded (← c.arena.int t.label 0) count)
      (do return Context.bounded (← c'.arena.int u.label 0) count') := by
  rw [hcount]
  exact (ht.num_sim hw hwide htag 0).bind_eq fun v => .ok rfl

variable (h : c.Alike c')

include h

theorem lexFault?_sim : Sim Eq (c.lexFault? t.label) (c'.lexFault? u.label) := by
  have hint := ht.num_sim hw hwide htag
  refine (hint 0).bind_eq fun level => .ite (by rw [h.frame.levels]) (fun _ => .ok rfl) fun _ => ?_
  refine (h.levelFormat?_sim hw _).bind_eq fun format => ?_
  cases format with
  | none => exact .ok rfl
  | some format =>
      refine .ite (by rw [h.hasFormat]) (fun _ => (hint 1).bind_eq fun i => ?_) fun _ => .ok rfl
      exact (h.formatSize_sim hw format).bind_eq fun size => .ok rfl

theorem envElementFault?_sim :
    Sim Eq (c.envElementFault? t.label) (c'.envElementFault? u.label) := by
  have hint := ht.num_sim hw hwide htag
  refine (hint 0).bind_eq fun format => .ite (by rw [h.hasFormat]) (fun _ => ?_) fun _ => .ok rfl
  refine (hint 3).bind_eq fun i => (h.formatSize_sim hw _).bind_eq fun size => ?_
  exact .ite Iff.rfl (fun _ => (hint 2).bind_eq fun level => .ok rfl) fun _ => .ok rfl

theorem castFault?_sim : Sim Eq (c.castFault? t.label) (c'.castFault? u.label) := by
  refine (ht.child_sim hw 1).bind fun x y hxy => ?_
  refine .ite (by rw [hxy.isNull_eq]) (fun _ => .ok rfl) fun hnull => ?_
  cases hxy.of_not_null hnull with
  | intro hl _ =>
      rw [hl.source.tag_eq, hl.target.tag_eq]
      refine .ite (hl.tag_iff hw (by decide) (by decide)) (fun _ => .ok rfl) fun _ => ?_
      refine (ht.num_sim hw hwide htag 0).bind_eq fun v => ?_
      split
      · refine (h.typeOf_sim hw hl).bind fun r r' hr => ?_
        cases hr with
        | ok htype =>
            cases htype
            exact .ok rfl
        | error => exact .ok rfl
      · refine .ok ?_
        rw [bne, bne, hl.tag_beq hw (by decide) (by decide)]
      · exact .ok rfl

theorem declFault?_sim : Sim Eq (c.declFault? t.label) (c'.declFault? u.label) := by
  have hint := ht.num_sim hw hwide htag
  refine (hint 3).bind_eq fun format => ?_
  refine Sim.bind_eq ((hint 0).bind_eq fun v => .ok rfl) fun type => ?_
  simp only [h.hasFormat]
  exact .refl _

theorem levelsFault?_sim : Sim Eq (c.levelsFault? t.label) (c'.levelsFault? u.label) := by
  refine (ht.intsFrom_sim hw hwide htag 0).bind_eq fun formats => .ok ?_
  simp only [h.hasFormat]

theorem javaSignature?_sim : Sim (Option.Rel (Twin c.arena c'.arena fun g => g.Steady ∧ g.KeepsDecls))
    (c.javaSignature? t.label) (c'.javaSignature? u.label) := by
  refine (ht.num_sim hw hwide htag 0).bind_eq fun i => ?_
  refine (formatDecl?_sim hw h.formats _ _).bind fun d d' hd => ?_
  cases hd with
  | none => exact .ok .none
  | some hd =>
      refine (steady_int hw hd 3).bind_eq fun format => ?_
      refine (format?_sim hw h.formats _).bind fun g g' hg => ?_
      cases hg with
      | none => exact .ok .none
      | some hg =>
          refine (groupUsage?_sim hw (hg.imp fun _ hg => hg.1)).bind_eq fun usage => .ok ?_
          split
          · exact .some hg
          · exact .none

theorem callFault?_sim : Sim Eq (c.callFault? t.label) (c'.callFault? u.label) := by
  refine (ht.num_sim hw hwide htag 0).bind_eq fun v => .ite Iff.rfl (fun _ => .ok rfl) fun _ => ?_
  refine (ht.child_sim hw 2).bind fun x y hxy => ?_
  refine .ite (by rw [hxy.isNull_eq]) (fun _ => .ok rfl) fun hnull => ?_
  cases hxy.of_not_null hnull with
  | @intro l m hl _ =>
      rw [hl.source.tag_eq, hl.target.tag_eq]
      cases hlwide : l.wide? with
      | some v =>
          -- neither a literal nor the expression for one can be called
          rw [tag_of_wide hlwide]
          rcases (hl.of_wide hlwide).tag_eq with hm | hm
          · rw [hm]
            exact .ok rfl
          · rw [hm]
            exact .ok rfl
      | none =>
          rw [(hl.node hw hlwide).1, Checked.ok_bind, Checked.ok_bind]
          cases hltag : l.tag
          case arr =>
            exact (hl.num_sim hw hlwide (by rw [hltag]; decide) 0).bind_eq fun v => .ok rfl
          case glo =>
            refine (ht.slotCount_sim hw hwide).bind_eq fun n => ?_
            refine (javaSignature?_sim hw hl hlwide (by rw [hltag]; decide) h).bind fun g g' hg => ?_
            cases hg with
            | none => exact .ok rfl
            | some hg =>
                exact (groupSize_sim hw (hg.imp fun _ hg => hg.1.1)).bind_eq fun size => .ok rfl
          all_goals exact .ok rfl

end

/-- A rule finds the same fault, or none, before and after. -/
theorem fault?_sim (h : c.Alike c') (hw : c.arena.WellFormed) (ht : t.Recodes c.arena c'.arena u)
    (hwide : t.wide? = none) :
    Sim Eq (c.fault? t.label t.tag) (c'.fault? u.label t.tag) := by
  by_cases htag : t.tag = .prog
  · rw [htag]
    exact .ok rfl
  · unfold Context.fault?
    cases hT : t.tag
    case set | defn => exact assignFault?_sim hw ht
    case loc => exact bounded_sim hw ht hwide htag h.frame.locals
    case par => exact bounded_sim hw ht hwide htag h.frame.params
    case const => exact bounded_sim hw ht hwide htag h.constCount
    case glo => exact bounded_sim hw ht hwide htag h.globalCount
    case fluid => exact bounded_sim hw ht hwide htag h.fluidCount
    case env => exact bounded_sim hw ht hwide htag h.frame.levels
    case lex => exact lexFault?_sim hw ht hwide htag h
    case eelt => exact envElementFault?_sim hw ht hwide htag h
    case relt | rnew | pushEnv => exact bounded_sim hw ht hwide htag h.formatCount
    case rrelt => exact (ht.num_sim hw hwide htag 0).bind_eq fun _ => .ok rfl
    case rrfmt => exact rawFormatFault?_sim hw ht
    case cast => exact castFault?_sim hw ht hwide htag h
    case decl => exact declFault?_sim hw ht hwide htag h
    case denv => exact levelsFault?_sim hw ht hwide htag h
    case pcall => exact callFault?_sim hw ht hwide htag h
    all_goals exact .ok rfl

/-! ## Typing rules -/

/-- As many causes in the one list as in the other. -/
abbrev AsMany : List TypeCause → List TypeCause → Prop := List.Forall₂ fun _ _ => True

theorem AsMany.refl (xs : List TypeCause) : AsMany xs xs :=
  List.forall₂_same.mpr fun _ _ => trivial

theorem AsMany.single (x y : TypeCause) : AsMany [x] [y] := .cons trivial .nil

section

variable (h : c.Alike c') (hw : c.arena.WellFormed)

include h hw

theorem operand_sim {x y : NodeId} (hxy : Twin? c.arena c'.arena (fun _ => True) x y) :
    Sim (Outcome Eq) (c.operand x) (c'.operand y) := by
  refine .ite (by rw [hxy.isNull_eq]) (fun _ => .ok (.error _ _)) fun hnull => ?_
  cases hxy.of_not_null hnull with
  | intro ht _ =>
      refine (h.typeOf_sim hw ht).bind fun r r' hr => ?_
      cases hr with
      | ok htype => exact .ok (.ok htype)
      | error => exact .ok (.error _ _)

theorem envCauses_sim (format : Int64) : Sim AsMany (c.envCauses format) (c'.envCauses format) := by
  refine .ite (by rw [h.config]) (fun _ => .ok .nil) fun _ => ?_
  refine (formatUsage?_sim hw h.formats _).bind_eq fun usage => ?_
  cases usage <;> exact .ok (.refl _)

theorem recordCauses_sim (type : ExprType) :
    Sim AsMany (c.recordCauses type) (c'.recordCauses type) := by
  refine .ite (by rw [h.config]) (fun _ => .ok .nil) fun _ => ?_
  refine (formatUsage?_sim hw h.formats _).bind_eq fun usage => ?_
  exact .ite Iff.rfl (fun _ => .ok .nil) fun _ => .ok (.refl _)

theorem valueCauses_sim {x y : NodeId} (hgroup : Twin c.arena c'.arena Tree.KeepsDecls x y) (i : Nat)
    {v w : NodeId} (hvw : Twin? c.arena c'.arena (fun _ => True) v w) :
    Sim AsMany (c.valueCauses x i v) (c'.valueCauses y i w) := by
  refine (operand_sim h hw hvw).bind fun r r' hr => ?_
  cases hr with
  | error => exact .ok (.single _ _)
  | @ok type type' htype =>
      obtain rfl := htype
      refine (groupDecl?_sim hw hgroup i).bind fun d d' hd => ?_
      cases hd with
      | none => exact .ok .nil
      | some hd =>
          refine (declType?_sim hw hd).bind_eq fun declared => ?_
          refine .ite_join (fun formatCause => ?_) (fun _ hnext => ?_) fun _ => .ok rfl
          · refine (recordCauses_sim h hw type).bind fun xs ys hxy => .ok ?_
            exact List.rel_append (AsMany.refl _) hxy
          · exact (steady_int hw hd 3).bind_eq fun format => .bind_eq (.ok rfl) hnext

theorem valuesCauses_sim (ht : t.Recodes c.arena c'.arena u) (hwide : t.wide? = none)
    (format : Int64) :
    Sim AsMany (c.valuesCauses t.label format) (c'.valuesCauses u.label format) := by
  refine .ite (by rw [h.config]) (fun _ => .ok .nil) fun _ => ?_
  refine (ht.slotCount_sim hw hwide).bind_eq fun given => ?_
  refine .ite_join (fun slots => ?_) (fun _ hnext => .bind_eq (.ok rfl) hnext)
    fun _ => h.formatSize_sim hw format.toInt
  refine .ite Iff.rfl (fun _ => .ok (.single _ _)) fun _ => ?_
  refine (format?_sim hw h.formats _).bind fun g g' hg => ?_
  cases hg with
  | none => exact .ok .nil
  | some hg =>
      refine (ht.childrenFrom_sim hw hwide 0).bind fun vs ws hvws => ?_
      refine (Sim.mapM (S := AsMany) (forall₂_zipIdx hvws 0) ?_).bind fun xs ys hxy =>
        .ok (List.rel_flatten hxy)
      rintro ⟨v, i⟩ ⟨w, _⟩ ⟨hvw, rfl⟩
      exact valueCauses_sim h hw (hg.imp fun _ hg => hg.2) i hvw

theorem argCauses_sim (op : Builtin) (i : Nat) {x y : NodeId}
    (hxy : Twin? c.arena c'.arena (fun _ => True) x y) (param : Tag) :
    Sim AsMany (c.argCauses op i x param) (c'.argCauses op i y param) := by
  refine (operand_sim h hw hxy).bind fun r r' hr => ?_
  cases hr with
  | error => exact .ok (.single _ _)
  | @ok type type' htype =>
      obtain rfl := htype
      refine (recordCauses_sim h hw type).bind fun xs ys hxy => .ok ?_
      exact List.rel_append (AsMany.refl _) hxy

variable (ht : t.Recodes c.arena c'.arena u)

include ht

theorem assignCauses_sim : Sim AsMany (c.assignCauses t.label) (c'.assignCauses u.label) := by
  refine (ht.child_sim hw 0).bind fun x x' hx => (ht.child_sim hw 1).bind fun y y' hy => ?_
  refine .ite (by rw [hx.isNull_eq, hy.isNull_eq]) (fun _ => .ok .nil) fun hnull => ?_
  rw [Bool.or_eq_true, not_or] at hnull
  have hleft := operand_sim h hw (hx.imp fun _ _ => trivial)
  have hright := operand_sim h hw (hy.imp fun _ _ => trivial)
  obtain ⟨l, l', hl, -, rfl, rfl⟩ := (hx.of_not_null hnull.1).trees
  obtain ⟨r, r', hr, -, rfl, rfl⟩ := (hy.of_not_null hnull.2).trees
  rw [hl.source.tag_eq, hl.target.tag_eq, hr.source.tag_eq, hr.target.tag_eq]
  refine .ite (hl.tag_iff hw (by decide) (by decide)) (fun hvalues => ?_) fun _ => ?_
  · have hlwide : l.wide? = none := wide?_of_ne_sint (by rw [hvalues]; decide)
    refine .ite (hr.tag_iff hw (by decide) (by decide)) (fun hmfmt => ?_) fun _ => .ok (.single _ _)
    have hrwide : r.wide? = none := wide?_of_ne_sint (by rw [hmfmt]; decide)
    refine (hr.num_sim hw hrwide (by rw [hmfmt]; decide) 0).bind_eq fun format => ?_
    exact valuesCauses_sim h hw hl hlwide format
  · refine .ite ?_ (fun _ => .ok (.single _ _)) fun _ => ?_
    · rw [hl.isRef_eq hw, bne, bne, hl.tag_beq hw (by decide) (by decide)]
    · refine hleft.bind fun e e' he => hright.bind fun f f' hf => ?_
      cases he with
      | error =>
          cases hf with
          | error => exact .ok (.cons trivial (AsMany.single _ _))
          | ok => exact .ok (.single _ _)
      | ok htype =>
          cases hf with
          | error => exact .ok (.single _ _)
          | ok htype' =>
              cases htype
              cases htype'
              exact .ok (.refl _)

theorem branchCauses_sim : Sim AsMany (c.branchCauses t.label) (c'.branchCauses u.label) := by
  refine (ht.child_sim hw 0).bind fun x y hxy => ?_
  refine (operand_sim h hw (hxy.imp fun _ _ => trivial)).bind fun r r' hr => ?_
  cases hr with
  | error => exact .ok (.single _ _)
  | @ok type type' htype =>
      obtain rfl := htype
      exact .ok (.refl _)

theorem castCauses_sim : Sim AsMany (c.castCauses t.label) (c'.castCauses u.label) := by
  refine (ht.child_sim hw 1).bind fun x y hxy => ?_
  refine (operand_sim h hw (hxy.imp fun _ _ => trivial)).bind fun r r' hr => ?_
  cases hr with
  | error => exact .ok (.single _ _)
  | ok => exact .ok .nil

theorem returnCauses_sim : Sim AsMany (c.returnCauses t.label) (c'.returnCauses u.label) := by
  refine .ite (by rw [h.frame.prog.isNull_eq]) (fun _ => .ok .nil) fun hnull => ?_
  refine (ht.child_sim hw 0).bind fun x y hxy => ?_
  have hvalue := operand_sim h hw (hxy.imp fun _ _ => trivial)
  obtain ⟨p, p', hp, hprog, hsource, htarget⟩ := (h.frame.prog.of_not_null hnull).trees
  have hpwide : p.wide? = none := wide?_of_ne_sint (by rw [hprog.1]; decide)
  have hint (i : Nat) (hi : i ≠ 0) := hp.int_sim hw hpwide (i := i) fun _ => hi
  rw [hsource, htarget]
  refine Sim.bind_eq ((hint 2 (by decide)).bind_eq fun v => .ok rfl) fun result => ?_
  split
  · exact .ok .nil
  · refine .ite (by rw [hxy.isNull_eq]) (fun _ => .ok (.single _ _)) fun hnull => ?_
    obtain ⟨l, m, hl, -, rfl, rfl⟩ := (hxy.of_not_null hnull).trees
    rw [hl.source.tag_eq, hl.target.tag_eq]
    refine .ite (hl.tag_iff hw (by decide) (by decide)) (fun hvalues => ?_) fun _ =>
      .ok (.single _ _)
    have hlwide : l.wide? = none := wide?_of_ne_sint (by rw [hvalues]; decide)
    refine (hint 3 (by decide)).bind_eq fun format => ?_
    exact valuesCauses_sim h hw hl hlwide format
  · refine hvalue.bind fun e e' he => ?_
    cases he with
    | error => exact .ok (.single _ _)
    | ok htype =>
        cases htype
        exact .ok (.refl _)

variable (hwide : t.wide? = none)

include hwide

theorem builtinCauses_sim (htag : t.tag ≠ .prog) :
    Sim AsMany (c.builtinCauses t.label) (c'.builtinCauses u.label) := by
  refine Sim.bind_eq ((ht.num_sim hw hwide htag 0).bind_eq fun v => .ok rfl) fun op => ?_
  cases op with
  | none => exact .ok .nil
  | some op =>
      refine (ht.childrenFrom_sim hw hwide 1).bind fun vs ws hvws => ?_
      refine (Sim.mapM (S := AsMany) (forall₂_zipIdx (forall₂_zip_right hvws op.params) 0) ?_).bind ?_
      · rintro ⟨⟨v, param⟩, i⟩ ⟨⟨w, _⟩, _⟩ ⟨⟨hvw, rfl⟩, rfl⟩
        exact argCauses_sim h hw op i hvw param
      · intro xs ys hxy
        rw [hvws.length_eq]
        exact .ok (List.rel_append (AsMany.refl _) (List.rel_flatten hxy))

end

/-- A typing rule finds as many causes of failure before and after. -/
theorem typeCauses_sim (h : c.Alike c') (hw : c.arena.WellFormed)
    (ht : t.Recodes c.arena c'.arena u) (hwide : t.wide? = none) :
    Sim AsMany (c.typeCauses t.label t.tag) (c'.typeCauses u.label t.tag) := by
  by_cases htag : t.tag = .prog
  · rw [htag]
    exact .ok .nil
  · unfold Context.typeCauses
    rw [h.config]
    cases hT : t.tag
    case set | defn => exact assignCauses_sim h hw ht
    case branch => exact .ite Iff.rfl (fun _ => branchCauses_sim h hw ht) fun _ => .ok .nil
    case ret => exact .ite Iff.rfl (fun _ => returnCauses_sim h hw ht) fun _ => .ok .nil
    case cast => exact .ite Iff.rfl (fun _ => castCauses_sim h hw ht) fun _ => .ok .nil
    case pushEnv | eelt => exact (ht.num_sim hw hwide htag 0).bind_eq fun f => envCauses_sim h hw f
    case bcall =>
      exact .ite Iff.rfl (fun _ => builtinCauses_sim h hw ht hwide htag) fun _ => .ok .nil
    all_goals exact .ok .nil

end Audit

end Foam
