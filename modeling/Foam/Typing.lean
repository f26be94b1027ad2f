import Foam.Declaration
import Foam.NameSort

/-!
# Types of expressions

Most instructions are of the type they name themselves. A reference has the type of its declaration,
which is found in a scope: the enclosing procedure and the format table of the unit.
-/

namespace Foam

/-- A type. Records, and records with a trailing array, come with their format, arrays with the
ordinal of their element type, and all else with the empty format. -/
structure ExprType where
  tag : Tag
  extra : Int64
  deriving DecidableEq

namespace ExprType

def plain (tag : Tag) : ExprType := ⟨tag, Int64.ofInt Format.empty⟩

end ExprType

/-- Why an expression has no type. -/
inductive ExprTypeError
  | unresolvedDecl (tag : Tag) (node : NodeId)
  | badOrdinal (tag : Tag) (node : NodeId) (sort : NameSort) (value : Int64)
  | unhandled (tag : Tag)
  deriving DecidableEq

def ExprTypeError.message : ExprTypeError → String
  | .unresolvedDecl tag node => "no declaration for " ++ tag.name ++ " node " ++ node.text
  | .badOrdinal tag node sort value => tag.name ++ " node " ++ node.text ++ " has an invalid " ++
      sort.text ++ " ordinal " ++ toString value.toInt
  | .unhandled tag => tag.name ++ " has no expression type"

/-- Where declarations are looked up. Outside a procedure `prog` is null, and locals, parameters and
lexical references have no declaration. -/
structure Scope where
  prog : NodeId
  formats : NodeId

namespace Scope

/-- A declaration from one of the groups of the procedure. -/
def progDecl? (s : Scope) (a : Arena) (group : Arena → NodeId → Checked NodeId) (index : Int) :
    Checked (Option NodeId) := do
  if s.prog.isNull then return none else a.groupDecl? (← group a s.prog) index

/-- The declaration that a reference refers to. -/
def lookup? (s : Scope) (a : Arena) (expr : NodeId) : Checked (Option NodeId) := do
  match ← a.tag expr with
  | .loc => s.progDecl? a Arena.progLocals (← a.int expr 0).toInt
  | .par => s.progDecl? a Arena.progParams (← a.int expr 0).toInt
  | .glo => a.formatDecl? s.formats Format.globals (← a.int expr 0).toInt
  | .fluid => a.formatDecl? s.formats Format.fluids (← a.int expr 0).toInt
  | .const => a.formatDecl? s.formats Format.consts (← a.int expr 0).toInt
  | .lex =>
    if s.prog.isNull then return none
    match ← a.levelFormat? s.prog (← a.int expr 0).toInt with
    | some format => a.formatDecl? s.formats format.toInt (← a.int expr 1).toInt
    | none => return none
  | .relt => a.formatDecl? s.formats (← a.int expr 0).toInt (← a.int expr 2).toInt
  | .irelt =>
    match ← a.format? s.formats (← a.int expr 0).toInt with
    | some group => a.leadingDecl? group (← a.int expr 2).toInt
    | none => return none
  | .trelt =>
    match ← a.format? s.formats (← a.int expr 0).toInt with
    | some group => a.elementDecl? group (← a.int expr 3).toInt
    | none => return none
  | .eelt => a.formatDecl? s.formats (← a.int expr 0).toInt (← a.int expr 3).toInt
  | _ => return none

end Scope

/-- Computations of a type. -/
abbrev TypeM := ExceptT ExprTypeError Checked

namespace ExprType

/-- The type whose ordinal is in slot `i`. -/
def typeIn (a : Arena) (expr : NodeId) (i : Nat) : TypeM Tag := do
  let v ← a.int expr i
  match Tag.ofOrdinal? v.toInt with
  | some t => return t
  | none => throw (.badOrdinal (← a.tag expr) expr .type v)

/-- The result of the builtin whose ordinal is in the first slot. -/
def resultOf (a : Arena) (expr : NodeId) : TypeM Tag := do
  let v ← a.int expr 0
  match Builtin.ofOrdinal? v.toInt with
  | some b => return b.result
  | none => throw (.badOrdinal (← a.tag expr) expr .builtin v)

/-- The type of a reference by its declaration. -/
def declared (a : Arena) (lookup? : NodeId → Checked (Option NodeId)) (expr : NodeId) :
    TypeM ExprType := do
  let t ← a.tag expr
  match ← lookup? expr with
  | none => throw (.unresolvedDecl t expr)
  | some decl =>
    match ← a.declType? decl with
    | none => throw (.badOrdinal (← a.tag decl) decl .type (← a.declTypeOrdinal decl))
    | some type =>
      if t ≠ .const ∧ (type = .record ∨ type = .arr ∨ type = .tr) then
        return ⟨type, ← a.declFormat decl⟩
      else return plain type

/-- The type of an expression that is no assignment. -/
def ofTag (a : Arena) (lookup? : NodeId → Checked (Option NodeId)) (expr : NodeId) (t : Tag) :
    TypeM ExprType := do
  match t with
  | .nil | .char | .bool | .byte | .hint | .sint | .sflo | .dflo | .word | .arb | .ptr | .clos
  | .gener | .genIter | .bint | .env | .rrec | .prog => return plain t
  | .record | .arr => return ⟨t, ← a.int expr 0⟩
  | .rnew | .mfmt => return ⟨.record, ← a.int expr 0⟩
  | .trnew => return ⟨.tr, ← a.int expr 0⟩
  | .anew => return ⟨.arr, ← a.int expr 0⟩
  | .bval | .bcall => return plain (← resultOf a expr)
  | .cprog => return plain .prog
  | .cenv | .pushEnv | .eenv => return plain .env
  | .cast =>
    let type ← typeIn a expr 0
    return if type = .arr then ⟨.arr, 0⟩ else plain type
  | .aelt | .ccall | .ocall => return plain (← typeIn a expr 0)
  | .pcall => return plain (← typeIn a expr 1)
  | .par | .loc | .glo | .fluid | .const | .lex | .relt | .irelt | .trelt | .eelt =>
    declared a lookup? expr
  | .rrnew => return plain .rrec
  | .rrfmt | .rrelt | .generValue | .einfo => return plain .word
  | .pref => return plain .sint
  | .values => return plain .nop
  | _ => throw (.unhandled t)

def ofFrom (a : Arena) (lookup? : NodeId → Checked (Option NodeId)) :
    (depth : Nat) → NodeId → TypeM ExprType
  | 0, _ => (throw Misuse.cyclic : Checked _)
  | depth + 1, expr => do
    let t ← a.tag expr
    if t = .set ∨ t = .defn then ofFrom a lookup? depth (← a.right expr)
    else ofTag a lookup? expr t

/-- The type of an expression, with references looked up by the given function. An assignment has
the type of its right side. -/
def of (a : Arena) (lookup? : NodeId → Checked (Option NodeId)) (expr : NodeId) :
    Checked (Except ExprTypeError ExprType) :=
  ofFrom a lookup? a.depthBound expr

end ExprType

end Foam
