import Foam.Arena.Basic
import Foam.Builtin
import Foam.Usage

/-!
# Named fields

The fields of the instructions that other modules look into, by name instead of by slot, and the
entries of a unit's format table that are set aside.
-/

namespace Foam

/-! ## Reserved formats -/

namespace Format

/-- Declarations of the globals. -/
def globals : Int := 0

/-- Declarations of the constants. -/
def consts : Int := 1

/-- Declarations of the fluid variables. -/
def fluids : Int := 3

/-- A format without fields. Declarations that need no format name this one. -/
def empty : Int := 4

/-- The format of an environment whose layout is not known. -/
def envUsed : Int := 5

end Format

namespace Arena

/-! ## Units and assignments -/

/-- The format table of a unit. -/
def unitFormats (a : Arena) (unit : NodeId) : Checked NodeId := a.child unit 0

/-- The definitions of a unit. -/
def unitDefs (a : Arena) (unit : NodeId) : Checked NodeId := a.child unit 1

/-- The left side of a `Set` or `Def`. -/
def left (a : Arena) (assign : NodeId) : Checked NodeId := a.child assign 0

/-- The right side of a `Set` or `Def`. -/
def right (a : Arena) (assign : NodeId) : Checked NodeId := a.child assign 1

/-! ## Declarations -/

/-- Ordinal of the type of a `Decl` or `GDecl`. -/
def declTypeOrdinal (a : Arena) (decl : NodeId) : Checked Int64 := a.int decl 0

/-- Type of a `Decl` or `GDecl`. -/
def declType? (a : Arena) (decl : NodeId) : Checked (Option Tag) :=
  return Tag.ofOrdinal? (← a.declTypeOrdinal decl).toInt

/-- Format of a `Decl` or `GDecl`. -/
def declFormat (a : Arena) (decl : NodeId) : Checked Int64 := a.int decl 3

/-- Whether a `GDecl` is for export, as `1`, or for import, as `0`. -/
def direction (a : Arena) (gdecl : NodeId) : Checked Int64 := a.int gdecl 4

/-- Ordinal of the protocol of a `GDecl`. -/
def linkage (a : Arena) (gdecl : NodeId) : Checked Int64 := a.int gdecl 5

/-- What a `DDecl` is for. -/
def groupUsage? (a : Arena) (group : NodeId) : Checked (Option Usage) :=
  return Usage.ofOrdinal? (← a.int group 0).toInt

/-- The declarations of a `DDecl`, absent ones among them. -/
def groupDecls (a : Arena) (group : NodeId) : Checked (List NodeId) := a.childrenFrom group 1

/-! ## Procedures -/

def progResult? (a : Arena) (prog : NodeId) : Checked (Option Tag) :=
  return Tag.ofOrdinal? (← a.int prog 2).toInt

def progFormat (a : Arena) (prog : NodeId) : Checked Int64 := a.int prog 3

def progInfoBits (a : Arena) (prog : NodeId) : Checked Int64 := a.int prog 4

def progParams (a : Arena) (prog : NodeId) : Checked NodeId := a.child prog 8

def progLocals (a : Arena) (prog : NodeId) : Checked NodeId := a.child prog 9

/-- The format of each lexical level. -/
def progLevels (a : Arena) (prog : NodeId) : Checked NodeId := a.child prog 11

def progBody (a : Arena) (prog : NodeId) : Checked NodeId := a.child prog 12

/-! ## Calls -/

/-- The operator of a `BCall`. -/
def callBuiltin? (a : Arena) (call : NodeId) : Checked (Option Builtin) :=
  return Builtin.ofOrdinal? (← a.int call 0).toInt

/-- The arguments of a `BCall`. -/
def builtinArgs (a : Arena) (call : NodeId) : Checked (List NodeId) := a.childrenFrom call 1

end Arena

end Foam
