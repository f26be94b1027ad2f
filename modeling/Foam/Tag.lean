import Foam.Layout
import Foam.Table

/-!
# Instruction tags

Every node carries a tag, and the tag's layout says what its slots hold. The order of the tags is
part of the binary form: data types come first, then instructions of fixed form, then those whose
encoded byte also carries an integer format, among them the references by one index and by several,
and last the instructions with a repeated tail.

Constructors are the instruction's mnemonic in lower case. `If`, `Def`, `Return`, `Catch` and `Rec`,
whose lower case is taken, are `branch`, `defn`, `ret`, `catches` and `record`.
-/

namespace Foam

/-- An instruction. -/
inductive Tag
  | nil | char | bool | byte | hint | sint | sflo | dflo | word | arb | int8 | int16 | int32
  | int64 | int128 | nop | bval | ptr | cprog | cenv | loose | eensure | einfo | kill | free
  | ret | cast | anew | rrnew | rrec | clos | set | defn | aelt | branch | goto | throw
  | catches | protect | unit | pushEnv | popEnv | mfmt | rrfmt | javaObj | cobj | gener | yield
  | genIter | generValue | generStep | unimp | gdecl | decl | bint | par | loc | glo | fluid
  | const | env | eenv | rnew | pref | trnew | rrelt | label | lex | relt | irelt | trelt
  | eelt | cfcall | ofcall | ddecl | dfluid | denv | ddef | dfmt | record | arr | tr | select
  | pcall | bcall | ccall | ocall | seq | values | prog
  deriving DecidableEq, Repr

namespace Tag

/-- Every tag in table order. -/
def all : List Tag :=
  [.nil, .char, .bool, .byte, .hint, .sint, .sflo, .dflo, .word, .arb, .int8, .int16, .int32,
   .int64, .int128, .nop, .bval, .ptr, .cprog, .cenv, .loose, .eensure, .einfo, .kill, .free,
   .ret, .cast, .anew, .rrnew, .rrec, .clos, .set, .defn, .aelt, .branch, .goto, .throw,
   .catches, .protect, .unit, .pushEnv, .popEnv, .mfmt, .rrfmt, .javaObj, .cobj, .gener,
   .yield, .genIter, .generValue, .generStep, .unimp, .gdecl, .decl, .bint, .par, .loc, .glo,
   .fluid, .const, .env, .eenv, .rnew, .pref, .trnew, .rrelt, .label, .lex, .relt, .irelt,
   .trelt, .eelt, .cfcall, .ofcall, .ddecl, .dfluid, .denv, .ddef, .dfmt, .record, .arr, .tr,
   .select, .pcall, .bcall, .ccall, .ocall, .seq, .values, .prog]

/-- The mnemonic, as the text form writes it. -/
def name : Tag → String
  | .nil => "Nil"
  | .char => "Char"
  | .bool => "Bool"
  | .byte => "Byte"
  | .hint => "HInt"
  | .sint => "SInt"
  | .sflo => "SFlo"
  | .dflo => "DFlo"
  | .word => "Word"
  | .arb => "Arb"
  | .int8 => "Int8"
  | .int16 => "Int16"
  | .int32 => "Int32"
  | .int64 => "Int64"
  | .int128 => "Int128"
  | .nop => "NOp"
  | .bval => "BVal"
  | .ptr => "Ptr"
  | .cprog => "CProg"
  | .cenv => "CEnv"
  | .loose => "Loose"
  | .eensure => "EEnsure"
  | .einfo => "EInfo"
  | .kill => "Kill"
  | .free => "Free"
  | .ret => "Return"
  | .cast => "Cast"
  | .anew => "ANew"
  | .rrnew => "RRNew"
  | .rrec => "RRec"
  | .clos => "Clos"
  | .set => "Set"
  | .defn => "Def"
  | .aelt => "AElt"
  | .branch => "If"
  | .goto => "Goto"
  | .throw => "Throw"
  | .catches => "Catch"
  | .protect => "Protect"
  | .unit => "Unit"
  | .pushEnv => "PushEnv"
  | .popEnv => "PopEnv"
  | .mfmt => "MFmt"
  | .rrfmt => "RRFmt"
  | .javaObj => "JavaObj"
  | .cobj => "CObj"
  | .gener => "Gener"
  | .yield => "Yield"
  | .genIter => "GenIter"
  | .generValue => "GenerValue"
  | .generStep => "GenerStep"
  | .unimp => "Unimp"
  | .gdecl => "GDecl"
  | .decl => "Decl"
  | .bint => "BInt"
  | .par => "Par"
  | .loc => "Loc"
  | .glo => "Glo"
  | .fluid => "Fluid"
  | .const => "Const"
  | .env => "Env"
  | .eenv => "EEnv"
  | .rnew => "RNew"
  | .pref => "PRef"
  | .trnew => "TRNew"
  | .rrelt => "RRElt"
  | .label => "Label"
  | .lex => "Lex"
  | .relt => "RElt"
  | .irelt => "IRElt"
  | .trelt => "TRElt"
  | .eelt => "EElt"
  | .cfcall => "CFCall"
  | .ofcall => "OFCall"
  | .ddecl => "DDecl"
  | .dfluid => "DFluid"
  | .denv => "DEnv"
  | .ddef => "DDef"
  | .dfmt => "DFmt"
  | .record => "Rec"
  | .arr => "Arr"
  | .tr => "TR"
  | .select => "Select"
  | .pcall => "PCall"
  | .bcall => "BCall"
  | .ccall => "CCall"
  | .ocall => "OCall"
  | .seq => "Seq"
  | .values => "Values"
  | .prog => "Prog"

/-- What the slots of a node with this tag hold. -/
def layout : Tag → Layout
  | .nil | .nop | .popEnv | .javaObj | .cobj => ⟨[], none⟩
  | .char | .bool | .byte | .int8 | .int16 | .int32 | .int64 | .int128 => ⟨[.byte], none⟩
  | .hint => ⟨[.halfWord], none⟩
  | .sint | .word => ⟨[.word], none⟩
  | .sflo => ⟨[.sflo], none⟩
  | .dflo => ⟨[.dflo], none⟩
  | .arb => ⟨[.arb], none⟩
  | .bval => ⟨[.builtin], none⟩
  | .ptr | .cprog | .cenv | .loose | .eensure | .einfo | .kill | .free | .ret | .rrfmt | .yield
  | .genIter | .generValue => ⟨[.child], none⟩
  | .cast | .anew => ⟨[.typeTag, .child], none⟩
  | .rrnew | .pushEnv | .mfmt | .eenv | .pref | .trnew => ⟨[.index, .child], none⟩
  | .rrec | .clos | .set | .defn | .throw | .catches | .protect | .unit =>
      ⟨[.child, .child], none⟩
  | .aelt => ⟨[.typeTag, .child, .child], none⟩
  | .branch => ⟨[.child, .label], none⟩
  | .goto => ⟨[.label], none⟩
  | .gener | .rrelt => ⟨[.index, .child, .child], none⟩
  | .generStep => ⟨[.label, .child], none⟩
  | .unimp => ⟨[.str], none⟩
  | .gdecl => ⟨[.typeTag, .str, .word, .index, .byte, .protocol], none⟩
  | .decl => ⟨[.typeTag, .str, .word, .index], none⟩
  | .bint => ⟨[.bint], none⟩
  | .par | .loc | .glo | .fluid | .const | .env | .rnew | .label => ⟨[.index], none⟩
  | .lex => ⟨[.index, .index], none⟩
  | .relt | .irelt => ⟨[.index, .child, .index], none⟩
  | .trelt => ⟨[.index, .child, .child, .index], none⟩
  | .eelt => ⟨[.index, .child, .index, .index], none⟩
  | .cfcall | .ofcall => ⟨[.index, .index, .child, .child], none⟩
  | .ddecl => ⟨[.declUsage], some .child⟩
  | .dfluid | .denv => ⟨[], some .index⟩
  | .ddef | .dfmt | .seq | .values => ⟨[], some .child⟩
  | .record | .tr => ⟨[.index], some .child⟩
  | .arr => ⟨[.typeTag], some .word⟩
  | .select => ⟨[.child], some .label⟩
  | .pcall => ⟨[.protocol, .typeTag], some .child⟩
  | .bcall => ⟨[.builtin], some .child⟩
  | .ccall => ⟨[.typeTag, .child], some .child⟩
  | .ocall => ⟨[.typeTag, .child, .child], some .child⟩
  | .prog =>
      ⟨[.treeLength, .labelFormat, .typeTag, .word, .word, .word, .word, .word], some .child⟩

theorem all_ordinal (t : Tag) : all[t.ctorIdx]? = some t := by cases t <;> rfl

private theorem ctorIdx_allTag : ∀ i : Fin all.length, (all[i]).ctorIdx = i.val := by
  decide +kernel

theorem ordinal_of_all (i : Nat) (a : Tag) (h : all[i]? = some a) : a.ctorIdx = i := by
  obtain ⟨hi, rfl⟩ := List.getElem?_eq_some_iff.1 h
  exact ctorIdx_allTag ⟨i, hi⟩

instance : Table Tag where
  rows := all
  name := name
  ordinal := Tag.ctorIdx
  rows_ordinal := all_ordinal
  ordinal_of_rows := ordinal_of_all

/-- Position in the table. -/
abbrev ordinal (t : Tag) : Nat := Table.ordinal t

abbrev ofOrdinal? (n : Int) : Option Tag := Table.ofOrdinal? n

abbrev ofName? (s : String) : Option Tag := Table.ofName? s

/-! ## Ranges of the table -/

/-- The first tag that is not a data type. -/
def dataLimit : Tag := .nop

/-- The first tag whose encoded byte carries an integer format. -/
def vectorStart : Tag := .unimp

/-- The first reference by one index. -/
def indexStart : Tag := .par

/-- The first reference by several indices. -/
def indexLimit : Tag := .lex

/-- Data types are what a declaration or an array element may have as its type. -/
def isDataType (t : Tag) : Bool := t.ordinal < dataLimit.ordinal

/-- Extended tags fold an integer format into their encoded byte. -/
def isExtended (t : Tag) : Bool := vectorStart.ordinal ≤ t.ordinal

/-! ## Classes of instructions -/

def isVariadic (t : Tag) : Bool := t.layout.isVariadic

/-- Control never falls through to the next statement of a sequence. -/
def exitsSeq : Tag → Bool
  | .ret | .throw => true
  | _ => false

/-- References to one variable. Optimizer info on them describes one occurrence only, so a copy
drops it. -/
def isVarRef : Tag → Bool
  | .loc | .par | .lex | .glo => true
  | _ => false

/-- Instructions that denote a storage location. -/
def isRef : Tag → Bool
  | .loc | .par | .lex | .glo | .const | .relt | .rrelt | .irelt | .trelt | .eelt | .einfo
  | .pref | .cenv | .cprog | .aelt => true
  | _ => false

/-- Literal data. A cast counts by what it casts, which needs the tree. -/
def isLiteral : Tag → Bool
  | .nil | .char | .bool | .byte | .hint | .sint | .bint | .sflo | .dflo | .word | .arb | .arr =>
    true
  | _ => false

/-- Instructions that direct control within a procedure. -/
def isControlFlow : Tag → Bool
  | .ret | .label | .goto | .branch | .select | .loose | .kill | .free | .throw | .catches | .seq
  | .generStep => true
  | _ => false

/-- Every type but `NOp` stands for one value. -/
def isValueType (t : Tag) : Bool := t != .nop

end Tag

end Foam
