import Foam.Arena.Field
import Foam.Program
import Foam.Protocol

/-!
# Instructions with their operands

An instruction with typed operands is what a node is built from: its tag and its slots follow from
it, and always fit each other. Children are given by id, and belong to the new node.
-/

namespace Foam

/-- Number of a variable, level, label or format. -/
abbrev Num := Int64

/-- An instruction and its operands. -/
inductive Instr
  /- Literals. -/
  | nil
  | char (c : UInt8)
  | bool (b : Bool)
  | byte (b : UInt8)
  | hint (h : Int16)
  | sint (v : Int64)
  | word (v : Int64)
  | sflo (bits : UInt32)
  | dflo (bits : UInt64)
  | arb (v : UInt64)
  | bint (b : Bignum)
  | unimp (text : String)
  | nop
  | bval (op : Builtin)
  | popEnv
  | javaObj
  | cobj
  | arr (elem : Tag) (values : List Int64)
  /- References. -/
  | par (index : Num)
  | loc (index : Num)
  | glo (index : Num)
  | fluid (index : Num)
  | const (index : Num)
  | env (level : Num)
  | label (label : Num)
  | rnew (format : Num)
  | lex (level index : Num)
  | eenv (level : Num) (env : NodeId)
  | pref (index : Num) (prog : NodeId)
  | trnew (format : Num) (size : NodeId)
  | rrelt (field : Num) (data format : NodeId)
  | relt (format : Num) (data : NodeId) (field : Num)
  | irelt (format : Num) (data : NodeId) (field : Num)
  | trelt (format : Num) (data index : NodeId) (field : Num)
  | eelt (format : Num) (env : NodeId) (level index : Num)
  | cfcall (m n : Num) (op env : NodeId)
  | ofcall (m n : Num) (op env : NodeId)
  /- Instructions on one operand. -/
  | ptr (e : NodeId)
  | cprog (e : NodeId)
  | cenv (e : NodeId)
  | loose (e : NodeId)
  | eensure (e : NodeId)
  | einfo (e : NodeId)
  | kill (e : NodeId)
  | free (e : NodeId)
  | ret (e : NodeId)
  | rrfmt (e : NodeId)
  | yield (e : NodeId)
  | genIter (e : NodeId)
  | generValue (e : NodeId)
  /- Instructions of fixed form. -/
  | cast (type : Tag) (e : NodeId)
  | anew (elem : Tag) (size : NodeId)
  | aelt (elem : Tag) (index array : NodeId)
  | rrnew (count : Num) (format : NodeId)
  | rrec (data format : NodeId)
  | clos (env prog : NodeId)
  | set (left right : NodeId)
  | defn (left right : NodeId)
  | branch (test : NodeId) (label : Num)
  | goto (label : Num)
  | throw (tag value : NodeId)
  | catches (ref e : NodeId)
  | protect (e after : NodeId)
  | unit (formats defs : NodeId)
  | pushEnv (format : Num) (parent : NodeId)
  | mfmt (format : Num) (value : NodeId)
  | gener (labels : Num) (env prog : NodeId)
  | generStep (label : Num) (gener : NodeId)
  /- Declarations. -/
  | decl (type : Tag) (id : String) (symbol format : Num)
  | gdecl (type : Tag) (id : String) (result format : Num) (isExport : Bool) (protocol : Protocol)
  | ddecl (usage : Usage) (decls : List NodeId)
  | dfmt (groups : List NodeId)
  | ddef (defs : List NodeId)
  | denv (formats : List Num)
  | dfluid (fluids : List Num)
  /- Instructions with a tail. -/
  | seq (stmts : List NodeId)
  | values (es : List NodeId)
  | record (format : Num) (fields : List NodeId)
  | tr (format : Num) (elems : List NodeId)
  | select (op : NodeId) (labels : List Num)
  | bcall (op : Builtin) (args : List NodeId)
  | pcall (protocol : Protocol) (type : Tag) (op : NodeId) (args : List NodeId)
  | ccall (type : Tag) (op : NodeId) (args : List NodeId)
  | ocall (type : Tag) (op env : NodeId) (args : List NodeId)
  | prog (header : ProgHeader) (params locals fluids levels body : NodeId)

namespace Instr

/-- The slot for a type, an operator or another row of a table. -/
def row {α : Type} [Table α] (a : α) : Slot := .int (Int64.ofNat (Table.ordinal a))

def nodes (ids : List NodeId) : List Slot := ids.map Slot.code

def nums (ns : List Num) : List Slot := ns.map Slot.int

/-- The tag of an instruction and what its slots hold. -/
def content : Instr → Tag × List Slot
  | nil => (.nil, [])
  | char c => (.char, [.int (Int64.ofNat c.toNat)])
  | bool b => (.bool, [.int (if b then 1 else 0)])
  | byte b => (.byte, [.int (Int64.ofNat b.toNat)])
  | hint h => (.hint, [.int h.toInt64])
  | sint v => (.sint, [.int v])
  | word v => (.word, [.int v])
  | sflo b => (.sflo, [.sflo b])
  | dflo b => (.dflo, [.dflo b])
  | arb v => (.arb, [.arb v])
  | bint b => (.bint, [.bint b])
  | unimp s => (.unimp, [.str s])
  | nop => (.nop, [])
  | bval op => (.bval, [row op])
  | popEnv => (.popEnv, [])
  | javaObj => (.javaObj, [])
  | cobj => (.cobj, [])
  | arr t vs => (.arr, row t :: nums vs)
  | par i => (.par, [.int i])
  | loc i => (.loc, [.int i])
  | glo i => (.glo, [.int i])
  | fluid i => (.fluid, [.int i])
  | const i => (.const, [.int i])
  | env l => (.env, [.int l])
  | label l => (.label, [.int l])
  | rnew f => (.rnew, [.int f])
  | lex l i => (.lex, [.int l, .int i])
  | eenv l e => (.eenv, [.int l, .code e])
  | pref i p => (.pref, [.int i, .code p])
  | trnew f n => (.trnew, [.int f, .code n])
  | rrelt i d f => (.rrelt, [.int i, .code d, .code f])
  | relt f d i => (.relt, [.int f, .code d, .int i])
  | irelt f d i => (.irelt, [.int f, .code d, .int i])
  | trelt f d n i => (.trelt, [.int f, .code d, .code n, .int i])
  | eelt f e l i => (.eelt, [.int f, .code e, .int l, .int i])
  | cfcall m n op e => (.cfcall, [.int m, .int n, .code op, .code e])
  | ofcall m n op e => (.ofcall, [.int m, .int n, .code op, .code e])
  | ptr e => (.ptr, [.code e])
  | cprog e => (.cprog, [.code e])
  | cenv e => (.cenv, [.code e])
  | loose e => (.loose, [.code e])
  | eensure e => (.eensure, [.code e])
  | einfo e => (.einfo, [.code e])
  | kill e => (.kill, [.code e])
  | free e => (.free, [.code e])
  | ret e => (.ret, [.code e])
  | rrfmt e => (.rrfmt, [.code e])
  | yield e => (.yield, [.code e])
  | genIter e => (.genIter, [.code e])
  | generValue e => (.generValue, [.code e])
  | cast t e => (.cast, [row t, .code e])
  | anew t n => (.anew, [row t, .code n])
  | aelt t i e => (.aelt, [row t, .code i, .code e])
  | rrnew n f => (.rrnew, [.int n, .code f])
  | rrec d f => (.rrec, [.code d, .code f])
  | clos e p => (.clos, [.code e, .code p])
  | set l r => (.set, [.code l, .code r])
  | defn l r => (.defn, [.code l, .code r])
  | branch t l => (.branch, [.code t, .int l])
  | goto l => (.goto, [.int l])
  | throw t v => (.throw, [.code t, .code v])
  | catches r e => (.catches, [.code r, .code e])
  | protect e p => (.protect, [.code e, .code p])
  | unit f d => (.unit, [.code f, .code d])
  | pushEnv f p => (.pushEnv, [.int f, .code p])
  | mfmt f v => (.mfmt, [.int f, .code v])
  | gener n e p => (.gener, [.int n, .code e, .code p])
  | generStep l g => (.generStep, [.int l, .code g])
  | decl t id s f => (.decl, [row t, .str id, .int s, .int f])
  | gdecl t id r f x p =>
      (.gdecl, [row t, .str id, .int r, .int f, .int (if x then 1 else 0), row p])
  | ddecl u ds => (.ddecl, row u :: nodes ds)
  | dfmt gs => (.dfmt, nodes gs)
  | ddef ds => (.ddef, nodes ds)
  | denv fs => (.denv, nums fs)
  | dfluid fs => (.dfluid, nums fs)
  | seq ss => (.seq, nodes ss)
  | values es => (.values, nodes es)
  | record f fs => (.record, .int f :: nodes fs)
  | tr f es => (.tr, .int f :: nodes es)
  | select op ls => (.select, .code op :: nums ls)
  | bcall op args => (.bcall, row op :: nodes args)
  | pcall p t op args => (.pcall, row p :: row t :: .code op :: nodes args)
  | ccall t op args => (.ccall, row t :: .code op :: nodes args)
  | ocall t op e args => (.ocall, row t :: .code op :: .code e :: nodes args)
  | prog h ps ls fs vs b =>
      (.prog, [.int 0, .int h.labels, row h.result, .int h.format,
        .int (Int64.ofNat h.info.bits.toNat), .int h.size, .int h.time, .int h.bodyFlags,
        .code ps, .code ls, .code fs, .code vs, .code b])

/-! ## Usual forms -/

/-- The characters of a text as an array, with a zero at the end. -/
def text (s : String) : Instr :=
  arr .char (s.toUTF8.toList.map (fun b => Int64.ofNat b.toNat) ++ [0])

/-- The declaration of a variable without format or symbol. -/
def scalarDecl (type : Tag) (id : String) : Instr := decl type id (-1) (Int64.ofInt Format.empty)

/-- `n` levels without variables. -/
def emptyLevels (n : Nat) : Instr := denv (List.replicate n (Int64.ofInt Format.empty))

/-- A choice among `count` labels from `first` on. -/
def selectRange (op : NodeId) (first count : Num) : Instr :=
  select op ((List.range count.toInt.toNat).map fun i => first + Int64.ofNat i)

/-- A procedure without children. -/
def blankProg : Instr := prog .blank .null .null .null .null .null

end Instr

namespace Arena

/-- A new node for an instruction. -/
def build (i : Instr) : ArenaM NodeId := push i.content.1 i.content.2

/-- A new node with the given children alone. -/
def buildNodes (tag : Tag) (children : List NodeId) : ArenaM NodeId :=
  push tag (Instr.nodes children)

/-- A new node with a number and then the given children. -/
def buildNumbered (tag : Tag) (n : Num) (children : List NodeId) : ArenaM NodeId :=
  push tag (.int n :: Instr.nodes children)

/-- A declaration group with `n` unfilled declarations. -/
def buildBlankGroup (n : Nat) (usage : Usage) : ArenaM NodeId := do
  let id ← alloc .ddecl (1 + n)
  setSlot id 0 (Instr.row usage)
  return id

/-- A choice with `n` unfilled labels. -/
def buildBlankSelect (op : NodeId) (n : Nat) : ArenaM NodeId := do
  let id ← alloc .select (1 + n)
  setChild id 0 op
  return id

/-! ## Small rewrites -/

/-- The negation of a truth value. -/
def buildNot (e : NodeId) : ArenaM NodeId := build (.bcall .boolNot [e])

/-- `e` as a value of type `wanted` when it has type `actual`. -/
def castIfNeeded (wanted actual : Tag) (e : NodeId) : ArenaM NodeId :=
  if wanted = actual then return e else build (.cast wanted e)

/-- Some value of the type. -/
def buildNeutral (type : Tag) : ArenaM NodeId := do
  if type = .sint then build (.sint 0)
  else build (.cast type (← build .nil))

end Arena

end Foam
