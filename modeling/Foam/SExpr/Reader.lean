import Foam.Arena.Walk
import Foam.Builtin
import Foam.Protocol
import Foam.SExpr.Error
import Foam.Text.Blank
import Foam.Usage

/-!
# The text form: reading

Reading makes the nodes of a tree in an arena, children before their parent. Where a field wants a
name from a table, a whole number stands for the position itself. When a text turns out to be wrong,
the nodes made so far are freed again, at each level those of the fields already read.
-/

namespace Foam

namespace SExpr

/-- The rest of a text and where it starts, in bytes. -/
structure Input where
  rest : List Char
  pos : Nat

/-- Computations that read a text and make nodes. -/
abbrev ReadM := ExceptT SExprError (StateT Input ArenaM)

namespace Input

def ofString (s : String) : Input := ⟨s.toList, 0⟩

/-- Advances past the characters before the first that fails the test. -/
def skipWhile (test : Char → Bool) (pos : Nat) : List Char → Input
  | [] => ⟨[], pos⟩
  | c :: cs => if test c then skipWhile test (pos + c.utf8Size) cs else ⟨c :: cs, pos⟩

def skipBlanks (i : Input) : Input := skipWhile Text.isBlank i.pos i.rest

end Input

/-- The end of an atom. -/
def endsAtom (c : Char) : Bool := Text.isBlank c || c == '(' || c == ')'

/-! ## Tokens -/

/-- The character after any blanks, which are passed over. -/
def peek : ReadM (Option Char) := do
  modifyThe Input Input.skipBlanks
  return (← getThe Input).rest.head?

/-- Passes over one character. -/
def advance : ReadM Unit :=
  modifyThe Input fun i =>
    match i.rest with
    | [] => i
    | c :: cs => ⟨cs, i.pos + c.utf8Size⟩

/-- The error for a character, or the end, where something else is wanted. -/
def unexpected {α : Type} : Option Char → ReadM α
  | some found => do throw (.unexpected found (← getThe Input).pos)
  | none => throw .unexpectedEnd

def expect (want : Char) : ReadM Unit := do
  let found ← peek
  if found = some want then advance else unexpected found

/-- The characters up to the next blank or parenthesis, at least one, and where they start. -/
def atom : ReadM (List Char × Nat) := do
  let first ← peek
  let start ← getThe Input
  let text := start.rest.takeWhile (!endsAtom ·)
  if text.isEmpty then unexpected first
  else
    set (Input.skipWhile (!endsAtom ·) start.pos start.rest)
    return (text, start.pos)

/-- The string up to the closing quote, and what is left after it. A backslash stands for the
character after it. -/
def scanString (pos : Nat) : List Char → Option (List Char × Input)
  | [] => none
  | '"' :: cs => some ([], ⟨cs, pos + 1⟩)
  | '\\' :: c :: cs => (scanString (pos + 1 + c.utf8Size) cs).map fun (s, i) => (c :: s, i)
  | ['\\'] => none
  | c :: cs => (scanString (pos + c.utf8Size) cs).map fun (s, i) => (c :: s, i)

def string : ReadM String := do
  expect '"'
  let start ← getThe Input
  match scanString start.pos start.rest with
  | some (s, next) => set next; return String.ofList s
  | none => throw .unexpectedEnd

/-! ## Fields -/

/-- An integer that a slot can hold. -/
def readInt64? (cs : List Char) : Option Int64 :=
  (Decimal.readInt? cs).bind fun v =>
    if -Int.pow 2 63 ≤ v ∧ v < Int.pow 2 63 then some (Int64.ofInt v) else none

def readUInt64? (cs : List Char) : Option UInt64 :=
  (Decimal.readNat? cs).bind fun v => if v < Nat.pow 2 64 then some (UInt64.ofNat v) else none

def readSingle? (cs : List Char) : Option UInt32 :=
  (Decimal.BinaryFormat.single.read? cs).map UInt32.ofNat

def readDouble? (cs : List Char) : Option UInt64 :=
  (Decimal.BinaryFormat.double.read? cs).map UInt64.ofNat

/-- An atom that spells a literal. -/
def literal {α : Type} (sort : LiteralSort) (read? : List Char → Option α) : ReadM α := do
  let (text, pos) ← atom
  match read? text with
  | some v => return v
  | none => throw (.badLiteral sort (String.ofList text) pos)

/-- An atom that names a row of a table, or a whole number. -/
def row (α : Type) [Table α] (sort : NameSort) : ReadM Slot := do
  let (text, pos) ← atom
  match readInt64? text with
  | some v => return .int v
  | none =>
    let name := String.ofList text
    match (Table.ofName? name : Option α) with
    | some r => return .int (Int64.ofNat (Table.ordinal r))
    | none => throw (.unknownName sort name pos)

/-- One field, given how to read a child. -/
def slot (child : ReadM NodeId) : FieldKind → ReadM Slot
  | .child => return .code (← child)
  | .str => return .str (← string)
  | .typeTag => row Tag .type
  | .builtin => row Builtin .builtin
  | .protocol => row Protocol .protocol
  | .declUsage => row Usage .usage
  | .sflo => return .sflo (← literal .float readSingle?)
  | .dflo => return .dflo (← literal .double readDouble?)
  | .arb => return .arb (← literal .arb readUInt64?)
  | .bint => return .bint (← literal .bignum Bignum.read?)
  | _ => return .int (← literal .integer readInt64?)

/-- Frees the fields read so far and fails. -/
def abandon {α : Type} (slots : List Slot) (e : SExprError) : ReadM α := do
  (Arena.freeSlots slots : ArenaM Unit)
  throw e

/-- The fields after those in `slots`, up to the closing parenthesis. Every field takes a character
or more, so a text ends within as many fields as it has characters. -/
def fields (child : ReadM NodeId) (tag : Tag) : (fuel : Nat) → List Slot → ReadM (List Slot)
  | 0, slots => abandon slots .unexpectedEnd
  | fuel + 1, slots => do
    match ← peek with
    | none => abandon slots .unexpectedEnd
    | some ')' =>
      advance
      if tag.layout.accepts slots.length then return slots
      else abandon slots (.badArity tag slots.length)
    | some _ =>
      match tag.layout.kindAt? slots.length with
      | none => abandon slots (.badArity tag (slots.length + 1))
      | some kind =>
        let s ← tryCatch (slot child kind) (abandon slots)
        fields child tag fuel (slots ++ [s])

/-! ## Trees -/

/-- A tree within `fuel` characters. -/
def node : (fuel : Nat) → ReadM NodeId
  | 0 => throw .unexpectedEnd
  | fuel + 1 => do
    expect '('
    if (← peek) = some ')' then
      advance
      return .null
    let (text, pos) ← atom
    let name := String.ofList text
    match Tag.ofName? name with
    | none => throw (.unknownName .tag name pos)
    | some tag =>
      let slots ← fields (node fuel) tag fuel []
      (Arena.push tag slots : ArenaM NodeId)

/-- A tree and nothing after it but blanks. -/
def whole (fuel : Nat) : ReadM NodeId := do
  let id ← node fuel
  match ← peek with
  | none => return id
  | some _ =>
    (Arena.free id : ArenaM Unit)
    throw (.trailingInput (← getThe Input).pos)

end SExpr

/-- Reads a text as one tree. A text that is wrong leaves no nodes behind. -/
def Arena.read (text : String) : ArenaM (Except SExprError NodeId) := do
  let input := SExpr.Input.ofString text
  return (← ((SExpr.whole (input.rest.length + 1)).run.run input)).1

end Foam
