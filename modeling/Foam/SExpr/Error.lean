import Foam.NameSort
import Foam.Tag
import Foam.Text.Quoted

/-!
# What is wrong with a text
-/

namespace Foam

/-- The sorts of literals. -/
inductive LiteralSort
  | integer | float | double | arb | bignum
  deriving DecidableEq, Repr

def LiteralSort.text : LiteralSort → String
  | .integer => "integer"
  | .float => "float"
  | .double => "double"
  | .arb => "arb"
  | .bignum => "bignum"

/-- Why a text is no tree. Positions count bytes of the UTF-8 form. -/
inductive SExprError
  | unexpectedEnd
  | unexpected (found : Char) (pos : Nat)
  | unknownName (sort : NameSort) (name : String) (pos : Nat)
  | badArity (tag : Tag) (count : Nat)
  | badLiteral (sort : LiteralSort) (text : String) (pos : Nat)
  | trailingInput (pos : Nat)
  deriving DecidableEq

def SExprError.message : SExprError → String
  | .unexpectedEnd => "unexpected end of input"
  | .unexpected found pos => "unexpected " ++ Text.quotedChar found ++ " at byte " ++ toString pos
  | .unknownName sort name pos =>
      "unknown " ++ sort.text ++ " name `" ++ name ++ "` at byte " ++ toString pos
  | .badArity tag count => tag.name ++ " cannot have " ++ toString count ++ " fields"
  | .badLiteral sort text pos =>
      "invalid " ++ sort.text ++ " literal `" ++ text ++ "` at byte " ++ toString pos
  | .trailingInput pos => "trailing input at byte " ++ toString pos

end Foam
