/-!
# Sorts of names

What a name or its ordinal belongs to, as messages call it. A tag is called a type where it stands
for one.
-/

namespace Foam

inductive NameSort
  | tag | type | builtin | protocol | usage
  deriving DecidableEq, Repr

def NameSort.text : NameSort → String
  | .tag => "tag"
  | .type => "type"
  | .builtin => "builtin"
  | .protocol => "protocol"
  | .usage => "usage"

end Foam
