/-!
# Names of results

The name of a mesh is the word of operators that builds it, so an operator
writes its code in front of the name of its input.  A filter follows the code
unless it is zero.
-/

namespace Polyhedra

namespace Word

def prepend (code : Char) (sides : Nat) (word : String) : String :=
  code.toString ++ (if sides = 0 then "" else toString sides) ++ word

/-- The word of a dual; two neighbouring duals cancel. -/
def dual (word : String) : String :=
  match word.toList with
  | 'd' :: rest => String.ofList rest
  | _ => "d" ++ word

end Word

end Polyhedra
