/-!
# Seeds

The solids that a word of operators starts from, each with its letter.  The
Platonic solids ignore their parameter; for the other seeds it is a side
count, and for Johnson solids an index.
-/

namespace Polyhedra

inductive Seed where
  | tetrahedron
  | cube
  | octahedron
  | icosahedron
  | dodecahedron
  | prism
  | antiprism
  | pyramid
  | cupola
  | anticupola
  | johnson
deriving DecidableEq

namespace Seed

def all : List Seed :=
  [tetrahedron, cube, octahedron, icosahedron, dodecahedron, prism,
    antiprism, pyramid, cupola, anticupola, johnson]

def letter : Seed → Char
  | tetrahedron => 'T'
  | cube => 'C'
  | octahedron => 'O'
  | icosahedron => 'I'
  | dodecahedron => 'D'
  | prism => 'P'
  | antiprism => 'A'
  | pyramid => 'Y'
  | cupola => 'U'
  | anticupola => 'V'
  | johnson => 'J'

def ofLetter? (letter : Char) : Option Seed :=
  all.find? fun seed => seed.letter == letter

/-- Whether the seed reads its parameter. -/
def readsParameter : Seed → Bool
  | tetrahedron | cube | octahedron | icosahedron | dodecahedron => false
  | _ => true

/-- Whether the parameter is a number of sides. -/
def countsSides (seed : Seed) : Bool :=
  seed.readsParameter && seed != johnson

/-- The name of the seed with parameter `n`: its letter, and the parameter if
it is read and not zero. -/
def word (seed : Seed) (n : Nat) : String :=
  if seed.readsParameter && 0 < n then seed.letter.toString ++ toString n
    else seed.letter.toString

end Seed

end Polyhedra
