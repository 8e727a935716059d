import Polyhedra.Mesh.Attributes
import Polyhedra.Presets
import Polyhedra.Seed.Basic
import Polyhedra.Seed.Platonic
import Polyhedra.Seed.Ring

/-!
# The standard seeds

The side count is checked before anything is built.  Every solid is then
centred on the origin and its faces are turned outward.
-/

namespace Polyhedra

namespace StandardSeed

/-- The number of sides that a parameter stands for; zero stands for the
default. -/
def sides (seed : Seed) (n : Nat) : Except MeshError Nat :=
  if n = 0 then .ok defaultSides
  else if n < minSides then
    .error (.invalidParameter seed.letter.toString
      s!"needs at least {minSides} sides, got {n}")
  else if maxSupportedSides < n then
    .error (.invalidParameter seed.letter.toString
      s!"at most {maxSupportedSides} sides supported, got {n}")
  else .ok n

/-- The Johnson solids with the indices one to five. -/
def johnson (n : Nat) : Except MeshError Solid :=
  match n with
  | 1 => .ok (Ring.pyramid 4)
  | 2 => .ok (Ring.pyramid 5)
  | 3 => .ok (Ring.cupola 3)
  | 4 => .ok (Ring.cupola 4)
  | 5 => .ok (Ring.cupola 5)
  | _ => .error (.unsupportedSeed s!"J{n}")

def solid (seed : Seed) (n : Nat) : Except MeshError Solid :=
  match seed with
  | .tetrahedron => .ok Platonic.tetrahedron
  | .cube => .ok Platonic.cube
  | .octahedron => .ok Platonic.octahedron
  | .icosahedron => .ok Platonic.icosahedron
  | .dodecahedron => Platonic.dodecahedron
  | .prism => Ring.prism <$> sides seed n
  | .antiprism => Ring.antiprism <$> sides seed n
  | .pyramid => Ring.pyramid <$> sides seed n
  | .cupola => Ring.cupola <$> sides seed n
  | .anticupola => Ring.anticupola <$> sides seed n
  | .johnson => johnson n

/-- The solid moved so that the mean of its vertices is the origin. -/
def centered (solid : Solid) : Solid :=
  let center :=
    Point.sum solid.vertices / (max solid.vertices.length 1).toFloat
  { solid with vertices := solid.vertices.map (· - center) }

/-- Turns around every face whose normal points to the origin. -/
def turnedOutward (mesh : Mesh) : Mesh :=
  { mesh with
    faces := mesh.faces.map fun face =>
      if (mesh.faceNormal face).dot (mesh.faceCenter face) < 0
        then face.reverse else face }

end StandardSeed

/-- The standard solid for a seed with the parameter `n`. -/
def standardSeed (seed : Seed) (n : Nat) : Except MeshError Mesh := do
  let solid ← StandardSeed.solid seed n
  pure (StandardSeed.turnedOutward
    ((StandardSeed.centered solid).named (seed.word n)))

end Polyhedra
