/-!
# Face colors

A face is colored by its number of sides.  The palette repeats every eight
side counts; a face with fewer than three sides is degenerate and gray.
-/

namespace Polyhedra

structure Color where
  red : Float32
  green : Float32
  blue : Float32
  alpha : Float32
deriving BEq, Inhabited

namespace Color

def gray : Color := ⟨0.8, 0.8, 0.8, 1⟩

def palette : List Color :=
  [ ⟨1, 0.467, 0.467, 1⟩, ⟨0.867, 0.867, 0.867, 1⟩, ⟨0.533, 0.6, 0.6, 1⟩,
    ⟨1, 0.941, 0.898, 1⟩, ⟨0.667, 0.2, 0.2, 1⟩, ⟨1, 0, 0, 1⟩, ⟨1, 1, 1, 1⟩,
    ⟨0.667, 0.667, 0.667, 1⟩ ]

def ofSides (sides : Nat) : Color :=
  if sides < 3 then gray
    else palette.getD ((sides - 3) % palette.length) gray

end Color

end Polyhedra
