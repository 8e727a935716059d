import Polyhedra.Mesh.Basic

/-!
# Point reflection

Negating every coordinate turns every face around, so every face is written
backwards.
-/

namespace Polyhedra

/-- Every face written backwards. -/
def Surface.flip (surface : Surface) : Surface :=
  surface.map List.reverse

theorem Surface.flip_flip (surface : Surface) :
    surface.flip.flip = surface := by
  have hreverse : (List.reverse ∘ List.reverse : Face → Face) = id :=
    funext List.reverse_reverse
  rw [flip, flip, List.map_map, hreverse, List.map_id]

def Mesh.reflect (mesh : Mesh) : Mesh where
  name := "r" ++ mesh.name
  vertices := mesh.vertices.map (-·)
  faces := mesh.faces.flip

end Polyhedra
