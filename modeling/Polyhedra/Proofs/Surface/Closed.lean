import Mathlib
import Polyhedra.Proofs.Surface.Count
import Polyhedra.Proofs.Surface.Decision

/-!
# Closed meshes

A closed mesh passes the check of closedness and has simple faces in range.
Nothing is asked of its vertices: one may be unused, two faces may meet at it
only, and the faces around it may fall into several rings.  This is all that
most operators need.  On a surrounded mesh every vertex has one ring of at
least three faces around it, but two faces may still share several edges.
-/

namespace Polyhedra

/-- A mesh that passes the check of closedness, with simple faces whose
corners are vertices. -/
structure Mesh.Closed (mesh : Mesh) : Prop where
  closed : mesh.faces.checkClosed = .ok ()
  simple : ∀ face ∈ mesh.faces, face.Nodup
  inRange : mesh.InRange

namespace Mesh

variable {mesh : Mesh}

namespace Closed

variable (h : mesh.Closed)
include h

theorem incidence : mesh.faces.incidence.Closed :=
  ((Surface.checkClosed_iff_closed h.simple).mp h.closed).1

theorem face_ne_nil {face : Face} (hface : face ∈ mesh.faces) : face ≠ [] :=
  ((Surface.checkClosed_iff_closed h.simple).mp h.closed).2 face hface

theorem faces_eq : mesh.faces.incidence.faces = {i | i < mesh.faceCount} :=
  Surface.faces_eq fun _ hface => h.face_ne_nil hface

theorem ncard_faces : mesh.faces.incidence.faces.ncard = mesh.faceCount := by
  rw [h.faces_eq]
  exact Set.ncard_Iio_nat _

theorem two_mul_edgeCount :
    2 * mesh.edgeCount = mesh.faces.incidence.flags.ncard :=
  Surface.two_mul_edgeCount h.incidence

end Closed

/-- A closed mesh with one ring of at least three faces around every
vertex. -/
structure Surrounded (mesh : Mesh) : Prop extends mesh.Closed where
  ring : ∀ v < mesh.vertexCount,
    ∃ ring : List ℕ, 3 ≤ ring.length ∧ mesh.faces.RingAt v ring

theorem Polyhedral.surrounded (h : mesh.Polyhedral) : mesh.Surrounded where
  closed := h.closed
  simple := h.simple
  inRange := h.inRange
  ring := h.ring

namespace Surrounded

variable (h : mesh.Surrounded)
include h

theorem incidence : mesh.faces.incidence.Surrounded where
  toClosed := h.toClosed.incidence
  fan := by
    intro i j v w w' hi hj
    obtain ⟨ring, -, hring⟩ :=
      h.ring v (tails_subset h.inRange (Incidence.mem_tails hi))
    exact hring.joined hi hj
  degree := by
    intro i j u v w huv hvw hwv hvu
    obtain ⟨ring, hlong, hring⟩ :=
      h.ring v (tails_subset h.inRange (Incidence.mem_tails hvw))
    -- two faces with both edges in common follow each other both ways
    exact Face.step_step_ne hring.nodup hlong
      ((hring.around_iff h.toClosed.incidence).mp ⟨w, hvw, hwv⟩)
      ((hring.around_iff h.toClosed.incidence).mp ⟨u, hvu, huv⟩) rfl

theorem tails_eq :
    mesh.faces.incidence.tails = {v | v < mesh.vertexCount} := by
  refine (used_iff_tails_eq h.inRange).mp fun v hv => ?_
  obtain ⟨ring, hlong, hring⟩ := h.ring v hv
  obtain ⟨i, hi⟩ := List.exists_mem_of_length_pos (two_pos.trans hlong)
  obtain ⟨face, hface, hmem⟩ := (hring.mem_iff i).mp hi
  exact ⟨face, List.mem_of_getElem? hface, hmem⟩

end Surrounded

/-- Two tetrahedra that share the vertex 3, around which there are two rings
of faces; the vertex 7 is unused. -/
def pinchedTetrahedra : Mesh where
  name := "TT"
  vertices := Array.replicate 8 .origin
  faces :=
    [[0, 1, 2], [0, 2, 3], [0, 3, 1], [1, 3, 2], [3, 4, 5], [3, 5, 6],
      [3, 6, 4], [4, 6, 5]]

theorem pinchedTetrahedra_closed : pinchedTetrahedra.Closed where
  closed := by apply Surface.checkClosed_of_indexed <;> decide
  simple := by decide
  inRange := by decide

theorem pinchedTetrahedra_edgeCount : pinchedTetrahedra.edgeCount = 12 := by
  decide +kernel

end Mesh
end Polyhedra
