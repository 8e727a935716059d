import Mathlib
import Polyhedra.Proofs.Incidence.Count
import Polyhedra.Proofs.Surface.Polyhedral
import Polyhedra.Surface.Count

/-!
# Counting on closed surfaces

Every undirected edge of a closed surface has two flags, one in each
direction.  So the Euler characteristic of a polyhedral mesh can be read off
its incidence.
-/

namespace Polyhedra
namespace Surface

variable {surface : Surface}

theorem finite_flags : surface.incidence.flags.Finite := by
  have hrange : (Set.Iio surface.length).Finite := Set.finite_Iio _
  have hedges : {edge | edge ∈ surface.flatMap Face.edges}.Finite :=
    List.finite_toSet _
  apply (hrange.prod hedges).subset
  rintro ⟨i, v, w⟩ ⟨face, hface, hedge⟩
  have hlt : i < surface.length := (List.getElem?_eq_some_iff.mp hface).1
  exact ⟨hlt, List.mem_flatMap.mpr ⟨face, List.mem_of_getElem? hface, hedge⟩⟩

theorem faces_eq (hfaces : ∀ face ∈ surface, face ≠ []) :
    surface.incidence.faces = {i | i < surface.length} := by
  ext i
  constructor
  · rintro ⟨v, w, face, hface, -⟩
    exact (List.getElem?_eq_some_iff.mp hface).1
  · intro hi
    have hface : surface[i]? = some surface[i] := List.getElem?_eq_getElem hi
    obtain ⟨v, hv⟩ :=
      List.exists_mem_of_ne_nil _ (hfaces _ (List.getElem_mem hi))
    obtain ⟨w, hw⟩ := exists_incidence_iff.mpr ⟨_, hface, hv⟩
    exact ⟨v, w, hw⟩

theorem mem_flatMap_edges_iff {v w : ℕ} :
    (v, w) ∈ surface.flatMap Face.edges ↔ ∃ i, surface.incidence i v w := by
  simp only [List.mem_flatMap, incidence]
  constructor
  · rintro ⟨face, hface, hedge⟩
    obtain ⟨i, hi⟩ := List.mem_iff_getElem?.mp hface
    exact ⟨i, face, hi, hedge⟩
  · rintro ⟨i, face, hface, hedge⟩
    exact ⟨face, List.mem_of_getElem? hface, hedge⟩

theorem edgeCount_eq_card :
    surface.edgeCount =
      ((surface.flatMap Face.edges).toFinset.image
        Edge.undirected).card := by
  have hnodup : surface.edgeSet.toList.Nodup := by
    refine List.Pairwise.imp ?_ Std.ExtTreeSet.distinct_toList
    rintro edge _ hne rfl
    exact hne Std.ReflCmp.compare_self
  have hset : surface.edgeSet.toList.toFinset =
      (surface.flatMap Face.edges).toFinset.image Edge.undirected := by
    ext edge
    simp only [List.mem_toFinset, Finset.mem_image,
      Std.ExtTreeSet.mem_toList, edgeSet, Std.ExtTreeSet.mem_ofList]
    simp only [List.contains_iff_mem, List.mem_flatMap, List.mem_map]
    tauto
  unfold edgeCount
  rw [← hset, List.toFinset_card_of_nodup hnodup,
    Std.ExtTreeSet.length_toList]

/-- The edge count is the number of undirected edges of the incidence. -/
theorem edgeCount_eq_ncard_sides :
    surface.edgeCount = surface.incidence.sides.ncard := by
  have hinjective :
      Function.Injective (Sym2.lift ⟨fun v w => Edge.undirected (v, w),
        fun v w => (Edge.undirected_swap (v, w)).symm⟩ : Sym2 ℕ → Edge) := by
    intro e e' heq
    induction e with
    | h v w =>
        induction e' with
        | h x y => exact Sym2.eq_iff.mpr (Edge.undirected_eq_iff.mp heq)
  have himage : (((surface.flatMap Face.edges).toFinset.image
        Edge.undirected : Finset Edge) : Set Edge) =
      Sym2.lift ⟨fun v w => Edge.undirected (v, w),
        fun v w => (Edge.undirected_swap (v, w)).symm⟩ ''
      surface.incidence.sides := by
    ext edge
    rw [Finset.coe_image, Incidence.sides_eq_image, Set.image_image]
    constructor
    · rintro ⟨⟨v, w⟩, hedge, rfl⟩
      exact ⟨(v, w), mem_flatMap_edges_iff.mp (List.mem_toFinset.mp hedge),
        rfl⟩
    · rintro ⟨⟨v, w⟩, hdart, rfl⟩
      exact ⟨(v, w), List.mem_toFinset.mpr (mem_flatMap_edges_iff.mpr hdart),
        rfl⟩
  rw [edgeCount_eq_card, ← Set.ncard_coe_finset, himage,
    Set.ncard_image_of_injective _ hinjective]

/-- The vertices that are corners of faces. -/
def usedVertices (surface : Surface) : Finset ℕ :=
  surface.flatten.toFinset

theorem coe_usedVertices :
    (surface.usedVertices : Set ℕ) = surface.incidence.tails := by
  ext v
  simp [usedVertices, mem_tails_iff]

theorem two_mul_edgeCount (hclosed : surface.incidence.Closed) :
    2 * surface.edgeCount = surface.incidence.flags.ncard := by
  rw [edgeCount_eq_ncard_sides, hclosed.two_mul_ncard_sides finite_flags]

end Surface

namespace Mesh

theorem tails_subset {mesh : Mesh} (hrange : mesh.InRange) :
    mesh.faces.incidence.tails ⊆ {v | v < mesh.vertexCount} := by
  intro v hv
  obtain ⟨face, hface, hmem⟩ := Surface.mem_tails_iff.mp hv
  exact hrange face hface v hmem

theorem used_iff_tails_eq {mesh : Mesh} (hrange : mesh.InRange) :
    (∀ v < mesh.vertexCount, ∃ face ∈ mesh.faces, v ∈ face) ↔
      mesh.faces.incidence.tails = {v | v < mesh.vertexCount} := by
  constructor
  · intro hused
    exact (tails_subset hrange).antisymm fun v hv =>
      Surface.mem_tails_iff.mpr (hused v hv)
  · intro htails v hv
    exact Surface.mem_tails_iff.mp (htails ▸ hv)

theorem Polyhedral.incidence {mesh : Mesh} (h : mesh.Polyhedral) :
    mesh.faces.incidence.Polyhedral :=
  (Surface.polyhedral_iff.mp h).1

theorem Polyhedral.tails_eq {mesh : Mesh} (h : mesh.Polyhedral) :
    mesh.faces.incidence.tails = {v | v < mesh.vertexCount} :=
  (Surface.polyhedral_iff.mp h).2.2

theorem Polyhedral.face_ne_nil {mesh : Mesh}
    (h : mesh.Polyhedral)
    {face : Face}
    (hface : face ∈ mesh.faces) : face ≠ [] :=
  ((Surface.polyhedral_iff.mp h).2.1 face hface).2

theorem Polyhedral.faces_eq {mesh : Mesh} (h : mesh.Polyhedral) :
    mesh.faces.incidence.faces = {i | i < mesh.faceCount} :=
  Surface.faces_eq fun _ hface => h.face_ne_nil hface

/-- The Euler characteristic of a polyhedral mesh is the one of its
incidence. -/
theorem Polyhedral.two_mul_eulerCharacteristic {mesh : Mesh}
    (h : mesh.Polyhedral) :
    2 * mesh.eulerCharacteristic = mesh.faces.incidence.doubleEuler := by
  have hedges := Surface.two_mul_edgeCount h.incidence.toClosed
  have hcount : mesh.faces.incidence.faces.ncard = mesh.faces.length := by
    rw [h.faces_eq]
    exact Set.ncard_Iio_nat _
  have hvertices : mesh.faces.incidence.tails.ncard = mesh.vertexCount := by
    rw [h.tails_eq]
    exact Set.ncard_Iio_nat _
  unfold eulerCharacteristic Incidence.doubleEuler edgeCount faceCount
  rw [← hedges, hcount, hvertices]
  push_cast
  ring

end Mesh
end Polyhedra
