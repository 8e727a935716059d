import Mathlib
import Polyhedra.Operator.Chamfer
import Polyhedra.Operator.Midpoint
import Polyhedra.Operator.Pyramid
import Polyhedra.Operator.Twist
import Polyhedra.Operator.Window
import Polyhedra.Proofs.Operator.Flags

/-!
# The sites of the operators

Which roles an operator registers, whatever the positions are.
-/

namespace Polyhedra

namespace Surface

variable {surface : Surface} {α : Type}

theorem mem_map_flatMap_triples
    (hsimple : ∀ face ∈ surface, face.Nodup)
    {β : Type} {key : ℕ × ℕ × ℕ → α} {value : Face → ℕ × ℕ × ℕ → β}
    {role : α} :
    (role ∈ (surface.flatMap fun face => face.triples.map fun triple =>
        (key triple, value face triple)).map Prod.fst) ↔
      ∃ i a b c, surface.incidence i a b ∧ surface.incidence i b c ∧
        key (a, b, c) = role := by
  simp only [List.mem_map, List.mem_flatMap, Prod.exists, incidence]
  constructor
  · rintro ⟨_, _, ⟨face, hface, a, b, c, htriple, heq⟩, rfl⟩
    obtain ⟨hab, hbc⟩ :=
      (Face.mem_triples_iff (hsimple face hface)).mp htriple
    obtain ⟨i, hi⟩ := List.mem_iff_getElem?.mp hface
    exact ⟨i, a, b, c, ⟨face, hi, hab⟩, ⟨face, hi, hbc⟩,
      congrArg Prod.fst heq⟩
  · rintro ⟨i, a, b, c, ⟨face, hface, hab⟩, ⟨face', hface', hbc⟩, rfl⟩
    obtain rfl := Option.some.inj (hface.symm.trans hface')
    have hmem := List.mem_of_getElem? hface
    exact ⟨_, _, ⟨face, hmem, a, b, c,
      (Face.mem_triples_iff (hsimple face hmem)).mpr ⟨hab, hbc⟩, rfl⟩, rfl⟩

end Surface

namespace Mesh

variable {mesh : Mesh}

theorem range_vertexCount (mesh : Mesh) :
    List.range mesh.vertexCount = mesh.indexedVertices.map Prod.snd := by
  rw [indexedVertices, List.zipIdx_map_snd, List.range_eq_range']
  rfl

theorem range_faceCount (mesh : Mesh) :
    List.range mesh.faceCount = mesh.centers.zipIdx.map Prod.snd := by
  rw [List.zipIdx_map_snd, List.range_eq_range', length_centers]

theorem mem_unitCornerSites_iff {role : VertexRole} :
    role ∈ mesh.unitCornerSites.map Prod.fst ↔
      ∃ v < mesh.vertexCount, .corner v = role := by
  have hkeys : mesh.unitCornerSites.map Prod.fst =
      (List.range mesh.vertexCount).map VertexRole.corner := by
    rw [range_vertexCount, unitCornerSites, List.map_map, List.map_map]
    rfl
  rw [hkeys]
  simp

theorem mem_thirdSites_iff
    (hsimple : ∀ face ∈ mesh.faces, face.Nodup)
    {role : VertexRole} :
    role ∈ mesh.thirdSites.map Prod.fst ↔
      ∃ dart ∈ mesh.faces.incidence.darts, .third dart.1 dart.2 = role := by
  rw [thirdSites, Surface.mem_map_flatMap_triples hsimple]
  constructor
  · rintro ⟨i, a, b, c, hab, hbc, rfl⟩
    exact ⟨(a, b), ⟨i, hab⟩, rfl⟩
  · rintro ⟨⟨a, b⟩, ⟨i, hab⟩, rfl⟩
    obtain ⟨c, hbc⟩ := Surface.incidence_next hab
    exact ⟨i, a, b, c, hab, hbc, rfl⟩

theorem mem_centerSites_iff {role : VertexRole} :
    role ∈ mesh.centerSites.map Prod.fst ↔
      ∃ i < mesh.faceCount, .center i = role := by
  have hkeys : mesh.centerSites.map Prod.fst =
      (List.range mesh.faceCount).map VertexRole.center := by
    rw [range_faceCount, centerSites, List.map_map, List.map_map]
    rfl
  rw [hkeys]
  simp

theorem mem_innerSites_iff
    (hsimple : ∀ face ∈ mesh.faces, face.Nodup)
    {role : VertexRole} :
    role ∈ mesh.innerSites.map Prod.fst ↔
      ∃ flag ∈ mesh.faces.incidence.flags,
        .inner flag.1 flag.2.1 = role := by
  simp only [innerSites, List.mem_map, List.mem_flatMap, Prod.exists,
    Surface.mem_indexed_iff]
  constructor
  · rintro ⟨_, _, ⟨face, i, hface, a, b, c, htriple, heq⟩, rfl⟩
    obtain ⟨hab, -⟩ :=
      (Surface.exists_triple_iff hsimple).mp ⟨face, hface, htriple⟩
    exact ⟨i, a, b, hab, congrArg Prod.fst heq⟩
  · rintro ⟨i, a, b, hab, rfl⟩
    obtain ⟨c, hbc⟩ := Surface.incidence_next hab
    obtain ⟨face, hface, htriple⟩ :=
      (Surface.exists_triple_iff hsimple).mpr ⟨hab, hbc⟩
    exact ⟨_, _, ⟨face, i, hface, a, b, c, htriple, rfl⟩, rfl⟩

theorem mem_cornerSites_iff {role : VertexRole} :
    role ∈ mesh.cornerSites.map Prod.fst ↔
      ∃ v < mesh.vertexCount, .corner v = role := by
  have hkeys : mesh.cornerSites.map Prod.fst =
      (List.range mesh.vertexCount).map VertexRole.corner := by
    rw [range_vertexCount, cornerSites, List.map_map, List.map_map]
    rfl
  rw [hkeys]
  simp

theorem mem_stellatedSites_iff
    (hsimple : ∀ face ∈ mesh.faces, face.Nodup)
    {role : VertexRole} :
    role ∈ mesh.stellatedSites.map Prod.fst ↔
      ∃ dart ∈ mesh.faces.incidence.darts,
        .stellated dart.1 dart.2 = role := by
  rw [stellatedSites, Surface.mem_map_flatMap_triples hsimple]
  constructor
  · rintro ⟨i, a, b, c, hab, hbc, rfl⟩
    exact ⟨(a, b), ⟨i, hab⟩, rfl⟩
  · rintro ⟨⟨a, b⟩, ⟨i, hab⟩, rfl⟩
    obtain ⟨c, hbc⟩ := Surface.incidence_next hab
    exact ⟨i, a, b, c, hab, hbc, rfl⟩

end Mesh
end Polyhedra
