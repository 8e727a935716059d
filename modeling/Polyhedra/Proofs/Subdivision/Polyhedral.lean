import Mathlib
import Polyhedra.Proofs.Operator.Outcome
import Polyhedra.Proofs.Subdivision.Blocks
import Polyhedra.Proofs.Subdivision.Fan

/-!
# The subdivision of a polyhedral mesh

When welding is faithful, the small triangles of a polyhedral triangulated
mesh are a polyhedral mesh again.  Welding that gives one index to places
apart from each other loses vertices, so the subdivision is not closed then
or has another Euler characteristic.
-/

namespace Polyhedra

open Subdivision

namespace Surface

variable {surface : Surface} {n : ℕ}

theorem latticeIncidence_polyhedral
    (htriangular : surface.Triangular)
    (hsimple : ∀ face ∈ surface, face.Nodup)
    (hpoly : surface.incidence.Polyhedral) :
    (surface.latticeIncidence n).Polyhedral := by
  rw [latticeIncidence_eq_rename htriangular hsimple]
  exact (Incidence.Polyhedral.refine hpoly
      (incidence_triangular htriangular hsimple)).rename
    (injOn_cell htriangular hsimple) Function.injective_id.injOn

end Surface

namespace Mesh

variable {mesh : Mesh} {n : ℕ} {tolerance : Float}

/-- Faithful welding keeps the mesh polyhedral. -/
theorem Polyhedral.subdivideTriangles
    (h : mesh.Polyhedral)
    (htriangular : mesh.faces.Triangular)
    (hn : 0 < n)
    (hfaithful : mesh.WeldsFaithfully n tolerance) :
    (mesh.subdivideTriangles n tolerance).Polyhedral := by
  obtain ⟨index, hindex, hinjective⟩ :=
    hfaithful.exists_index htriangular h.closed h.shareOne hn
  have htriangular' := triangular_subdivideTriangles mesh n tolerance
  have hincidence : (mesh.subdivideTriangles n tolerance).faces.incidence =
      (mesh.faces.latticeIncidence n).rename (Surface.cellIndex n)
        index := by
    rw [hindex.faces_eq, Surface.incidence_map_places]
  have hpoly :
      (mesh.subdivideTriangles n tolerance).faces.incidence.Polyhedral := by
    rw [hincidence]
    exact (Surface.latticeIncidence_polyhedral htriangular h.simple
      h.incidence).rename Surface.injOn_cellIndex hinjective
  apply Surface.polyhedral_iff.mpr
  refine ⟨hpoly, fun face hface => ⟨?_, ?_⟩, ?_⟩
  · exact Surface.nodup_of_ne htriangular' (fun _ _ _ => hpoly.ne) face hface
  · rintro rfl
    simpa using htriangular' [] hface
  · rw [hincidence, Incidence.tails_rename]
    ext k
    exact (hindex.lt_vertexCount_iff htriangular h.closed hn).symm

/-- Where all lattice points at one place are welded, the welding is faithful
exactly when the subdivision is closed and keeps the Euler characteristic. -/
theorem Polyhedral.weldsFaithfully_iff
    (h : mesh.Polyhedral)
    (htriangular : mesh.faces.Triangular)
    (hn : 0 < n)
    (hwelds : mesh.WeldsPlaces n tolerance) :
    mesh.WeldsFaithfully n tolerance ↔
      (mesh.subdivideTriangles n tolerance).faces.checkClosed = .ok () ∧
      (mesh.subdivideTriangles n tolerance).eulerCharacteristic =
        mesh.eulerCharacteristic := by
  constructor
  · intro hfaithful
    have hclosed := (h.subdivideTriangles htriangular hn hfaithful).closed
    refine ⟨hclosed, ?_⟩
    rw [eulerCharacteristic_subdivideTriangles_iff htriangular h.closed
      hclosed hn]
    exact vertexCount_subdivideTriangles htriangular h.closed h.shareOne hn
      hfaithful h.inRange h.used
  · rintro ⟨hclosed, heuler⟩
    obtain ⟨index, hindex⟩ :=
      hwelds.exists_indexes htriangular h.closed h.shareOne hn
    rw [eulerCharacteristic_subdivideTriangles_iff htriangular h.closed
      hclosed hn, hindex.vertexCount_eq htriangular h.closed hn] at heuler
    rw [hindex.weldsFaithfully_iff htriangular h.closed h.shareOne hn]
    -- there are as many indices as places
    refine Set.injOn_of_ncard_image_eq (heuler.trans ?_)
      (Surface.finite_tails_latticeIncidence h.closed htriangular hn)
    have hcorners : {v | v < mesh.vertexCount}.ncard = mesh.vertexCount :=
      Set.ncard_Iio_nat _
    rw [Surface.ncard_tails_latticeIncidence h.closed htriangular h.shareOne
      hn, h.tails_eq, hcorners]
    rfl

/-- A subdivision of a polyhedral mesh is refused for its parameters, leaves
a mesh with other faces than triangles as it is, or welds lattice points.
When it does so faithfully, the result is polyhedral. -/
theorem Polyhedral.subdivide
    (h : mesh.Polyhedral)
    (hfaithful : mesh.faces.Triangular → mesh.WeldsFaithfully n tolerance)
    (maxFactor : ℕ) :
    (∃ subject explanation, mesh.subdivide n tolerance maxFactor =
        .error (.invalidParameter subject explanation)) ∨
      ∃ out, mesh.subdivide n tolerance maxFactor = .ok out ∧
        out.Polyhedral ∧
        out.eulerCharacteristic = mesh.eulerCharacteristic := by
  rcases mesh.subdivide_cases n tolerance maxFactor with hrefused |
    ⟨-, hsame⟩ | ⟨-, hrange, -⟩ | ⟨htriangular, -, hout⟩
  · exact .inl hrefused
  · exact .inr ⟨mesh, hsame, h, rfl⟩
  · exact absurd h.inRange hrange
  · rcases Nat.eq_zero_or_pos n with rfl | hn
    · exact .inl ⟨_, _, if_pos (.inl rfl)⟩
    · have hwelds := hfaithful htriangular
      refine .inr ⟨_, hout, h.subdivideTriangles htriangular hn hwelds, ?_⟩
      exact ((h.weldsFaithfully_iff htriangular hn hwelds.weldsPlaces).mp
        hwelds).2

/-! ## A mesh with two vertices at one point -/

/-- Lattice points that all belong to a list of points apart from each
other. -/
theorem separated_of_list (points : List Point)
    (hpoints : ∀ face ∈ mesh.faces, ∀ row ∈ lattice n,
      ∀ p ∈ row, ∃ point ∈ points, facePoint mesh n face p = point)
    (hapart :
      ∀ p ∈ points, ∀ q ∈ points, (q.distance p < tolerance ↔ q = p)) :
    WeldingGrid.Separated tolerance (mesh.latticePoints n) := by
  have hmem : ∀ point ∈ mesh.latticePoints n, point ∈ points := by
    rintro _ ⟨face, hface, p, hp, rfl⟩
    obtain ⟨row, hrow, hp⟩ := exists_row_iff.mpr hp
    obtain ⟨point, hpoint, heq⟩ := hpoints face hface row hrow p hp
    exact heq ▸ hpoint
  exact fun p hp q hq => hapart p (hmem p hp) q (hmem q hq)

/-- An octahedron with both poles at one point. -/
def foldedOctahedron : Mesh where
  name := "O"
  vertices :=
    #[⟨1, 0, 0⟩, ⟨0, 1, 0⟩, ⟨-1, 0, 0⟩, ⟨0, -1, 0⟩, ⟨0, 0, 1⟩, ⟨0, 0, 1⟩]
  faces :=
    [[0, 1, 4], [1, 2, 4], [2, 3, 4], [3, 0, 4], [1, 0, 5], [2, 1, 5],
      [3, 2, 5], [0, 3, 5]]

theorem foldedOctahedron_polyhedral : foldedOctahedron.Polyhedral := by
  apply Surface.polyhedral_of_rings [[0, 3, 7, 4], [1, 0, 4, 5],
    [2, 1, 5, 6], [3, 2, 6, 7], [0, 1, 2, 3], [4, 7, 6, 5]] <;> decide

/-- Its poles become one vertex, around which two triangles have a common
directed edge. -/
theorem subdivide_foldedOctahedron :
    ∃ out, foldedOctahedron.subdivide 1 0.1 32 = .ok out ∧
      out.faces.checkClosed ≠ .ok () := by
  have hseparated :
      WeldingGrid.Separated 0.1 (foldedOctahedron.latticePoints 1) := by
    apply separated_of_list
        [⟨1, 0, 0⟩, ⟨0, 1, 0⟩, ⟨-1, 0, 0⟩, ⟨0, -1, 0⟩, ⟨0, 0, 1⟩] <;>
      decide +kernel
  have hblock : ∀ f < foldedOctahedron.faceCount,
      (foldedOctahedron.subdivideTriangles 1 0.1).faces[f]? = some
        ((upTriangle 0 0).map (foldedOctahedron.latticeIndex 1 0.1 f)) := by
    intro f hf
    have hinto : foldedOctahedron.SubdividesInto 1 0.1 _ _ :=
      subdividesInto_subdivideTriangles one_pos
    have hfirst := hinto.block f hf 0 (upTriangle 0 0) rfl
    rwa [mul_one, mul_one, add_zero] at hfirst
  have hsame : ∀ p : ℕ × ℕ, p.1 + p.2 ≤ 1 →
      facePoint foldedOctahedron 1 [1, 2, 4] p =
        facePoint foldedOctahedron 1 [1, 0, 5] p →
      foldedOctahedron.latticeIndex 1 0.1 1 p =
        foldedOctahedron.latticeIndex 1 0.1 4 p :=
    fun p hp =>
    (latticeIndex_eq_iff hseparated rfl rfl hp hp).mpr
  have htriangular : foldedOctahedron.faces.Triangular := by decide
  refine ⟨_, subdivide_eq_ok htriangular foldedOctahedron_polyhedral.inRange
    le_rfl (by decide) (by decide +kernel), fun hclosed => ?_⟩
  -- the second triangle and the fifth one have the edge from the pole to
  -- their first corner
  obtain ⟨-, hnodup, -⟩ := Surface.checkClosed_eq_ok_iff.mp hclosed
  have hsecond := Surface.incidence_of_triangle (hblock 1 (by decide))
  have hfifth := Surface.incidence_of_triangle (hblock 4 (by decide))
  rw [← hsame (0, 0) (by decide) (by decide +kernel),
    ← hsame (0, 1) (by decide) (by decide +kernel)] at hfifth
  exact absurd (Surface.owner_unique_of_nodup hnodup hsecond.2.2 hfifth.2.2)
    (by decide)

end Mesh
end Polyhedra
