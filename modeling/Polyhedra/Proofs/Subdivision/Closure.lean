import Mathlib
import Polyhedra.Proofs.Subdivision.Count
import Polyhedra.Proofs.Subdivision.Indices
import Polyhedra.Proofs.Surface.Decision

/-!
# The subdivision of a closed surface

When welding gives two lattice points the same index exactly when they are
the same place, the subdivision of a closed triangulated mesh is a closed
triangulated mesh again, with the Euler characteristic of the first.
-/

namespace Polyhedra

open Subdivision

/-- What is equal for equal keys is a function of the key. -/
theorem exists_of_eq_imp_eq {α β γ : Type} [Nonempty γ] (s : Set α)
    (key : α → β) (value : α → γ)
    (h : ∀ a ∈ s, ∀ b ∈ s, key a = key b → value a = value b) :
    ∃ g : β → γ, ∀ a ∈ s, g (key a) = value a := by
  have hfactors : (s.domRestrict value).FactorsThrough (s.domRestrict key) :=
    fun a b heq => h a a.2 b b.2 heq
  exact ⟨Function.extend (s.domRestrict key) (s.domRestrict value) fun _ =>
    Classical.arbitrary γ, fun a ha => hfactors.extend_apply _ ⟨a, ha⟩⟩

namespace Surface

variable {surface : Surface} {n : ℕ}

/-- Every edge of a closed triangulated surface is a side of two
triangles. -/
theorem two_mul_edgeCount_of_triangular
    (htriangular : surface.Triangular)
    (hclosed : surface.checkClosed = .ok ()) :
    2 * surface.edgeCount = 3 * surface.length := by
  have hincidence :=
    (checkClosed_iff_closed_of_triangular htriangular).mp hclosed
  have hnodup := (checkClosed_eq_ok_iff.mp hclosed).2.1
  have hdarts :
      surface.incidence.darts = (surface.flatMap Face.edges).toFinset := by
    ext ⟨v, w⟩
    rw [Finset.mem_coe, List.mem_toFinset]
    exact mem_flatMap_edges_iff.symm
  have hthree : surface.map (fun face => face.edges.length) =
      List.replicate surface.length 3 := by
    rw [List.eq_replicate_iff, List.length_map, List.forall_mem_map]
    exact ⟨rfl, fun face hface =>
      (Face.length_edges face).trans (htriangular face hface)⟩
  calc 2 * surface.edgeCount = surface.incidence.flags.ncard :=
    two_mul_edgeCount hincidence
    _ = surface.incidence.darts.ncard := hincidence.ncard_darts.symm
    _ = (surface.flatMap Face.edges).length := by
        rw [hdarts, Set.ncard_coe_finset, List.toFinset_card_of_nodup hnodup]
    _ = 3 * surface.length := by
        rw [List.length_flatMap, hthree, List.sum_replicate, smul_eq_mul,
          mul_comm]

theorem edgeCount_of_length_eq {other : Surface} {k : ℕ}
    (htriangular : surface.Triangular)
    (hclosed : surface.checkClosed = .ok ())
    (htriangular' : other.Triangular)
    (hclosed' : other.checkClosed = .ok ())
    (hlength : other.length = k * surface.length) :
    other.edgeCount = k * surface.edgeCount := by
  refine Nat.eq_of_mul_eq_mul_left two_pos ?_
  calc 2 * other.edgeCount = 3 * other.length :=
        two_mul_edgeCount_of_triangular htriangular' hclosed'
    _ = k * (3 * surface.length) := by rw [hlength, Nat.mul_left_comm]
    _ = k * (2 * surface.edgeCount) := by
        rw [two_mul_edgeCount_of_triangular htriangular hclosed]
    _ = 2 * (k * surface.edgeCount) := Nat.mul_left_comm _ _ _

theorem triangular_map_places (surface : Surface) (n : ℕ)
    (index : Multiset ℕ → ℕ) :
    Surface.Triangular ((surface.places n).map (List.map index)) := by
  intro face hface
  obtain ⟨_, hcell, rfl⟩ := List.mem_map.mp hface
  obtain ⟨_, -, hcell⟩ := List.mem_flatMap.mp hcell
  obtain ⟨triangle, htriangle, rfl⟩ := List.mem_map.mp hcell
  obtain ⟨i, j, ⟨-, rfl⟩ | ⟨-, rfl⟩⟩ :=
    mem_triangles_iff.mp htriangle <;> rfl

theorem checkClosed_map_places
    (htriangular : surface.Triangular)
    (hclosed : surface.checkClosed = .ok ())
    (hapart : surface.EdgesApart)
    {index : Multiset ℕ → ℕ}
    (hindex : Set.InjOn index (surface.latticeIncidence n).tails) :
    Surface.checkClosed ((surface.places n).map (List.map index)) =
      .ok () := by
  rw [checkClosed_iff_closed_of_triangular
    (triangular_map_places surface n index), incidence_map_places]
  apply Incidence.Closed.rename _ injOn_cellIndex hindex
  exact latticeIncidence_closed htriangular
    (nodup_of_triangular hclosed htriangular)
    ((checkClosed_iff_closed_of_triangular htriangular).mp hclosed) hapart

end Surface

namespace Mesh

/-- Two lattice points get the same index exactly when they are the same
place on the surface. -/
def WeldsFaithfully (mesh : Mesh) (n : ℕ) (tolerance : Float) : Prop :=
  ∀ (f g : ℕ) (p q : ℕ × ℕ), f < mesh.faceCount → g < mesh.faceCount →
    p.1 + p.2 ≤ n → q.1 + q.2 ≤ n →
    (mesh.latticeIndex n tolerance f p = mesh.latticeIndex n tolerance g q ↔
      mesh.faces.SamePlace n f p g q)

theorem faceCount_subdivideTriangles (mesh : Mesh) (n : ℕ)
    (tolerance : Float) :
    (mesh.subdivideTriangles n tolerance).faceCount =
      mesh.faceCount * n * n := by
  rw [faceCount, faces_subdivideTriangles]
  simp [List.length_flatMap, length_triangles, mul_assoc]

theorem mem_faces_subdivideTriangles {mesh : Mesh} {n : ℕ}
    {tolerance : Float} {face : Face} :
    face ∈ (mesh.subdivideTriangles n tolerance).faces ↔
      ∃ f < mesh.faceCount, ∃ triangle ∈ triangles n,
        triangle.map (mesh.latticeIndex n tolerance f) = face := by
  simp [faces_subdivideTriangles]

theorem triangular_subdivideTriangles (mesh : Mesh) (n : ℕ)
    (tolerance : Float) :
    (mesh.subdivideTriangles n tolerance).faces.Triangular := by
  intro face hface
  obtain ⟨f, -, triangle, htriangle, rfl⟩ :=
    mem_faces_subdivideTriangles.mp hface
  obtain ⟨i, j, ⟨-, rfl⟩ | ⟨-, rfl⟩⟩ :=
    mem_triangles_iff.mp htriangle <;> rfl

/-- Lattice points at one place on the surface get one index. -/
def WeldsPlaces (mesh : Mesh) (n : ℕ) (tolerance : Float) : Prop :=
  ∀ (f g : ℕ) (p q : ℕ × ℕ), f < mesh.faceCount → g < mesh.faceCount →
    p.1 + p.2 ≤ n → q.1 + q.2 ≤ n → mesh.faces.SamePlace n f p g q →
    mesh.latticeIndex n tolerance f p = mesh.latticeIndex n tolerance g q

variable {mesh : Mesh} {n : ℕ} {tolerance : Float}

theorem WeldsFaithfully.weldsPlaces (h : mesh.WeldsFaithfully n tolerance) :
    mesh.WeldsPlaces n tolerance :=
  fun f g p q hf hg hp hq => (h f g p q hf hg hp hq).mpr

/-- The index of a place, given as the one of its lattice points. -/
def Indexes (mesh : Mesh) (n : ℕ) (tolerance : Float)
    (index : Multiset ℕ → ℕ) : Prop :=
  ∀ (f : ℕ) (face : Face) (p : ℕ × ℕ), mesh.faces[f]? = some face →
    p.1 + p.2 ≤ n →
    index (place n face p) = mesh.latticeIndex n tolerance f p

section Places

variable (htriangular : mesh.faces.Triangular)
  (hclosed : mesh.faces.checkClosed = .ok ())
  (hapart : mesh.faces.EdgesApart)
  (hn : 0 < n)
include htriangular hclosed hapart hn

/-- When places are welded, an index is a function of the place. -/
theorem WeldsPlaces.exists_indexes (hwelds : mesh.WeldsPlaces n tolerance) :
    ∃ index, mesh.Indexes n tolerance index := by
  obtain ⟨index, hindex⟩ :=
    exists_of_eq_imp_eq {site : ℕ × Face × ℕ × ℕ |
        mesh.faces[site.1]? = some site.2.1 ∧ site.2.2.1 + site.2.2.2 ≤ n}
      (fun site => place n site.2.1 site.2.2)
      (fun site => mesh.latticeIndex n tolerance site.1 site.2.2)
      fun site hsite other hother heq =>
        hwelds _ _ _ _ (List.getElem?_eq_some_iff.mp hsite.1).1
          (List.getElem?_eq_some_iff.mp hother.1).1 hsite.2 hother.2
          ((Surface.samePlace_iff hclosed htriangular hapart hn hsite.1
            hother.1 hsite.2).mpr heq)
  exact ⟨index, fun f face p hface hp => hindex (f, face, p) ⟨hface, hp⟩⟩

/-- Welding is faithful when different places have different indices. -/
theorem Indexes.weldsFaithfully_iff {index : Multiset ℕ → ℕ}
    (hindex : mesh.Indexes n tolerance index) :
    mesh.WeldsFaithfully n tolerance ↔
      Set.InjOn index (mesh.faces.latticeIncidence n).tails := by
  constructor
  · intro hfaithful P hP Q hQ heq
    rw [Surface.mem_tails_latticeIncidence_iff_place hclosed htriangular hn]
      at hP hQ
    obtain ⟨f, face, p, hface, hp, rfl⟩ := hP
    obtain ⟨g, other, q, hother, hq, rfl⟩ := hQ
    rw [hindex f face p hface hp, hindex g other q hother hq,
      hfaithful f g p q (List.getElem?_eq_some_iff.mp hface).1
        (List.getElem?_eq_some_iff.mp hother).1 hp hq] at heq
    exact heq.place_eq hface hother
  · intro hinjective f g p q hf hg hp hq
    have hface : mesh.faces[f]? = some mesh.faces[f] :=
      List.getElem?_eq_getElem hf
    have hother : mesh.faces[g]? = some mesh.faces[g] :=
      List.getElem?_eq_getElem hg
    have hmem : ∀ {f face p}, mesh.faces[f]? = some face → p.1 + p.2 ≤ n →
        place n face p ∈ (mesh.faces.latticeIncidence n).tails :=
      fun hface hp =>
      (Surface.mem_tails_latticeIncidence_iff_place hclosed htriangular
        hn).mpr ⟨_, _, _, hface, hp, rfl⟩
    rw [Surface.samePlace_iff hclosed htriangular hapart hn hface hother hp,
      ← hindex f _ p hface hp, ← hindex g _ q hother hq]
    exact hinjective.eq_iff (hmem hface hp) (hmem hother hq)

end Places

section Indexes

variable {index : Multiset ℕ → ℕ} (hindex : mesh.Indexes n tolerance index)
include hindex

theorem Indexes.faces_eq : (mesh.subdivideTriangles n tolerance).faces =
    (mesh.faces.places n).map (List.map index) := by
  rw [faces_subdivideTriangles, Surface.places, List.map_flatMap]
  nth_rewrite 1 [← map_getD_range mesh.faces []]
  rw [List.flatMap_map]
  refine List.flatMap_congr fun f hf => ?_
  rw [List.map_map]
  refine List.map_congr_left fun triangle htriangle => ?_
  rw [Function.comp_apply, List.map_map]
  refine List.map_congr_left fun p hp => ?_
  have hface : mesh.faces[f]? = some (mesh.faces.getD f []) := by
    rw [List.getD_eq_getElem _ _ (List.mem_range.mp hf)]
    exact List.getElem?_eq_getElem (List.mem_range.mp hf)
  exact (hindex f _ p hface (sum_le_of_mem_triangles htriangle hp)).symm

/-- The vertices are the indices of the places. -/
theorem Indexes.lt_vertexCount_iff
    (htriangular : mesh.faces.Triangular)
    (hclosed : mesh.faces.checkClosed = .ok ())
    (hn : 0 < n)
    {k : ℕ} :
    k < (mesh.subdivideTriangles n tolerance).vertexCount ↔
      k ∈ index '' (mesh.faces.latticeIncidence n).tails := by
  rw [lt_vertexCount_subdivideTriangles_iff]
  constructor
  · rintro ⟨f, p, hf, hp, rfl⟩
    have hface := List.getElem?_eq_getElem hf
    refine ⟨place n mesh.faces[f] p, ?_, hindex f _ p hface hp⟩
    exact (Surface.mem_tails_latticeIncidence_iff_place hclosed htriangular
      hn).mpr ⟨f, _, p, hface, hp, rfl⟩
  · rintro ⟨P, hP, rfl⟩
    obtain ⟨f, face, p, hface, hp, rfl⟩ :=
      (Surface.mem_tails_latticeIncidence_iff_place hclosed htriangular
        hn).mp hP
    exact ⟨f, p, (List.getElem?_eq_some_iff.mp hface).1, hp,
      (hindex f face p hface hp).symm⟩

/-- There are as many vertices as indices of places. -/
theorem Indexes.vertexCount_eq
    (htriangular : mesh.faces.Triangular)
    (hclosed : mesh.faces.checkClosed = .ok ())
    (hn : 0 < n) :
    (mesh.subdivideTriangles n tolerance).vertexCount =
      (index '' (mesh.faces.latticeIncidence n).tails).ncard := by
  have hset : {k | k < (mesh.subdivideTriangles n tolerance).vertexCount} =
      index '' (mesh.faces.latticeIncidence n).tails :=
    Set.ext fun _ => hindex.lt_vertexCount_iff htriangular hclosed hn
  rw [← hset]
  exact (Set.ncard_Iio_nat _).symm

end Indexes

section Faithful

variable (htriangular : mesh.faces.Triangular)
  (hclosed : mesh.faces.checkClosed = .ok ())
  (hapart : mesh.faces.EdgesApart)
  (hn : 0 < n)
  (hfaithful : mesh.WeldsFaithfully n tolerance)
include htriangular hclosed hapart hn hfaithful

/-- Faithful welding gives every place an index of its own. -/
theorem WeldsFaithfully.exists_index :
    ∃ index, mesh.Indexes n tolerance index ∧
      Set.InjOn index (mesh.faces.latticeIncidence n).tails := by
  obtain ⟨index, hindex⟩ :=
    hfaithful.weldsPlaces.exists_indexes htriangular hclosed hapart hn
  exact ⟨index, hindex,
    (hindex.weldsFaithfully_iff htriangular hclosed hapart hn).mp hfaithful⟩

theorem vertexCount_subdivideTriangles
    (hrange : mesh.InRange)
    (hused : ∀ v < mesh.vertexCount, ∃ face ∈ mesh.faces, v ∈ face) :
    (mesh.subdivideTriangles n tolerance).vertexCount =
      mesh.vertexCount + mesh.edgeCount * (n - 1) + mesh.faceCount *
      ((n - 1) * (n - 2) / 2) := by
  obtain ⟨index, hindex, hinjective⟩ :=
    hfaithful.exists_index htriangular hclosed hapart hn
  have hcorners : mesh.faces.incidence.tails.ncard = mesh.vertexCount := by
    rw [(used_iff_tails_eq hrange).mp hused]
    exact Set.ncard_Iio_nat _
  rw [hindex.vertexCount_eq htriangular hclosed hn, hinjective.ncard_image,
    Surface.ncard_tails_latticeIncidence hclosed htriangular hapart hn,
    hcorners]
  rfl

end Faithful

theorem subdivide_eq_ok {maxFactor : ℕ}
    (htriangular : mesh.faces.Triangular)
    (hrange : mesh.InRange)
    (hn : 1 ≤ n)
    (hmax : n ≤ maxFactor)
    (htolerance : tolerance > 0) :
    mesh.subdivide n tolerance maxFactor =
      .ok (mesh.subdivideTriangles n tolerance) := by
  have hfactor : ¬ (n = 0 ∨ maxFactor < n) := by omega
  have hrequire := requireInRange_eq_ok_iff.mpr hrange
  simp only [subdivide, hfactor, htolerance, htriangular, hrequire, if_false,
    decide_true, Bool.not_true, Bool.false_eq_true, not_true_eq_false]
  rfl

/-- With three half edges for each face, cutting faces and edges keeps the
Euler characteristic. -/
theorem eulerCharacteristic_of_counts {vertices edges faces : ℕ}
    (hn : 1 ≤ n)
    (h : 2 * edges = 3 * faces) :
    ((vertices + edges * (n - 1) + faces * ((n - 1) * (n - 2) / 2) : ℕ) :
        ℤ) - (n * n * edges : ℕ) + (faces * n * n : ℕ) =
      vertices - edges + faces := by
  obtain ⟨m, rfl⟩ : ∃ m, n = m + 1 := ⟨n - 1, by omega⟩
  change ((vertices + edges * m + faces * (m * (m - 1) / 2) : ℕ) : ℤ) - _ +
    _ = _
  have hinside : 2 * (m * (m - 1) / 2) + m = m * m := by
    rw [Nat.mul_div_cancel' (Nat.even_mul_pred_self m).two_dvd, Nat.mul_sub,
      mul_one, Nat.sub_add_cancel (Nat.le_mul_self m)]
  generalize m * (m - 1) / 2 = inside at hinside ⊢
  zify at h hinside
  push_cast
  refine mul_left_cancel₀ (two_ne_zero : (2 : ℤ) ≠ 0) ?_
  linear_combination (faces : ℤ) * hinside - (m * m + m : ℤ) * h

section Counts

variable (htriangular : mesh.faces.Triangular)
  (hclosed : mesh.faces.checkClosed = .ok ())
  (hclosed' :
      (mesh.subdivideTriangles n tolerance).faces.checkClosed = .ok ())
include htriangular hclosed hclosed'

theorem edgeCount_subdivideTriangles :
    (mesh.subdivideTriangles n tolerance).edgeCount =
      n * n * mesh.edgeCount := by
  refine Surface.edgeCount_of_length_eq htriangular hclosed
    (triangular_subdivideTriangles mesh n tolerance) hclosed' ?_
  exact (faceCount_subdivideTriangles mesh n tolerance).trans
    (by rw [mul_assoc, mul_comm]; rfl)

/-- A closed subdivision keeps the Euler characteristic exactly when no
vertices are lost. -/
theorem eulerCharacteristic_subdivideTriangles_iff (hn : 1 ≤ n) :
    (mesh.subdivideTriangles n tolerance).eulerCharacteristic =
        mesh.eulerCharacteristic ↔
      (mesh.subdivideTriangles n tolerance).vertexCount =
        mesh.vertexCount + mesh.edgeCount * (n - 1) + mesh.faceCount *
        ((n - 1) * (n - 2) / 2) := by
  have hhalf : 2 * mesh.edgeCount = 3 * mesh.faceCount :=
    Surface.two_mul_edgeCount_of_triangular htriangular hclosed
  rw [eulerCharacteristic, eulerCharacteristic,
    edgeCount_subdivideTriangles htriangular hclosed hclosed',
    faceCount_subdivideTriangles mesh n tolerance,
    ← eulerCharacteristic_of_counts hn hhalf, add_left_inj, sub_left_inj,
    Nat.cast_inj]

end Counts

/-- When welding is faithful, the subdivision of a closed triangulated mesh
is closed.  Every triangle becomes `n * n` triangles and every edge `n` edges
on the sides and more inside; the Euler characteristic stays. -/
theorem subdivide_of_weldsFaithfully {maxFactor : ℕ}
    (htriangular : mesh.faces.Triangular)
    (hrange : mesh.InRange)
    (hclosed : mesh.faces.checkClosed = .ok ())
    (hused : ∀ v < mesh.vertexCount, ∃ face ∈ mesh.faces, v ∈ face)
    (hapart : mesh.faces.EdgesApart)
    (hn : 1 ≤ n)
    (hmax : n ≤ maxFactor)
    (htolerance : tolerance > 0)
    (hfaithful : mesh.WeldsFaithfully n tolerance) :
    ∃ out, mesh.subdivide n tolerance maxFactor = .ok out ∧
      out.faces.checkClosed = .ok () ∧ out.faces.Triangular ∧
      out.faceCount = mesh.faceCount * n * n ∧
      out.vertexCount =
        mesh.vertexCount + mesh.edgeCount * (n - 1) + mesh.faceCount *
        ((n - 1) * (n - 2) / 2) ∧ out.edgeCount = n * n * mesh.edgeCount ∧
      out.eulerCharacteristic = mesh.eulerCharacteristic := by
  obtain ⟨index, hindex, hinjective⟩ :=
    hfaithful.exists_index htriangular hclosed hapart hn
  have hclosed' :
      (mesh.subdivideTriangles n tolerance).faces.checkClosed = .ok () :=
    hindex.faces_eq ▸
      Surface.checkClosed_map_places htriangular hclosed hapart hinjective
  have hvertexCount :=
    vertexCount_subdivideTriangles htriangular hclosed hapart hn hfaithful
      hrange hused
  exact ⟨_, subdivide_eq_ok htriangular hrange hn hmax htolerance, hclosed',
    triangular_subdivideTriangles mesh n tolerance,
    faceCount_subdivideTriangles mesh n tolerance, hvertexCount,
    edgeCount_subdivideTriangles htriangular hclosed hclosed',
    (eulerCharacteristic_subdivideTriangles_iff htriangular hclosed hclosed'
      hn).mpr hvertexCount⟩

/-- Welding is faithful when equal places have equal positions and other
places are not within the tolerance of each other. -/
theorem weldsFaithfully_of_distance
    (htriangular : mesh.faces.Triangular)
    (hclosed : mesh.faces.checkClosed = .ok ())
    (hapart : mesh.faces.EdgesApart)
    (hn : 0 < n)
    (hequal : ∀ face ∈ mesh.faces, ∀ other ∈ mesh.faces, ∀ p q : ℕ × ℕ,
        p.1 + p.2 ≤ n → q.1 + q.2 ≤ n → place n face p = place n other q →
      facePoint mesh n face p = facePoint mesh n other q)
    (hdistance : ∀ face ∈ mesh.faces, ∀ other ∈ mesh.faces,
      ∀ p q : ℕ × ℕ, p.1 + p.2 ≤ n → q.1 + q.2 ≤ n →
        ((facePoint mesh n other q).distance (facePoint mesh n face p) <
          tolerance ↔ place n face p = place n other q)) :
    mesh.WeldsFaithfully n tolerance := by
  have hpoint : ∀ face ∈ mesh.faces, ∀ other ∈ mesh.faces,
      ∀ p q : ℕ × ℕ, p.1 + p.2 ≤ n → q.1 + q.2 ≤ n →
        facePoint mesh n face p = facePoint mesh n other q →
        place n face p = place n other q := by
    intro face hface other hother p q hp hq heq
    rw [← hdistance face hface other hother p q hp hq, ← heq,
      hdistance face hface face hface p p hp hp]
  have hseparated :
      WeldingGrid.Separated tolerance (mesh.latticePoints n) := by
    rintro _ ⟨face, hface, p, hp, rfl⟩ _ ⟨other, hother, q, hq, rfl⟩
    rw [hdistance face hface other hother p q hp hq]
    exact ⟨fun h => (hequal face hface other hother p q hp hq h).symm,
      fun h => hpoint face hface other hother p q hp hq h.symm⟩
  intro f g p q hf hg hp hq
  have hface : mesh.faces[f]? = some mesh.faces[f] :=
    List.getElem?_eq_getElem hf
  have hother : mesh.faces[g]? = some mesh.faces[g] :=
    List.getElem?_eq_getElem hg
  rw [latticeIndex_eq_iff hseparated hface hother hp hq,
    Surface.samePlace_iff hclosed htriangular hapart hn hface hother hp]
  exact ⟨hpoint _ (List.getElem_mem hf) _ (List.getElem_mem hg) p q hp hq,
    hequal _ (List.getElem_mem hf) _ (List.getElem_mem hg) p q hp hq⟩

/-- The tetrahedron with four corners of a cube. -/
def cubeTetrahedron : Mesh where
  name := "T"
  vertices := #[⟨1, 1, 1⟩, ⟨1, -1, -1⟩, ⟨-1, 1, -1⟩, ⟨-1, -1, 1⟩]
  faces := [[0, 1, 2], [0, 2, 3], [0, 3, 1], [1, 3, 2]]

/-- The corners and the midpoints of the edges of the tetrahedron. -/
def cubeTetrahedronPlaces : List (Multiset ℕ × Point) :=
  [ ({0, 0}, ⟨1, 1, 1⟩), ({1, 1}, ⟨1, -1, -1⟩), ({2, 2}, ⟨-1, 1, -1⟩),
    ({3, 3}, ⟨-1, -1, 1⟩), ({0, 1}, ⟨1, 0, 0⟩), ({0, 2}, ⟨0, 1, 0⟩),
    ({0, 3}, ⟨0, 0, 1⟩), ({2, 3}, ⟨-1, 0, 0⟩), ({1, 3}, ⟨0, -1, 0⟩),
    ({1, 2}, ⟨0, 0, -1⟩) ]

instance : DecidableEq Point := fun p q =>
  decidable_of_iff (p.x = q.x ∧ p.y = q.y ∧ p.z = q.z)
    (by cases p; cases q; simp)

theorem mem_cubeTetrahedronPlaces :
    ∀ face ∈ cubeTetrahedron.faces, ∀ row ∈ lattice 2, ∀ p ∈ row,
      ∃ a ∈ cubeTetrahedronPlaces, a.1 = place 2 face p ∧
        a.2 = facePoint cubeTetrahedron 2 face p := by
  decide +kernel

theorem distance_cubeTetrahedronPlaces :
    ∀ a ∈ cubeTetrahedronPlaces,
      ∀ b ∈ cubeTetrahedronPlaces, (b.2.distance a.2 < 0.1 ↔ a.1 = b.1) ∧
        (a.1 = b.1 → a.2 = b.2) := by
  decide +kernel

theorem subdivide_cubeTetrahedron :
    cubeTetrahedron.WeldsFaithfully 2 0.1 ∧
      ∃ out, cubeTetrahedron.subdivide 2 0.1 32 = .ok out ∧
        out.faces.checkClosed = .ok () ∧ out.faceCount = 16 ∧
        out.vertexCount = 10 ∧ out.edgeCount = 24 := by
  have htriangular : cubeTetrahedron.faces.Triangular := by decide
  have hpolyhedral : cubeTetrahedron.Polyhedral :=
    Surface.polyhedral_tetrahedron
  have hplaces :
      ∀ face ∈ cubeTetrahedron.faces, ∀ other ∈ cubeTetrahedron.faces,
        ∀ p q : ℕ × ℕ, p.1 + p.2 ≤ 2 → q.1 + q.2 ≤ 2 →
          ((facePoint cubeTetrahedron 2 other q).distance
            (facePoint cubeTetrahedron 2 face p) < 0.1 ↔
            place 2 face p = place 2 other q) ∧
          (place 2 face p = place 2 other q →
            facePoint cubeTetrahedron 2 face p =
              facePoint cubeTetrahedron 2 other q) := by
    intro face hface other hother p q hp hq
    obtain ⟨row, hrow, hp⟩ := exists_row_iff.mpr hp
    obtain ⟨row', hrow', hq⟩ := exists_row_iff.mpr hq
    obtain ⟨a, ha, hplace, hpoint⟩ :=
      mem_cubeTetrahedronPlaces face hface row hrow p hp
    obtain ⟨b, hb, hplace', hpoint'⟩ :=
      mem_cubeTetrahedronPlaces other hother row' hrow' q hq
    rw [← hplace, ← hplace', ← hpoint, ← hpoint']
    exact distance_cubeTetrahedronPlaces a ha b hb
  have hfaithful : cubeTetrahedron.WeldsFaithfully 2 0.1 :=
    weldsFaithfully_of_distance htriangular hpolyhedral.closed
      hpolyhedral.shareOne two_pos (fun face hface other hother p q hp hq =>
        (hplaces face hface other hother p q hp hq).2)
      (fun face hface other hother p q hp hq =>
        (hplaces face hface other hother p q hp hq).1)
  obtain ⟨out, hout, hclosed, -, hfaces, hvertices, hedges, -⟩ :=
    subdivide_of_weldsFaithfully htriangular hpolyhedral.inRange
      hpolyhedral.closed hpolyhedral.used hpolyhedral.shareOne (by decide)
      (by decide : 2 ≤ 32) (by decide +kernel) hfaithful
  have hedgeCount : cubeTetrahedron.edgeCount = 6 := by decide +kernel
  rw [hedgeCount] at hvertices hedges
  exact ⟨hfaithful, out, hout, hclosed, hfaces, hvertices, hedges⟩

end Mesh
end Polyhedra
