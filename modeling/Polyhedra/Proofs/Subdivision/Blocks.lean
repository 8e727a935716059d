import Mathlib
import Polyhedra.Proofs.Subdivision.Closure
import Polyhedra.Proofs.Subdivision.Table

/-!
# The blocks of a subdivision

Every triangle of a mesh gives a block of small triangles.  Their corners are
the indices that the lattice points of this triangle were given when they
were welded, whatever the positions are.  In lattice coordinates the small
triangles of a block tile their triangle: a directed edge belongs to one of
them only, and it has its reverse among them unless it is a step along a
side.
-/

namespace Polyhedra

open WeldingGrid

namespace Subdivision

/-! ## Steps between lattice points -/

/-- The directed edges of all small triangles, in lattice coordinates. -/
def latticeSteps (n : ℕ) : List ((ℕ × ℕ) × (ℕ × ℕ)) :=
  (triangles n).flatMap Face.steps

/-- The unit steps along the sides: from the first corner to the second, on
to the third, and back to the first. -/
def sideSteps (n : ℕ) : List ((ℕ × ℕ) × (ℕ × ℕ)) :=
  (List.range n).map (fun k => ((k, 0), (k + 1, 0))) ++
    ((List.range n).map (fun k => ((n - k, k), (n - (k + 1), k + 1))) ++
      (List.range n).map (fun k => ((0, n - k), (0, n - (k + 1)))))

/-- Along every of the three directions of the lattice there is a step of an
upward triangle one way and one of a downward triangle the other way, where
these fit. -/
theorem mem_latticeSteps_iff {n a b c d : ℕ} :
    ((a, b), (c, d)) ∈ latticeSteps n ↔
      a + b ≤ n ∧ c + d ≤ n ∧
      (c = a + 1 ∧ d = b ∨ c + 1 = a ∧ d = b + 1 ∨ c = a ∧ d + 1 = b ∨
        c = a ∧ d = b + 1 ∧ 0 < a ∨ c + 1 = a ∧ d = b ∧ 0 < b ∨
        c = a + 1 ∧ d + 1 = b ∧ a + b < n) := by
  simp only [latticeSteps, List.mem_flatMap, mem_triangles_iff]
  constructor
  · rintro ⟨_, ⟨i, j, ⟨hij, rfl⟩ | ⟨hij, rfl⟩⟩, hstep⟩ <;>
      simp only [upTriangle, downTriangle, Face.mem_steps_three,
        Prod.mk.injEq] at hstep <;>
      rcases hstep with ⟨⟨rfl, rfl⟩, rfl, rfl⟩ | ⟨⟨rfl, rfl⟩, rfl, rfl⟩ |
      ⟨⟨rfl, rfl⟩, rfl, rfl⟩ <;> simp <;> omega
  · rintro ⟨hab, hcd, h⟩
    have hup :
        ∀ i j, i + j < n → ((a, b), (c, d)) ∈ Face.steps (upTriangle i j) →
          ∃ triangle, (∃ i j, i + j < n ∧ triangle = upTriangle i j ∨
            i + j + 1 < n ∧ triangle = downTriangle i j) ∧
            ((a, b), (c, d)) ∈ Face.steps triangle :=
      fun i j hij hstep => ⟨_, ⟨i, j, .inl ⟨hij, rfl⟩⟩, hstep⟩
    have hdown : ∀ i j, i + j + 1 < n →
        ((a, b), (c, d)) ∈ Face.steps (downTriangle i j) →
        ∃ triangle, (∃ i j, i + j < n ∧ triangle = upTriangle i j ∨
          i + j + 1 < n ∧ triangle = downTriangle i j) ∧
          ((a, b), (c, d)) ∈ Face.steps triangle :=
      fun i j hij hstep => ⟨_, ⟨i, j, .inr ⟨hij, rfl⟩⟩, hstep⟩
    simp only [upTriangle, downTriangle, Face.mem_steps_three, Prod.mk.injEq]
      at hup hdown
    rcases h with ⟨rfl, rfl⟩ | ⟨rfl, rfl⟩ | ⟨rfl, rfl⟩ | ⟨rfl, rfl, ha⟩ |
      ⟨rfl, rfl, hb⟩ | ⟨rfl, rfl, hlt⟩
    · exact hup a d (by omega) (by omega)
    · exact hup c b (by omega) (by omega)
    · exact hup c d (by omega) (by omega)
    · exact hdown (c - 1) b (by omega) (by omega)
    · exact hdown c (d - 1) (by omega) (by omega)
    · exact hdown a d (by omega) (by omega)

theorem mem_sideSteps_iff {n a b c d : ℕ} : ((a, b), (c, d)) ∈ sideSteps n ↔
    c = a + 1 ∧ d = b ∧ b = 0 ∧ a < n ∨ c + 1 = a ∧ d = b + 1 ∧ a + b = n ∨
      c = a ∧ d + 1 = b ∧ a = 0 ∧ b ≤ n := by
  simp only [sideSteps, List.mem_append, List.mem_map, List.mem_range,
    Prod.mk.injEq]
  constructor
  · rintro (⟨k, hk, h⟩ | ⟨k, hk, h⟩ | ⟨k, hk, h⟩) <;> omega
  · rintro (h | h | h)
    · exact .inl ⟨a, by omega⟩
    · exact .inr (.inl ⟨b, by omega⟩)
    · exact .inr (.inr ⟨n - b, by omega⟩)

/-- The steps without a reverse are those along the sides. -/
theorem mem_sideSteps_iff_not_swap {n : ℕ} {step : (ℕ × ℕ) × (ℕ × ℕ)} :
    step ∈ sideSteps n ↔
      step ∈ latticeSteps n ∧ step.swap ∉ latticeSteps n := by
  obtain ⟨⟨a, b⟩, c, d⟩ := step
  rw [Prod.swap_prod_mk, mem_sideSteps_iff, mem_latticeSteps_iff,
    mem_latticeSteps_iff]
  constructor
  · rintro (⟨rfl, rfl, rfl, h⟩ | ⟨rfl, rfl, h⟩ | ⟨rfl, rfl, rfl, h⟩) <;>
      simp <;> omega
  · rintro ⟨⟨hab, hcd, h⟩, hnot⟩
    rcases h with ⟨rfl, rfl⟩ | ⟨rfl, rfl⟩ | ⟨rfl, rfl⟩ | ⟨rfl, rfl, h⟩ |
      ⟨rfl, rfl, h⟩ | ⟨rfl, rfl, h⟩ <;> simp at hnot ⊢ <;> omega

theorem length_sideSteps (n : ℕ) : (sideSteps n).length = 3 * n := by
  simp only [sideSteps, List.length_append, List.length_map,
    List.length_range]
  omega

theorem nodup_sideSteps (n : ℕ) : (sideSteps n).Nodup := by
  have hside : ∀ side : ℕ → (ℕ × ℕ) × (ℕ × ℕ),
        (∀ k l, k < n → l < n → side k = side l → k = l) →
      ((List.range n).map side).Nodup :=
    fun side hinj => List.nodup_range.map_on fun k hk l hl =>
      hinj k l (List.mem_range.mp hk) (List.mem_range.mp hl)
  refine (hside _ ?_).append ((hside _ ?_).append (hside _ ?_) ?_) ?_
  · grind
  · grind
  · grind
  · simp only [List.disjoint_left, List.mem_map, List.mem_range]
    grind
  · simp only [List.disjoint_left, List.mem_append, List.mem_map,
      List.mem_range]
    grind

theorem nodup_of_mem_triangles {n : ℕ} {triangle : List (ℕ × ℕ)}
    (h : triangle ∈ triangles n) : triangle.Nodup := by
  obtain ⟨i, j, ⟨-, rfl⟩ | ⟨-, rfl⟩⟩ :=
    mem_triangles_iff.mp h <;> simp [upTriangle, downTriangle]

/-- A step belongs to one small triangle only. -/
theorem triangle_unique {n : ℕ} {triangle other : List (ℕ × ℕ)}
    (h : triangle ∈ triangles n)
    (h' : other ∈ triangles n)
    {step : (ℕ × ℕ) × (ℕ × ℕ)}
    (hstep : step ∈ Face.steps triangle)
    (hstep' : step ∈ Face.steps other) : triangle = other := by
  obtain ⟨⟨a, b⟩, c, d⟩ := step
  obtain ⟨i, j, ⟨-, rfl⟩ | ⟨-, rfl⟩⟩ :=
    mem_triangles_iff.mp h <;>
      obtain ⟨i', j', ⟨-, rfl⟩ | ⟨-, rfl⟩⟩ := mem_triangles_iff.mp h' <;>
      simp only [upTriangle, downTriangle, Face.mem_steps_three,
        Prod.mk.injEq] at hstep hstep' ⊢ <;> grind

theorem nodup_latticeSteps (n : ℕ) : (latticeSteps n).Nodup := by
  unfold latticeSteps
  rw [List.nodup_flatMap]
  refine ⟨fun triangle h => Face.nodup_steps (nodup_of_mem_triangles h), ?_⟩
  refine (nodup_triangles n).imp_of_mem fun h h' hne step hstep hstep' => ?_
  exact hne (triangle_unique h h' hstep hstep')

/-- Every lattice point is a corner of a small triangle. -/
theorem exists_triangle_of_sum_le {n : ℕ}
    (hn : 0 < n)
    {p : ℕ × ℕ}
    (hp : p.1 + p.2 ≤ n) :
    ∃ triangle ∈ triangles n, p ∈ triangle := by
  obtain ⟨i, j⟩ := p
  have hup : ∀ k l, k + l < n → (i, j) ∈ upTriangle k l →
      ∃ triangle ∈ triangles n, (i, j) ∈ triangle :=
    fun k l hkl h => ⟨_, mem_triangles_iff.mpr ⟨k, l, .inl ⟨hkl, rfl⟩⟩, h⟩
  simp only [upTriangle, List.mem_cons, List.not_mem_nil, Prod.mk.injEq,
    or_false] at hup hp
  -- the point is a first corner, or a second one, or the third one at the
  -- end
  by_cases hlt : i + j < n
  · exact hup i j hlt (by omega)
  · by_cases hi : 0 < i
    · exact hup (i - 1) j (by omega) (by omega)
    · exact hup 0 (j - 1) (by omega) (by omega)

end Subdivision

namespace Mesh

open Subdivision

/-- The grid when the triangles before the face `f` have been subdivided. -/
def gridBefore (mesh : Mesh) (n : ℕ) (tolerance : Float) (f : ℕ) :
    WeldingGrid :=
  (((mesh.faces.take f).mapM (subdivideFace mesh n)).run
    (.empty tolerance)).2

/-- The result of a subdivision, with the index that every lattice point has
in every face.  The indices of a face are given out by welding its lattice
points, row by row, after those of the faces before it, and its small
triangles are one block. -/
structure SubdividesInto (mesh : Mesh) (n : ℕ) (tolerance : Float)
    (out : Mesh) (index : ℕ → ℕ × ℕ → ℕ) : Prop where
  faceCount : out.faceCount = mesh.faceCount * n * n
  triangular : out.faces.Triangular
  inRange : out.InRange
  used : ∀ v < out.vertexCount, ∃ face ∈ out.faces, v ∈ face
  vertices :
    out.vertices = (mesh.gridBefore n tolerance mesh.faceCount).points
  welds : ∀ (f : ℕ) face, mesh.faces[f]? = some face →
    Welds (mesh.gridBefore n tolerance f) ((lattice n).flatten.map
        (facePoint mesh n face)) ((lattice n).flatten.map (index f))
      (mesh.gridBefore n tolerance (f + 1))
  block : ∀ f < mesh.faceCount,
    ∀ (t : ℕ) triangle, (triangles n)[t]? = some triangle →
      out.faces[f * (n * n) + t]? = some (triangle.map (index f))

variable {mesh : Mesh} {n : ℕ} {tolerance : Float}

theorem gridBefore_eq (mesh : Mesh) (n : ℕ) (tolerance : Float) (f : ℕ) :
    mesh.gridBefore n tolerance f =
      (((mesh.faces.take f).mapM (weldFace mesh n)).run
        (.empty tolerance)).2 := by
  rw [gridBefore, subdivideFace_eq, run_mapM_map]

theorem welds_latticeIndex {f : ℕ} {face : Face}
    (hface : mesh.faces[f]? = some face) :
    Welds (mesh.gridBefore n tolerance f)
      ((lattice n).flatten.map (facePoint mesh n face))
      ((lattice n).flatten.map (mesh.latticeIndex n tolerance f))
      (mesh.gridBefore n tolerance (f + 1)) := by
  have hrows : (mesh.weldFaces n tolerance).1[f]? = some
      ((weldFace mesh n face).run (mesh.gridBefore n tolerance f)).1 := by
    rw [weldFaces, getElem?_run_mapM, hface, gridBefore_eq]
    rfl
  have hindices : (lattice n).flatten.map (mesh.latticeIndex n tolerance f) =
      ((weldFace mesh n face).run (mesh.gridBefore n tolerance f)).1.flatMap
        id := by
    rw [(tabulates_of_getElem? hrows).flatMap_eq]
    refine List.map_congr_left fun p _ => ?_
    rw [latticeIndex,
      List.getD_eq_getElem?_getD (l := (mesh.weldFaces n tolerance).1),
      hrows, Option.getD_some]
  have hpoints : (lattice n).flatten.map (facePoint mesh n face) =
      (lattice n).flatMap fun row => row.map (facePoint mesh n face) := by
    rw [List.map_flatten, List.flatMap_def]
  have hnext : mesh.gridBefore n tolerance (f + 1) =
      ((weldFace mesh n face).run (mesh.gridBefore n tolerance f)).2 := by
    rw [gridBefore_eq, gridBefore_eq, run_mapM_take_succ _ hface]
  rw [hindices, hpoints, hnext]
  exact welds_weldFace mesh n face _

theorem subdividesInto_subdivideTriangles (hn : 0 < n) :
    mesh.SubdividesInto n tolerance (mesh.subdivideTriangles n tolerance)
      (mesh.latticeIndex n tolerance) := by
  refine ⟨faceCount_subdivideTriangles mesh n tolerance,
    triangular_subdivideTriangles mesh n tolerance, ?_, ?_, ?_,
    fun f face => welds_latticeIndex, ?_⟩
  · intro face hface v hv
    obtain ⟨f, hf, triangle, htriangle, rfl⟩ :=
      mem_faces_subdivideTriangles.mp hface
    obtain ⟨p, hp, rfl⟩ := List.mem_map.mp hv
    exact lt_vertexCount_subdivideTriangles_iff.mpr
      ⟨f, p, hf, sum_le_of_mem_triangles htriangle hp, rfl⟩
  · intro v hv
    obtain ⟨f, p, hf, hp, rfl⟩ := lt_vertexCount_subdivideTriangles_iff.mp hv
    obtain ⟨triangle, htriangle, hmemp⟩ := exists_triangle_of_sum_le hn hp
    exact ⟨_,
      mem_faces_subdivideTriangles.mpr ⟨f, hf, triangle, htriangle, rfl⟩,
      List.mem_map_of_mem hmemp⟩
  · rw [gridBefore, faceCount, List.take_length]
    rfl
  · intro f hf t triangle ht
    have hblock : ∀ f ∈ List.range mesh.faceCount, ((triangles n).map
        (List.map (mesh.latticeIndex n tolerance f))).length = n * n :=
      fun _ _ => by rw [List.length_map, length_triangles]
    rw [faces_subdivideTriangles, getElem?_flatMap_eq_some_iff hblock]
    exact ⟨f, t, f, rfl,
      List.getElem?_range hf, by rw [List.getElem?_map, ht]; rfl⟩

/-- Every subdivision of a triangulated mesh in range succeeds, closed or not
and whatever the positions are, with one block of small triangles for every
triangle.  A table of indices that all triangles share gives the same blocks,
whatever it holds when a triangle comes to it.  The small triangles of a
block have lattice points as corners and tile their triangle. -/
theorem subdivide_blocks
    (hrange : mesh.InRange)
    (htriangular : mesh.faces.Triangular)
    (hn : 0 < n)
    {maxFactor : ℕ}
    (hmax : n ≤ maxFactor)
    (htolerance : tolerance > 0) :
    (∃ out index, mesh.subdivide n tolerance maxFactor = .ok out ∧
        mesh.SubdividesInto n tolerance out index ∧
        ∀ table, ((subdivideReusing mesh n mesh.faces table).run
          (.empty tolerance)).1 = out.faces) ∧ (triangles n).length = n * n ∧
      (latticeSteps n).Nodup ∧ (sideSteps n).Nodup ∧
      (sideSteps n).length = 3 * n ∧
      (∀ step, step ∈ sideSteps n ↔
        step ∈ latticeSteps n ∧ step.swap ∉ latticeSteps n) ∧
      ∀ triangle ∈ triangles n, ∀ p ∈ triangle, p ∈ (lattice n).flatten := by
  refine ⟨⟨_, _, subdivide_eq_ok htriangular hrange hn hmax htolerance,
      subdividesInto_subdivideTriangles hn, fun table => ?_⟩,
    length_triangles n, nodup_latticeSteps n, nodup_sideSteps n,
    length_sideSteps n,
    fun _ => mem_sideSteps_iff_not_swap, fun triangle htriangle p hp => ?_⟩
  · rw [mesh.subdivideTriangles_eq_reusing n tolerance table]
  · exact mem_lattice_iff.mpr (sum_le_of_mem_triangles htriangle hp)

/-- Two triangles with a common edge, one of them with a corner that has no
position. -/
def looseTriangles : Mesh where
  name := "L"
  vertices := #[⟨0, 0, 0⟩, ⟨1, 0, 0⟩, ⟨0, 1, 0⟩, ⟨0 / 0, 0, 1⟩]
  faces := [[0, 1, 2], [0, 2, 3]]

/-- The second triangle has its own block, also where its points are not
numbers. -/
theorem subdivide_blocks_loose :
    looseTriangles.InRange ∧ looseTriangles.faces.Triangular ∧
      ∃ (out : Mesh) (index : ℕ → ℕ × ℕ → ℕ),
        looseTriangles.subdivide 3 0.1 32 = .ok out ∧ out.faceCount = 18 ∧
        out.InRange ∧ (∀ v < out.vertexCount, ∃ face ∈ out.faces, v ∈ face) ∧
        out.faces[9]? =
          some [index 1 (0, 0), index 1 (1, 0), index 1 (0, 1)] ∧
        (sideSteps 3).length = 9 := by
  have hrange : looseTriangles.InRange := by decide
  have htriangular : looseTriangles.faces.Triangular := by decide
  obtain ⟨⟨out, index, hout, h, -⟩, -, -, -, hsides, -⟩ :=
    subdivide_blocks hrange htriangular (by decide : 0 < 3)
      (by decide : 3 ≤ 32) (by decide +kernel : (0.1 : Float) > 0)
  exact ⟨hrange, htriangular, out, index, hout, h.faceCount, h.inRange,
    h.used, h.block 1 (by decide) 0 _ rfl, hsides⟩

end Mesh
end Polyhedra
