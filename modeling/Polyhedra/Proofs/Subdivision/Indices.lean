import Mathlib
import Polyhedra.Operator.Subdivision
import Polyhedra.Proofs.Geometry.Welding

/-!
# The indices of lattice points

Subdivision welds the lattice points of one triangle after those of another.
The index that every lattice point gets determines the small triangles, and
all vertices are such indices.
-/

namespace Polyhedra

open WeldingGrid

section Runs

variable {σ α β : Type} {f : α → StateM σ β}

theorem forall₂_run_mapM {R : α → β → Prop}
    (h : ∀ a s, R a ((f a).run s).1)
    (list : List α) (s : σ) :
    List.Forall₂ R list ((list.mapM f).run s).1 := by
  induction list generalizing s with
  | nil => exact .nil
  | cons a list ih =>
      rw [List.mapM_cons]
      exact .cons (h a s) (ih _)

theorem run_mapM_map {γ : Type} (g : β → γ) (list : List α) (s : σ) :
    (list.mapM fun a => do pure (g (← f a))).run s =
      ((((list.mapM f).run s).1.map g), ((list.mapM f).run s).2) := by
  induction list generalizing s with
  | nil => rfl
  | cons a list ih =>
      rw [List.mapM_cons, List.mapM_cons]
      exact congrArg (fun run : List γ × σ =>
        (g ((f a).run s).1 :: run.1, run.2)) (ih ((f a).run s).2)

theorem getElem?_run_mapM (f : α → StateM σ β) (list : List α) (s : σ)
    (i : ℕ) :
    ((list.mapM f).run s).1[i]? =
      list[i]?.map fun a =>
        ((f a).run (((list.take i).mapM f).run s).2).1 := by
  induction list generalizing s i with
  | nil => rfl
  | cons a list ih =>
      rw [List.mapM_cons]
      cases i with
      | zero => rfl
      | succ i =>
          rw [List.take_succ_cons, List.mapM_cons]
          exact ih ((f a).run s).2 i

theorem run_mapM_take_succ (f : α → StateM σ β) {list : List α} {i : ℕ}
    {a : α} (ha : list[i]? = some a)
    (s : σ) :
    (((list.take (i + 1)).mapM f).run s).2 =
      ((f a).run (((list.take i).mapM f).run s).2).2 := by
  rw [List.take_add_one, ha, List.mapM_append]
  rfl

theorem map_getD_range (list : List α) (a : α) :
    (List.range list.length).map (list.getD · a) = list := by
  refine List.ext_getElem (by simp) fun i hi hi' => ?_
  simp [List.getD_eq_getElem?_getD, List.getElem?_eq_getElem hi']

theorem exists_getElem?_of_forall₂ {R : α → β → Prop} {list : List α}
    {other : List β}
    (h : List.Forall₂ R list other)
    {i : ℕ} {a : α}
    (ha : list[i]? = some a) :
    ∃ b, other[i]? = some b ∧ R a b := by
  induction h generalizing i with
  | nil => cases ha
  | cons hhead _ ih =>
      cases i with
      | zero => exact ⟨_, rfl, Option.some.inj ha ▸ hhead⟩
      | succ i => exact ih ha

end Runs

namespace Subdivision

/-- The welded indices of the lattice points of the triangle `face`. -/
def weldFace (mesh : Mesh) (n : ℕ) (face : Face) :
    StateM WeldingGrid (List (List ℕ)) :=
  weldLattice n (mesh.position (face.getD 0 0))
    (mesh.position (face.getD 1 0)) (mesh.position (face.getD 2 0))

/-- The position of a lattice point of the triangle `face`. -/
def facePoint (mesh : Mesh) (n : ℕ) (face : Face) (p : ℕ × ℕ) : Point :=
  latticePoint n (mesh.position (face.getD 0 0))
    (mesh.position (face.getD 1 0)) (mesh.position (face.getD 2 0)) p.1 p.2

/-- The small triangles of a face are read off the rows of its indices. -/
theorem subdivideFace_eq (mesh : Mesh) (n : ℕ) :
    subdivideFace mesh n = fun face => (do
    pure ((fun rows : List (List ℕ) =>
        (triangles n).map (List.map fun p => (rows.getD p.1 []).getD p.2 0))
      (← weldFace mesh n face))) := by
  have htable : ∀ (rows : List (List ℕ)) (p : ℕ × ℕ),
      (((rows.map List.toArray).toArray.getD p.1 #[]).getD p.2 0) =
        (rows.getD p.1 []).getD p.2 0 := by
    intro rows p
    simp only [Array.getD_eq_getD_getElem?, List.getElem?_toArray,
      List.getElem?_map, List.getD_eq_getElem?_getD]
    cases rows[p.1]? <;> simp
  simp only [← htable]
  rfl

theorem welds_map {α : Type} (point : α → Point) (list : List α)
    (grid : WeldingGrid) :
    Welds grid (list.map point) ((list.mapM fun a => weld (point a)).run
      grid).1 ((list.mapM fun a => weld (point a)).run grid).2 := by
  induction list generalizing grid with
  | nil => exact .nil
  | cons a list ih =>
      rw [List.mapM_cons]
      exact .cons (ih _)

theorem welds_weldFace (mesh : Mesh) (n : ℕ) (face : Face)
    (grid : WeldingGrid) :
    Welds grid
      ((lattice n).flatMap fun row => row.map (facePoint mesh n face))
      (((weldFace mesh n face).run grid).1.flatMap id)
      ((weldFace mesh n face).run grid).2 :=
  welds_mapM (fun row grid => welds_map (facePoint mesh n face) row grid)
    (lattice n) grid

/-- The rows have an entry for every lattice point, in a relation with it. -/
def Tabulates (n : ℕ) (R : ℕ × ℕ → ℕ → Prop) (rows : List (List ℕ)) : Prop :=
  List.Forall₂ (List.Forall₂ R) (lattice n) rows

theorem tabulates_weldFace (mesh : Mesh) (n : ℕ) (face : Face)
    (grid : WeldingGrid) :
    Tabulates n (fun _ _ => True) ((weldFace mesh n face).run grid).1 :=
  forall₂_run_mapM (fun row grid =>
    forall₂_run_mapM (fun _ _ => trivial) row grid) (lattice n) grid

theorem getElem?_lattice_eq_some_iff {n i : ℕ} {row : List (ℕ × ℕ)} :
    (lattice n)[i]? = some row ↔
      i ≤ n ∧ (List.range (n + 1 - i)).map (fun j => (i, j)) = row := by
  simp only [lattice, List.getElem?_map, Option.map_eq_some_iff,
    List.getElem?_eq_some_iff, List.length_range, List.getElem_range]
  constructor
  · rintro ⟨_, ⟨hlt, rfl⟩, heq⟩
    exact ⟨Nat.lt_succ_iff.mp hlt, heq⟩
  · rintro ⟨hle, heq⟩
    exact ⟨i, ⟨Nat.lt_succ_iff.mpr hle, rfl⟩, heq⟩

theorem exists_row_iff {n : ℕ} {p : ℕ × ℕ} :
    (∃ row ∈ lattice n, p ∈ row) ↔ p.1 + p.2 ≤ n := by
  simp only [lattice, List.mem_map, List.mem_range]
  constructor
  · rintro ⟨_, ⟨i, hi, rfl⟩, hp⟩
    obtain ⟨j, hj, rfl⟩ := List.mem_map.mp hp
    rw [List.mem_range] at hj
    simp only
    omega
  · exact fun h =>
      ⟨_, ⟨p.1, by omega, rfl⟩, List.mem_map.mpr ⟨p.2, by simp; omega, rfl⟩⟩

namespace Tabulates

variable {n : ℕ} {R : ℕ × ℕ → ℕ → Prop} {rows : List (List ℕ)}
  (h : Tabulates n R rows)
include h

theorem exists_entry {p : ℕ × ℕ} (hp : p.1 + p.2 ≤ n) :
    ∃ row k, rows[p.1]? = some row ∧ row[p.2]? = some k ∧ R p k := by
  have hle : p.1 ≤ n := by omega
  obtain ⟨row, hrow, hentries⟩ :=
    exists_getElem?_of_forall₂ h
      (getElem?_lattice_eq_some_iff.mpr ⟨hle, rfl⟩)
  have hpoint :
      ((List.range (n + 1 - p.1)).map fun j => (p.1, j))[p.2]? = some p := by
    rw [List.getElem?_map, List.getElem?_range (by omega)]
    rfl
  obtain ⟨k, hk, hR⟩ := exists_getElem?_of_forall₂ hentries hpoint
  exact ⟨row, k, hrow, hk, hR⟩

theorem entry {p : ℕ × ℕ} (hp : p.1 + p.2 ≤ n) :
    R p ((rows.getD p.1 []).getD p.2 0) := by
  obtain ⟨row, k, hrow, hk, hR⟩ := h.exists_entry hp
  simpa [List.getD_eq_getElem?_getD, hrow, hk] using hR

theorem mem_flatMap_iff {k : ℕ} : k ∈ rows.flatMap id ↔
    ∃ p : ℕ × ℕ, p.1 + p.2 ≤ n ∧ (rows.getD p.1 []).getD p.2 0 = k := by
  simp only [List.mem_flatMap, id_eq]
  constructor
  · rintro ⟨row, hrow, hk⟩
    obtain ⟨i, hi⟩ := List.mem_iff_getElem?.mp hrow
    obtain ⟨j, hj⟩ := List.mem_iff_getElem?.mp hk
    obtain ⟨points, hpoints, hentries⟩ :=
      exists_getElem?_of_forall₂ h.flip hi
    obtain ⟨hle, rfl⟩ := getElem?_lattice_eq_some_iff.mp hpoints
    obtain ⟨p, hp, -⟩ :=
      exists_getElem?_of_forall₂ (List.Forall₂.flip hentries) hj
    obtain ⟨hlt, rfl⟩ := List.getElem?_eq_some_iff.mp hp
    rw [List.length_map, List.length_range] at hlt
    refine ⟨(i, j), by simp only; omega, ?_⟩
    simp [List.getD_eq_getElem?_getD, hi, hj]
  · rintro ⟨p, hp, rfl⟩
    obtain ⟨row, k, hrow, hk, -⟩ := h.exists_entry hp
    refine ⟨row, List.mem_of_getElem? hrow, ?_⟩
    simpa [List.getD_eq_getElem?_getD, hrow, hk] using
      List.mem_of_getElem? hk

theorem flatMap_eq : rows.flatMap id =
    (lattice n).flatten.map fun p => (rows.getD p.1 []).getD p.2 0 := by
  have hrows : rows =
      (lattice n).map (List.map fun p => (rows.getD p.1 []).getD p.2 0) := by
    apply List.ext_getElem
    · rw [List.length_map, List.Forall₂.length_eq h]
    · intro i hi _
      have hlt : i < (lattice n).length :=
        hi.trans_eq (List.Forall₂.length_eq h).symm
      obtain ⟨hle, hrow⟩ :=
        getElem?_lattice_eq_some_iff.mp (List.getElem?_eq_getElem hlt)
      have hlength : rows[i].length = n + 1 - i := by
        have hentries := (List.Forall₂.get h hlt hi).length_eq
        rw [List.get_eq_getElem, List.get_eq_getElem, ← hrow,
          List.length_map, List.length_range] at hentries
        exact hentries.symm
      rw [List.getElem_map, ← hrow, List.map_map, ← hlength]
      conv_lhs => rw [← map_getD_range rows[i] 0]
      simp [List.getElem?_eq_getElem hi, Function.comp_def]
  conv_lhs => rw [hrows, ← List.flatten_eq_flatMap]
  rw [List.map_flatten]

end Tabulates

theorem exact_weldFace {tolerance : Float} {set : Set Point}
    (hseparated : Separated tolerance set)
    {mesh : Mesh} {n : ℕ} {face : Face}
    (hpoints : ∀ p : ℕ × ℕ, p.1 + p.2 ≤ n → facePoint mesh n face p ∈ set)
    {grid : WeldingGrid}
    (hgrid : Exact tolerance set grid) :
    Exact tolerance set ((weldFace mesh n face).run grid).2 ∧
      grid.Extends ((weldFace mesh n face).run grid).2 ∧
      Tabulates n (fun p k => ((weldFace mesh n face).run
          grid).2.points[k]? = some (facePoint mesh n face p))
        ((weldFace mesh n face).run grid).1 := by
  have hextends :
      ∀ {grid after : WeldingGrid} (p : ℕ × ℕ) (k : ℕ), grid.Extends after →
        grid.points[k]? = some (facePoint mesh n face p) →
        after.points[k]? = some (facePoint mesh n face p) :=
    fun _ k hextends h => hextends k _ h
  refine hgrid.run_mapM (R := fun grid => List.Forall₂ fun (p : ℕ × ℕ) k =>
    grid.points[k]? = some (facePoint mesh n face p)) ?_ ?_
  · exact fun row indices hafter h => h.imp fun p k => hextends p k hafter
  · intro row hrow grid hgrid
    exact hgrid.run_mapM hextends fun p hp grid hgrid =>
      hgrid.run_weld hseparated
        (hpoints p (exists_row_iff.mp ⟨row, hrow, hp⟩))

end Subdivision

namespace Mesh

open Subdivision

variable {mesh : Mesh} {n : ℕ} {tolerance : Float}

/-- The indices of the lattice points of all faces, and the grid with the
stored points. -/
def weldFaces (mesh : Mesh) (n : ℕ) (tolerance : Float) :
    List (List (List ℕ)) × WeldingGrid :=
  (mesh.faces.mapM (Subdivision.weldFace mesh n)).run (.empty tolerance)

/-- The index of a lattice point of the face `f`. -/
def latticeIndex (mesh : Mesh) (n : ℕ) (tolerance : Float) (f : ℕ)
    (p : ℕ × ℕ) : ℕ :=
  (((mesh.weldFaces n tolerance).1.getD f []).getD p.1 []).getD p.2 0

theorem tabulates_weldFaces (mesh : Mesh) (n : ℕ) (tolerance : Float) :
    List.Forall₂ (fun _ rows => Tabulates n (fun _ _ => True) rows)
      mesh.faces (mesh.weldFaces n tolerance).1 :=
  forall₂_run_mapM (fun face grid => tabulates_weldFace mesh n face grid) _ _

theorem length_weldFaces (mesh : Mesh) (n : ℕ) (tolerance : Float) :
    (mesh.weldFaces n tolerance).1.length = mesh.faceCount :=
  (tabulates_weldFaces mesh n tolerance).length_eq.symm

theorem tabulates_of_getElem? {f : ℕ} {rows : List (List ℕ)}
    (hf : (mesh.weldFaces n tolerance).1[f]? = some rows) :
    Tabulates n (fun _ _ => True) rows := by
  obtain ⟨-, -, h⟩ :=
    exists_getElem?_of_forall₂ (tabulates_weldFaces mesh n tolerance).flip hf
  exact h

theorem welds_weldFaces (mesh : Mesh) (n : ℕ) (tolerance : Float) :
    Welds (.empty tolerance)
      (mesh.faces.flatMap fun face =>
        (lattice n).flatMap fun row => row.map (facePoint mesh n face))
      ((mesh.weldFaces n tolerance).1.flatMap fun rows => rows.flatMap id)
      (mesh.weldFaces n tolerance).2 :=
  welds_mapM (fun face grid => welds_weldFace mesh n face grid) mesh.faces _

theorem run_subdivideFaces (mesh : Mesh) (n : ℕ) (tolerance : Float) :
    (mesh.faces.mapM (subdivideFace mesh n)).run (.empty tolerance) =
      ((mesh.weldFaces n tolerance).1.map fun rows => (triangles n).map
          (List.map fun p => (rows.getD p.1 []).getD p.2 0),
        (mesh.weldFaces n tolerance).2) := by
  rw [subdivideFace_eq, run_mapM_map]
  rfl

/-- The faces of the subdivision are the small triangles of all faces. -/
theorem faces_subdivideTriangles (mesh : Mesh) (n : ℕ) (tolerance : Float) :
    (mesh.subdivideTriangles n tolerance).faces =
      (List.range mesh.faceCount).flatMap fun f =>
        (triangles n).map (List.map (mesh.latticeIndex n tolerance f)) := by
  have hrows : (mesh.weldFaces n tolerance).1 =
      (List.range mesh.faceCount).map
        ((mesh.weldFaces n tolerance).1.getD · []) := by
    rw [← length_weldFaces mesh n tolerance, map_getD_range]
  change ((mesh.faces.mapM (subdivideFace mesh n)).run
    (.empty tolerance)).1.flatten = _
  rw [run_subdivideFaces, ← List.flatMap_def, hrows, List.flatMap_map]
  rfl

theorem lt_vertexCount_subdivideTriangles_iff {k : ℕ} :
    k < (mesh.subdivideTriangles n tolerance).vertexCount ↔
      ∃ (f : ℕ) (p : ℕ × ℕ), f < mesh.faceCount ∧ p.1 + p.2 ≤ n ∧
        mesh.latticeIndex n tolerance f p = k := by
  change k <
    ((mesh.faces.mapM (subdivideFace mesh n)).run
      (.empty tolerance)).2.points.size ↔ _
  rw [run_subdivideFaces,
    ← (welds_weldFaces mesh n tolerance).mem_indices_iff, List.mem_flatMap]
  constructor
  · rintro ⟨rows, hrows, hk⟩
    obtain ⟨f, hf⟩ := List.mem_iff_getElem?.mp hrows
    obtain ⟨p, hp, rfl⟩ := (tabulates_of_getElem? hf).mem_flatMap_iff.mp hk
    have hlt := (List.getElem?_eq_some_iff.mp hf).1
    refine ⟨f, p, hlt.trans_eq (length_weldFaces mesh n tolerance), hp, ?_⟩
    simp only [latticeIndex, List.getD_eq_getElem?_getD, hf,
      Option.getD_some]
  · rintro ⟨f, p, hf, hp, rfl⟩
    have hlt := hf.trans_eq (length_weldFaces mesh n tolerance).symm
    have hget := List.getElem?_eq_getElem hlt
    refine ⟨_, List.getElem_mem hlt,
      (tabulates_of_getElem? hget).mem_flatMap_iff.mpr ⟨p, hp, ?_⟩⟩
    simp only [latticeIndex, List.getD_eq_getElem?_getD, hget,
      Option.getD_some]

/-- The positions of the lattice points of all faces. -/
def latticePoints (mesh : Mesh) (n : ℕ) : Set Point :=
  {point | ∃ face ∈ mesh.faces,
    ∃ p : ℕ × ℕ, p.1 + p.2 ≤ n ∧ facePoint mesh n face p = point}

/-- Lattice points whose positions are equal or far apart share an index when
they are equal. -/
theorem latticeIndex_eq_iff
    (hseparated : Separated tolerance (mesh.latticePoints n))
    {f g : ℕ} {face other : Face} {p q : ℕ × ℕ}
    (hface : mesh.faces[f]? = some face)
    (hother : mesh.faces[g]? = some other)
    (hp : p.1 + p.2 ≤ n)
    (hq : q.1 + q.2 ≤ n) :
    mesh.latticeIndex n tolerance f p = mesh.latticeIndex n tolerance g q ↔
      facePoint mesh n face p = facePoint mesh n other q := by
  obtain ⟨hexact, -, hrows⟩ :=
    (exact_empty tolerance (mesh.latticePoints n)).run_mapM
      (f := weldFace mesh n) (R := fun grid face => Tabulates n fun p k =>
      grid.points[k]? = some (facePoint mesh n face p))
    (fun _ _ hafter h => h.imp fun _ _ hrow => hrow.imp fun _ k hk =>
      hafter k _ hk)
    (fun face (hface : face ∈ mesh.faces) _ hgrid =>
      exact_weldFace hseparated (fun p hp => ⟨face, hface, p, hp, rfl⟩)
        hgrid)
  have hpoint :
      ∀ {f : ℕ} {face : Face} {p : ℕ × ℕ}, mesh.faces[f]? = some face →
        p.1 + p.2 ≤ n →
        (mesh.weldFaces n tolerance).2.points[mesh.latticeIndex n tolerance f
          p]? = some (facePoint mesh n face p) := by
    intro f face p hface hp
    obtain ⟨rows, hget, htabulates⟩ := exists_getElem?_of_forall₂ hrows hface
    have hentry := htabulates.entry hp
    rwa [latticeIndex,
      List.getD_eq_getElem?_getD (l := (mesh.weldFaces n tolerance).1),
      weldFaces, hget]
  constructor
  · intro heq
    exact Option.some.inj
      ((hpoint hface hp).symm.trans (heq ▸ hpoint hother hq))
  · intro heq
    exact hexact.injective _ _ _ (hpoint hface hp) (heq ▸ hpoint hother hq)

end Mesh
end Polyhedra
