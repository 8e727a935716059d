import Mathlib
import Polyhedra.Proofs.Subdivision.Indices
import Polyhedra.Proofs.Subdivision.Lattice

/-!
# One table for all triangles

The indices of the lattice points can be kept in one table that every
triangle overwrites and that is never cleared.  A triangle writes all entries
that its small triangles read before it reads them, so it does not matter
what the triangles before it have left in the table.
-/

namespace Polyhedra

open WeldingGrid

section Runs

variable {σ α β : Type}

theorem run_mapM_flatten (f : α → StateM σ β) (rows : List (List α))
    (s : σ) :
    (rows.flatten.mapM f).run s =
      (((rows.mapM (List.mapM f)).run s).1.flatten,
        ((rows.mapM (List.mapM f)).run s).2) := by
  induction rows generalizing s with
  | nil => rfl
  | cons row rows ih =>
      rw [List.flatten_cons, List.mapM_append, List.mapM_cons]
      exact congrArg (fun run : List β × σ =>
        (((row.mapM f).run s).1 ++ run.1, run.2)) (ih ((row.mapM f).run s).2)

variable [DecidableEq α]

/-- Writes what `f` gives for every entry into a table, in this order. -/
def overwrite (f : α → StateM σ β) (entries : List α) (table : α → β) :
    StateM σ (α → β) :=
  entries.foldlM (fun table a => do pure (Function.update table a (← f a)))
    table

theorem run_overwrite_cons (f : α → StateM σ β) (a : α) (entries : List α)
    (table : α → β) (s : σ) :
    (overwrite f (a :: entries) table).run s =
      (overwrite f entries (Function.update table a ((f a).run s).1)).run
        ((f a).run s).2 := by
  unfold overwrite
  rw [List.foldlM_cons]
  rfl

/-- Entries that are not written stay. -/
theorem run_overwrite_of_notMem {f : α → StateM σ β} {entries : List α}
    {a : α} (ha : a ∉ entries)
    (table : α → β) (s : σ) :
    ((overwrite f entries table).run s).1 a = table a := by
  induction entries generalizing table s with
  | nil => rfl
  | cons b entries ih =>
      obtain ⟨hne, hrest⟩ := List.ne_and_not_mem_of_not_mem_cons ha
      rw [run_overwrite_cons, ih hrest, Function.update_of_ne hne]

/-- Entries that are written hold what was written, and the table is not read
on the way. -/
theorem run_overwrite {f : α → StateM σ β} {entries : List α}
    (hnodup : entries.Nodup)
    (table : α → β) (s : σ) :
    entries.map ((overwrite f entries table).run s).1 =
        ((entries.mapM f).run s).1 ∧
      ((overwrite f entries table).run s).2 =
        ((entries.mapM f).run s).2 := by
  induction entries generalizing table s with
  | nil => exact ⟨rfl, rfl⟩
  | cons a entries ih =>
      obtain ⟨ha, hrest⟩ := List.nodup_cons.mp hnodup
      obtain ⟨hvalues, hstate⟩ :=
        ih hrest (Function.update table a ((f a).run s).1) ((f a).run s).2
      rw [run_overwrite_cons, List.mapM_cons, List.map_cons,
        run_overwrite_of_notMem ha, Function.update_self, hvalues, hstate]
      exact ⟨rfl, rfl⟩

end Runs

namespace Subdivision

theorem nodup_lattice (n : ℕ) : (lattice n).flatten.Nodup := by
  rw [List.nodup_flatten]
  constructor
  · intro row hrow
    obtain ⟨i, -, rfl⟩ := List.mem_map.mp hrow
    exact List.nodup_range.map fun _ _ h => congrArg Prod.snd h
  · refine List.pairwise_map.mpr (List.nodup_range.imp fun {i i'} hne => ?_)
    simp only [List.disjoint_left, List.mem_map]
    rintro _ ⟨j, -, rfl⟩ ⟨j', -, heq⟩
    exact hne (congrArg Prod.fst heq).symm

theorem mem_lattice_iff {n : ℕ} {p : ℕ × ℕ} :
    p ∈ (lattice n).flatten ↔ p.1 + p.2 ≤ n :=
  List.mem_flatten.trans exists_row_iff

/-- The indices of the lattice points of the triangle `face`, written into a
table. -/
def weldInto (mesh : Mesh) (n : ℕ) (face : Face) :
    (ℕ × ℕ → ℕ) → StateM WeldingGrid (ℕ × ℕ → ℕ) :=
  overwrite (fun p => weld (facePoint mesh n face p)) (lattice n).flatten

/-- The small triangles of the faces, with one table that every face
overwrites. -/
def subdivideReusing (mesh : Mesh) (n : ℕ) :
    List Face → (ℕ × ℕ → ℕ) → StateM WeldingGrid (List Face)
  | [], _ => pure []
  | face :: rest, table => do
    let table ← weldInto mesh n face table
    let blocks ← subdivideReusing mesh n rest table
    pure ((triangles n).map (List.map table) ++ blocks)

variable {mesh : Mesh} {n : ℕ}

/-- The entries of the lattice points are those of a table of its own for the
triangle. -/
theorem run_weldInto (face : Face) (table : ℕ × ℕ → ℕ) (grid : WeldingGrid) :
    (∀ p : ℕ × ℕ, p.1 + p.2 ≤ n →
        ((weldInto mesh n face table).run grid).1 p =
          (((weldFace mesh n face).run grid).1.getD p.1 []).getD p.2 0) ∧
      ((weldInto mesh n face table).run grid).2 =
        ((weldFace mesh n face).run grid).2 := by
  have hloops :
      ((lattice n).flatten.mapM fun p => weld (facePoint mesh n face p)).run
        grid =
      (((weldFace mesh n face).run grid).1.flatten,
        ((weldFace mesh n face).run grid).2) :=
    run_mapM_flatten _ _ _
  obtain ⟨hvalues, hstate⟩ :=
    run_overwrite (f := fun p => weld (facePoint mesh n face p))
      (nodup_lattice n) table grid
  rw [hloops] at hvalues hstate
  refine ⟨fun p hp => ?_, hstate⟩
  have hrows := (tabulates_weldFace mesh n face grid).flatMap_eq
  rw [← List.flatten_eq_flatMap] at hrows
  exact List.map_inj_left.mp (hvalues.trans hrows) p (mem_lattice_iff.mpr hp)

/-- What a table holds at first and what other triangles leave in it does not
reach the faces. -/
theorem run_subdivideReusing (faces : List Face) (table : ℕ × ℕ → ℕ)
    (grid : WeldingGrid) :
    (subdivideReusing mesh n faces table).run grid =
      (((faces.mapM (subdivideFace mesh n)).run grid).1.flatten,
        ((faces.mapM (subdivideFace mesh n)).run grid).2) := by
  induction faces generalizing table grid with
  | nil => rfl
  | cons face rest ih =>
      obtain ⟨hentries, hgrid⟩ :
          _ ∧ ((weldInto mesh n face table).run grid).2 = _ :=
        run_weldInto face table grid
      have hblock : (triangles n).map
            (List.map ((weldInto mesh n face table).run grid).1) =
          ((subdivideFace mesh n face).run grid).1 := by
        rw [subdivideFace_eq]
        refine List.map_congr_left fun triangle htriangle =>
          List.map_congr_left fun p hp => ?_
        exact hentries p (sum_le_of_mem_triangles htriangle hp)
      have hnext : ((weldInto mesh n face table).run grid).2 =
          ((subdivideFace mesh n face).run grid).2 := by
        rw [subdivideFace_eq, hgrid]
        rfl
      rw [List.mapM_cons]
      change ((triangles n).map
            (List.map ((weldInto mesh n face table).run grid).1) ++
          ((subdivideReusing mesh n rest _).run
            ((weldInto mesh n face table).run grid).2).1,
        ((subdivideReusing mesh n rest _).run
          ((weldInto mesh n face table).run grid).2).2) = _
      rw [ih, hblock, hnext]
      rfl

end Subdivision

open Subdivision in
/-- Subdivision with one table for all triangles, whatever the table holds at
first. -/
theorem Mesh.subdivideTriangles_eq_reusing (mesh : Mesh) (n : ℕ)
    (tolerance : Float)
    (table : ℕ × ℕ → ℕ) : mesh.subdivideTriangles n tolerance =
      { name := s!"u{n}" ++ mesh.name
        vertices :=
          ((subdivideReusing mesh n mesh.faces table).run
            (.empty tolerance)).2.points
        faces :=
          ((subdivideReusing mesh n mesh.faces table).run
            (.empty tolerance)).1 } := by
  rw [run_subdivideReusing]
  rfl

end Polyhedra
