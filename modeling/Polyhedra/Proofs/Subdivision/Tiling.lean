import Mathlib
import Polyhedra.Proofs.Subdivision.Lattice
import Polyhedra.Proofs.Surface.Count

/-!
# The small triangles of a surface

Every face of a triangulated surface has its small triangles in lattice
coordinates.  As steps between places they are the refined triangles of the
incidence of the surface, so they are closed when the surface is.
-/

namespace Polyhedra

open Subdivision

theorem getD_eq_of_getElem? {α : Type} {list : List α} {i : ℕ} {a d : α}
    (h : list[i]? = some a) : list.getD i d = a := by
  rw [List.getD_eq_getElem?_getD, h, Option.getD_some]

/-- The list of all members of blocks of one length, by block and by place in
the block. -/
theorem getElem?_flatMap_eq_some_iff {α β : Type} {list : List α}
    {block : α → List β} {size : ℕ}
    (hsize : ∀ a ∈ list, (block a).length = size)
    {k : ℕ} {b : β} :
    (list.flatMap block)[k]? = some b ↔
      ∃ i j a, k = i * size + j ∧ list[i]? = some a ∧
        (block a)[j]? = some b := by
  induction list generalizing k with
  | nil => simp
  | cons a list ih =>
      have ha : (block a).length = size := hsize a (.head _)
      have hrest := @ih (fun b hb => hsize b (.tail _ hb))
      rw [List.flatMap_cons]
      by_cases hk : k < size
      · rw [List.getElem?_append_left (ha ▸ hk)]
        constructor
        · exact fun h => ⟨0, k, a, by omega, rfl, h⟩
        · rintro ⟨i, j, a', rfl, hi, hj⟩
          cases i with
          | zero =>
              obtain rfl := Option.some.inj hi
              simpa using hj
          | succ i =>
              rw [Nat.add_mul] at hk
              omega
      · rw [List.getElem?_append_right (by omega), ha, hrest]
        constructor
        · rintro ⟨i, j, a', hk', hi, hj⟩
          exact ⟨i + 1, j, a', by rw [Nat.add_mul]; omega, hi, hj⟩
        · rintro ⟨i, j, a', rfl, hi, hj⟩
          cases i with
          | zero =>
              obtain rfl := Option.some.inj hi
              have hlt := (List.getElem?_eq_some_iff.mp hj).1
              omega
          | succ i => exact ⟨i, j, a', by rw [Nat.add_mul]; omega, hi, hj⟩

namespace Surface

variable {surface : Surface} {n : ℕ}

section Triangles

theorem incidence_of_triangle {f a b c : ℕ}
    (hface : surface[f]? = some [a, b, c]) :
    surface.incidence f a b ∧ surface.incidence f b c ∧
      surface.incidence f c a := by
  refine ⟨⟨_, hface, ?_⟩, ⟨_, hface, ?_⟩, _, hface, ?_⟩ <;>
    simp [Face.edges, Face.successors]

theorem nodup_of_ne
    (htriangular : surface.Triangular)
    (hne : ∀ i v w, surface.incidence i v w → v ≠ w) :
    ∀ face ∈ surface, face.Nodup := by
  intro face hface
  obtain ⟨i, hi⟩ := List.mem_iff_getElem?.mp hface
  obtain ⟨a, b, c, rfl⟩ := List.length_eq_three.mp (htriangular face hface)
  obtain ⟨hab, hbc, hca⟩ := incidence_of_triangle hi
  simp [hne i a b hab, hne i b c hbc, (hne i c a hca).symm]

theorem nodup_of_triangular
    (hclosed : surface.checkClosed = .ok ())
    (htriangular : surface.Triangular) : ∀ face ∈ surface, face.Nodup := by
  obtain ⟨-, hnodup, hmate⟩ := checkClosed_eq_ok_iff.mp hclosed
  refine nodup_of_ne htriangular ?_
  rintro i v _ h rfl
  obtain ⟨j, hne, hj⟩ := hmate i v v h
  exact hne (owner_unique_of_nodup hnodup hj h)

/-- For triangulated surfaces the check says that the incidence is closed. -/
theorem checkClosed_iff_closed_of_triangular
    (htriangular : surface.Triangular) :
    surface.checkClosed = .ok () ↔ surface.incidence.Closed := by
  constructor
  · intro hclosed
    exact ((checkClosed_iff_closed
      (nodup_of_triangular hclosed htriangular)).mp hclosed).1
  · intro hincidence
    refine (checkClosed_iff_closed
        (nodup_of_ne htriangular fun _ _ _ => hincidence.ne)).mpr
      ⟨hincidence, ?_⟩
    rintro face hface rfl
    simpa using htriangular [] hface

variable (htriangular : surface.Triangular)
  (hsimple : ∀ face ∈ surface, face.Nodup)
include htriangular hsimple

theorem exists_triangle {f : ℕ} {face : Face}
    (hface : surface[f]? = some face) :
    ∃ a b c, face = [a, b, c] ∧ [a, b, c].Nodup := by
  have hmem := List.mem_of_getElem? hface
  obtain ⟨a, b, c, rfl⟩ := List.length_eq_three.mp (htriangular face hmem)
  exact ⟨a, b, c, rfl, hsimple _ hmem⟩

theorem incidence_triangular : surface.incidence.Triangular := by
  rintro f x y z ⟨face, hface, hxy⟩ ⟨_, hface', hyz⟩
  obtain rfl := Option.some.inj (hface.symm.trans hface')
  obtain ⟨a, b, c, rfl, hnodup⟩ := exists_triangle htriangular hsimple hface
  refine ⟨_, hface, ?_⟩
  simp only [List.nodup_cons, List.mem_cons, List.not_mem_nil, or_false,
    not_or] at hnodup
  rw [Face.edges_eq_steps, Face.mem_steps_three] at hxy hyz ⊢
  grind

end Triangles

theorem mem_corners_iff {f v : ℕ} {face : Face}
    (hface : surface[f]? = some face) :
    v ∈ surface.incidence.corners f ↔ v ∈ face := by
  change (∃ w, surface.incidence f v w) ↔ v ∈ face
  rw [exists_incidence_iff]
  constructor
  · rintro ⟨_, hface', hv⟩
    rwa [Option.some.inj (hface.symm.trans hface')]
  · exact fun hv => ⟨face, hface, hv⟩

/-- The steps around the small triangles in lattice coordinates, between
their places. -/
def latticeIncidence (surface : Surface) (n : ℕ) :
    Incidence (ℕ × List (ℕ × ℕ)) (Multiset ℕ) :=
  fun cell P Q => ∃ face, surface[cell.1]? = some face ∧
    cell.2 ∈ triangles n ∧ (P, Q) ∈ Face.steps (cell.2.map (place n face))

/-- The small triangles of all faces, as lists of places. -/
def places (surface : Surface) (n : ℕ) : List (List (Multiset ℕ)) :=
  surface.flatMap fun face => (triangles n).map (List.map (place n face))

/-- Where a small triangle stands in the list. -/
def cellIndex (n : ℕ) (cell : ℕ × List (ℕ × ℕ)) : ℕ :=
  cell.1 * (n * n) + (triangles n).idxOf cell.2

theorem injOn_cellIndex :
    Set.InjOn (cellIndex n) (surface.latticeIncidence n).faces := by
  rintro ⟨f, triangle⟩ ⟨_, _, _, -, hmem, -⟩ ⟨g, triangle'⟩
    ⟨_, _, _, -, hmem', -⟩ heq
  have hlt := List.idxOf_lt_length_of_mem hmem
  have hlt' := List.idxOf_lt_length_of_mem hmem'
  rw [length_triangles] at hlt hlt'
  change f * (n * n) + _ = g * (n * n) + _ at heq
  have hface : f = g := by
    have hdiv := congrArg (· / (n * n)) heq
    simpa [Nat.mul_add_div (Nat.zero_lt_of_lt hlt), mul_comm _ (n * n),
      Nat.div_eq_of_lt hlt, Nat.div_eq_of_lt hlt'] using hdiv
  obtain rfl := hface
  have hidx := Nat.add_left_cancel heq
  exact Prod.ext rfl ((List.idxOf_inj hmem).mp hidx)

theorem incidence_map_places (index : Multiset ℕ → ℕ) :
    Surface.incidence ((surface.places n).map (List.map index)) =
      (surface.latticeIncidence n).rename (cellIndex n) index := by
  -- all faces have the same number of small triangles
  have hget : ∀ {k keys}, (surface.places n)[k]? = some keys ↔
      ∃ f t face, k = f * (n * n) + t ∧ surface[f]? = some face ∧
        ((triangles n).map (List.map (place n face)))[t]? = some keys :=
    getElem?_flatMap_eq_some_iff
      fun face _ => by rw [List.length_map, length_triangles]
  ext k v w
  constructor
  · rintro ⟨face, hface, hedge⟩
    rw [List.getElem?_map, Option.map_eq_some_iff] at hface
    obtain ⟨keys, hkeys, rfl⟩ := hface
    obtain ⟨f, t, face, rfl, hface, ht⟩ := hget.mp hkeys
    rw [List.getElem?_map, Option.map_eq_some_iff] at ht
    obtain ⟨triangle, htriangle, rfl⟩ := ht
    rw [Face.edges_eq_steps, Face.steps_map, List.mem_map] at hedge
    obtain ⟨⟨P, Q⟩, hstep, heq⟩ := hedge
    obtain ⟨rfl, rfl⟩ := Prod.mk.inj heq
    refine ⟨(f, triangle), P, Q,
      ⟨face, hface, List.mem_of_getElem? htriangle, hstep⟩, ?_, rfl, rfl⟩
    obtain ⟨hlt, rfl⟩ := List.getElem?_eq_some_iff.mp htriangle
    rw [cellIndex, (nodup_triangles n).idxOf_getElem]
  · rintro ⟨⟨f, triangle⟩, P, Q, ⟨face, hface, hmem, hstep⟩, rfl, rfl, rfl⟩
    refine ⟨(triangle.map (place n face)).map index, ?_, ?_⟩
    · rw [List.getElem?_map, Option.map_eq_some_iff]
      refine ⟨_, hget.mpr ⟨f, _, face, rfl, hface, ?_⟩, rfl⟩
      rw [List.getElem?_map, List.getElem?_idxOf hmem]
      rfl
    · rw [Face.edges_eq_steps, Face.steps_map]
      exact List.mem_map_of_mem hstep

end Surface

/-- The face of a small triangle and its lattice coordinates there. -/
def SmallTriangle.cell (surface : Surface) : SmallTriangle → ℕ × List (ℕ × ℕ)
  | up f base =>
      let corner := coordinates (surface.getD f []) base
      (f, upTriangle corner.1 corner.2)
  | down f base =>
      let corner := coordinates (surface.getD f []) base
      (f, downTriangle corner.1 corner.2)

namespace Surface

variable {surface : Surface} {n : ℕ} (htriangular : surface.Triangular)
  (hsimple : ∀ face ∈ surface, face.Nodup)
include htriangular hsimple

theorem exists_refine_of_step {f : ℕ} {face : Face}
    (hface : surface[f]? = some face)
    {triangle : List (ℕ × ℕ)}
    (hmem : triangle ∈ triangles n)
    {P Q : Multiset ℕ}
    (hstep : (P, Q) ∈ Face.steps (triangle.map (place n face))) :
    ∃ s, Incidence.refine surface.incidence n s P Q ∧
      s.cell surface = (f, triangle) := by
  obtain ⟨a, b, c, rfl, hnodup⟩ := exists_triangle htriangular hsimple hface
  have hget : surface.getD f [] = [a, b, c] := getD_eq_of_getElem? hface
  have hbase : ∀ {m point},
      ∀ v ∈ place m [a, b, c] point, v ∈ surface.incidence.corners f :=
    fun v hv => (mem_corners_iff hface).mpr (mem_of_mem_place hv)
  have hincidence :
      ∀ {x y}, (x, y) ∈ Face.steps [a, b, c] → surface.incidence f x y :=
    fun h => ⟨_, hface, h⟩
  obtain ⟨i, j, ⟨hij, rfl⟩ | ⟨hij, rfl⟩⟩ := mem_triangles_iff.mp hmem
  · obtain ⟨m, rfl⟩ : ∃ m, n = m + 1 := ⟨n - 1, by omega⟩
    have hm : i + j ≤ m := by omega
    obtain ⟨x, y, hxy, hP, hQ⟩ := (mem_steps_upTriangle hm).mp hstep
    refine ⟨.up f (place m [a, b, c] (i, j)),
      .up (hincidence hxy) ?_ hbase hP hQ, ?_⟩
    · rw [card_place hm]
    · simp only [SmallTriangle.cell, hget, coordinates_place hnodup]
  · obtain ⟨m, rfl⟩ : ∃ m, n = m + 2 := ⟨n - 2, by omega⟩
    have hm : i + j ≤ m := by omega
    obtain ⟨x, y, z, hxy, hyz, hP, hQ⟩ :=
      (mem_steps_downTriangle hnodup hm).mp hstep
    refine ⟨.down f (place m [a, b, c] (i, j)),
      .down (hincidence hxy) (hincidence hyz) ?_ hbase hP hQ, ?_⟩
    · rw [card_place hm]
    · simp only [SmallTriangle.cell, hget, coordinates_place hnodup]

theorem place_coordinates_of_corners {f x y m : ℕ} {base : Multiset ℕ}
    (hxy : surface.incidence f x y)
    (hcard : base.card = m)
    (hbase : ∀ v ∈ base, v ∈ surface.incidence.corners f) :
    ∃ a b c i j, surface[f]? = some [a, b, c] ∧ [a, b, c].Nodup ∧ i + j ≤ m ∧
      coordinates (surface.getD f []) base = (i, j) ∧
      place m [a, b, c] (i, j) = base := by
  obtain ⟨_, hface, -⟩ := id hxy
  obtain ⟨a, b, c, rfl, hnodup⟩ := exists_triangle htriangular hsimple hface
  have hget : surface.getD f [] = [a, b, c] := getD_eq_of_getElem? hface
  obtain ⟨hplace, hsum⟩ :=
    place_coordinates hnodup hcard fun v hv =>
      (mem_corners_iff hface).mp (hbase v hv)
  exact ⟨a, b, c, _, _, hface, hnodup, hsum, by rw [hget], hplace⟩

theorem step_of_refine {s : SmallTriangle} {P Q : Multiset ℕ}
    (h : Incidence.refine surface.incidence n s P Q) :
    surface.latticeIncidence n (s.cell surface) P Q := by
  have hsteps : ∀ {f a b c x y}, surface[f]? = some [a, b, c] →
      surface.incidence f x y → (x, y) ∈ Face.steps [a, b, c] :=
    fun hface h => (incidence_iff_of_getElem? hface).mp h
  cases h with
  | @up f x y base _ _ hxy hcard hbase hP hQ =>
      obtain ⟨a, b, c, i, j, hface, hnodup, hsum, hcoordinates, hplace⟩ :=
        place_coordinates_of_corners htriangular hsimple hxy rfl hbase
      subst hcard
      simp only [SmallTriangle.cell, hcoordinates]
      refine ⟨_, hface, mem_triangles_iff.mpr ⟨i, j, .inl ⟨by omega, rfl⟩⟩,
        ?_⟩
      refine (mem_steps_upTriangle hsum).mpr ⟨x, y, hsteps hface hxy, ?_⟩
      rw [hplace]
      exact ⟨hP, hQ⟩
  | @down f x y z base _ _ hxy hyz hcard hbase hP hQ =>
      obtain ⟨a, b, c, i, j, hface, hnodup, hsum, hcoordinates, hplace⟩ :=
        place_coordinates_of_corners htriangular hsimple hxy rfl hbase
      subst hcard
      simp only [SmallTriangle.cell, hcoordinates]
      refine ⟨_, hface, mem_triangles_iff.mpr ⟨i, j, .inr ⟨by omega, rfl⟩⟩,
        ?_⟩
      refine (mem_steps_downTriangle hnodup hsum).mpr
        ⟨x, y, z, hsteps hface hxy, hsteps hface hyz, ?_⟩
      rw [hplace]
      exact ⟨hP, hQ⟩

theorem injOn_cell :
    Set.InjOn (SmallTriangle.cell surface)
      (Incidence.refine surface.incidence n).faces := by
  have hbases :
      ∀ {f x y x' y' m} {base other : Multiset ℕ}, surface.incidence f x y →
        surface.incidence f x' y' → base.card = m → other.card = m →
        (∀ v ∈ base, v ∈ surface.incidence.corners f) →
        (∀ v ∈ other, v ∈ surface.incidence.corners f) →
        coordinates (surface.getD f []) base =
          coordinates (surface.getD f []) other → base = other := by
    intro f x y x' y' m base other h h' hcard hcard' hbase hother heq
    obtain ⟨a, b, c, i, j, hface, -, -, hcoordinates, hplace⟩ :=
      place_coordinates_of_corners htriangular hsimple h hcard hbase
    obtain ⟨a', b', c', i', j', hface', -, -, hcoordinates', hplace'⟩ :=
      place_coordinates_of_corners htriangular hsimple h' hcard' hother
    have hfaces := Option.some.inj (hface.symm.trans hface')
    have hpoints : (i, j) = (i', j') :=
      hcoordinates.symm.trans (heq.trans hcoordinates')
    rw [← hplace, ← hplace', hfaces, hpoints]
  rintro s ⟨P, Q, hs⟩ t ⟨P', Q', ht⟩ heq
  cases hs with
  | up hxy hcard hbase _ _ =>
      cases ht with
      | up hxy' hcard' hbase' _ _ =>
          simp only [SmallTriangle.cell, Prod.mk.injEq, upTriangle,
            List.cons.injEq] at heq
          obtain ⟨rfl, hpoint, -⟩ := heq
          rw [hbases hxy hxy' rfl (by omega) hbase hbase'
            (Prod.ext hpoint.1 hpoint.2)]
      | down hxy' hyz' hcard' hbase' _ _ =>
          simp only [SmallTriangle.cell, Prod.mk.injEq, upTriangle,
            downTriangle, List.cons.injEq] at heq
          omega
  | down hxy hyz hcard hbase _ _ =>
      cases ht with
      | up hxy' hcard' hbase' _ _ =>
          simp only [SmallTriangle.cell, Prod.mk.injEq, upTriangle,
            downTriangle, List.cons.injEq] at heq
          omega
      | down hxy' hyz' hcard' hbase' _ _ =>
          simp only [SmallTriangle.cell, Prod.mk.injEq, downTriangle,
            List.cons.injEq] at heq
          obtain ⟨rfl, hpoint, -⟩ := heq
          rw [hbases hxy hxy' rfl (by omega) hbase hbase'
            (Prod.ext (Nat.succ.inj hpoint.1) hpoint.2)]

/-- In lattice coordinates the small triangles are the refined triangles of
the surface. -/
theorem latticeIncidence_eq_rename :
    surface.latticeIncidence n =
      (Incidence.refine surface.incidence n).rename
        (SmallTriangle.cell surface) id := by
  ext cell P Q
  constructor
  · rintro ⟨face, hface, hmem, hstep⟩
    obtain ⟨s, hs, hcell⟩ :=
      exists_refine_of_step htriangular hsimple hface hmem hstep
    exact ⟨s, P, Q, hs, hcell, rfl, rfl⟩
  · rintro ⟨s, _, _, hs, rfl, rfl, rfl⟩
    exact step_of_refine htriangular hsimple hs

/-- The small triangles of a closed triangulated surface are closed. -/
theorem latticeIncidence_closed
    (hclosed : surface.incidence.Closed)
    (hapart : surface.EdgesApart) : (surface.latticeIncidence n).Closed := by
  rw [latticeIncidence_eq_rename htriangular hsimple]
  apply (Incidence.refine_closed hclosed
      (incidence_triangular htriangular hsimple) _).rename
    (injOn_cell htriangular hsimple) Function.injective_id.injOn
  exact shared_of_edgesApart hclosed hapart

end Surface
end Polyhedra
