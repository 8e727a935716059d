import Mathlib
import Polyhedra.Proofs.Subdivision.Place

/-!
# Counting places

The places of a refined surface are its corners, the `n - 1` inner points of
every edge and the inner points of every triangle.
-/

namespace Polyhedra

open Subdivision

namespace Subdivision

theorem finite_inside (n : ℕ) : (inside n).Finite := by
  apply ((Set.finite_Iio n).prod (Set.finite_Iio n)).subset
  rintro ⟨i, j⟩ ⟨hi, hj, hij⟩
  change 0 < i at hi
  change 0 < j at hj
  change i + j < n at hij
  exact ⟨(by omega : i < n), (by omega : j < n)⟩

theorem ncard_steps (n : ℕ) : (Set.Ioo 0 n).ncard = n - 1 := by
  rw [← Finset.coe_Ioo, Set.ncard_coe_finset, Nat.card_Ioo, Nat.sub_zero]

theorem ncard_inside (n : ℕ) : (inside n).ncard = (n - 1) * (n - 2) / 2 := by
  have htwice : 2 * (inside n).ncard = (n - 1) * (n - 2) := by
    induction n with
    | zero => simp [inside]
    | succ n ih =>
        have hsplit : inside (n + 1) =
            (fun i => (i, n - i)) '' Set.Ioo 0 n ∪ inside n := by
          ext ⟨i, j⟩
          simp only [inside, Set.mem_ofPred_eq, Set.mem_union, Set.mem_image,
            Set.mem_Ioo, Prod.mk.injEq]
          constructor
          · rintro ⟨hi, hj, hij⟩
            rcases eq_or_ne (i + j) n with heq | hne
            · exact .inl ⟨i, ⟨hi, by omega⟩, rfl, by omega⟩
            · exact .inr ⟨hi, hj, by omega⟩
          · rintro (⟨i, ⟨hi, hlt⟩, rfl, rfl⟩ | ⟨hi, hj, hij⟩)
            · exact ⟨hi, by omega, by omega⟩
            · exact ⟨hi, hj, by omega⟩
        rw [hsplit, ncard_image_union (Set.finite_Ioo 0 n) (finite_inside n),
          ncard_steps, mul_add, ih]
        · match n with
          | 0 => rfl
          | 1 => rfl
          | n + 2 =>
              change 2 * (n + 1) + (n + 1) * n = (n + 2) * (n + 1)
              ring
        · exact fun i _ i' _ heq => congrArg Prod.fst heq
        · rintro i ⟨-, hlt⟩ ⟨-, -, hsum⟩
          change i + (n - i) < n at hsum
          omega
  omega

/-- The place on the edge `side`, `m` of `n` steps from its first end. -/
def edgePlace (n : ℕ) (side : Edge) (m : ℕ) : Multiset ℕ :=
  Multiset.replicate (n - m) side.1 + Multiset.replicate m side.2

section Families

variable {n m a b c v : ℕ} {side : Edge} {point : ℕ × ℕ}

theorem mem_edgePlace_iff (hm : m ∈ Set.Ioo 0 n) :
    v ∈ edgePlace n side m ↔ v = side.1 ∨ v = side.2 := by
  have hpos : n - m ≠ 0 := by have := hm.2; omega
  simp [edgePlace, Multiset.mem_replicate, hpos, hm.1.ne']

/-- A place within an edge determines the edge and the number of steps. -/
theorem edgePlace_inj {side' : Edge} {m' : ℕ}
    (hside : side.1 < side.2)
    (hside' : side'.1 < side'.2)
    (hm : m ∈ Set.Ioo 0 n)
    (hm' : m' ∈ Set.Ioo 0 n)
    (heq : edgePlace n side m = edgePlace n side' m') :
    side = side' ∧ m = m' := by
  obtain ⟨x, y⟩ := side
  obtain ⟨x', y'⟩ := side'
  have hends : ∀ v, v = x ∨ v = y ↔ v = x' ∨ v = y' := fun v =>
    (mem_edgePlace_iff hm).symm.trans (heq ▸ mem_edgePlace_iff hm')
  obtain ⟨rfl, rfl⟩ : x = x' ∧ y = y' := by
    have := hends x
    have := hends y
    have := hends x'
    have := hends y'
    omega
  have hcount := congrArg (Multiset.count y) heq
  simp only [edgePlace, Multiset.count_add, Multiset.count_replicate,
    hside.ne, if_false, zero_add, if_true] at hcount
  exact ⟨rfl, hcount⟩

theorem replicate_ne_edgePlace
    (hside : side.1 < side.2)
    (hm : m ∈ Set.Ioo 0 n) :
    Multiset.replicate n v ≠ edgePlace n side m := by
  intro heq
  have hends : ∀ u, u = side.1 ∨ u = side.2 → u = v := by
    intro u hu
    rw [← mem_edgePlace_iff hm, ← heq] at hu
    exact Multiset.eq_of_mem_replicate hu
  have hfirst := hends _ (.inl rfl)
  have hsecond := hends _ (.inr rfl)
  omega

theorem replicate_ne_place
    (hnodup : [a, b, c].Nodup)
    (hpoint : point ∈ inside n) :
    Multiset.replicate n v ≠ place n [a, b, c] point := by
  intro heq
  have hcorners : ∀ u ∈ [a, b, c], u = v := by
    intro u hu
    rw [← mem_place_iff_of_inside hpoint, ← heq] at hu
    exact Multiset.eq_of_mem_replicate hu
  simp only [List.nodup_cons, List.mem_cons, List.not_mem_nil, or_false,
    not_or] at hnodup
  exact hnodup.1.1 ((hcorners a (by simp)).trans (hcorners b (by simp)).symm)

/-- A point within an edge is not inside a triangle, as a triangle has a
third corner. -/
theorem edgePlace_ne_place
    (hm : m ∈ Set.Ioo 0 n)
    (hnodup : [a, b, c].Nodup)
    (hpoint : point ∈ inside n) :
    edgePlace n side m ≠ place n [a, b, c] point := by
  intro heq
  have hcorners : ∀ u ∈ [a, b, c], u = side.1 ∨ u = side.2 := by
    intro u hu
    rw [← mem_edgePlace_iff hm, heq]
    exact (mem_place_iff_of_inside hpoint).mpr hu
  simp only [List.nodup_cons, List.mem_cons, List.not_mem_nil, or_false,
    not_or] at hnodup
  have ha := hcorners a (by simp)
  have hb := hcorners b (by simp)
  have hc := hcorners c (by simp)
  omega

end Families

end Subdivision

namespace Surface

variable {surface : Surface} {n : ℕ} (hclosed : surface.checkClosed = .ok ())
  (htriangular : surface.Triangular) (hapart : surface.EdgesApart)

/-- The undirected edges. -/
def sideSet (surface : Surface) : Finset Edge :=
  (surface.flatMap Face.edges).toFinset.image Edge.undirected

theorem mem_sideSet_iff {side : Edge} : side ∈ surface.sideSet ↔
    ∃ i v w, surface.incidence i v w ∧ Edge.undirected (v, w) = side := by
  simp only [sideSet, Finset.mem_image, List.mem_toFinset, Prod.exists,
    mem_flatMap_edges_iff]
  constructor
  · rintro ⟨v, w, ⟨i, h⟩, heq⟩
    exact ⟨i, v, w, h, heq⟩
  · rintro ⟨i, v, w, h, heq⟩
    exact ⟨v, w, ⟨i, h⟩, heq⟩

theorem lt_of_mem_sideSet
    (hincidence : surface.incidence.Closed)
    {side : Edge}
    (h : side ∈ surface.sideSet) : side.1 < side.2 := by
  obtain ⟨i, v, w, hvw, rfl⟩ := mem_sideSet_iff.mp h
  have hne := hincidence.ne hvw
  change min v w < max v w
  omega

/-- The places within an edge are the same from both of its ends. -/
theorem exists_edgePlace {i x y m : ℕ}
    (hxy : surface.incidence i x y)
    (hm : m ∈ Set.Ioo 0 n) :
    ∃ side ∈ surface.sideSet, ∃ m' ∈ Set.Ioo 0 n, edgePlace n side m' =
      Multiset.replicate (n - m) x + Multiset.replicate m y := by
  obtain ⟨hpos, hlt⟩ := hm
  refine ⟨_, mem_sideSet_iff.mpr ⟨i, x, y, hxy, rfl⟩, ?_⟩
  rcases le_total x y with hle | hle
  · refine ⟨m, ⟨hpos, hlt⟩, ?_⟩
    simp [edgePlace, Edge.undirected, hle]
  · refine ⟨n - m, ⟨by omega, by omega⟩, ?_⟩
    simp [edgePlace, Edge.undirected, hle, Nat.sub_sub_self hlt.le, add_comm]

include hclosed htriangular

theorem mem_tails_latticeIncidence_iff (hn : 0 < n) {P : Multiset ℕ} :
    P ∈ (surface.latticeIncidence n).tails ↔
      P.card = n ∧ ∃ face ∈ surface, ∀ v ∈ P, v ∈ face := by
  have hsimple := nodup_of_triangular hclosed htriangular
  rw [latticeIncidence_eq_rename htriangular hsimple, Incidence.tails_rename,
    Set.image_id, Incidence.tails_refine hn]
  refine and_congr_right fun hcard => ⟨?_, ?_⟩
  · rintro ⟨f, hcorners⟩
    obtain ⟨v, hv⟩ := Multiset.card_pos_iff_exists_mem.mp (hcard.symm ▸ hn)
    obtain ⟨w, face, hface, -⟩ := hcorners v hv
    exact ⟨face, List.mem_of_getElem? hface,
      fun v hv => (mem_corners_iff hface).mp (hcorners v hv)⟩
  · rintro ⟨face, hmem, hcorners⟩
    obtain ⟨f, hface⟩ := List.mem_iff_getElem?.mp hmem
    exact ⟨f, fun v hv => (mem_corners_iff hface).mpr (hcorners v hv)⟩

/-- The places are those of the lattice points. -/
theorem mem_tails_latticeIncidence_iff_place (hn : 0 < n) {P : Multiset ℕ} :
    P ∈ (surface.latticeIncidence n).tails ↔
      ∃ (f : ℕ) (face : Face) (point : ℕ × ℕ), surface[f]? = some face ∧
        point.1 + point.2 ≤ n ∧ place n face point = P := by
  have hsimple := nodup_of_triangular hclosed htriangular
  rw [mem_tails_latticeIncidence_iff hclosed htriangular hn]
  constructor
  · rintro ⟨hcard, face, hmem, hcorners⟩
    obtain ⟨f, hface⟩ := List.mem_iff_getElem?.mp hmem
    obtain ⟨a, b, c, rfl, hnodup⟩ :=
      exists_triangle htriangular hsimple hface
    obtain ⟨hplace, hsum⟩ := place_coordinates hnodup hcard hcorners
    exact ⟨f, _, _, hface, hsum, hplace⟩
  · rintro ⟨f, face, point, hface, hsum, rfl⟩
    obtain ⟨a, b, c, rfl, -⟩ := exists_triangle htriangular hsimple hface
    exact ⟨card_place hsum, _, List.mem_of_getElem? hface,
      fun v hv => mem_of_mem_place hv⟩

theorem exists_getD_eq {f : ℕ} (hf : f < surface.length) :
    ∃ a b c, surface[f]? = some [a, b, c] ∧ surface.getD f [] = [a, b, c] ∧
      [a, b, c].Nodup := by
  have hface : surface[f]? = some surface[f] := List.getElem?_eq_getElem hf
  obtain ⟨a, b, c, heq, hnodup⟩ :=
    exists_triangle htriangular (nodup_of_triangular hclosed htriangular)
      hface
  rw [heq] at hface
  exact ⟨a, b, c, hface, getD_eq_of_getElem? hface, hnodup⟩

theorem tails_latticeIncidence (hn : 0 < n) :
    (surface.latticeIncidence n).tails =
      Multiset.replicate n '' surface.incidence.tails ∪
      ((fun point => edgePlace n point.1 point.2) ''
        ((surface.sideSet : Set Edge) ×ˢ Set.Ioo 0 n) ∪
        (fun point => place n (surface.getD point.1 []) point.2) ''
        ({f | f < surface.length} ×ˢ inside n)) := by
  have hsimple := nodup_of_triangular hclosed htriangular
  ext P
  constructor
  · rw [mem_tails_latticeIncidence_iff_place hclosed htriangular hn]
    rintro ⟨f, face, point, hface, hsum, rfl⟩
    have hlt := (List.getElem?_eq_some_iff.mp hface).1
    have hget : surface.getD f [] = face := getD_eq_of_getElem? hface
    obtain ⟨a, b, c, rfl, -⟩ := exists_triangle htriangular hsimple hface
    rcases lattice_cases hsum with ⟨v, hmem, hv⟩ |
      ⟨x, y, m, hstep, hm, hm', hxy⟩ | hinside
    · exact .inl ⟨v, mem_tails_iff.mpr ⟨_, List.mem_of_getElem? hface, hmem⟩,
        hv.place_eq.symm⟩
    · obtain ⟨side, hside, m', hmem, hplace⟩ :=
        exists_edgePlace ⟨_, hface, hstep⟩ ⟨hm, hm'⟩
      exact .inr
        (.inl ⟨(side, m'), ⟨hside, hmem⟩, hplace.trans hxy.place_eq.2.symm⟩)
    · exact .inr (.inr ⟨(f, point), ⟨hlt, hinside⟩, by simp only [hget]⟩)
  · rw [mem_tails_latticeIncidence_iff hclosed htriangular hn]
    rintro (⟨v, hv, rfl⟩ | ⟨⟨side, m⟩, ⟨hside, hm⟩, rfl⟩ |
      ⟨⟨f, point⟩, ⟨hf, hinside⟩, rfl⟩)
    · obtain ⟨face, hmem, hv⟩ := mem_tails_iff.mp hv
      refine ⟨Multiset.card_replicate _ _, face, hmem, fun w hw => ?_⟩
      rwa [Multiset.eq_of_mem_replicate hw]
    · obtain ⟨i, v, w, ⟨face, hface, hvw⟩, rfl⟩ := mem_sideSet_iff.mp hside
      obtain ⟨hv, hw⟩ := Face.mem_of_step hvw
      refine ⟨?_, face, List.mem_of_getElem? hface, fun u hu => ?_⟩
      · have hlt := hm.2
        simp only [edgePlace, Multiset.card_add, Multiset.card_replicate]
        omega
      · rcases (mem_edgePlace_iff hm).mp hu with rfl | rfl
        · rcases min_choice v w with h | h <;>
            simp only [Edge.undirected, h, hv, hw]
        · rcases max_choice v w with h | h <;>
            simp only [Edge.undirected, h, hv, hw]
    · obtain ⟨a, b, c, hface, hget, -⟩ :=
        exists_getD_eq hclosed htriangular hf
      simp only [hget]
      exact ⟨card_place hinside.2.2.le, _, List.mem_of_getElem? hface,
        fun v hv => mem_of_mem_place hv⟩

theorem finite_tails_latticeIncidence (hn : 0 < n) :
    (surface.latticeIncidence n).tails.Finite := by
  rw [tails_latticeIncidence hclosed htriangular hn]
  have hcorners : surface.incidence.tails.Finite :=
    Incidence.finite_tails finite_flags
  have hsides := (surface.sideSet.finite_toSet).prod (Set.finite_Ioo 0 n)
  have hinside := (Set.finite_lt_nat surface.length).prod (finite_inside n)
  exact (hcorners.image _).union ((hsides.image _).union (hinside.image _))

theorem injOn_edgePlace :
    Set.InjOn (fun point => edgePlace n point.1 point.2)
      ((surface.sideSet : Set Edge) ×ˢ Set.Ioo 0 n) := by
  have hincidence :=
    (checkClosed_iff_closed_of_triangular htriangular).mp hclosed
  rintro ⟨side, m⟩ ⟨hside, hm⟩ ⟨side', m'⟩ ⟨hside', hm'⟩ heq
  obtain ⟨hsame, hsteps⟩ :=
    edgePlace_inj (lt_of_mem_sideSet hincidence hside)
      (lt_of_mem_sideSet hincidence hside') hm hm' heq
  exact Prod.ext hsame hsteps

theorem injOn_insidePlace (hapart : surface.EdgesApart) :
    Set.InjOn (fun point => place n (surface.getD point.1 []) point.2)
      ({f | f < surface.length} ×ˢ inside n) := by
  rintro ⟨f, p⟩ ⟨hf, hp⟩ ⟨g, q⟩ ⟨hg, hq⟩ heq
  obtain ⟨a, b, c, hface, hget, -⟩ := exists_getD_eq hclosed htriangular hf
  obtain ⟨a', b', c', hface', hget', -⟩ :=
    exists_getD_eq hclosed htriangular hg
  simp only at hget hget'
  simp only [hget, hget'] at heq
  obtain ⟨hsame, hpoints⟩ :=
    eq_of_place_eq_of_inside hclosed htriangular hapart hface hface' hp heq
  exact Prod.ext hsame hpoints

/-- Every corner, every point within an edge and every point inside a
triangle is one place. -/
theorem ncard_tails_latticeIncidence
    (hapart : surface.EdgesApart)
    (hn : 0 < n) :
    (surface.latticeIncidence n).tails.ncard =
      surface.incidence.tails.ncard + surface.edgeCount * (n - 1) +
      surface.length * ((n - 1) * (n - 2) / 2) := by
  have hincidence :=
    (checkClosed_iff_closed_of_triangular htriangular).mp hclosed
  have hcorners : surface.incidence.tails.Finite :=
    Incidence.finite_tails finite_flags
  have hsides : ((surface.sideSet : Set Edge) ×ˢ Set.Ioo 0 n).Finite :=
    (Finset.finite_toSet _).prod (Set.finite_Ioo 0 n)
  have hinside : ({f | f < surface.length} ×ˢ inside n).Finite :=
    (Set.finite_lt_nat _).prod (finite_inside n)
  have hfaceCount : {f | f < surface.length}.ncard = surface.length :=
    Set.ncard_Iio_nat _
  rw [tails_latticeIncidence hclosed htriangular hn,
    ncard_image_union hcorners ((hsides.image _).union (hinside.image _))
      (Multiset.replicate_right_injective hn.ne').injOn, ncard_image_union
      hsides (hinside.image _) (injOn_edgePlace hclosed htriangular),
    (injOn_insidePlace hclosed htriangular hapart).ncard_image,
    Set.ncard_prod, Set.ncard_prod, ncard_inside, Set.ncard_coe_finset,
    hfaceCount, ncard_steps, edgeCount_eq_card, ← sideSet]
  · ring
  · rintro ⟨side, m⟩ ⟨-, hm⟩ ⟨⟨f, p⟩, ⟨hf, hp⟩, heq⟩
    obtain ⟨a, b, c, -, hget, hnodup⟩ :=
      exists_getD_eq hclosed htriangular hf
    simp only at hget
    simp only [hget] at heq
    exact edgePlace_ne_place hm hnodup hp heq.symm
  · rintro v - (⟨⟨side, m⟩, ⟨hside, hm⟩, heq⟩ | ⟨⟨f, p⟩, ⟨hf, hp⟩, heq⟩)
    · exact replicate_ne_edgePlace (lt_of_mem_sideSet hincidence hside) hm
        heq.symm
    · obtain ⟨a, b, c, -, hget, hnodup⟩ :=
        exists_getD_eq hclosed htriangular hf
      simp only at hget
      simp only [hget] at heq
      exact replicate_ne_place hnodup hp heq.symm

end Surface
end Polyhedra
