import Mathlib
import Polyhedra.Proofs.Incidence.Cycle

/-!
# Refined triangles

A place on a triangulated surface is given by the corners of a triangle with
whole weights that sum up to `n`, so it is a multiset of `n` vertices.  The
weights do not depend on the triangle that a place is looked at from: places
on a common edge of two triangles are the same multisets.

Cutting every triangle into small ones gives an incidence between places.  A
small triangle that points up has the places `a + base`, `b + base` and `c +
base`, where `a`, `b` and `c` are the corners of its big triangle and `base`
has one vertex less; one that points down has the places `a + b + base`, `b +
c + base` and `c + a + base`.  In both cases a step exchanges one vertex of a
place for another, and this determines the small triangle.
-/

namespace Polyhedra

/-- A small triangle of the face `f`. -/
inductive SmallTriangle where
  | up (f : ℕ) (base : Multiset ℕ)
  | down (f : ℕ) (base : Multiset ℕ)

/-- The exchange of one member of a multiset for another one determines both
and what they are exchanged in. -/
theorem cons_exchange {α : Type} [DecidableEq α] {x y x' y' : α}
    {s t : Multiset α}
    (hne : x ≠ y)
    (h : x ::ₘ s = x' ::ₘ t)
    (h' : y ::ₘ s = y' ::ₘ t) :
    x = x' ∧ y = y' ∧ s = t := by
  have hx : x = x' := by
    by_contra hx
    have hcount := congrArg (Multiset.count x) h
    have hcount' := congrArg (Multiset.count x) h'
    rw [Multiset.count_cons_self, Multiset.count_cons_of_ne hx] at hcount
    rw [Multiset.count_cons_of_ne hne, Multiset.count_cons] at hcount'
    omega
  obtain rfl := hx
  obtain rfl := Multiset.cons_inj_right x |>.mp h
  exact ⟨rfl, Multiset.cons_inj_left s |>.mp h', rfl⟩

namespace Incidence

variable {M : Incidence ℕ ℕ} {n : ℕ}

/-- Every face is a triangle. -/
def Triangular (M : Incidence ℕ ℕ) : Prop :=
  ∀ {f x y z}, M f x y → M f y z → M f z x

/-- The corners of a face. -/
def corners (M : Incidence ℕ ℕ) (f : ℕ) : Set ℕ := {v | ∃ w, M f v w}

/-- The steps around the small triangles.  A step exchanges one vertex of a
place for another. -/
inductive refine (M : Incidence ℕ ℕ) (n : ℕ) :
    Incidence SmallTriangle (Multiset ℕ)
  | up {f x y base P Q}
      (hxy : M f x y)
      (hcard : base.card + 1 = n)
      (hbase : ∀ v ∈ base, v ∈ M.corners f)
      (hP : P = x ::ₘ base)
      (hQ : Q = y ::ₘ base) :
      refine M n (.up f base) P Q
  | down {f x y z base P Q}
      (hxy : M f x y)
      (hyz : M f y z)
      (hcard : base.card + 2 = n)
      (hbase : ∀ v ∈ base, v ∈ M.corners f)
      (hP : P = x ::ₘ y ::ₘ base)
      (hQ : Q = z ::ₘ y ::ₘ base) :
      refine M n (.down f base) P Q

theorem Cyclic.mem_triangle
    (hM : M.Cyclic)
    {f x y z v : ℕ}
    (hxy : M f x y)
    (hyz : M f y z)
    (hzx : M f z x)
    (hv : v ∈ M.corners f) :
    v = x ∨ v = y ∨ v = z := by
  obtain ⟨w, hvw⟩ := hv
  -- steps of the face do not leave the three corners, and they join all of
  -- its corners
  have hclosed : ∀ {u u'}, M f u u' →
      (u = x ∨ u = y ∨ u = z ↔ u' = x ∨ u' = y ∨ u' = z) := by
    intro u u' huu'
    constructor
    · rintro (rfl | rfl | rfl)
      · exact .inr (.inl (hM.head_unique huu' hxy))
      · exact .inr (.inr (hM.head_unique huu' hyz))
      · exact .inl (hM.head_unique huu' hzx)
    · rintro (rfl | rfl | rfl)
      · exact .inr (.inr (hM.tail_unique huu' hzx))
      · exact .inl (hM.tail_unique huu' hxy)
      · exact .inr (.inl (hM.tail_unique huu' hyz))
  have hjoined : ∀ {u u'}, Relation.EqvGen (M f) u u' →
      (u = x ∨ u = y ∨ u = z ↔ u' = x ∨ u' = y ∨ u' = z) := by
    intro u u' h
    induction h with
    | rel _ _ h => exact hclosed h
    | refl => exact Iff.rfl
    | symm _ _ _ ih => exact ih.symm
    | trans _ _ _ _ _ ih ih' => exact ih.trans ih'
  exact (hjoined (hM.turn hxy hvw)).mp (.inl rfl)

theorem refine_up_iff {f : ℕ} {base P Q : Multiset ℕ}
    (hcard : base.card + 1 = n)
    (hbase : ∀ v ∈ base, v ∈ M.corners f) :
    refine M n (.up f base) P Q ↔
      ∃ x y, M f x y ∧ P = x ::ₘ base ∧ Q = y ::ₘ base := by
  constructor
  · rintro (⟨hxy, -, -, hP, hQ⟩ | _)
    exact ⟨_, _, hxy, hP, hQ⟩
  · rintro ⟨x, y, hxy, hP, hQ⟩
    exact .up hxy hcard hbase hP hQ

theorem refine_down_iff {f : ℕ} {base P Q : Multiset ℕ}
    (hcard : base.card + 2 = n)
    (hbase : ∀ v ∈ base, v ∈ M.corners f) :
    refine M n (.down f base) P Q ↔
      ∃ x y z, M f x y ∧ M f y z ∧ P = x ::ₘ y ::ₘ base ∧
        Q = z ::ₘ y ::ₘ base := by
  constructor
  · rintro (_ | ⟨hxy, hyz, -, -, hP, hQ⟩)
    exact ⟨_, _, _, hxy, hyz, hP, hQ⟩
  · rintro ⟨x, y, z, hxy, hyz, hP, hQ⟩
    exact .down hxy hyz hcard hbase hP hQ

/-- A pair of neighbours in a face is determined by its members. -/
theorem Closed.eq_of_pair
    (hM : M.Closed)
    {f v v' w w' : ℕ} {base : Multiset ℕ}
    (hvw : M f v w)
    (hvw' : M f v' w')
    (heq : v ::ₘ w ::ₘ base = v' ::ₘ w' ::ₘ base) : v = v' := by
  by_contra hne
  have hmem : ∀ {a b c d : ℕ}, M f a b → a ≠ c →
      a ::ₘ b ::ₘ base = c ::ₘ d ::ₘ base → a = d := by
    intro a b c d hab hac heq
    by_contra had
    have hcount := congrArg (Multiset.count a) heq
    rw [Multiset.count_cons_self, Multiset.count_cons_of_ne (hM.ne hab),
      Multiset.count_cons_of_ne hac, Multiset.count_cons_of_ne had] at hcount
    omega
  obtain rfl := hmem hvw hne heq
  obtain rfl := hmem hvw' (Ne.symm hne) heq.symm
  exact hM.long hvw hvw' rfl

theorem refine_cyclic (hM : M.Closed) : (refine M n).Cyclic := by
  apply Cyclic.of_isCycle
  rintro _ _ _ (⟨-, hcard, hbase, -, -⟩ | ⟨-, -, hcard, hbase, -, -⟩)
  · apply (hM.isCycle _).transport fun v P => P = v ::ₘ _
    · intro P Q
      exact refine_up_iff hcard hbase
    · exact fun v w _ => ⟨_, rfl⟩
    · rintro v _ _ rfl rfl
      rfl
    · rintro v w _ rfl heq
      exact Multiset.cons_inj_left _ |>.mp heq
  · apply (hM.isCycle _).transport fun v P => ∃ w, M _ v w ∧
      P = v ::ₘ w ::ₘ _
    · intro P Q
      rw [refine_down_iff hcard hbase]
      constructor
      · rintro ⟨x, y, z, hxy, hyz, hP, hQ⟩
        exact ⟨x, y, hxy, ⟨y, hxy, hP⟩, z, hyz,
          hQ.trans (Multiset.cons_swap _ _ _)⟩
      · rintro ⟨x, y, hxy, ⟨y', hxy', hP⟩, z, hyz, hQ⟩
        obtain rfl := hM.head_unique hxy hxy'
        exact ⟨x, y, z, hxy, hyz, hP, hQ.trans (Multiset.cons_swap _ _ _)⟩
    · exact fun v w hvw => ⟨_, w, hvw, rfl⟩
    · rintro v _ _ ⟨w, hvw, rfl⟩ ⟨w', hvw', rfl⟩
      rw [hM.head_unique hvw hvw']
    · rintro v v' _ ⟨w, hvw, rfl⟩ ⟨w', hvw', heq⟩
      exact hM.eq_of_pair hvw hvw' heq

/-! ## Small triangles on the two sides of a step -/

section Sides

variable (hM : M.Closed) (htriangular : M.Triangular)
include hM htriangular

/-- Two triangles that share an edge do not have a third corner in common. -/
theorem third_corner_not_mem
    (hshared :
      ∀ {f g v w v' w'}, M f v w → M g w v → M f v' w' → M g w' v' → v = v')
    {f g x y z : ℕ}
    (hf : M f x y)
    (hg : M g y x)
    (hxz : M g x z)
    (hz : z ∈ M.corners f) : False := by
  obtain ⟨w, hyw⟩ := hM.next hf
  have hwx := htriangular hf hyw
  have hzy := htriangular hg hxz
  rcases hM.mem_triangle hf hyw hwx hz with rfl | rfl | rfl
  · exact hM.ne hxz rfl
  · exact hM.ne hzy rfl
  · exact hM.ne hf (hshared hf hg hyw hzy)

theorem eq_of_corners
    (hshared :
      ∀ {f g v w v' w'}, M f v w → M g w v → M f v' w' → M g w' v' → v = v')
    {f g x y z : ℕ}
    (hxy : M f x y)
    (hyz : M f y z)
    (hx : x ∈ M.corners g)
    (hy : y ∈ M.corners g)
    (hz : z ∈ M.corners g) : f = g := by
  obtain ⟨u, hxu⟩ := hx
  obtain ⟨w, huw⟩ := hM.next hxu
  have hwx := htriangular hxu huw
  have hyx : y ≠ x := (hM.ne hxy).symm
  have hzx : z ≠ x := hM.ne (htriangular hxy hyz)
  rcases hM.mem_triangle hxu huw hwx hy with rfl | rfl | rfl
  · exact absurd rfl hyx
  · exact hM.owner_unique hxy hxu
  · rcases hM.mem_triangle hxu huw hwx hz with rfl | rfl | rfl
    · exact absurd rfl hzx
    · exact (third_corner_not_mem hM htriangular hshared hxy hwx hxu
        ⟨_, htriangular hxy hyz⟩).elim
    · exact absurd rfl (hM.ne hyz)

theorem refine_owner_unique
    (hshared :
      ∀ {f g v w v' w'}, M f v w → M g w v → M f v' w' → M g w' v' → v = v')
    {s t : SmallTriangle} {P Q : Multiset ℕ}
    (hs : refine M n s P Q)
    (ht : refine M n t P Q) : s = t := by
  -- triangles that point up and down have no step in common
  have hmixed : ∀ {f g x y z base P Q} {rest : Multiset ℕ}, M g x z →
      M g z y → P = x ::ₘ z ::ₘ base → Q = y ::ₘ z ::ₘ base →
      ∀ {x' y'}, M f x' y' → (∀ v ∈ rest, v ∈ M.corners f) →
        P = x' ::ₘ rest → Q = y' ::ₘ rest → False := by
    intro f g x y z base P Q rest hxz hzy hP hQ x' y' hxy' hrest hP' hQ'
    obtain ⟨rfl, rfl, rfl⟩ :=
      cons_exchange (hM.ne hxy') (hP'.symm.trans hP) (hQ'.symm.trans hQ)
    exact third_corner_not_mem hM htriangular hshared hxy'
      (htriangular hxz hzy) hxz (hrest z (Multiset.mem_cons_self _ _))
  cases hs with
  | up hxy hcard hbase hP hQ =>
      cases ht with
      | up hxy' hcard' hbase' hP' hQ' =>
          obtain ⟨rfl, rfl, rfl⟩ :=
            cons_exchange (hM.ne hxy) (hP.symm.trans hP') (hQ.symm.trans hQ')
          rw [hM.owner_unique hxy hxy']
      | down hxy' hyz' hcard' hbase' hP' hQ' =>
          exact (hmixed hxy' hyz' hP' hQ' hxy hbase hP hQ).elim
  | down hxy hyz hcard hbase hP hQ =>
      cases ht with
      | up hxy' hcard' hbase' hP' hQ' =>
          exact (hmixed hxy hyz hP hQ hxy' hbase' hP' hQ').elim
      | down hxy' hyz' hcard' hbase' hP' hQ' =>
          obtain ⟨rfl, rfl, hrest⟩ :=
            cons_exchange (hM.long hxy hyz) (hP.symm.trans hP')
              (hQ.symm.trans hQ')
          obtain rfl :=
            hM.owner_unique (htriangular hxy hyz) (htriangular hxy' hyz')
          obtain rfl := hM.head_unique hxy hxy'
          rw [Multiset.cons_inj_right _ |>.mp hrest]

theorem refine_mate {s : SmallTriangle} {P Q : Multiset ℕ}
    (h : refine M n s P Q) :
    ∃ t, t ≠ s ∧ refine M n t Q P := by
  cases h with
  | @up f x y base _ _ hxy hcard hbase hP hQ =>
      obtain ⟨z, hyz⟩ := hM.next hxy
      have hzx := htriangular hxy hyz
      by_cases hz : z ∈ base
      · -- the other side belongs to a triangle that points down in the face
        obtain ⟨rest, rfl⟩ := Multiset.exists_cons_of_mem hz
        refine ⟨.down f rest, by simp, .down hyz hzx ?_ ?_ hQ hP⟩
        · rw [Multiset.card_cons] at hcard
          omega
        · exact fun v hv => hbase v (Multiset.mem_cons_of_mem hv)
      · -- the step lies on an edge, and the other side in the neighbour
        obtain ⟨g, hne, hyx⟩ := hM.mate hxy
        refine ⟨.up g base, by simpa using hne, .up hyx hcard ?_ hQ hP⟩
        intro v hv
        rcases hM.mem_triangle hxy hyz hzx (hbase v hv) with rfl | rfl | rfl
        · exact hM.next hyx
        · exact ⟨_, hyx⟩
        · exact absurd hv hz
  | @down f x y z base _ _ hxy hyz hcard hbase hP hQ =>
      refine ⟨.up f (y ::ₘ base), by simp,
        .up (htriangular hxy hyz) ?_ ?_ hQ hP⟩
      · rw [Multiset.card_cons]
        omega
      · intro v hv
        rcases Multiset.mem_cons.mp hv with rfl | hv
        · exact ⟨_, hyz⟩
        · exact hbase v hv

/-- The small triangles of a closed surface are closed when no two triangles
share two edges. -/
theorem refine_closed
    (hshared :
      ∀ {f g v w v' w'},
        M f v w → M g w v → M f v' w' → M g w' v' → v = v') :
    (refine M n).Closed where
  toCyclic := refine_cyclic hM
  owner_unique := refine_owner_unique hM htriangular hshared
  mate := refine_mate hM htriangular

end Sides

/-- The places are the multisets of `n` corners of one face. -/
theorem tails_refine (hn : 0 < n) : (refine M n).tails =
    {P | P.card = n ∧ ∃ f, ∀ v ∈ P, v ∈ M.corners f} := by
  ext P
  constructor
  · rintro ⟨_, Q, h⟩
    cases h with
    | @up f _ _ base _ _ hxy hcard hbase hP hQ =>
        subst hP
        refine ⟨by simpa using hcard, f, fun v hv => ?_⟩
        rcases Multiset.mem_cons.mp hv with rfl | hv
        · exact ⟨_, hxy⟩
        · exact hbase v hv
    | @down f _ _ _ base _ _ hxy hyz hcard hbase hP hQ =>
        subst hP
        refine ⟨by simpa using hcard, f, fun v hv => ?_⟩
        rcases Multiset.mem_cons.mp hv with rfl | hv
        · exact ⟨_, hxy⟩
        · rcases Multiset.mem_cons.mp hv with rfl | hv
          · exact ⟨_, hyz⟩
          · exact hbase v hv
  · rintro ⟨rfl, f, hP⟩
    obtain ⟨x, hx⟩ := Multiset.card_pos_iff_exists_mem.mp hn
    obtain ⟨base, rfl⟩ := Multiset.exists_cons_of_mem hx
    obtain ⟨y, hxy⟩ := hP x hx
    exact ⟨.up f base, y ::ₘ base, .up hxy (by simp)
      (fun v hv => hP v (Multiset.mem_cons_of_mem hv)) rfl rfl⟩

end Incidence
end Polyhedra
