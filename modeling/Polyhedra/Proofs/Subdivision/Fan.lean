import Mathlib
import Polyhedra.Proofs.Subdivision.Refinement

/-!
# The small triangles around a place

The places around which small triangles of two faces meet lie on both faces,
so two faces meet in the places of a common edge or in a single corner.  The
small triangles of one face at a place are joined with each other, through
those that point down.  At a place on an edge they are joined with those of
the neighbour across the edge, and at a corner the faces around the corner
are followed.
-/

namespace Polyhedra
namespace Incidence

variable {M : Incidence ℕ ℕ} {n : ℕ} {P Q P' Q' : Multiset ℕ}

/-- A triangle has a step one way or the other between two of its corners. -/
theorem Cyclic.step_of_corners
    (hM : M.Cyclic)
    (htriangular : M.Triangular)
    {f x y : ℕ}
    (hx : x ∈ M.corners f)
    (hy : y ∈ M.corners f)
    (hne : x ≠ y) : M f x y ∨ M f y x := by
  obtain ⟨u, hxu⟩ := hx
  obtain ⟨w, huw⟩ := hM.next hxu
  have hwx := htriangular hxu huw
  rcases hM.mem_triangle hxu huw hwx hy with rfl | rfl | rfl
  · exact absurd rfl hne
  · exact .inl hxu
  · exact .inr hwx

/-- The small triangles of a face at a place of its own corners, up to their
fan: each of them is joined with a triangle that points up. -/
structure JoinedUp (M : Incidence ℕ ℕ) (n : ℕ) (P : Multiset ℕ) (f : ℕ)
    (s : SmallTriangle) : Prop where
  card : P.card = n
  corners : ∀ v ∈ P, v ∈ M.corners f
  joined : ∃ x base, P = x ::ₘ base ∧
    Relation.EqvGen ((refine M n).Around P) s (.up f base)

section Fan

variable (hM : M.Closed) (htriangular : M.Triangular)
include hM htriangular

/-- The triangle that points down is joined with the two that point up and
share one of its steps at the place. -/
theorem down_joined {f x y : ℕ} {base : Multiset ℕ}
    (hxy : M f x y)
    (hcard : base.card + 2 = n)
    (hbase : ∀ v ∈ base, v ∈ M.corners f) :
    Relation.EqvGen ((refine M n).Around (x ::ₘ y ::ₘ base)) (.down f base)
        (.up f (y ::ₘ base)) ∧
      Relation.EqvGen ((refine M n).Around (x ::ₘ y ::ₘ base)) (.down f base)
        (.up f (x ::ₘ base)) := by
  obtain ⟨z, hyz⟩ := hM.next hxy
  have hzx := htriangular hxy hyz
  have hup : ∀ {a}, a ∈ M.corners f → (a ::ₘ base).card + 1 = n ∧
      ∀ v ∈ a ::ₘ base, v ∈ M.corners f := by
    intro a ha
    refine ⟨by rw [Multiset.card_cons]; omega, fun v hv => ?_⟩
    rcases Multiset.mem_cons.mp hv with rfl | hv
    · exact ha
    · exact hbase v hv
  constructor
  · -- the step from `x` to `z` leaves the place, and its reverse comes back
    obtain ⟨hupCard, hupBase⟩ := hup ⟨z, hyz⟩
    exact .symm _ _ (.rel _ _ ⟨z ::ₘ y ::ₘ base,
      .down hxy hyz hcard hbase rfl rfl, .up hzx hupCard hupBase rfl rfl⟩)
  · -- the step from `z` to `y` comes to the place
    obtain ⟨hupCard, hupBase⟩ := hup ⟨y, hxy⟩
    refine .rel _ _ ⟨z ::ₘ x ::ₘ base, .up hyz hupCard hupBase ?_ rfl,
      .down hzx hxy hcard hbase rfl ?_⟩ <;> exact Multiset.cons_swap _ _ _

/-- All triangles of a face that point up and have the place as a corner are
joined. -/
theorem up_joined {f x y : ℕ} {base rest : Multiset ℕ}
    (hcard : P.card = n)
    (hcorners : ∀ v ∈ P, v ∈ M.corners f)
    (hx : P = x ::ₘ base)
    (hy : P = y ::ₘ rest) :
    Relation.EqvGen ((refine M n).Around P) (.up f base) (.up f rest) := by
  rcases Multiset.cons_eq_cons.mp (hx.symm.trans hy) with ⟨-, rfl⟩ |
    ⟨hne, inner, rfl, rfl⟩
  · exact .refl _
  have hinner : inner.card + 2 = n := by
    rw [← hcard, hx]
    simp
  have hmem : ∀ v ∈ x ::ₘ y ::ₘ inner, v ∈ M.corners f :=
    fun v hv => hcorners v (hx ▸ hv)
  have hbase : ∀ v ∈ inner, v ∈ M.corners f :=
    fun v hv => hmem v (by simp [hv])
  rcases hM.step_of_corners htriangular (hmem x (by simp)) (hmem y (by simp))
    hne with hxy | hyx
  · obtain ⟨hfirst, hsecond⟩ := down_joined hM htriangular hxy hinner hbase
    rw [hx]
    exact hfirst.symm.trans _ _ _ hsecond
  · obtain ⟨hfirst, hsecond⟩ := down_joined hM htriangular hyx hinner hbase
    rw [hy]
    exact hsecond.symm.trans _ _ _ hfirst

/-- Every small triangle at a place is joined with one of its face that
points up. -/
theorem exists_joinedUp {s : SmallTriangle} (h : refine M n s P Q) :
    ∃ f, M.JoinedUp n P f s := by
  cases h with
  | @up f x y base _ _ hxy hcard hbase hP hQ =>
      refine ⟨f, ?_, fun v hv => ?_, x, base, hP, .refl _⟩
      · rw [hP, Multiset.card_cons, hcard]
      · rcases Multiset.mem_cons.mp (hP ▸ hv) with rfl | hv
        · exact ⟨y, hxy⟩
        · exact hbase v hv
  | @down f x y z base _ _ hxy hyz hcard hbase hP hQ =>
      subst hP
      refine ⟨f, ?_, fun v hv => ?_, x, y ::ₘ base, rfl,
        (down_joined hM htriangular hxy hcard hbase).1⟩
      · simpa using hcard
      · rcases Multiset.mem_cons.mp hv with rfl | hv
        · exact ⟨y, hxy⟩
        · rcases Multiset.mem_cons.mp hv with rfl | hv
          · exact ⟨z, hyz⟩
          · exact hbase v hv

end Fan

/-! ## From face to face -/

/-- Across an edge of two faces. -/
theorem edge_joined {f g x y : ℕ} {base : Multiset ℕ}
    (hf : M f x y)
    (hg : M g y x)
    (hcard : base.card + 1 = n)
    (hbase : ∀ v ∈ base, v ∈ M.corners f)
    (hbase' : ∀ v ∈ base, v ∈ M.corners g) :
    Relation.EqvGen ((refine M n).Around (x ::ₘ base)) (.up f base)
      (.up g base) :=
  .symm _ _ (.rel _ _
    ⟨y ::ₘ base, .up hf hcard hbase rfl rfl, .up hg hcard hbase' rfl rfl⟩)

namespace Polyhedral

variable (hM : M.Polyhedral)
include hM

/-- Around a corner. -/
theorem corner_joined {f g x w w' : ℕ} {base : Multiset ℕ}
    (hf : M f x w)
    (hg : M g x w')
    (hcard : base.card + 1 = n)
    (hbase : ∀ v ∈ base, v = x) :
    Relation.EqvGen ((refine M n).Around (x ::ₘ base)) (.up f base)
      (.up g base) := by
  refine eqvGen_transport (fun f s => .up f base = s) ?_ ?_ (hM.fan hf hg)
    rfl rfl
  · rintro f _ _ rfl rfl
    exact .refl _
  · rintro before after ⟨u, hafter, hbefore⟩
    have hcorners : ∀ {i u'}, M i x u' → ∀ v ∈ base, v ∈ M.corners i :=
      fun h v hv => hbase v hv ▸ ⟨_, h⟩
    obtain ⟨u', hnext⟩ := hM.next hbefore
    exact ⟨_, _, rfl, rfl,
      .rel _ _ ⟨u ::ₘ base, .up hafter hcard (hcorners hafter) rfl rfl,
        .up hbefore hcard (hcorners hnext) rfl rfl⟩⟩

/-- Two faces with all corners of a place in common are joined there: they
share an edge, or the place is a single corner. -/
theorem faces_joined
    (htriangular : M.Triangular)
    {f g x : ℕ} {base : Multiset ℕ}
    (hcard : base.card + 1 = n)
    (hf : ∀ v ∈ x ::ₘ base, v ∈ M.corners f)
    (hg : ∀ v ∈ x ::ₘ base, v ∈ M.corners g) :
    Relation.EqvGen ((refine M n).Around (x ::ₘ base)) (.up f base)
      (.up g base) := by
  have hbase : ∀ v ∈ base, v ∈ M.corners f :=
    fun v hv => hf v (Multiset.mem_cons_of_mem hv)
  have hbase' : ∀ v ∈ base, v ∈ M.corners g :=
    fun v hv => hg v (Multiset.mem_cons_of_mem hv)
  have hx := hf x (Multiset.mem_cons_self _ _)
  have hx' := hg x (Multiset.mem_cons_self _ _)
  by_cases hall : ∀ v ∈ base, v = x
  · obtain ⟨w, hw⟩ := hx
    obtain ⟨w', hw'⟩ := hx'
    exact hM.corner_joined hw hw' hcard hall
  · obtain ⟨y, hy, hne⟩ : ∃ y ∈ base, y ≠ x := by
      simpa using hall
    rcases hM.step_of_corners htriangular hx (hbase y hy) hne.symm with hxy |
        hyx <;>
      rcases hM.step_of_corners htriangular hx' (hbase' y hy) hne.symm with
        hxy' | hyx'
    · rw [hM.owner_unique hxy hxy']
      exact .refl _
    · exact edge_joined hxy hyx' hcard hbase hbase'
    · exact (edge_joined hxy' hyx hcard hbase' hbase).symm
    · rw [hM.owner_unique hyx hyx']
      exact .refl _

/-- The small triangles around a place are one cycle. -/
theorem refine_fan
    (htriangular : M.Triangular)
    {s t : SmallTriangle}
    (hs : refine M n s P Q)
    (ht : refine M n t P Q') :
    Relation.EqvGen ((refine M n).Around P) s t := by
  obtain ⟨f, hcard, hf, x, base, hx, hsup⟩ :=
    exists_joinedUp hM.toClosed htriangular hs
  obtain ⟨g, -, hg, y, rest, hy, htup⟩ :=
    exists_joinedUp hM.toClosed htriangular ht
  have hacross :
      Relation.EqvGen ((refine M n).Around P) (.up f base) (.up g base) := by
    subst hx
    exact hM.faces_joined htriangular (by simpa using hcard) hf hg
  have hwithin :
      Relation.EqvGen ((refine M n).Around P) (.up g base) (.up g rest) :=
    up_joined hM.toClosed htriangular hcard hg hx hy
  exact eqvGen_of_common ((hsup.trans _ _ _ hacross).trans _ _ _ hwithin)
    htup

end Polyhedral

/-! ## Shared edges -/

section Shared

variable (hM : M.Polyhedral) (htriangular : M.Triangular)
include hM htriangular

/-- A triangle that points up shares an edge with one that points down only
within a face, and the edge is opposite to the corner that is the weight they
differ by. -/
theorem refine_shared_up_down {f g : ℕ} {base rest : Multiset ℕ}
    (hs : refine M n (.up f base) P Q)
    (ht : refine M n (.down g rest) Q P) :
    ∃ x y, P = x ::ₘ base ∧ base = y ::ₘ rest ∧ M f y x := by
  obtain ⟨hxy, -, -, hP, hQ⟩ := hs
  obtain _ | ⟨hxy', hyz', -, -, hQ', hP'⟩ := ht
  obtain ⟨rfl, rfl, hrest⟩ :=
    cons_exchange (hM.ne hxy) (hP.symm.trans hP') (hQ.symm.trans hQ')
  obtain rfl := hM.owner_unique hxy (htriangular hxy' hyz')
  exact ⟨_, _, hP, hrest, hyz'⟩

/-- Triangles that point down do not share an edge. -/
theorem not_refine_down_down {f g : ℕ} {base rest : Multiset ℕ}
    (hs : refine M n (.down f base) P Q)
    (ht : refine M n (.down g rest) Q P) : False := by
  obtain _ | @⟨_, x, y, z, _, _, _, hxy, hyz, -, hbase, hP, hQ⟩ := hs
  obtain _ | @⟨_, z', y', x', _, _, _, hzy', hyx', -, hbase', hQ', hP'⟩ := ht
  obtain ⟨rfl, rfl, hrest⟩ :=
    cons_exchange (hM.long hxy hyz) (hP.symm.trans hP') (hQ.symm.trans hQ')
  have hzx := htriangular hxy hyz
  have hxz' := htriangular hzy' hyx'
  -- the third corner of one face would be one of the other as well
  have hy : y ∈ M.corners g := by
    have hmem : y ∈ y' ::ₘ rest := hrest ▸ Multiset.mem_cons_self _ _
    rcases Multiset.mem_cons.mp hmem with rfl | hmem
    · exact ⟨_, hyx'⟩
    · exact hbase' y hmem
  exact third_corner_not_mem hM.toClosed htriangular hM.shared hxz' hzx hxy
    hy

theorem refine_shared {s t : SmallTriangle}
    (hs : refine M n s P Q)
    (ht : refine M n t Q P)
    (hs' : refine M n s P' Q')
    (ht' : refine M n t Q' P') : P = P' := by
  have hmixed : ∀ {f g base rest P Q P' Q'}, refine M n (.up f base) P Q →
      refine M n (.down g rest) Q P → refine M n (.up f base) P' Q' →
        refine M n (.down g rest) Q' P' → P = P' := by
    intro f g base rest P Q P' Q' hs ht hs' ht'
    obtain ⟨x, y, rfl, rfl, hyx⟩ :=
      refine_shared_up_down hM htriangular hs ht
    obtain ⟨x', y', rfl, hrest, hyx'⟩ :=
      refine_shared_up_down hM htriangular hs' ht'
    obtain rfl := Multiset.cons_inj_left _ |>.mp hrest
    rw [hM.head_unique hyx hyx']
  match s, t with
  | .up f base, .up g rest =>
      obtain ⟨hxy, -, -, hP, hQ⟩ := hs
      obtain ⟨hyx, -, -, hQ₁, hP₁⟩ := ht
      obtain ⟨hxy', -, -, hP', hQ'⟩ := hs'
      obtain ⟨hyx', -, -, hQ₁', hP₁'⟩ := ht'
      obtain ⟨rfl, rfl, -⟩ :=
        cons_exchange (hM.ne hxy) (hP.symm.trans hP₁) (hQ.symm.trans hQ₁)
      obtain ⟨rfl, rfl, -⟩ :=
        cons_exchange (hM.ne hxy') (hP'.symm.trans hP₁')
          (hQ'.symm.trans hQ₁')
      rw [hP, hP', hM.shared hxy hyx hxy' hyx']
  | .up _ _, .down _ _ => exact hmixed hs ht hs' ht'
  | .down _ _, .up _ _ =>
      obtain rfl := hmixed ht hs ht' hs'
      exact (refine_cyclic hM.toClosed).head_unique ht ht'
  | .down _ _, .down _ _ =>
      exact (not_refine_down_down hM htriangular hs ht).elim

/-- The small triangles of a polyhedral triangulated surface are
polyhedral. -/
theorem Polyhedral.refine : (refine M n).Polyhedral where
  toClosed := refine_closed hM.toClosed htriangular hM.shared
  fan := hM.refine_fan htriangular
  shared := refine_shared hM htriangular

end Shared

end Incidence
end Polyhedra
