import Mathlib
import Polyhedra.Proofs.Operator.Chamfer
import Polyhedra.Proofs.Operator.Corners
import Polyhedra.Seed.Platonic

/-!
# The faces of chamfer

Chamfer works on every closed mesh whose indices fit the slots of a key,
whatever its used vertices look like.  It keeps a copy of every face and
makes a hexagon of every edge.  The keys of the faces and of the edges are of
one kind and sorted together: the key of an edge starts with its smaller end,
so the hexagons stand between the copies of the faces.
-/

namespace Polyhedra

theorem IndexKey.compare_lt_single {key : IndexKey} {i : ℕ}
    (hi : i ≤ maxIndex) :
    compare key (.single i) = .lt ↔ key.first ≤ i := by
  change lexicographic key (.single i) = .lt ↔ key.first ≤ i
  simp only [lexicographic, compareLex, compareOn, single, slot_eq hi,
    Ordering.then_eq_lt, Nat.compare_eq_lt, Nat.not_lt_zero, and_false,
    or_false, Nat.lt_succ_iff]

namespace IndexRole

theorem compare_single_lt {i j : ℕ}
    (hi : i ≤ IndexKey.maxIndex)
    (hj : j ≤ IndexKey.maxIndex) :
    compare (single j).key (single i).key = .lt ↔ j < i := by
  change compare (single j).key (IndexKey.single i) = .lt ↔ j < i
  rw [IndexKey.compare_lt_single hi]
  change IndexKey.slot j ≤ i ↔ j < i
  rw [IndexKey.slot_eq hj, Nat.succ_le_iff]

theorem compare_edge_lt {e : Sym2 ℕ} {i : ℕ}
    (hi : i ≤ IndexKey.maxIndex)
    (he : ∀ v ∈ e, v ≤ IndexKey.maxIndex) :
    compare (edge e).key (single i).key = .lt ↔ ∃ v ∈ e, v < i := by
  induction e with
  | h a b =>
      have hmin : min a b ≤ IndexKey.maxIndex :=
        (min_le_left a b).trans (he a (by simp))
      change compare (edge s(a, b)).key (IndexKey.single i) = .lt ↔ _
      rw [IndexKey.compare_lt_single hi]
      change IndexKey.slot (min a b) ≤ i ↔ _
      rw [IndexKey.slot_eq hmin, Nat.succ_le_iff, min_lt_iff]
      simp

end IndexRole

namespace Surface

variable {surface : Surface}

/-- Every edge once, from its smaller end to the greater one and back, with
the faces on its two sides. -/
def ridges (surface : Surface) : List ((Edge × ℕ) × (Edge × ℕ)) :=
  (surface.ownedEdges.product surface.ownedEdges).filter fun (there, back) =>
    back.1 = there.1.swap ∧ there.1.1 < there.1.2

/-- The number of edges with an end below `n`. -/
def edgesBelow (surface : Surface) (n : ℕ) : ℕ :=
  surface.ridges.countP fun (there, _) => there.1.1 < n

theorem mem_ridges_iff {a b c d i j : ℕ} :
    (((a, b), i), ((c, d), j)) ∈ surface.ridges ↔
      surface.incidence i a b ∧ surface.incidence j b a ∧ a < b ∧ c = b ∧
      d = a := by
  simp only [ridges, List.mem_filter, List.pair_mem_product,
    mem_ownedEdges_iff, Prod.swap_prod_mk, Prod.mk.injEq, decide_eq_true_eq]
  constructor
  · rintro ⟨⟨hab, hba⟩, ⟨rfl, rfl⟩, hlt⟩
    exact ⟨hab, hba, hlt, rfl, rfl⟩
  · rintro ⟨hab, hba, hlt, rfl, rfl⟩
    exact ⟨⟨hab, hba⟩, ⟨rfl, rfl⟩, hlt⟩

theorem nodup_ridges (hsimple : ∀ face ∈ surface, face.Nodup) :
    surface.ridges.Nodup :=
  ((nodup_ownedEdges hsimple).product (nodup_ownedEdges hsimple)).filter _

section Closed

variable (hclosed : surface.incidence.Closed)
include hclosed

theorem exists_ridge {e : Sym2 ℕ} (he : e ∈ surface.incidence.sides) :
    ∃ a b i j, (((a, b), i), ((b, a), j)) ∈ surface.ridges ∧
      s(a, b) = e := by
  obtain ⟨i, a, b, hab, rfl⟩ := he
  obtain ⟨j, -, hba⟩ := hclosed.mate hab
  rcases lt_or_gt_of_ne (hclosed.ne hab) with hlt | hgt
  · exact ⟨a, b, i, j, mem_ridges_iff.mpr ⟨hab, hba, hlt, rfl, rfl⟩, rfl⟩
  · exact ⟨b, a, j, i, mem_ridges_iff.mpr ⟨hba, hab, hgt, rfl, rfl⟩,
      Sym2.eq_swap⟩

/-- An edge has one ridge. -/
theorem ridge_eq {ridge other : (Edge × ℕ) × (Edge × ℕ)}
    (hridge : ridge ∈ surface.ridges)
    (hother : other ∈ surface.ridges)
    (hsame : s(ridge.1.1.1, ridge.1.1.2) = s(other.1.1.1, other.1.1.2)) :
    ridge = other := by
  obtain ⟨⟨⟨a, b⟩, i⟩, ⟨⟨c, d⟩, j⟩⟩ := ridge
  obtain ⟨⟨⟨x, y⟩, k⟩, ⟨⟨z, w⟩, l⟩⟩ := other
  obtain ⟨hab, hba, hlt, rfl, rfl⟩ := mem_ridges_iff.mp hridge
  obtain ⟨hxy, hyx, hlt', rfl, rfl⟩ := mem_ridges_iff.mp hother
  obtain ⟨rfl, rfl⟩ : d = w ∧ c = z := by
    rcases Sym2.eq_iff.mp hsame with hends | ⟨rfl, rfl⟩
    · exact hends
    · exact absurd hlt (Nat.lt_asymm hlt')
  rw [hclosed.owner_unique hab hxy, hclosed.owner_unique hba hyx]

theorem edgesBelow_eq_ncard
    (hsimple : ∀ face ∈ surface, face.Nodup)
    (n : ℕ) :
    surface.edgesBelow n =
      {e ∈ surface.incidence.sides | ∃ v ∈ e, v < n}.ncard := by
  let below := surface.ridges.filter fun (there, _) => there.1.1 < n
  have hbelow :
      ∀ ridge, ridge ∈ below ↔ ridge ∈ surface.ridges ∧ ridge.1.1.1 < n := by
    simp [below]
  have hsides : {e ∈ surface.incidence.sides | ∃ v ∈ e, v < n} =
      (fun ridge : (Edge × ℕ) × (Edge × ℕ) => s(ridge.1.1.1, ridge.1.1.2)) ''
        {ridge | ridge ∈ below} := by
    ext e
    simp only [Set.mem_ofPred_eq, Set.mem_image, hbelow]
    constructor
    · rintro ⟨he, v, hv, hlt⟩
      obtain ⟨a, b, i, j, hridge, rfl⟩ := exists_ridge hclosed he
      obtain ⟨-, -, hab, -⟩ := mem_ridges_iff.mp hridge
      refine ⟨_, ⟨hridge, ?_⟩, rfl⟩
      rcases Sym2.mem_iff.mp hv with rfl | rfl
      exacts [hlt, hab.trans hlt]
    · rintro ⟨⟨⟨⟨a, b⟩, i⟩, ⟨⟨c, d⟩, j⟩⟩, ⟨hridge, hlt⟩, rfl⟩
      obtain ⟨hab, -⟩ := mem_ridges_iff.mp hridge
      exact ⟨⟨i, a, b, hab, rfl⟩, a, Sym2.mem_mk_left a b, hlt⟩
  rw [hsides, Set.InjOn.ncard_image, ← List.coe_toFinset,
    Set.ncard_coe_finset, edgesBelow, List.countP_eq_length_filter,
    List.toFinset_card_of_nodup ((nodup_ridges hsimple).filter _)]
  intro ridge hridge other hother heq
  exact ridge_eq hclosed ((hbelow _).mp hridge).1 ((hbelow _).mp hother).1
    heq

end Closed

end Surface

namespace Mesh

/-- The corners of the copies of the faces as roles. -/
def pairRoles (mesh : Mesh) : Set IndexRole :=
  (fun flag => IndexRole.pair flag.1 flag.2.1) '' mesh.faces.incidence.flags

/-- The copies of the faces in chamfer, through their own corners. -/
def cornerCopies (mesh : Mesh) : List (List IndexRole) :=
  mesh.faces.indexed.map fun (face, i) => face.map (.pair i)

/-- The hexagons of chamfer, one for every edge between `a` and `b`, which
the face `i` follows from `a` to `b` and the face `j` from `b` to `a`. -/
def chamferHexagons (mesh : Mesh) : List (List IndexRole) :=
  mesh.faces.ridges.map fun (((a, b), i), (_, j)) =>
    [.single a, .pair j a, .pair j b, .single b, .pair i b, .pair i a]

namespace Closed

variable {mesh : Mesh} (h : mesh.Closed)
include h

theorem corner_copy {i : ℕ} {face : Face}
    (hface : mesh.faces[i]? = some face) :
    (Incidence.chamfer mesh.faces.incidence).GoesThrough (.single i)
      (face.map (.pair i)) :=
  Surface.goesThrough_corners h.simple hface
    (h.face_ne_nil (List.mem_of_getElem? hface)) (fun _ _ heq =>
      (IndexRole.pair.inj heq).2) fun _ _ => Incidence.chamfer_copy_iff

theorem ridge_hexagon {i j a b : ℕ}
    (hab : mesh.faces.incidence i a b)
    (hba : mesh.faces.incidence j b a) :
    (Incidence.chamfer mesh.faces.incidence).GoesThrough (.edge s(a, b))
      [.single a, .pair j a, .pair j b, .single b, .pair i b,
        .pair i a] := by
  have hne := h.incidence.ne hab
  have hmate := h.incidence.mate_ne hab hba
  refine ⟨by simp, by grind, fun v w => ?_⟩
  rw [Sym2.eq_swap]
  exact Incidence.chamfer_edge_iff h.incidence hba hab

theorem chamfer_tours :
    (Incidence.chamfer mesh.faces.incidence).Tours (mesh.faces.indexed.map
        (fun (face, i) => (.single i, face.map (.pair i))) ++
      mesh.faces.ridges.map fun (((a, b), i), (_, j)) => (.edge s(a, b),
        [.single a, .pair j a, .pair j b, .single b, .pair i b,
          .pair i a])) where
  toFollows := by
    apply Incidence.Follows.append
    · exact Surface.follows_faces IndexRole.single.inj h.corner_copy
    · apply Incidence.Follows.of_map (Surface.nodup_ridges h.simple)
      · intro ridge hridge other hother heq
        exact Surface.ridge_eq h.incidence hridge hother
          (IndexRole.edge.inj heq)
      · rintro ⟨⟨⟨a, b⟩, i⟩, ⟨⟨c, d⟩, j⟩⟩ hridge
        obtain ⟨hab, hba, -⟩ := Surface.mem_ridges_iff.mp hridge
        exact h.ridge_hexagon hab hba
    · simp only [List.mem_map]
      rintro _ ⟨_, -, rfl⟩ _ ⟨_, -, rfl⟩ heq
      cases heq
  all := by
    intro f hf
    rw [Incidence.faces_chamfer] at hf
    rw [List.map_append, List.map_map, List.map_map, List.mem_append]
    rcases hf with ⟨i, hi, rfl⟩ | ⟨e, he, rfl⟩
    · obtain ⟨face, hface⟩ := Surface.exists_indexed hi
      exact .inl (List.mem_map.mpr ⟨_, hface, rfl⟩)
    · obtain ⟨a, b, i, j, hridge, rfl⟩ := Surface.exists_ridge h.incidence he
      exact .inr (List.mem_map.mpr ⟨_, hridge, rfl⟩)

/-- The faces before the copy of the face `i`: the copies of the faces before
it and the hexagons of the edges with an end below `i`. -/
theorem ncard_before_copy
    (hfits : mesh.IndicesFit)
    {i : ℕ}
    (hi : i < mesh.faceCount) :
    {g ∈ (Incidence.chamfer mesh.faces.incidence).faces |
        compare g.key (IndexRole.single i).key = .lt}.ncard =
      i + mesh.faces.edgesBelow i := by
  have hslot := hfits.face_le i hi
  have hbefore : {g ∈ (Incidence.chamfer mesh.faces.incidence).faces |
        compare g.key (IndexRole.single i).key = .lt} =
      IndexRole.single '' {j | j < i} ∪ IndexRole.edge ''
      {e ∈ mesh.faces.incidence.sides | ∃ v ∈ e, v < i} := by
    ext g
    rw [Set.mem_ofPred_eq, Incidence.faces_chamfer, h.faces_eq]
    constructor
    · rintro ⟨⟨j, hj, rfl⟩ | ⟨e, he, rfl⟩, hlt⟩
      · exact .inl ⟨j,
          (IndexRole.compare_single_lt hslot (hfits.face_le j hj)).mp hlt,
          rfl⟩
      · exact .inr
          ⟨e, ⟨he, (IndexRole.compare_edge_lt hslot (hfits.side he)).mp hlt⟩,
            rfl⟩
    · rintro (⟨j, hj, rfl⟩ | ⟨e, ⟨he, hlt⟩, rfl⟩)
      · exact ⟨.inl ⟨j, lt_trans hj hi, rfl⟩, (IndexRole.compare_single_lt
          hslot (hfits.face_le j (lt_trans hj hi))).mpr hj⟩
      · exact ⟨.inr ⟨e, he, rfl⟩,
          (IndexRole.compare_edge_lt hslot (hfits.side he)).mpr hlt⟩
  have hcopies : {j | j < i}.ncard = i := Set.ncard_Iio_nat _
  have hfinite : {e ∈ mesh.faces.incidence.sides | ∃ v ∈ e, v < i}.Finite :=
    (Incidence.finite_sides Surface.finite_flags).subset fun e he => he.1
  rw [hbefore, ncard_image_union (Set.finite_lt_nat _) (hfinite.image _),
    hcopies, Set.ncard_image_of_injective _ fun _ _ => IndexRole.edge.inj,
      Surface.edgesBelow_eq_ncard h.incidence h.simple]
  · exact fun _ _ _ _ => IndexRole.single.inj
  · rintro j - ⟨e, -, heq⟩
    cases heq

/-- Chamfer gives a mesh that realizes its roles, with the copy of every face
after the hexagons of the edges that have an end below the index of the
face. -/
theorem exists_chamfer (hfits : mesh.IndicesFit) (depth : Float) :
    ∃ out onFace onVertex, mesh.chamfer depth = .ok out ∧
      out.Realizes (Incidence.chamfer mesh.faces.incidence)
        (mesh.ridgeSites depth) onFace onVertex ∧
      ∀ i < mesh.faceCount,
        onFace (.single i) = i + mesh.faces.edgesBelow i := by
  obtain ⟨out, onFace, onVertex, hout, hrealizes, hrank⟩ :=
    h.inRange.exists_ranked (Incidence.chamfer_closed h.incidence).toCyclic
      (injOn_key_chamfer_faces hfits) (injOn_key_chamfer_tails hfits
        h.incidence) (ridgeSites_eq h.incidence depth)
      (fun _ _ _ => Surface.mem_chamferFlags_iff) ("c" ++ mesh.name)
  rw [← chamferSites_eq] at hout
  exact ⟨out, onFace, onVertex, hout, hrealizes,
    fun i hi => (hrank _).trans (h.ncard_before_copy hfits hi)⟩

section Realized

variable {depth : Float} {out : Mesh} {onFace onVertex : IndexRole → ℕ}
  (hrealizes : out.Realizes (Incidence.chamfer mesh.faces.incidence)
      (mesh.ridgeSites depth) onFace onVertex)
  (hrank :
      ∀ i < mesh.faceCount, onFace (.single i) = i + mesh.faces.edgesBelow i)
include hrealizes hrank

theorem exists_copy {i : ℕ} {face : Face}
    (hface : mesh.faces[i]? = some face) :
    ∃ copy, out.faces[i + mesh.faces.edgesBelow i]? = some copy ∧
      copy ~r face.map fun v => onVertex (.pair i v) := by
  obtain ⟨copy, hcopy, hrotated⟩ :=
    hrealizes.exists_face_of_goesThrough (h.corner_copy hface)
  rw [hrank i (List.getElem?_eq_some_iff.mp hface).1] at hcopy
  rw [List.map_map] at hrotated
  exact ⟨copy, hcopy, hrotated⟩

/-- Between the places of the copies there are only hexagons. -/
theorem exists_hexagon {k : ℕ} {face : Face}
    (hface : out.faces[k]? = some face)
    (hbetween : ∀ i < mesh.faceCount, k ≠ i + mesh.faces.edgesBelow i) :
    ∃ keys ∈ mesh.chamferHexagons, face ~r keys.map onVertex := by
  obtain ⟨f, hf, rfl⟩ := hrealizes.exists_role hface
  rw [Incidence.faces_chamfer, h.faces_eq] at hf
  obtain ⟨i, hi, rfl⟩ | ⟨e, he, rfl⟩ := hf
  · exact absurd (hrank i hi) (hbetween i hi)
  · obtain ⟨a, b, i, j, hridge, rfl⟩ := Surface.exists_ridge h.incidence he
    obtain ⟨hab, hba, -⟩ := Surface.mem_ridges_iff.mp hridge
    obtain ⟨other, hother, hrotated⟩ :=
      hrealizes.exists_face_of_goesThrough (h.ridge_hexagon hab hba)
    obtain rfl := Option.some.inj (hface.symm.trans hother)
    exact ⟨_, List.mem_map.mpr ⟨_, hridge, rfl⟩, hrotated⟩

end Realized

/-- Chamfer makes a copy of every face, through its own corners, and one
hexagon for every edge, between the copies on its two sides and through the
two ends of the edge.  The copy of the face `i` comes after the copies of the
faces before it and after the hexagons of the edges that have an end below
`i`; the hexagons are at all other places. -/
theorem chamfer_hexagons (hfits : mesh.IndicesFit) (depth : Float) :
    ∃ (out : Mesh) (onVertex : IndexRole → ℕ), mesh.chamfer depth = .ok out ∧
      out.Closed ∧
      out.vertexCount = mesh.faces.usedVertices.card + 2 * mesh.edgeCount ∧
      out.edgeCount = 4 * mesh.edgeCount ∧
      out.faceCount = mesh.faceCount + mesh.edgeCount ∧
      Set.BijOn onVertex (mesh.usedRoles ∪ mesh.pairRoles)
        {v | v < out.vertexCount} ∧
      out.Traces onVertex (mesh.cornerCopies ++ mesh.chamferHexagons) ∧
      (∀ i face, mesh.faces[i]? = some face →
        ∃ copy, out.faces[i + mesh.faces.edgesBelow i]? = some copy ∧
          copy ~r face.map fun v => onVertex (.pair i v)) ∧
      (∀ k face, out.faces[k]? = some face →
        (∀ i < mesh.faceCount, k ≠ i + mesh.faces.edgesBelow i) →
        ∃ keys ∈ mesh.chamferHexagons, face ~r keys.map onVertex) ∧
      (∀ v ∈ mesh.faces.usedVertices, out.vertices[onVertex (.single v)]? =
        some (mesh.position v * (1 + depth))) ∧
      ∀ i face v, mesh.faces[i]? = some face → v ∈ face →
        out.vertices[onVertex (.pair i v)]? =
          some (mesh.position v + mesh.faceNormal face * (1.5 * depth)) := by
  have hchamfer := Incidence.chamfer_closed h.incidence
  have hroles := ridgeSites_eq h.incidence depth
  obtain ⟨out, onFace, onVertex, hout, hrealizes, hrank⟩ :=
    h.exists_chamfer hfits depth
  have hbijOn := hrealizes.bijOn_vertex
  rw [hroles, Incidence.tails_chamfer h.incidence,
    ← Surface.coe_usedVertices] at hbijOn
  refine ⟨out, onVertex, hout, hrealizes.closed hchamfer, ?_, ?_, ?_, hbijOn,
    ?_, fun i face => h.exists_copy hrealizes hrank,
      fun k face => h.exists_hexagon hrealizes hrank, ?_, ?_⟩
  · rw [hrealizes.vertexCount, hroles,
      Incidence.ncard_tails_chamfer h.incidence Surface.finite_flags,
      ncard_tails, h.two_mul_edgeCount]
  · exact h.edgeCount_of_fills (Incidence.chamferFlag_fills h.incidence)
      hchamfer hrealizes
  · rw [hrealizes.faceCount,
      Incidence.ncard_faces_chamfer Surface.finite_flags,
      ← Surface.edgeCount_eq_ncard_sides, h.ncard_faces]
    rfl
  · have htraces := hrealizes.traces h.chamfer_tours
    rw [List.map_append, List.map_map, List.map_map] at htraces
    exact htraces
  · intro v hv
    obtain ⟨i, w, face, hface, hvw⟩ : v ∈ mesh.faces.incidence.tails :=
      Surface.coe_usedVertices ▸ hv
    apply hrealizes.position_of_unique (mem_ridgeSites.mpr
      ⟨i, face, v, hface, (Face.mem_of_step hvw).1, .inl ⟨rfl, rfl⟩⟩)
    intro q hq
    obtain ⟨j, other, x, -, -, hsite⟩ := mem_ridgeSites.mp hq
    grind
  · intro i face v hface hv
    apply hrealizes.position_of_unique
      (mem_ridgeSites.mpr ⟨i, face, v, hface, hv, .inr ⟨rfl, rfl⟩⟩)
    intro q hq
    obtain ⟨j, other, x, hother, -, hsite⟩ := mem_ridgeSites.mp hq
    grind

omit h in
theorem chamfer_hexagons_pinched :
    pinchedTetrahedra.Closed ∧ pinchedTetrahedra.IndicesFit ∧
      ∃ out, pinchedTetrahedra.chamfer 0.5 = .ok out ∧
        out.faces.checkClosed = .ok () ∧ out.vertexCount = 31 ∧
        out.edgeCount = 48 ∧ out.faceCount = 20 := by
  have hclosed := pinchedTetrahedra_closed
  have hfits := pinchedTetrahedra_indicesFit
  obtain ⟨out, -, hout, hout', hvertices, hedges, hfaces, -⟩ :=
    hclosed.chamfer_hexagons hfits 0.5
  have hused : pinchedTetrahedra.faces.usedVertices.card = 7 := by decide
  rw [pinchedTetrahedra_edgeCount] at hvertices hedges hfaces
  rw [hused] at hvertices
  exact ⟨hclosed, hfits, out, hout, hout'.closed, hvertices, hedges, hfaces⟩

omit h in
/-- The copies of the faces do not keep the indices of the faces: three
hexagons come between the first two copies when a tetrahedron is
chamfered. -/
theorem chamfer_tetrahedron_displaced :
    (Platonic.tetrahedron.named "T").Closed ∧
      (Platonic.tetrahedron.named "T").IndicesFit ∧
      ∃ out, (Platonic.tetrahedron.named "T").chamfer 0.5 = .ok out ∧
        ¬ ∃ onVertex : IndexRole → ℕ, ∀ (i : ℕ) face,
            (Platonic.tetrahedron.named "T").faces[i]? = some face →
          ∃ copy, out.faces[i]? = some copy ∧
            copy ~r face.map fun v => onVertex (.pair i v) := by
  have hclosed : (Platonic.tetrahedron.named "T").Closed :=
    { closed := by apply Surface.checkClosed_of_indexed <;> decide
      simple := by decide
      inRange := by decide }
  have hfits : (Platonic.tetrahedron.named "T").IndicesFit :=
    hclosed.inRange.indicesFit (by decide) (by decide)
  obtain ⟨out, onFace, onVertex, hout, hrealizes, hrank⟩ :=
    hclosed.exists_chamfer hfits 0.5
  refine ⟨hclosed, hfits, out, hout, ?_⟩
  rintro ⟨onCopy, hcopies⟩
  obtain ⟨copy, hcopy, htriangle⟩ := hcopies 1 [0, 2, 3] rfl
  obtain ⟨keys, hkeys, hhexagon⟩ :=
    hclosed.exists_hexagon hrealizes hrank hcopy (by decide +kernel)
  obtain ⟨ridge, -, rfl⟩ := List.mem_map.mp hkeys
  have hthree : copy.length = 3 := htriangle.perm.length_eq
  have hsix : copy.length = 6 := hhexagon.perm.length_eq
  omega

end Closed
end Mesh
end Polyhedra
