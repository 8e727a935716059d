import Mathlib
import Polyhedra.Proofs.Operator.Corners
import Polyhedra.Proofs.Operator.Gyro
import Polyhedra.Proofs.Operator.Propellor
import Polyhedra.Proofs.Operator.Whirl

/-!
# The faces of the twisting constructions

Gyro, propellor and whirl work on every closed mesh, whatever its vertices
look like.  Their vertices are the vertices of the mesh, the points one third
along its directed edges, for gyro the centres of its faces and for whirl the
points inside its faces; their faces are listed by these.
-/

namespace Polyhedra
namespace Mesh

/-- The centres of the faces as roles. -/
def centerRoles (mesh : Mesh) : Set VertexRole :=
  VertexRole.center '' {i | i < mesh.faceCount}

/-- The points one third along the directed edges as roles. -/
def thirdRoles (mesh : Mesh) : Set VertexRole :=
  (fun dart => VertexRole.third dart.1 dart.2) '' mesh.faces.incidence.darts

/-- The points inside the faces, one near every corner, as roles. -/
def innerRoles (mesh : Mesh) : Set VertexRole :=
  (fun flag => VertexRole.inner flag.1 flag.2.1) ''
    mesh.faces.incidence.flags

/-- The pentagons of gyro, one for every corner `b` of every face `i`. -/
def gyroPentagons (mesh : Mesh) : List (List VertexRole) :=
  mesh.faces.cornerTriples.map fun (i, a, b, c) =>
    [.center i, .third a b, .third b a, .corner b, .third b c]

/-- The faces turned inside themselves by propellor, through the points on
their edges. -/
def turnedCopies (mesh : Mesh) : List (List VertexRole) :=
  mesh.faces.map fun face => face.edges.map fun (a, b) => .third a b

/-- The quadrilaterals of propellor, one for every corner `b` of every
face. -/
def propellorQuadrilaterals (mesh : Mesh) : List (List VertexRole) :=
  mesh.faces.cornerTriples.map fun (_, a, b, c) =>
    [.third a b, .third b a, .corner b, .third b c]

/-- The smaller copies of the faces in whirl, through the points inside the
faces. -/
def innerCopies (mesh : Mesh) : List (List VertexRole) :=
  mesh.faces.indexed.map fun (face, i) => face.map (.inner i)

/-- The hexagons of whirl, one for every corner `b` of every face `i`. -/
def whirlHexagons (mesh : Mesh) : List (List VertexRole) :=
  mesh.faces.cornerTriples.map fun (i, a, b, c) =>
    [.inner i a, .third a b, .third b a, .corner b, .third b c, .inner i b]

namespace Closed

variable {mesh : Mesh} (h : mesh.Closed)
include h

omit h in
theorem finite_thirdRoles : mesh.thirdRoles.Finite :=
  (Incidence.finite_darts Surface.finite_flags).image _

theorem ncard_thirdRoles : mesh.thirdRoles.ncard = 2 * mesh.edgeCount := by
  rw [thirdRoles, h.ncard_dartRoles VertexRole.third.inj]

theorem ncard_gyroRoles :
    (mesh.cornerRoles ∪ (mesh.centerRoles ∪ mesh.thirdRoles)).ncard =
      mesh.vertexCount + mesh.faceCount + 2 * mesh.edgeCount := by
  have hcenters : {i | i < mesh.faceCount}.ncard = mesh.faceCount :=
    Set.ncard_Iio_nat _
  have hcenter : Function.Injective VertexRole.center :=
    fun _ _ => VertexRole.center.inj
  have hinner : (mesh.centerRoles ∪ mesh.thirdRoles).ncard =
      mesh.faceCount + 2 * mesh.edgeCount := by
    rw [centerRoles, ncard_image_union (Set.finite_lt_nat _)
      finite_thirdRoles hcenter.injOn, hcenters, h.ncard_thirdRoles]
    rintro i - ⟨dart, -, heq⟩
    cases heq
  have hfinite : (mesh.centerRoles ∪ mesh.thirdRoles).Finite :=
    ((Set.finite_lt_nat _).image _).union finite_thirdRoles
  rw [ncard_cornerRoles_union hfinite, hinner, add_assoc]
  rintro v (⟨i, -, heq⟩ | ⟨dart, -, heq⟩) <;> cases heq

theorem ncard_propellorRoles : (mesh.cornerRoles ∪ mesh.thirdRoles).ncard =
    mesh.vertexCount + 2 * mesh.edgeCount := by
  rw [ncard_cornerRoles_union finite_thirdRoles, h.ncard_thirdRoles]
  rintro v ⟨dart, -, heq⟩
  cases heq

theorem gyroSites_eq :
    {role | role ∈ (mesh.unitCornerSites ++ mesh.centerSites ++
        mesh.thirdSites).map Prod.fst} =
      mesh.cornerRoles ∪ (mesh.centerRoles ∪ mesh.thirdRoles) := by
  ext role
  rw [Set.mem_ofPred_eq, List.map_append, List.map_append, List.mem_append,
    List.mem_append, mem_unitCornerSites_iff, mem_centerSites_iff,
    mem_thirdSites_iff h.simple, or_assoc]
  rfl

theorem propellorSites_eq :
    {role | role ∈ (mesh.unitCornerSites ++ mesh.thirdSites).map Prod.fst} =
      mesh.cornerRoles ∪ mesh.thirdRoles := by
  ext role
  rw [Set.mem_ofPred_eq, List.map_append, List.mem_append,
    mem_unitCornerSites_iff, mem_thirdSites_iff h.simple]
  rfl

theorem gyro_tours :
    (Incidence.gyro mesh.faces.incidence).Tours
      (mesh.faces.cornerTriples.map fun (i, a, b, c) => (.ring i a,
        [.center i, .third a b, .third b a, .corner b, .third b c])) where
  toFollows := by
    apply Surface.follows_corners h.simple
    · grind
    · intro i a b c hab hbc
      have hne := h.incidence.ne hab
      have hlong := h.incidence.long hab hbc
      exact ⟨by simp, by grind,
        fun v w => Incidence.gyro_ring_iff h.incidence.toCyclic hab hbc⟩
  all := by
    intro f hf
    rw [Incidence.faces_gyro] at hf
    obtain ⟨⟨i, a, b⟩, hab, rfl⟩ := hf
    obtain ⟨c, hcorner⟩ := Surface.exists_corner_from h.simple hab
    rw [List.map_map]
    exact List.mem_map.mpr ⟨_, hcorner, rfl⟩

/-- The turned copy of a face goes through the points on its edges in
order. -/
theorem turned_copy {i : ℕ} {face : Face}
    (hface : mesh.faces[i]? = some face) :
    (Incidence.propellor mesh.faces.incidence).GoesThrough (.copy i)
      (face.edges.map fun (a, b) => .third a b) := by
  apply Surface.goesThrough_edges h.simple hface
    (h.face_ne_nil (List.mem_of_getElem? hface))
  · exact fun _ _ => VertexRole.third.inj
  · exact fun v w => Incidence.propellor_copy_iff

/-- Every face has a turned copy, and every corner of every face has one
quadrilateral. -/
theorem propellor_tours : (Incidence.propellor mesh.faces.incidence).Tours
    (mesh.faces.indexed.map (fun (face, i) =>
        (.copy i, face.edges.map fun (a, b) => .third a b)) ++
      mesh.faces.cornerTriples.map fun (i, a, b, c) =>
        (.ring i b, [.third a b, .third b a, .corner b, .third b c])) where
  toFollows := by
    apply Incidence.Follows.append
    · exact Surface.follows_faces FaceRole.copy.inj h.turned_copy
    · apply Surface.follows_corners h.simple
      · grind
      · intro i a b c hab hbc
        have hne := h.incidence.ne hab
        have hlong := h.incidence.long hab hbc
        exact ⟨by simp, by grind, fun v w =>
          Incidence.propellor_ring_iff h.incidence.toCyclic hab hbc⟩
    · simp only [List.mem_map]
      rintro _ ⟨_, -, rfl⟩ _ ⟨_, -, rfl⟩ heq
      cases heq
  all := by
    intro f hf
    rw [(Incidence.propellor_copiesAndRings h.incidence).faces_eq] at hf
    rw [List.map_append, List.map_map, List.map_map, List.mem_append]
    rcases hf with ⟨i, hi, rfl⟩ | ⟨⟨i, b, c⟩, hbc, rfl⟩
    · obtain ⟨face, hface⟩ := Surface.exists_indexed hi
      exact .inl (List.mem_map.mpr ⟨_, hface, rfl⟩)
    · obtain ⟨a, hcorner⟩ := Surface.exists_corner_to h.simple hbc
      exact .inr (List.mem_map.mpr ⟨_, hcorner, rfl⟩)

theorem twistSites_unique (role : VertexRole) (p q : Point)
    (hp : (role, p) ∈
      mesh.unitCornerSites ++ mesh.centerSites ++ mesh.thirdSites)
    (hq : (role, q) ∈
      mesh.unitCornerSites ++ mesh.centerSites ++ mesh.thirdSites) :
    p = q := by
  simp only [List.mem_append, mem_unitCornerSites, mem_centerSites,
    mem_thirdSites h.simple] at hp hq
  grind

theorem faceCenter_of_mem {face : Face} (hface : face ∈ mesh.faces) :
    mesh.faceCenter face =
      Point.sum (face.map mesh.position) / face.length.toFloat := by
  have hpos : 0 < face.length :=
    List.length_pos_iff.mpr (h.face_ne_nil hface)
  rw [faceCenter, Nat.max_eq_left hpos]

/-- Gyro makes one pentagon for every corner `b` of every face `i`, through
the centre of the face, the two points on the edge from the corner `a`
before, the corner, and the nearer point on the edge to the corner `c` after
it.  The centre is the direction of the mean of the corners, and the point
near `a` on the edge to `b` is a third of the way from `a` to `b` in every
coordinate. -/
theorem gyro_pentagons :
    ∃ (out : Mesh) (onVertex : VertexRole → ℕ),
      mesh.gyro = .ok out ∧ out.Closed ∧
      out.vertexCount =
        mesh.vertexCount + mesh.faceCount + 2 * mesh.edgeCount ∧
      out.edgeCount = 5 * mesh.edgeCount ∧
      out.faceCount = 2 * mesh.edgeCount ∧
      Set.BijOn onVertex
        (mesh.cornerRoles ∪ (mesh.centerRoles ∪ mesh.thirdRoles))
        {v | v < out.vertexCount} ∧
      out.Traces onVertex mesh.gyroPentagons ∧
      (∀ v < mesh.vertexCount,
        out.vertices[onVertex (.corner v)]? =
          some (mesh.position v).directionOrOrigin) ∧
      (∀ i face, mesh.faces[i]? = some face →
        out.vertices[onVertex (.center i)]? =
          some (Point.sum (face.map mesh.position) /
            face.length.toFloat).directionOrOrigin) ∧
      ∀ i a b p q, mesh.faces.incidence i a b →
        mesh.position a = p → mesh.position b = q →
        out.vertices[onVertex (.third a b)]? = some
          { x := p.x + (q.x - p.x) * (1 / 3)
            y := p.y + (q.y - p.y) * (1 / 3)
            z := p.z + (q.z - p.z) * (1 / 3) } := by
  have hgyro := Incidence.gyro_closed h.incidence
  have hroles := h.gyroSites_eq
  have hregistered : ∀ role ∈ (Incidence.gyro mesh.faces.incidence).tails,
      role ∈ {role | role ∈ (mesh.unitCornerSites ++ mesh.centerSites ++
        mesh.thirdSites).map Prod.fst} := by
    intro role hrole
    rw [Incidence.tails_gyro h.incidence, h.faces_eq] at hrole
    rw [hroles]
    exact hrole.imp_left fun hcorner =>
      Set.image_mono (tails_subset h.inRange) hcorner
  obtain ⟨out, onFace, onVertex, hout, hrealizes⟩ :=
    h.inRange.exists_realizes hgyro.toCyclic
      (fun _ _ _ => Surface.mem_gyroFlags_iff h.simple)
      hregistered ("g" ++ mesh.name)
  have hbijOn := hrealizes.bijOn_vertex
  rw [hroles] at hbijOn
  have hposition : ∀ {role p},
      (role, p) ∈ mesh.unitCornerSites ++ mesh.centerSites ++
        mesh.thirdSites → out.vertices[onVertex role]? = some p :=
    fun hsite => hrealizes.position_eq h.twistSites_unique hsite
  refine ⟨out, onVertex, hout, hrealizes.closed hgyro, ?_, ?_, ?_, hbijOn,
    ?_, ?_, ?_, ?_⟩
  · rw [hrealizes.vertexCount, hroles, h.ncard_gyroRoles]
  · exact h.edgeCount_of_fills (Incidence.gyroFlag_fills h.incidence)
      hgyro hrealizes
  · rw [hrealizes.faceCount, Incidence.ncard_faces_gyro h.incidence,
      h.two_mul_edgeCount]
  · have htraces := hrealizes.traces h.gyro_tours
    rwa [List.map_map] at htraces
  · intro v hv
    exact hposition (List.mem_append_left _ (List.mem_append_left _
      (mem_unitCornerSites.mpr ⟨v, hv, rfl, rfl⟩)))
  · intro i face hface
    rw [← h.faceCenter_of_mem (List.mem_of_getElem? hface)]
    exact hposition (List.mem_append_left _ (List.mem_append_right _
      (mem_centerSites.mpr ⟨i, face, hface, rfl, rfl⟩)))
  · rintro i a b _ _ hab rfl rfl
    exact hposition (List.mem_append_right _
      ((mem_thirdSites h.simple).mpr ⟨i, a, b, hab, rfl, rfl⟩))

omit h in
theorem gyro_pentagons_pinched :
    pinchedTetrahedra.Closed ∧
      ∃ out, pinchedTetrahedra.gyro = .ok out ∧
        out.faces.checkClosed = .ok () ∧ out.vertexCount = 40 ∧
        out.edgeCount = 60 ∧ out.faceCount = 24 := by
  have hclosed := pinchedTetrahedra_closed
  obtain ⟨out, -, hout, hout', hvertices, hedges, hfaces, -⟩ :=
    hclosed.gyro_pentagons
  have hedgeCount : pinchedTetrahedra.edgeCount = 12 := by decide +kernel
  rw [hedgeCount] at hvertices hedges hfaces
  exact ⟨hclosed, out, hout, hout'.closed, hvertices, hedges, hfaces⟩

/-- Propellor makes a turned copy of every face, through the points on its
edges in order, and one quadrilateral for every corner `b` of every face,
through the two points on the edge from the corner `a` before, the corner,
and the nearer point on the edge to the corner `c` after it. -/
theorem propellor_quadrilaterals :
    ∃ (out : Mesh) (onVertex : VertexRole → ℕ), mesh.propellor = .ok out ∧
      out.Closed ∧ out.vertexCount = mesh.vertexCount + 2 * mesh.edgeCount ∧
      out.edgeCount = 5 * mesh.edgeCount ∧
      out.faceCount = mesh.faceCount + 2 * mesh.edgeCount ∧
      Set.BijOn onVertex (mesh.cornerRoles ∪ mesh.thirdRoles)
        {v | v < out.vertexCount} ∧
      out.Traces onVertex
        (mesh.turnedCopies ++ mesh.propellorQuadrilaterals) ∧
      (∀ v < mesh.vertexCount, out.vertices[onVertex (.corner v)]? =
        some (mesh.position v).directionOrOrigin) ∧
      ∀ i a b, mesh.faces.incidence i a b →
        out.vertices[onVertex (.third a b)]? =
          some ((mesh.position a).oneThird (mesh.position b)) := by
  have hpropellor := Incidence.propellor_closed h.incidence
  have hroles := h.propellorSites_eq
  have hregistered :
      ∀ role ∈ (Incidence.propellor mesh.faces.incidence).tails,
        role ∈ {role |
        role ∈ (mesh.unitCornerSites ++ mesh.thirdSites).map Prod.fst} := by
    intro role hrole
    rw [Incidence.tails_propellor h.incidence] at hrole
    rw [hroles]
    exact hrole.imp_left fun hcorner =>
      Set.image_mono (tails_subset h.inRange) hcorner
  obtain ⟨out, onFace, onVertex, hout, hrealizes⟩ :=
    h.inRange.exists_realizes hpropellor.toCyclic (fun _ _ _ =>
      Surface.mem_propellorFlags_iff h.simple) hregistered ("p" ++ mesh.name)
  have hbijOn := hrealizes.bijOn_vertex
  rw [hroles] at hbijOn
  have hsites : mesh.unitCornerSites ++ mesh.thirdSites ⊆
      mesh.unitCornerSites ++ mesh.centerSites ++ mesh.thirdSites := by
    intro site hsite
    simp only [List.mem_append] at hsite ⊢
    exact hsite.imp_left .inl
  have hposition :
      ∀ {role p}, (role, p) ∈ mesh.unitCornerSites ++ mesh.thirdSites →
        out.vertices[onVertex role]? = some p :=
    fun hsite => hrealizes.position_eq (fun role p q hp hq =>
      h.twistSites_unique role p q (hsites hp) (hsites hq)) hsite
  refine ⟨out, onVertex, hout, hrealizes.closed hpropellor, ?_, ?_, ?_,
    hbijOn, ?_, fun v hv => hposition ?_, fun i a b hab => hposition ?_⟩
  · rw [hrealizes.vertexCount, hroles, h.ncard_propellorRoles]
  · exact h.edgeCount_of_fills (Incidence.propellorFlag_fills h.incidence)
      hpropellor hrealizes
  · have hfaces : {i | i < mesh.faceCount}.ncard = mesh.faceCount :=
      Set.ncard_Iio_nat _
    have hrings := Incidence.propellor_copiesAndRings h.incidence
    rw [hrealizes.faceCount,
      hrings.ncard_faces h.incidence.toCyclic Surface.finite_flags,
      h.two_mul_edgeCount, h.faces_eq, hfaces]
  · have htraces := hrealizes.traces h.propellor_tours
    rw [List.map_append, List.map_map, List.map_map] at htraces
    have hcopies : mesh.turnedCopies = mesh.faces.indexed.map fun entry =>
        entry.1.edges.map fun (a, b) => .third a b := by
      rw [← Function.comp_def (fun face : Face => face.edges.map _),
        ← List.map_map, Surface.indexed, List.zipIdx_map_fst]
      rfl
    rw [hcopies]
    exact htraces
  · exact List.mem_append_left _ (mem_unitCornerSites.mpr ⟨v, hv, rfl, rfl⟩)
  · exact List.mem_append_right _
      ((mem_thirdSites h.simple).mpr ⟨i, a, b, hab, rfl, rfl⟩)

omit h in
theorem propellor_quadrilaterals_pinched :
    pinchedTetrahedra.Closed ∧
      ∃ out, pinchedTetrahedra.propellor = .ok out ∧
        out.faces.checkClosed = .ok () ∧ out.vertexCount = 32 ∧
        out.edgeCount = 60 ∧ out.faceCount = 32 := by
  have hclosed := pinchedTetrahedra_closed
  obtain ⟨out, -, hout, hout', hvertices, hedges, hfaces, -⟩ :=
    hclosed.propellor_quadrilaterals
  have hedgeCount : pinchedTetrahedra.edgeCount = 12 := by decide +kernel
  rw [hedgeCount] at hvertices hedges hfaces
  exact ⟨hclosed, out, hout, hout'.closed, hvertices, hedges, hfaces⟩

/-! ### Whirl -/

theorem ncard_whirlRoles :
    (mesh.cornerRoles ∪ (mesh.thirdRoles ∪ mesh.innerRoles)).ncard =
      mesh.vertexCount + 4 * mesh.edgeCount := by
  have hinner : mesh.innerRoles.Finite := Surface.finite_flags.image _
  have hcount : mesh.innerRoles.ncard = 2 * mesh.edgeCount := by
    rw [innerRoles, (h.incidence.injOn_corner _).ncard_image,
      h.two_mul_edgeCount]
    grind
  have hdisjoint : Disjoint mesh.thirdRoles mesh.innerRoles := by
    refine Set.disjoint_left.mpr ?_
    rintro _ ⟨dart, -, rfl⟩ ⟨flag, -, heq⟩
    cases heq
  rw [ncard_cornerRoles_union (finite_thirdRoles.union hinner),
    Set.ncard_union_eq hdisjoint finite_thirdRoles hinner,
    h.ncard_thirdRoles, hcount]
  · omega
  · rintro v (⟨dart, -, heq⟩ | ⟨flag, -, heq⟩) <;> cases heq

theorem whirlSites_eq :
    {role | role ∈ (mesh.unitCornerSites ++ mesh.thirdSites ++
        mesh.innerSites).map Prod.fst} =
      mesh.cornerRoles ∪ (mesh.thirdRoles ∪ mesh.innerRoles) := by
  ext role
  rw [Set.mem_ofPred_eq, List.map_append, List.map_append, List.mem_append,
    List.mem_append, mem_unitCornerSites_iff, mem_thirdSites_iff h.simple,
    mem_innerSites_iff h.simple, or_assoc]
  rfl

theorem whirlSites_unique (role : VertexRole) (p q : Point)
    (hp : (role, p) ∈
      mesh.unitCornerSites ++ mesh.thirdSites ++ mesh.innerSites)
    (hq : (role, q) ∈
      mesh.unitCornerSites ++ mesh.thirdSites ++ mesh.innerSites) :
    p = q := by
  have hhead : ∀ {face : Face} {a b c : ℕ}, face ∈ mesh.faces →
      (a, b) ∈ face.edges → (a, c) ∈ face.edges → b = c :=
    fun hface => Face.step_head_unique (h.simple _ hface)
  simp only [List.mem_append, mem_unitCornerSites, mem_thirdSites h.simple,
    mem_innerSites h.simple] at hp hq
  grind

theorem whirl_tours :
    (Incidence.whirl mesh.faces.incidence).Tours (mesh.faces.indexed.map
        (fun (face, i) => (.copy i, face.map (.inner i))) ++
      mesh.faces.cornerTriples.map fun (i, a, b, c) => (.ring i a, [.inner i
        a, .third a b, .third b a, .corner b, .third b c, .inner i b])) where
  toFollows := by
    apply Incidence.Follows.append
    · refine Surface.follows_faces FaceRole.copy.inj fun hface => ?_
      exact Surface.goesThrough_corners h.simple hface
        (h.face_ne_nil (List.mem_of_getElem? hface)) (fun _ _ heq =>
          (VertexRole.inner.inj heq).2) fun v w => Incidence.whirl_copy_iff
    · apply Surface.follows_corners h.simple
      · grind
      · intro i a b c hab hbc
        have hne := h.incidence.ne hab
        have hlong := h.incidence.long hab hbc
        exact ⟨by simp, by grind,
          fun v w => Incidence.whirl_ring_iff h.incidence.toCyclic hab hbc⟩
    · simp only [List.mem_map]
      rintro _ ⟨_, -, rfl⟩ _ ⟨_, -, rfl⟩ heq
      cases heq
  all := by
    intro f hf
    rw [Incidence.whirl_copiesAndRings.faces_eq] at hf
    rw [List.map_append, List.map_map, List.map_map, List.mem_append]
    rcases hf with ⟨i, hi, rfl⟩ | ⟨⟨i, a, b⟩, hab, rfl⟩
    · obtain ⟨face, hface⟩ := Surface.exists_indexed hi
      exact .inl (List.mem_map.mpr ⟨_, hface, rfl⟩)
    · obtain ⟨c, hcorner⟩ := Surface.exists_corner_from h.simple hab
      exact .inr (List.mem_map.mpr ⟨_, hcorner, rfl⟩)

/-- Whirl makes a smaller copy of every face, through the points inside it in
order, and one hexagon for every corner `b` of every face `i`, through the
point inside the face near the corner `a` before, the two points on the edge
from it, the corner, the nearer point on the edge to the corner `c` after it
and the point inside the face near the corner. -/
theorem whirl_hexagons :
    ∃ (out : Mesh) (onVertex : VertexRole → ℕ), mesh.whirl = .ok out ∧
      out.Closed ∧ out.vertexCount = mesh.vertexCount + 4 * mesh.edgeCount ∧
      out.edgeCount = 7 * mesh.edgeCount ∧
      out.faceCount = mesh.faceCount + 2 * mesh.edgeCount ∧
      Set.BijOn onVertex (mesh.cornerRoles ∪
        (mesh.thirdRoles ∪ mesh.innerRoles)) {v | v < out.vertexCount} ∧
      out.Traces onVertex (mesh.innerCopies ++ mesh.whirlHexagons) ∧
      (∀ v < mesh.vertexCount, out.vertices[onVertex (.corner v)]? =
        some (mesh.position v).directionOrOrigin) ∧
      (∀ i a b, mesh.faces.incidence i a b →
        out.vertices[onVertex (.third a b)]? =
          some ((mesh.position a).oneThird (mesh.position b))) ∧
      ∀ i face a b, mesh.faces[i]? = some face → (a, b) ∈ face.edges →
        out.vertices[onVertex (.inner i a)]? =
          some ((mesh.faceCenter face).oneThird
            (mesh.edgeThird a b)).directionOrOrigin := by
  have hwhirl := Incidence.whirl_closed h.incidence
  have hroles := h.whirlSites_eq
  have hregistered : ∀ role ∈ (Incidence.whirl mesh.faces.incidence).tails,
      role ∈ {role | role ∈ (mesh.unitCornerSites ++ mesh.thirdSites ++
        mesh.innerSites).map Prod.fst} := by
    intro role hrole
    rw [Incidence.tails_whirl h.incidence] at hrole
    rw [hroles]
    exact hrole.imp_left fun hcorner =>
      Set.image_mono (tails_subset h.inRange) hcorner
  obtain ⟨out, onFace, onVertex, hout, hrealizes⟩ :=
    h.inRange.exists_realizes hwhirl.toCyclic (fun _ _ _ =>
      Surface.mem_whirlFlags_iff h.simple) hregistered ("w" ++ mesh.name)
  have hbijOn := hrealizes.bijOn_vertex
  rw [hroles] at hbijOn
  have hposition : ∀ {role p}, (role, p) ∈
        mesh.unitCornerSites ++ mesh.thirdSites ++ mesh.innerSites →
      out.vertices[onVertex role]? = some p :=
    fun hsite => hrealizes.position_eq h.whirlSites_unique hsite
  refine ⟨out, onVertex, hout, hrealizes.closed hwhirl, ?_, ?_, ?_, hbijOn,
    ?_, fun v hv => hposition ?_, fun i a b hab => hposition ?_,
      fun i face a b hface hab => hposition ?_⟩
  · rw [hrealizes.vertexCount, hroles, h.ncard_whirlRoles]
  · exact h.edgeCount_of_fills (Incidence.whirlFlag_fills h.incidence) hwhirl
      hrealizes
  · rw [hrealizes.faceCount, Incidence.whirl_copiesAndRings.ncard_faces
      h.incidence.toCyclic Surface.finite_flags, h.two_mul_edgeCount,
      h.ncard_faces]
  · have htraces := hrealizes.traces h.whirl_tours
    rw [List.map_append, List.map_map, List.map_map] at htraces
    exact htraces
  · exact List.mem_append_left _ (List.mem_append_left _
      (mem_unitCornerSites.mpr ⟨v, hv, rfl, rfl⟩))
  · exact List.mem_append_left _ (List.mem_append_right _
      ((mem_thirdSites h.simple).mpr ⟨i, a, b, hab, rfl, rfl⟩))
  · exact List.mem_append_right _
      ((mem_innerSites h.simple).mpr ⟨i, face, a, b, hface, hab, rfl, rfl⟩)

omit h in
theorem whirl_hexagons_pinched :
    pinchedTetrahedra.Closed ∧
      ∃ out, pinchedTetrahedra.whirl = .ok out ∧
        out.faces.checkClosed = .ok () ∧ out.vertexCount = 56 ∧
        out.edgeCount = 84 ∧ out.faceCount = 32 := by
  have hclosed := pinchedTetrahedra_closed
  obtain ⟨out, -, hout, hout', hvertices, hedges, hfaces, -⟩ :=
    hclosed.whirl_hexagons
  rw [pinchedTetrahedra_edgeCount] at hvertices hedges hfaces
  exact ⟨hclosed, out, hout, hout'.closed, hvertices, hedges, hfaces⟩

end Closed
end Mesh
end Polyhedra
