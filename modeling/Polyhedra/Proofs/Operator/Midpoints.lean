import Mathlib
import Polyhedra.Proofs.Operator.Corners
import Polyhedra.Proofs.Operator.Perspectiva
import Polyhedra.Proofs.Operator.Quinto

/-!
# The faces of the constructions on edge midpoints

The first Perspectiva construction and quinto work on every closed mesh,
whatever its vertices look like.  Both keep a smaller copy of every face with
one corner on each of its sides.  Perspectiva keeps unused vertices and
quinto drops them.
-/

namespace Polyhedra
namespace Mesh

/-! ### Perspectiva -/

/-- The points next to the edges, one on either side, as roles. -/
def stellatedRoles (mesh : Mesh) : Set VertexRole :=
  (fun dart => VertexRole.stellated dart.1 dart.2) ''
    mesh.faces.incidence.darts

/-- The smaller copies of the faces in Perspectiva, through the points next
to their edges. -/
def stellatedCopies (mesh : Mesh) : List (List VertexRole) :=
  mesh.faces.map fun face => face.edges.map fun (a, b) => .stellated a b

/-- The triangles of Perspectiva at the corners, one for every corner `b` of
every face. -/
def cornerTriangles (mesh : Mesh) : List (List VertexRole) :=
  mesh.faces.cornerTriples.map fun (_, a, b, c) =>
    [.stellated b c, .stellated a b, .corner b]

/-- The triangles of Perspectiva on the edges, one for every directed
edge. -/
def edgeTriangles (mesh : Mesh) : List (List VertexRole) :=
  mesh.faces.ownedEdges.map fun ((a, b), _) =>
    [.corner a, .stellated b a, .stellated a b]

namespace Closed

variable {mesh : Mesh} (h : mesh.Closed)
include h

theorem ncard_perspectivaRoles :
    (mesh.cornerRoles ∪ mesh.stellatedRoles).ncard =
      mesh.vertexCount + 2 * mesh.edgeCount := by
  have hfinite : mesh.stellatedRoles.Finite :=
    (Incidence.finite_darts Surface.finite_flags).image _
  rw [ncard_cornerRoles_union hfinite, stellatedRoles,
    h.ncard_dartRoles VertexRole.stellated.inj]
  rintro v ⟨dart, -, heq⟩
  cases heq

theorem perspectivaSites_eq :
    {role | role ∈ (mesh.cornerSites ++ mesh.stellatedSites).map Prod.fst} =
      mesh.cornerRoles ∪ mesh.stellatedRoles := by
  ext role
  rw [Set.mem_ofPred_eq, List.map_append, List.mem_append,
    mem_cornerSites_iff, mem_stellatedSites_iff h.simple]
  rfl

theorem perspectivaSites_unique (role : VertexRole) (p q : Point)
    (hp : (role, p) ∈ mesh.cornerSites ++ mesh.stellatedSites)
    (hq : (role, q) ∈ mesh.cornerSites ++ mesh.stellatedSites) : p = q := by
  -- the face next to a directed edge
  have howner :
      ∀ {i j : ℕ} {face other : Face} {a b : ℕ}, mesh.faces[i]? = some face →
        mesh.faces[j]? = some other → (a, b) ∈ face.edges →
        (a, b) ∈ other.edges → face = other := by
    intro i j face other a b hi hj hab hab'
    obtain rfl := h.incidence.owner_unique ⟨face, hi, hab⟩ ⟨other, hj, hab'⟩
    exact Option.some.inj (hi.symm.trans hj)
  simp only [List.mem_append, mem_cornerSites, mem_stellatedSites h.simple]
    at hp hq
  grind

theorem perspectiva_tours :
    (Incidence.perspectiva mesh.faces.incidence).Tours
      (mesh.faces.indexed.map (fun (face, i) =>
        (.copy i, face.edges.map fun (a, b) => .stellated a b)) ++
        (mesh.faces.cornerTriples.map (fun (i, a, b, c) =>
          (.corner i b, [.stellated b c, .stellated a b, .corner b])) ++
          mesh.faces.ownedEdges.map fun ((a, b), _) =>
            (.edge a b, [.corner a, .stellated b a, .stellated a b]))) where
  toFollows := by
    apply Incidence.Follows.append
    · refine Surface.follows_faces FaceRole.copy.inj fun hface => ?_
      exact Surface.goesThrough_edges h.simple hface
        (h.face_ne_nil (List.mem_of_getElem? hface)) (fun _ _ =>
          VertexRole.stellated.inj) fun v w => Incidence.perspectiva_copy_iff
    · apply Incidence.Follows.append
      · apply Surface.follows_corners h.simple
        · grind
        · intro i a b c hab hbc
          have hne := h.incidence.ne hab
          exact ⟨by simp, by grind, fun v w =>
            Incidence.perspectiva_corner_iff h.incidence.toCyclic hab hbc⟩
      · apply Surface.follows_edges h.simple h.incidence.owner_unique
        · exact FaceRole.edge.inj
        · intro i a b hab
          have hne := h.incidence.ne hab
          exact ⟨by simp, by grind,
            fun v w => Incidence.perspectiva_edge_iff hab⟩
      · simp only [List.mem_map]
        rintro _ ⟨_, -, rfl⟩ _ ⟨_, -, rfl⟩ heq
        cases heq
    · simp only [List.mem_append, List.mem_map]
      rintro _ ⟨_, -, rfl⟩ _ (⟨_, -, rfl⟩ | ⟨_, -, rfl⟩) heq <;> cases heq
  all := by
    intro f hf
    rw [Incidence.faces_perspectiva h.incidence] at hf
    rw [List.map_append, List.map_append, List.map_map, List.map_map,
      List.map_map, List.mem_append, List.mem_append]
    rcases hf with ⟨i, hi, rfl⟩ | ⟨⟨i, b, c⟩, hbc, rfl⟩ |
      ⟨⟨a, b⟩, ⟨i, hab⟩, rfl⟩
    · obtain ⟨face, hface⟩ := Surface.exists_indexed hi
      exact .inl (List.mem_map.mpr ⟨_, hface, rfl⟩)
    · obtain ⟨a, hcorner⟩ := Surface.exists_corner_to h.simple hbc
      exact .inr (.inl (List.mem_map.mpr ⟨_, hcorner, rfl⟩))
    · exact .inr (.inr (List.mem_map.mpr
        ⟨((a, b), i), Surface.mem_ownedEdges_iff.mpr hab, rfl⟩))

/-- The first Perspectiva construction makes a smaller copy of every face,
through the points next to its edges in order, one triangle for every corner
`b` of every face, between the points next to the two edges there, and one
triangle for every directed edge, from its tail to the points on either side
of it. -/
theorem perspectiva_triangles :
    ∃ (out : Mesh) (onVertex : VertexRole → ℕ), mesh.perspectiva = .ok out ∧
      out.Closed ∧ out.vertexCount = mesh.vertexCount + 2 * mesh.edgeCount ∧
      out.edgeCount = 7 * mesh.edgeCount ∧
      out.faceCount = mesh.faceCount + 4 * mesh.edgeCount ∧
      Set.BijOn onVertex (mesh.cornerRoles ∪ mesh.stellatedRoles)
        {v | v < out.vertexCount} ∧
      out.Traces onVertex (mesh.stellatedCopies ++
        (mesh.cornerTriangles ++ mesh.edgeTriangles)) ∧
      (∀ v < mesh.vertexCount,
        out.vertices[onVertex (.corner v)]? = some (mesh.position v)) ∧
      ∀ (i : ℕ) face a b, mesh.faces[i]? = some face → (a, b) ∈ face.edges →
        out.vertices[onVertex (.stellated a b)]? = some
          ((mesh.edgeMidpoint a b).midpoint (mesh.faceCenter face)) := by
  have hperspectiva := Incidence.perspectiva_closed h.incidence
  have hroles := h.perspectivaSites_eq
  have hregistered :
      ∀ role ∈ (Incidence.perspectiva mesh.faces.incidence).tails,
        role ∈ {role |
        role ∈ (mesh.cornerSites ++ mesh.stellatedSites).map Prod.fst} := by
    intro role hrole
    rw [Incidence.tails_perspectiva h.incidence] at hrole
    rw [hroles]
    exact hrole.imp_left fun hcorner =>
      Set.image_mono (tails_subset h.inRange) hcorner
  obtain ⟨out, onFace, onVertex, hout, hrealizes⟩ :=
    h.inRange.exists_realizes hperspectiva.toCyclic
      (fun _ _ _ => Surface.mem_perspectivaFlags_iff h.simple) hregistered
      ("P" ++ mesh.name)
  have hbijOn := hrealizes.bijOn_vertex
  rw [hroles] at hbijOn
  have hposition :
      ∀ {role p}, (role, p) ∈ mesh.cornerSites ++ mesh.stellatedSites →
        out.vertices[onVertex role]? = some p :=
    fun hsite => hrealizes.position_eq h.perspectivaSites_unique hsite
  refine ⟨out, onVertex, hout, hrealizes.closed hperspectiva, ?_, ?_, ?_,
    hbijOn, ?_,
    fun v hv => hposition ?_, fun i face a b hface hab => hposition ?_⟩
  · rw [hrealizes.vertexCount, hroles, h.ncard_perspectivaRoles]
  · exact h.edgeCount_of_fills (Incidence.perspectivaFlag_fills h.incidence)
      hperspectiva hrealizes
  · rw [hrealizes.faceCount,
      Incidence.ncard_faces_perspectiva h.incidence Surface.finite_flags,
      h.incidence.ncard_darts, ← h.two_mul_edgeCount, h.ncard_faces]
    omega
  · have htraces := hrealizes.traces h.perspectiva_tours
    rw [List.map_append, List.map_append, List.map_map, List.map_map,
      List.map_map] at htraces
    rw [stellatedCopies, ← Surface.map_indexed]
    exact htraces
  · exact List.mem_append_left _ (mem_cornerSites.mpr ⟨v, hv, rfl, rfl⟩)
  · exact List.mem_append_right _ ((mem_stellatedSites h.simple).mpr
      ⟨i, face, a, b, hface, hab, rfl, rfl⟩)

omit h in
theorem perspectiva_triangles_pinched :
    pinchedTetrahedra.Closed ∧
      ∃ out, pinchedTetrahedra.perspectiva = .ok out ∧
        out.faces.checkClosed = .ok () ∧ out.vertexCount = 32 ∧
        out.edgeCount = 84 ∧ out.faceCount = 56 := by
  have hclosed := pinchedTetrahedra_closed
  obtain ⟨out, -, hout, hout', hvertices, hedges, hfaces, -⟩ :=
    hclosed.perspectiva_triangles
  rw [pinchedTetrahedra_edgeCount] at hvertices hedges hfaces
  exact ⟨hclosed, out, hout, hout'.closed, hvertices, hedges, hfaces⟩

end Closed

/-! ### Quinto -/

/-- The midpoints of the edges as roles. -/
def edgeRoles (mesh : Mesh) : Set IndexRole :=
  IndexRole.edge '' mesh.faces.incidence.sides

/-- The points of the faces next to their sides as roles. -/
def sideRoles (mesh : Mesh) : Set IndexRole :=
  (fun flag => IndexRole.side flag.1 s(flag.2.1, flag.2.2)) ''
    mesh.faces.incidence.flags

/-- The smaller copies of the faces in quinto, through the points next to
their sides. -/
def sideCopies (mesh : Mesh) : List (List IndexRole) :=
  mesh.faces.indexed.map fun (face, i) => face.edges.map fun (a, b) =>
    .side i s(a, b)

/-- The pentagons of quinto, one for every corner `b` of every face `i`. -/
def quintoPentagons (mesh : Mesh) : List (List IndexRole) :=
  mesh.faces.cornerTriples.map fun (i, a, b, c) =>
    [.side i s(a, b), .edge s(a, b), .single b, .edge s(b, c),
      .side i s(b, c)]

namespace Closed

variable {mesh : Mesh} (h : mesh.Closed)
include h

theorem quinto_tours :
    (Incidence.quinto mesh.faces.incidence).Tours
      (mesh.faces.indexed.map (fun (face, i) =>
        (.single i, face.edges.map fun (a, b) => .side i s(a, b))) ++
        mesh.faces.cornerTriples.map fun (i, a, b, c) => (.pair i b,
          [.side i s(a, b), .edge s(a, b), .single b, .edge s(b, c),
            .side i s(b, c)])) where
  toFollows := by
    have hlong := @h.incidence.long
    apply Incidence.Follows.append
    · refine Surface.follows_faces IndexRole.single.inj fun hface => ?_
      apply Surface.goesThrough_edges h.simple hface
        (h.face_ne_nil (List.mem_of_getElem? hface))
      · intro a b x y hab hxy heq
        -- a face does not follow an edge in both directions
        have hsame := Sym2.eq_iff.mp (IndexRole.side.inj heq).2
        grind
      · exact fun v w => Incidence.quinto_copy_iff
    · apply Surface.follows_corners h.simple
      · grind
      · intro i a b c hab hbc
        have hne := h.incidence.ne hab
        exact ⟨by simp, by grind [Sym2.eq_iff],
          fun v w => Incidence.quinto_pair_iff h.incidence.toCyclic hab hbc⟩
    · simp only [List.mem_map]
      rintro _ ⟨_, -, rfl⟩ _ ⟨_, -, rfl⟩ heq
      cases heq
  all := by
    intro f hf
    rw [(Incidence.quinto_copiesAndRings h.incidence).faces_eq] at hf
    rw [List.map_append, List.map_map, List.map_map, List.mem_append]
    rcases hf with ⟨i, hi, rfl⟩ | ⟨⟨i, b, c⟩, hbc, rfl⟩
    · obtain ⟨face, hface⟩ := Surface.exists_indexed hi
      exact .inl (List.mem_map.mpr ⟨_, hface, rfl⟩)
    · obtain ⟨a, hcorner⟩ := Surface.exists_corner_to h.simple hbc
      exact .inr (List.mem_map.mpr ⟨_, hcorner, rfl⟩)

/-- Quinto makes a smaller copy of every face, through the points next to its
sides in order, and one pentagon for every corner `b` of every face `i`,
through the point next to the side from the corner `a` before, the midpoint
of that side, the corner, the midpoint of the side to the corner `c` after it
and the point next to that side.  The midpoint of an edge is computed from
either end. -/
theorem quinto_pentagons (hfits : mesh.IndicesFit) :
    ∃ (out : Mesh) (onVertex : IndexRole → ℕ), mesh.quinto = .ok out ∧
      out.Closed ∧
      out.vertexCount = mesh.faces.usedVertices.card + 3 * mesh.edgeCount ∧
      out.edgeCount = 6 * mesh.edgeCount ∧
      out.faceCount = mesh.faceCount + 2 * mesh.edgeCount ∧
      Set.BijOn onVertex (mesh.usedRoles ∪ (mesh.edgeRoles ∪ mesh.sideRoles))
        {v | v < out.vertexCount} ∧
      out.Traces onVertex (mesh.sideCopies ++ mesh.quintoPentagons) ∧
      (∀ v ∈ mesh.faces.usedVertices,
        out.vertices[onVertex (.single v)]? = some (mesh.position v)) ∧
      (∀ i a b, mesh.faces.incidence i a b →
        out.vertices[onVertex (.edge s(a, b))]? =
          some (mesh.edgeMidpoint a b) ∨
        out.vertices[onVertex (.edge s(a, b))]? =
          some (mesh.edgeMidpoint b a)) ∧
      ∀ i face a b, mesh.faces[i]? = some face → (a, b) ∈ face.edges →
        out.vertices[onVertex (.side i s(a, b))]? = some
          ((mesh.edgeMidpoint a b).midpoint (mesh.faceCenter face)) := by
  have hquinto := Incidence.quinto_closed h.incidence
  have hroles := pentagonSites_eq h.simple h.incidence
  obtain ⟨out, onFace, onVertex, hout, hrealizes, -⟩ :=
    h.inRange.exists_ranked hquinto.toCyclic (injOn_key_quinto_faces hfits
        h.incidence) (injOn_key_quinto_tails hfits) hroles
      (fun _ _ _ => Surface.mem_quintoFlags_iff h.simple) ("q" ++ mesh.name)
  rw [← quintoSites_eq] at hout
  have hbijOn := hrealizes.bijOn_vertex
  rw [hroles, Incidence.tails_quinto, ← Surface.coe_usedVertices] at hbijOn
  refine ⟨out, onVertex, hout, hrealizes.closed hquinto, ?_, ?_, ?_, hbijOn,
    ?_, ?_, ?_, ?_⟩
  · rw [hrealizes.vertexCount, hroles,
      Incidence.ncard_tails_quinto h.incidence Surface.finite_flags,
      ncard_tails, ← h.two_mul_edgeCount, ← Surface.edgeCount_eq_ncard_sides]
    unfold edgeCount
    omega
  · exact h.edgeCount_of_fills (Incidence.quintoFlag_fills h.incidence)
      hquinto hrealizes
  · have hrings := Incidence.quinto_copiesAndRings h.incidence
    rw [hrealizes.faceCount,
      hrings.ncard_faces h.incidence.toCyclic Surface.finite_flags,
      h.two_mul_edgeCount, h.ncard_faces]
  · have htraces := hrealizes.traces h.quinto_tours
    rw [List.map_append, List.map_map, List.map_map] at htraces
    exact htraces
  · intro v hv
    obtain ⟨i, c, hvc⟩ : v ∈ mesh.faces.incidence.tails :=
      Surface.coe_usedVertices ▸ hv
    obtain ⟨a, face, hface, hav⟩ := h.incidence.prev hvc
    apply hrealizes.position_of_unique ((mem_pentagonSites h.simple).mpr
      ⟨i, face, a, v, hface, hav, .inr (.inr ⟨rfl, rfl⟩)⟩)
    intro q hq
    obtain ⟨j, other, x, y, -, -, hsite⟩ :=
      (mem_pentagonSites h.simple).mp hq
    grind
  · intro i a b hab
    obtain ⟨face, hface, hedge⟩ := hab
    obtain ⟨q, hq, hposition⟩ :=
      hrealizes.position (.edge s(a, b))
        (List.mem_map_of_mem ((mem_pentagonSites h.simple).mpr
          ⟨i, face, a, b, hface, hedge, .inl ⟨rfl, rfl⟩⟩))
    -- the site may have come from either face of the edge
    obtain ⟨j, other, x, y, -, -, hsite⟩ :=
      (mem_pentagonSites h.simple).mp hq
    have hsame : mesh.edgeMidpoint a b = q ∨ mesh.edgeMidpoint b a = q := by
      grind [Sym2.eq_iff]
    rcases hsame with rfl | rfl
    exacts [.inl hposition, .inr hposition]
  · intro i face a b hface hab
    apply hrealizes.position_of_unique ((mem_pentagonSites h.simple).mpr
      ⟨i, face, a, b, hface, hab, .inr (.inl ⟨rfl, rfl⟩)⟩)
    intro q hq
    obtain ⟨j, other, x, y, hother, hxy, hsite⟩ :=
      (mem_pentagonSites h.simple).mp hq
    obtain ⟨rfl, heq, rfl⟩ : i = j ∧ s(a, b) = s(x, y) ∧
        (mesh.edgeMidpoint x y).midpoint (mesh.faceCenter other) = q := by
      grind
    obtain rfl := Option.some.inj (hface.symm.trans hother)
    rcases Sym2.eq_iff.mp heq with ⟨rfl, rfl⟩ | ⟨rfl, rfl⟩
    · rfl
    · exact absurd rfl
        (h.incidence.long ⟨face, hface, hab⟩ ⟨face, hface, hxy⟩)

omit h in
theorem quinto_pentagons_pinched :
    pinchedTetrahedra.Closed ∧ pinchedTetrahedra.IndicesFit ∧
      ∃ out, pinchedTetrahedra.quinto = .ok out ∧
        out.faces.checkClosed = .ok () ∧ out.vertexCount = 43 ∧
        out.edgeCount = 72 ∧ out.faceCount = 32 := by
  have hclosed := pinchedTetrahedra_closed
  have hfits := pinchedTetrahedra_indicesFit
  obtain ⟨out, -, hout, hout', hvertices, hedges, hfaces, -⟩ :=
    hclosed.quinto_pentagons hfits
  have hused : pinchedTetrahedra.faces.usedVertices.card = 7 := by decide
  rw [pinchedTetrahedra_edgeCount] at hvertices hedges hfaces
  rw [hused] at hvertices
  exact ⟨hclosed, hfits, out, hout, hout'.closed, hvertices, hedges, hfaces⟩

end Closed
end Mesh
end Polyhedra
