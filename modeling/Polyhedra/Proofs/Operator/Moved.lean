import Mathlib
import Polyhedra.Proofs.Operator.Corners
import Polyhedra.Proofs.Operator.Inset
import Polyhedra.Proofs.Operator.Truncation

/-!
# The faces of inset, extrude and loft

Faces that the filter leaves out go through the same vertices as before,
whatever the order in which the vertices are numbered anew.  A selected face
goes through its own new corners, and on each of its directed edges stands a
quadrilateral between the old corners and the new ones.
-/

namespace Polyhedra

namespace Surface

variable {surface : Surface}

theorem map_fst_selected (surface : Surface) (sides : ℕ) :
    (surface.indexed.filter fun (face, _) =>
        Face.passes sides face.length).map Prod.fst =
      surface.selected sides := by
  rw [selected, ← List.map_id (List.filter _ surface), ← map_filter_indexed]
  rfl

theorem map_getD_selectedIndices (surface : Surface) (sides : ℕ) :
    (surface.selectedIndices sides).map (fun i => surface.getD i []) =
      surface.selected sides := by
  rw [← map_fst_selected, selectedIndices, List.map_map]
  refine List.map_congr_left fun entry hentry => ?_
  have hface := mem_indexed_iff.mp (List.mem_of_mem_filter hentry)
  rw [Function.comp_apply, List.getD_eq_getElem?_getD, hface]
  rfl

/-- The selected faces have as many corners as their side counts say. -/
theorem ncard_selected_flags
    (hsimple : ∀ face ∈ surface, face.Nodup)
    (sides : ℕ) :
    {flag ∈ surface.incidence.flags | surface.Selects sides flag.1}.ncard =
      ((surface.selected sides).map List.length).sum := by
  have hnodup : (surface.selectedIndices sides).Nodup :=
    (surface.selectedIndices_ascending sides).imp Nat.ne_of_lt
  have hcount := ncard_flags_of_faces hsimple hnodup
  simp only [mem_selectedIndices_iff] at hcount
  rw [hcount, ← map_getD_selectedIndices, List.map_map]
  rfl

end Surface

namespace Mesh

/-- The new corners of the selected faces as roles. -/
def insetRoles (mesh : Mesh) (sides : ℕ) : Set VertexRole :=
  (fun flag => VertexRole.inset flag.1 flag.2.1) ''
    {flag ∈ mesh.faces.incidence.flags | mesh.faces.Selects sides flag.1}

/-- The faces that the filter leaves out, through the corners they have. -/
def keptFaces (mesh : Mesh) (sides : ℕ) : List (List VertexRole) :=
  (mesh.faces.filter fun face => !Face.passes sides face.length).map
    fun face => face.map .corner

/-- The selected faces, through their new corners. -/
def raisedFaces (mesh : Mesh) (sides : ℕ) : List (List VertexRole) :=
  (mesh.faces.indexed.filter fun (face, _) =>
    Face.passes sides face.length).map fun (face, i) => face.map (.inset i)

/-- One quadrilateral for every directed edge of a selected face. -/
def insetRing (mesh : Mesh) (sides : ℕ) : List (List VertexRole) :=
  (mesh.faces.ownedEdges.filter fun (_, i) => i ∈
    mesh.faces.selectedIndices sides).map fun ((a, b), i) =>
    [.corner a, .corner b, .inset i b, .inset i a]

/-- The result of moving the selected faces of a mesh.  The roles of its
vertices are numbered in some order; the old vertices stay where they are and
a new corner goes `fraction` of the way to the centre of its face and then
`offset` along the normal. -/
structure MovesTo (mesh : Mesh) (sides : ℕ) (fraction offset : Float)
    (out : Mesh) (onVertex : VertexRole → ℕ) : Prop where
  closed : out.Closed
  vertexCount : out.vertexCount =
    mesh.vertexCount + ((mesh.faces.selected sides).map List.length).sum
  edgeCount : out.edgeCount =
    mesh.edgeCount + 2 * ((mesh.faces.selected sides).map List.length).sum
  faceCount : out.faceCount =
    mesh.faceCount + ((mesh.faces.selected sides).map List.length).sum
  bijOn : Set.BijOn onVertex (mesh.cornerRoles ∪ mesh.insetRoles sides)
    {v | v < out.vertexCount}
  traces : out.Traces onVertex (mesh.keptFaces sides ++
    (mesh.raisedFaces sides ++ mesh.insetRing sides))
  corner : ∀ v < mesh.vertexCount,
    out.vertices[onVertex (.corner v)]? = some (mesh.position v)
  inset : ∀ (i : ℕ) face v, mesh.faces[i]? = some face →
    Face.passes sides face.length = true → v ∈ face →
      out.vertices[onVertex (.inset i v)]? =
        some ((mesh.position v).tween (mesh.faceCenter face) fraction +
          mesh.faceNormal face * offset)

variable {mesh : Mesh}

theorem mem_insetSites {sides : ℕ} {fraction offset : Float}
    {role : VertexRole} {p : Point} :
    (role, p) ∈ mesh.insetSites sides fraction offset ↔
      ∃ (i : ℕ) (face : Face) (v : ℕ), mesh.faces[i]? = some face ∧
        Face.passes sides face.length = true ∧ v ∈ face ∧ .inset i v = role ∧
        (mesh.position v).tween (mesh.faceCenter face) fraction +
        mesh.faceNormal face * offset = p := by
  simp only [insetSites, List.mem_flatMap, Prod.exists,
    Surface.mem_indexed_iff]
  constructor
  · rintro ⟨face, i, hface, hsite⟩
    by_cases hi : Face.passes sides face.length = true
    · rw [if_pos hi, List.mem_map] at hsite
      obtain ⟨v, hv, heq⟩ := hsite
      obtain ⟨rfl, rfl⟩ := Prod.mk.inj heq
      exact ⟨i, face, v, hface, hi, hv, rfl, rfl⟩
    · rw [if_neg hi] at hsite
      cases hsite
  · rintro ⟨i, face, v, hface, hi, hv, rfl, rfl⟩
    refine ⟨face, i, hface, ?_⟩
    rw [if_pos hi]
    exact List.mem_map_of_mem hv

theorem insetSites_unique {sides : ℕ} {fraction offset : Float}
    (role : VertexRole) (p q : Point)
    (hp : (role, p) ∈
      mesh.cornerSites ++ mesh.insetSites sides fraction offset)
    (hq : (role, q) ∈
      mesh.cornerSites ++ mesh.insetSites sides fraction offset) :
    p = q := by
  simp only [List.mem_append, mem_cornerSites, mem_insetSites] at hp hq
  grind

theorem insetSites_eq (mesh : Mesh) (sides : ℕ) (fraction offset : Float) :
    {role |
      role ∈ (mesh.cornerSites ++ mesh.insetSites sides fraction offset).map
      Prod.fst} = mesh.cornerRoles ∪ mesh.insetRoles sides := by
  ext role
  rw [Set.mem_ofPred_eq, List.map_append, List.mem_append,
    mem_cornerSites_iff, mem_insetSites_iff]
  rfl

namespace Closed

variable (h : mesh.Closed)
include h

theorem ncard_insetRoles (sides : ℕ) :
    (mesh.cornerRoles ∪ mesh.insetRoles sides).ncard =
      mesh.vertexCount +
      ((mesh.faces.selected sides).map List.length).sum := by
  have hfinite : {flag ∈ mesh.faces.incidence.flags |
      mesh.faces.Selects sides flag.1}.Finite :=
    Surface.finite_flags.subset fun _ hflag => hflag.1
  rw [insetRoles, ncard_cornerRoles_union (hfinite.image _),
    (h.incidence.injOn_selected fun _ _ _ _ =>
      VertexRole.inset.inj).ncard_image,
    Surface.ncard_selected_flags h.simple]
  rintro v ⟨flag, -, heq⟩
  cases heq

theorem inset_tours (sides : ℕ) :
    (Incidence.inset mesh.faces.incidence (mesh.faces.Selects sides)).Tours
      ((mesh.faces.indexed.filter
          fun (face, _) => !Face.passes sides face.length).map
          (fun (face, i) => (.kept i, face.map .corner)) ++
        ((mesh.faces.indexed.filter
            fun (face, _) => Face.passes sides face.length).map
            (fun (face, i) => (.raised i, face.map (.inset i))) ++
          (mesh.faces.ownedEdges.filter
            fun (_, i) => i ∈ mesh.faces.selectedIndices sides).map
            fun ((a, b), i) => (.ring i a,
              [.corner a, .corner b, .inset i b, .inset i a]))) where
  toFollows := by
    apply Incidence.Follows.append
    · apply Surface.follows_faces_filter FaceRole.kept.inj
      intro i face hface hi
      have hi : ¬ mesh.faces.Selects sides i := by
        rw [Surface.selects_iff hface]
        simpa using hi
      exact Surface.goesThrough_corners h.simple hface
        (h.face_ne_nil (List.mem_of_getElem? hface)) (fun _ _ =>
          VertexRole.corner.inj) fun v w => Incidence.inset_kept_iff hi
    · apply Incidence.Follows.append
      · apply Surface.follows_faces_filter FaceRole.raised.inj
        intro i face hface hi
        exact Surface.goesThrough_corners h.simple hface
          (h.face_ne_nil (List.mem_of_getElem? hface))
          (fun _ _ heq => (VertexRole.inset.inj heq).2) fun v w =>
            Incidence.inset_raised_iff ((Surface.selects_iff hface).mpr hi)
      · apply Surface.follows_edges_filter h.simple
        · intro a b i x y j hab hxy heq
          obtain ⟨rfl, rfl⟩ := FaceRole.ring.inj heq
          exact ⟨rfl, rfl, h.incidence.head_unique hab hxy⟩
        · intro i a b hab hi
          have hi : mesh.faces.Selects sides i :=
            Surface.mem_selectedIndices_iff.mp (of_decide_eq_true hi)
          have hne := h.incidence.ne hab
          exact ⟨by simp, by grind,
            fun v w => Incidence.inset_ring_iff h.incidence.toCyclic hi hab⟩
      · simp only [List.mem_map]
        rintro _ ⟨_, -, rfl⟩ _ ⟨_, -, rfl⟩ heq
        cases heq
    · simp only [List.mem_append, List.mem_map]
      rintro _ ⟨_, -, rfl⟩ _ (⟨_, -, rfl⟩ | ⟨_, -, rfl⟩) heq <;> cases heq
  all := by
    intro f hf
    rw [Incidence.faces_inset] at hf
    rw [List.map_append, List.map_append, List.map_map, List.map_map,
      List.map_map, List.mem_append, List.mem_append]
    rcases hf with ⟨⟨i, a, b⟩, ⟨hab, hi⟩, rfl⟩ | ⟨i, ⟨hi, hselects⟩, rfl⟩ |
      ⟨i, ⟨hi, hselects⟩, rfl⟩
    · refine .inr (.inr
        (List.mem_map.mpr ⟨((a, b), i), List.mem_filter.mpr ⟨?_, ?_⟩, rfl⟩))
      · exact Surface.mem_ownedEdges_iff.mpr hab
      · exact decide_eq_true (Surface.mem_selectedIndices_iff.mpr hi)
    · obtain ⟨face, hface⟩ := Surface.exists_indexed hi
      rw [Surface.selects_iff (Surface.mem_indexed_iff.mp hface)] at hselects
      exact .inr (.inl
        (List.mem_map.mpr ⟨_, List.mem_filter.mpr ⟨hface, hselects⟩, rfl⟩))
    · obtain ⟨face, hface⟩ := Surface.exists_indexed hi
      rw [Surface.selects_iff (Surface.mem_indexed_iff.mp hface)] at hselects
      exact .inl (List.mem_map.mpr
        ⟨_, List.mem_filter.mpr ⟨hface, by simpa using hselects⟩, rfl⟩)

/-- Moving the selected faces succeeds on every closed mesh. -/
theorem exists_movesTo (sides : ℕ) (fraction offset : Float)
    (name : String) :
    ∃ out onVertex, mesh.moveFaces sides fraction offset name = .ok out ∧
      mesh.MovesTo sides fraction offset out onVertex := by
  have hinset : (Incidence.inset mesh.faces.incidence
      (mesh.faces.Selects sides)).Closed :=
    Incidence.inset_closed h.incidence
  have hroles := mesh.insetSites_eq sides fraction offset
  have hregistered : ∀ role ∈ (Incidence.inset mesh.faces.incidence
      (mesh.faces.Selects sides)).tails, role ∈
        {role | role ∈ (mesh.cornerSites ++
          mesh.insetSites sides fraction offset).map Prod.fst} := by
    intro role hrole
    rw [Incidence.tails_inset h.incidence] at hrole
    rw [hroles]
    exact hrole.imp_left fun hcorner =>
      Set.image_mono (tails_subset h.inRange) hcorner
  obtain ⟨out, onFace, onVertex, hout, hrealizes⟩ :=
    h.inRange.exists_realizes hinset.toCyclic
      (fun _ _ _ => Surface.mem_insetFlags_iff h.simple) hregistered name
  have hbijOn := hrealizes.bijOn_vertex
  rw [hroles] at hbijOn
  have hposition : ∀ {role p},
      (role, p) ∈ mesh.cornerSites ++ mesh.insetSites sides fraction offset →
        out.vertices[onVertex role]? = some p :=
    fun hsite => hrealizes.position_eq insetSites_unique hsite
  refine ⟨out, onVertex, hout, hrealizes.closed hinset, ?_, ?_, ?_, hbijOn,
    ?_, fun v hv => hposition ?_, fun i face v hface hi hv => hposition ?_⟩
  · rw [hrealizes.vertexCount, hroles, h.ncard_insetRoles]
  · have hedges := hrealizes.two_mul_edgeCount hinset
    rw [Incidence.ncard_flags_inset h.incidence Surface.finite_flags,
      Surface.ncard_selected_flags h.simple, ← h.two_mul_edgeCount] at hedges
    omega
  · rw [hrealizes.faceCount,
      Incidence.ncard_faces_inset h.incidence Surface.finite_flags,
      Surface.ncard_selected_flags h.simple, h.ncard_faces, Nat.add_comm]
  · have htraces := hrealizes.traces (h.inset_tours sides)
    rw [List.map_append, List.map_append, List.map_map, List.map_map,
      List.map_map] at htraces
    rw [keptFaces, ← Surface.map_filter_indexed]
    exact htraces
  · exact List.mem_append_left _ (mem_cornerSites.mpr ⟨v, hv, rfl, rfl⟩)
  · exact List.mem_append_right _
      (mem_insetSites.mpr ⟨i, face, v, hface, hi, hv, rfl, rfl⟩)

/-- Inset, extrude and loft keep every face that the filter leaves out, and
give every selected face new corners and a ring of quadrilaterals.  Each side
of a selected face adds one vertex, two edges and one face. -/
theorem moved_faces (sides : ℕ) (fraction offset : Float) :
    (∃ out onVertex, mesh.inset sides fraction offset = .ok out ∧
      mesh.MovesTo sides fraction offset out onVertex) ∧
    (∃ out onVertex, mesh.extrude sides = .ok out ∧
      mesh.MovesTo sides 0 extrudeOffset out onVertex) ∧
    ∃ out onVertex, mesh.loft sides fraction = .ok out ∧
      mesh.MovesTo sides fraction 0 out onVertex :=
  ⟨h.exists_movesTo sides fraction offset _,
    h.exists_movesTo sides 0 extrudeOffset _,
    h.exists_movesTo sides fraction 0 _⟩

omit h in
/-- The filter 3 extrudes the four sides of a square pyramid and keeps its
base; the filter 5 keeps all faces. -/
theorem moved_faces_pyramid :
    squarePyramid.Closed ∧
      (∃ out, squarePyramid.extrude 3 = .ok out ∧
        out.faces.checkClosed = .ok () ∧ out.vertexCount = 17 ∧
        out.edgeCount = 32 ∧ out.faceCount = 17) ∧
      ∃ out, squarePyramid.inset 5 0.5 0.25 = .ok out ∧
        out.faces.checkClosed = .ok () ∧ out.vertexCount = 5 ∧
        out.edgeCount = 8 ∧ out.faceCount = 5 := by
  have hpoly := squarePyramid_polyhedral
  have hclosed : squarePyramid.Closed :=
    ⟨hpoly.closed, hpoly.simple, hpoly.inRange⟩
  have hcount : squarePyramid.edgeCount = 8 := by decide +kernel
  obtain ⟨-, ⟨sides, _, hsides, h⟩, -⟩ := hclosed.moved_faces 3 0.5 0.25
  obtain ⟨⟨none, _, hnone, h'⟩, -⟩ := hclosed.moved_faces 5 0.5 0.25
  have hedges := h.edgeCount
  have hedges' := h'.edgeCount
  rw [hcount] at hedges hedges'
  exact ⟨hclosed,
    ⟨sides, hsides, h.closed.closed, h.vertexCount, hedges, h.faceCount⟩,
    ⟨none, hnone, h'.closed.closed, h'.vertexCount, hedges', h'.faceCount⟩⟩

end Closed
end Mesh
end Polyhedra
