import Mathlib
import Polyhedra.Proofs.Flag.Realization
import Polyhedra.Proofs.Operator.Hollow

/-!
# The hollow of a closed mesh

Hollow needs no more than one ring of faces around every vertex in use: two
faces may share several edges, a vertex may have two faces only, and vertices
may be left out.  The inner shell takes the normals of the dual, whose faces
lie at the same indices as the vertices when no vertex is left out; otherwise
there are fewer of them, and it takes the mean normals of the vertices.
-/

namespace Polyhedra

namespace Mesh

variable {mesh dual : Mesh}

theorem mem_shellSites {directions : List Point} {thickness : Float}
    {role : VertexRole} {q : Point} :
    (role, q) ∈ mesh.shellSites directions thickness ↔
      ∃ v p direction, mesh.vertices[v]? = some p ∧
        directions[v]? = some direction ∧
        (role = .corner v ∧ q = p ∨
          role = .lower v ∧ q = p - direction * thickness) := by
  simp only [shellSites, List.mem_flatMap, Prod.exists,
    List.mem_zipIdx_iff_getElem?, List.getElem?_zip_eq_some,
    Array.getElem?_toList, List.mem_cons, Prod.mk.injEq, List.not_mem_nil,
    or_false]
  constructor
  · rintro ⟨p, direction, v, ⟨hp, hdirection⟩, hrole⟩
    exact ⟨v, p, direction, hp, hdirection, hrole⟩
  · rintro ⟨v, p, direction, hp, hdirection, hrole⟩
    exact ⟨p, direction, v, ⟨hp, hdirection⟩, hrole⟩

theorem lower_not_mem_windowSites {fraction thickness : Float} {v : ℕ}
    {q : Point} :
    (.lower v, q) ∉ mesh.windowSites fraction thickness := by
  intro h
  obtain ⟨flag, -, hrole | hrole⟩ :=
    mem_windowSites_iff.mp (List.mem_map_of_mem h)
  all_goals cases hrole

/-- When a vertex is left out the dual has fewer faces than there are
vertices. -/
theorem ncard_tails_lt
    (hrange : mesh.InRange)
    (hunused : ¬ ∀ v < mesh.vertexCount, ∃ face ∈ mesh.faces, v ∈ face) :
    mesh.faces.incidence.tails.ncard < mesh.vertexCount := by
  have hsubset : mesh.faces.incidence.tails ⊂ {v | v < mesh.vertexCount} :=
    ⟨tails_subset hrange,
      fun hall => hunused fun v hv => Surface.mem_tails_iff.mp (hall hv)⟩
  exact (Set.ncard_lt_ncard hsubset (Set.finite_lt_nat _)).trans_eq
    (Set.ncard_Iio_nat _)

/-- The direction at a vertex is the normal of the ring of faces around it
when all vertices are in use, and the mean normal there otherwise. -/
theorem Ringed.exists_directions
    (h : mesh.Ringed)
    (hvertices : mesh.vertexCount ≤ IndexKey.maxIndex)
    (hfaces : mesh.faceCount ≤ IndexKey.maxIndex) :
    ∃ dual, mesh.dual = .ok dual ∧ ∀ v < mesh.vertexCount, ∃ direction,
      (mesh.shellDirections dual)[v]? = some direction ∧
        ((∀ w < mesh.vertexCount, ∃ face ∈ mesh.faces, w ∈ face) →
          ∃ ring, dual.faces[v]? = some ring ∧ mesh.faces.RingAt v ring ∧
            direction = dual.faceNormal ring) ∧
        ((¬ ∀ w < mesh.vertexCount, ∃ face ∈ mesh.faces, w ∈ face) →
          mesh.vertexNormals[v]? = some direction) := by
  by_cases hused : ∀ w < mesh.vertexCount, ∃ face ∈ mesh.faces, w ∈ face
  · obtain ⟨dual, hdual, hisDual⟩ :=
      h.exists_isDual ((used_iff_tails_eq h.inRange).mp hused) hvertices
        hfaces
    refine ⟨dual, hdual, fun v hv => ?_⟩
    obtain ⟨ring, hring, hringAt⟩ :=
      hisDual.exists_ringAt_of_closed h.incidence hv
    refine ⟨dual.faceNormal ring, ?_, fun _ => ⟨ring, hring, hringAt, rfl⟩,
      fun hunused => absurd hused hunused⟩
    rw [shellDirections, if_pos hisDual.faceCount, normals,
      List.getElem?_map, hring]
    rfl
  · obtain ⟨dual, hdual, hcount⟩ := h.exists_dual hvertices hfaces
    refine ⟨dual, hdual, fun v hv => ?_⟩
    have hdirections : mesh.shellDirections dual = mesh.vertexNormals := by
      rw [shellDirections, if_neg]
      exact hcount ▸ (ncard_tails_lt h.inRange hused).ne
    have hlt : v < mesh.vertexNormals.length := by rwa [length_vertexNormals]
    rw [hdirections]
    exact ⟨_, List.getElem?_eq_getElem hlt, fun hall => absurd hall hused,
      fun _ => List.getElem?_eq_getElem hlt⟩

/-- Hollow realizes its three families of walls between its four families of
corners. -/
theorem Ringed.exists_realizes_hollow
    (h : mesh.Ringed)
    (hdual : mesh.dual = .ok dual)
    (fraction thickness : Float) :
    ∃ out onFace onVertex, mesh.hollow fraction thickness = .ok out ∧
      out.Realizes (Incidence.hollow mesh.faces.incidence)
        (mesh.shellSites (mesh.shellDirections dual) thickness ++
          mesh.windowSites fraction thickness) onFace onVertex := by
  have hregistered : ∀ role ∈ (Incidence.hollow mesh.faces.incidence).tails,
      role ∈ (mesh.shellSites (mesh.shellDirections dual) thickness ++
        mesh.windowSites fraction thickness).map Prod.fst := by
    intro role hrole
    rw [Incidence.tails_hollow h.incidence] at hrole
    exact mem_hollowSites_iff.mpr
      (Incidence.hollowRoles_mono (tails_subset h.inRange) hrole)
  obtain ⟨out, onFace, onVertex, hout, hrealizes⟩ :=
    Blueprint.exists_realizes_buildLabelled
      (Incidence.hollow_closed h.incidence).toCyclic (fun _ _ _ =>
        Surface.mem_hollowFlags_iff h.simple) hregistered ("H" ++ mesh.name)
  refine ⟨out, onFace, onVertex, ?_, hrealizes⟩
  unfold Mesh.hollow
  rw [requireInRange_bind h.inRange, hdual]
  exact hout

section Realized

variable {out : Mesh} {onFace : FaceRole → ℕ} {onVertex : VertexRole → ℕ}
  {fraction thickness : Float}
  (hrealizes : out.Realizes (Incidence.hollow mesh.faces.incidence)
      (mesh.shellSites (mesh.shellDirections dual) thickness ++
        mesh.windowSites fraction thickness) onFace onVertex)
include hrealizes

theorem Ringed.counts_of_realizes (h : mesh.Ringed) :
    out.vertexCount = 2 * mesh.vertexCount + 4 * mesh.edgeCount ∧
      out.faceCount = 6 * mesh.edgeCount ∧
      out.edgeCount = 12 * mesh.edgeCount := by
  have hclosed := h.incidence
  have hfinite := @Surface.finite_flags mesh.faces
  have hedges : 2 * mesh.edgeCount = mesh.faces.incidence.flags.ncard :=
    Surface.two_mul_edgeCount hclosed
  refine ⟨?_, ?_, ?_⟩
  · have hcorners : {v | v < mesh.vertexCount}.ncard = mesh.vertexCount :=
      Set.ncard_Iio_nat _
    have hroles : {role | role ∈ (mesh.shellSites (mesh.shellDirections dual)
          thickness ++ mesh.windowSites fraction thickness).map Prod.fst} =
        Incidence.hollowRoles mesh.faces.incidence
          {v | v < mesh.vertexCount} :=
      Set.ext fun _ => mem_hollowSites_iff
    rw [hrealizes.vertexCount, hroles, Incidence.ncard_hollowRoles
      hclosed.toCyclic hfinite (Set.finite_lt_nat _), hcorners]
    omega
  · rw [hrealizes.faceCount,
      Incidence.ncard_faces_hollow hclosed.toCyclic hfinite]
    omega
  · have htwice :=
      hrealizes.two_mul_edgeCount (Incidence.hollow_closed hclosed)
    have hflags : (Incidence.hollow mesh.faces.incidence).flags.ncard =
        12 * mesh.faces.incidence.flags.ncard :=
      (Incidence.hollowFlag_fills hclosed).ncard_flags
    omega

theorem injOn_lower :
    Set.InjOn (fun v => onVertex (.lower v)) {v | v < mesh.vertexCount} := by
  intro v hv w hw heq
  have hsame :=
    hrealizes.injOn_vertex
      (mem_hollowSites_iff.mpr (.inr (.inl ⟨v, hv, rfl⟩)))
      (mem_hollowSites_iff.mpr (.inr (.inl ⟨w, hw, rfl⟩))) heq
  exact VertexRole.lower.inj hsame

/-- The inner shell has every edge of the mesh the other way round. -/
theorem exists_lower_step {i a b : ℕ} (hab : mesh.faces.incidence i a b) :
    ∃ j, out.faces.incidence j
      (onVertex (.lower b)) (onVertex (.lower a)) := by
  refine ⟨onFace (.bottom i a), ?_⟩
  rw [hrealizes.incidence]
  exact Incidence.rename_of (Incidence.Pattern.mem (.lowerRim hab))

/-- A vertex of the inner shell lies below its vertex of the mesh. -/
theorem position_lower {v : ℕ}
    (hv : v < mesh.vertexCount)
    {direction : Point}
    (hdirection : (mesh.shellDirections dual)[v]? = some direction) :
    ∃ p, mesh.vertices[v]? = some p ∧
      out.vertices[onVertex (.lower v)]? =
        some (p - direction * thickness) := by
  obtain ⟨q, hq, hposition⟩ :=
    hrealizes.position _ (mem_hollowSites_iff.mpr (.inr (.inl ⟨v, hv, rfl⟩)))
  have hsite :=
    (List.mem_append.mp hq).resolve_right lower_not_mem_windowSites
  obtain ⟨v', p, direction', hp, hdirection', ⟨hrole, -⟩ | ⟨hrole, rfl⟩⟩ :=
    mem_shellSites.mp hsite
  · cases hrole
  · obtain rfl := VertexRole.lower.inj hrole
    obtain rfl := Option.some.inj (hdirection.symm.trans hdirection')
    exact ⟨p, hp, hposition⟩

end Realized

/-- Hollow makes three quadrilaterals at every edge of every face; together
they are closed.  The inner shell has every edge of the mesh the other way
round, and every vertex of it lies `thickness` below its vertex of the
mesh. -/
theorem Ringed.hollow_shell
    (h : mesh.Ringed)
    (hvertices : mesh.vertexCount ≤ IndexKey.maxIndex)
    (hfaces : mesh.faceCount ≤ IndexKey.maxIndex)
    (fraction thickness : Float) :
    ∃ dual out : Mesh, mesh.dual = .ok dual ∧
      mesh.hollow fraction thickness = .ok out ∧
      out.faces.checkClosed = .ok () ∧
      out.vertexCount = 2 * mesh.vertexCount + 4 * mesh.edgeCount ∧
      out.faceCount = 6 * mesh.edgeCount ∧
      (∀ face ∈ out.faces, face.length = 4) ∧
      out.edgeCount = 12 * mesh.edgeCount ∧
      out.eulerCharacteristic =
        2 * mesh.eulerCharacteristic - 2 * mesh.faceCount ∧
      ∃ lower : ℕ → ℕ, Set.InjOn lower {v | v < mesh.vertexCount} ∧
        (∀ i a b, mesh.faces.incidence i a b →
          ∃ j, out.faces.incidence j (lower b) (lower a)) ∧
        ∀ v < mesh.vertexCount, ∃ p direction, mesh.vertices[v]? = some p ∧
          (mesh.shellDirections dual)[v]? = some direction ∧
          out.vertices[lower v]? = some (p - direction * thickness) ∧
          ((∀ w < mesh.vertexCount, ∃ face ∈ mesh.faces, w ∈ face) →
            ∃ ring, dual.faces[v]? = some ring ∧ mesh.faces.RingAt v ring ∧
              direction = dual.faceNormal ring) ∧
          ((¬ ∀ w < mesh.vertexCount, ∃ face ∈ mesh.faces, w ∈ face) →
            mesh.vertexNormals[v]? = some direction) := by
  have hhollow := Incidence.hollow_closed h.incidence
  obtain ⟨dual, hdual, hdirections⟩ := h.exists_directions hvertices hfaces
  obtain ⟨out, onFace, onVertex, hout, hrealizes⟩ :=
    h.exists_realizes_hollow hdual fraction thickness
  obtain ⟨hvertexCount, hfaceCount, hedgeCount⟩ :=
    h.counts_of_realizes hrealizes
  refine ⟨dual, out, hdual, hout, hrealizes.checkClosed hhollow,
    hvertexCount, hfaceCount, hrealizes.length_eq fun f hf =>
        Incidence.hollow_quadrilateral h.incidence hf, hedgeCount, ?_,
      fun v => onVertex (.lower v), injOn_lower hrealizes,
        fun i a b => exists_lower_step hrealizes, fun v hv => ?_⟩
  · unfold eulerCharacteristic
    rw [hvertexCount, hedgeCount, hfaceCount]
    push_cast
    ring
  · obtain ⟨direction, hdirection, hcases⟩ := hdirections v hv
    obtain ⟨p, hp, hposition⟩ := position_lower hrealizes hv hdirection
    exact ⟨p, direction, hp, hdirection, hposition, hcases⟩

theorem Ringed.hollow_shell_tetrahedron :
    (Platonic.tetrahedron.named "T").Ringed ∧
      ∃ out, (Platonic.tetrahedron.named "T").hollow 0.5 0.1 = .ok out ∧
        out.faceCount = 36 ∧ out.vertexCount = 32 ∧
        out.faces.checkClosed = .ok () := by
  have hringed : (Platonic.tetrahedron.named "T").Ringed :=
    Polyhedral.ringed Surface.polyhedral_tetrahedron
  obtain ⟨-, out, -, hout, hclosed, hvertices, hfaces, -⟩ :=
    hringed.hollow_shell (by decide) (by decide) 0.5 0.1
  have hedges : (Platonic.tetrahedron.named "T").edgeCount = 6 := by
    decide +kernel
  rw [hedges] at hvertices hfaces
  exact ⟨hringed, out, hout, hfaces, hvertices, hclosed⟩

end Mesh
end Polyhedra
