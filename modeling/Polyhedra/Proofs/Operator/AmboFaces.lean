import Mathlib
import Polyhedra.Proofs.Operator.AmboDual
import Polyhedra.Proofs.Operator.Corners
import Polyhedra.Proofs.Operator.Pinch
import Polyhedra.Proofs.Operator.Pyramids

/-!
# The faces of ambo

Ambo works on every surrounded mesh.  The face inside a face follows its
edges, and the face around a vertex goes through the edges at it.  Every
vertex of the result has the two faces inside the faces at its edge and the
two faces around the ends of the edge, so the result is polyhedral even when
two faces of the mesh share several edges.
-/

namespace Polyhedra

namespace Incidence

variable {M : Incidence ℕ ℕ}

theorem exists_ambo_vertex_iff (hM : M.Closed) {v : ℕ} {e : Sym2 ℕ} :
    (∃ e', ambo M (.inr v) e e') ↔ e ∈ M.sides ∧ v ∈ e := by
  constructor
  · rintro ⟨e', h⟩
    obtain ⟨i, a, c, -, hvc, rfl, -⟩ := ambo_vertex_iff.mp h
    exact ⟨⟨i, v, c, hvc, rfl⟩, Sym2.mem_mk_left v c⟩
  · rintro ⟨⟨i, x, y, hxy, rfl⟩, hv⟩
    rcases Sym2.mem_iff.mp hv with rfl | rfl
    · obtain ⟨a, hav⟩ := hM.prev hxy
      exact ⟨_, ambo_vertex_iff.mpr ⟨i, a, y, hav, hxy, rfl, rfl⟩⟩
    · -- the edge leaves its second end in the other face
      obtain ⟨j, -, hyx⟩ := hM.mate hxy
      obtain ⟨a, hav⟩ := hM.prev hyx
      exact ⟨_, ambo_vertex_iff.mpr ⟨j, a, x, hav, hyx, Sym2.eq_swap, rfl⟩⟩

theorem exists_ambo_face_iff (hM : M.Closed) {i : ℕ} {e : Sym2 ℕ} :
    (∃ e', ambo M (.inl i) e e') ↔ ∃ a b, M i a b ∧ s(a, b) = e := by
  constructor
  · rintro ⟨e', h⟩
    obtain ⟨a, b, c, hab, -, rfl, -⟩ := ambo_face_iff.mp h
    exact ⟨a, b, hab, rfl⟩
  · rintro ⟨a, b, hab, rfl⟩
    obtain ⟨c, hbc⟩ := hM.next hab
    exact ⟨_, ambo_face_iff.mpr ⟨a, b, c, hab, hbc, rfl, rfl⟩⟩

/-- At the midpoint of an edge there are the faces inside its two faces and
those around its two ends. -/
theorem ncard_ambo_side
    (hM : M.Closed)
    {e : Sym2 ℕ}
    (he : e ∈ M.sides) :
    {f | ∃ e', ambo M f e e'}.ncard = 4 := by
  obtain ⟨i, a, b, hab, rfl⟩ := he
  obtain ⟨j, -, hba⟩ := hM.mate hab
  have hside : s(a, b) ∈ M.sides := ⟨i, a, b, hab, rfl⟩
  let faces : List (ℕ ⊕ ℕ) := [.inl i, .inl j, .inr a, .inr b]
  have hnodup : faces.Nodup := by
    simp [faces, hM.mate_ne hab hba, hM.ne hab]
  have hfaces : {f | ∃ e', ambo M f s(a, b) e'} = faces.toFinset := by
    ext f
    rw [Set.mem_ofPred_eq, Finset.mem_coe, List.mem_toFinset]
    cases f with
    | inl k =>
        have hface :
            (∃ x y, M k x y ∧ s(x, y) = s(a, b)) ↔ k = i ∨ k = j := by
          constructor
          · rintro ⟨x, y, hxy, heq⟩
            rcases Sym2.eq_iff.mp heq with ⟨rfl, rfl⟩ | ⟨rfl, rfl⟩
            exacts [.inl (hM.owner_unique hxy hab),
              .inr (hM.owner_unique hxy hba)]
          · rintro (rfl | rfl)
            exacts [⟨a, b, hab, rfl⟩, ⟨b, a, hba, Sym2.eq_swap⟩]
        rw [exists_ambo_face_iff hM, hface]
        simp [faces]
    | inr v =>
        rw [exists_ambo_vertex_iff hM, and_iff_right hside]
        simp [faces]
  rw [hfaces, Set.ncard_coe_finset, List.toFinset_card_of_nodup hnodup]
  rfl

end Incidence

namespace Mesh

/-- The mesh `out` has a vertex for every edge of `mesh`, a face inside every
face, which follows the edges of that face, and a face around every vertex,
which goes through the edges at it.  The edges are numbered in some order;
the faces inside the faces come first. -/
structure RectifiesTo (mesh out : Mesh) (onVertex : Sym2 ℕ → ℕ) : Prop where
  closed : out.Closed
  vertexCount : out.vertexCount = mesh.edgeCount
  edgeCount : out.edgeCount = 2 * mesh.edgeCount
  faceCount : out.faceCount = mesh.faceCount + mesh.vertexCount
  bijOn :
    Set.BijOn onVertex mesh.faces.incidence.sides {v | v < out.vertexCount}
  inside : ∀ (i : ℕ) face, mesh.faces[i]? = some face →
    ∃ copy, out.faces[i]? = some copy ∧ copy.length = face.length ∧
      copy ~r face.edges.map fun (a, b) => onVertex s(a, b)
  around : ∀ v < mesh.vertexCount,
    ∃ ring, out.faces[mesh.faceCount + v]? = some ring ∧
      ring.length = mesh.faces.degree v ∧
      ∀ x, x ∈ ring ↔
        ∃ e ∈ mesh.faces.incidence.sides, v ∈ e ∧ onVertex e = x
  degree : ∀ v < out.vertexCount, (out.faces.countP fun face => v ∈ face) = 4
  edgesApart : out.faces.EdgesApart

variable {mesh : Mesh}

theorem Closed.ambo_copy
    (h : mesh.Closed)
    {i : ℕ} {face : Face}
    (hface : mesh.faces[i]? = some face) :
    (Incidence.ambo mesh.faces.incidence).GoesThrough (.inl i)
      (face.edges.map fun (a, b) => s(a, b)) := by
  apply Surface.goesThrough_edges h.simple hface
    (h.face_ne_nil (List.mem_of_getElem? hface))
  · intro a b x y hab hxy heq
    -- a face does not follow an edge in both directions
    have hlong := @h.incidence.long
    have hsame := Sym2.eq_iff.mp heq
    grind
  · exact fun v w => Incidence.ambo_face_iff

/-- Ambo makes a polyhedral mesh of every surrounded mesh.  No two faces of
the result share two edges, also where two faces of the mesh do. -/
theorem Surrounded.ambo_faces
    (h : mesh.Surrounded)
    (hfits : mesh.Fits) :
    ∃ (out : Mesh) (onVertex : Sym2 ℕ → ℕ), mesh.ambo = .ok out ∧
      mesh.RectifiesTo out onVertex := by
  have hclosed := h.toClosed.incidence
  have hambo := Incidence.ambo_polyhedral h.incidence
  have hroles := setOf_sideSites h.simple
  have htails := Incidence.tails_ambo hclosed
  obtain ⟨out, hout, hrealizes⟩ := h.exists_ambo hfits
  have hpolyhedral : out.Polyhedral :=
    hrealizes.polyhedral hambo (hroles.trans htails.symm)
  have hbijOn := hrealizes.bijOn_vertex
  rw [hroles] at hbijOn
  refine ⟨out, mesh.sideRank, hout, hrealizes.closed hambo.toClosed, ?_, ?_,
    ?_, hbijOn, ?_, ?_, ?_, hpolyhedral.shareOne⟩
  · rw [hrealizes.vertexCount, hroles, ← Surface.edgeCount_eq_ncard_sides]
    rfl
  · exact h.edgeCount_of_fills (Incidence.amboFlag_fills hclosed)
      hambo.toClosed hrealizes
  · exact (hrealizes.isAmbo h).faceCount
  · intro i face hface
    obtain ⟨copy, hcopy, hrotated⟩ :=
      hrealizes.exists_face_of_goesThrough (h.toClosed.ambo_copy hface)
    rw [List.map_map] at hrotated
    refine ⟨copy, hcopy, ?_, hrotated⟩
    rw [hrotated.perm.length_eq, List.length_map, Face.length_edges]
  · intro v hv
    have hmem : .inr v ∈ (Incidence.ambo mesh.faces.incidence).faces :=
      h.faces_ambo ▸ .inr ⟨v, hv, rfl⟩
    obtain ⟨ring, hring, hlength, hcorners⟩ := hrealizes.exists_corners hmem
    refine ⟨ring, hring, ?_, fun x => ?_⟩
    · rw [hlength, Incidence.ncard_ambo_vertex hclosed, h.degree_eq]
    · simp only [hcorners, Incidence.exists_ambo_vertex_iff hclosed,
        and_assoc]
  · intro v hv
    obtain ⟨e, he, rfl⟩ := hbijOn.surjOn hv
    rw [← Surface.degree_eq_countP hpolyhedral.simple,
      hrealizes.degree_eq (htails ▸ he),
      Incidence.ncard_ambo_side hclosed he]

/-- A quadrilateral and a hexagon that share two edges, with three triangles
in either gap between them. -/
def clasp : Mesh where
  name := "K"
  vertices := Array.replicate 8 .origin
  faces :=
    [[0, 1, 2, 3], [1, 0, 4, 3, 2, 5], [2, 1, 6], [1, 5, 6], [5, 2, 6],
      [0, 3, 7], [3, 4, 7], [4, 0, 7]]

theorem clasp_surrounded : clasp.Surrounded where
  closed := by apply Surface.checkClosed_of_indexed <;> decide
  simple := by decide
  inRange := by decide
  ring := by
    have hrings :
        ∀ v < clasp.vertexCount, ∃ ring ∈ [[0, 5, 7, 1], [0, 1, 3, 2],
          [0, 2, 4, 1], [0, 1, 6, 5], [1, 7, 6], [1, 4, 3], [2, 3, 4],
          [5, 6, 7]], 3 ≤ ring.length ∧ clasp.faces.RingAt v ring := by
      decide
    intro v hv
    obtain ⟨ring, -, hring⟩ := hrings v hv
    exact ⟨ring, hring⟩

theorem Surrounded.ambo_faces_clasp :
    clasp.Surrounded ∧ clasp.Fits ∧ ¬ clasp.faces.EdgesApart ∧
      ∃ out, clasp.ambo = .ok out ∧ out.faces.checkClosed = .ok () ∧
        out.vertexCount = 14 ∧ out.edgeCount = 28 ∧ out.faceCount = 16 ∧
        out.faces.EdgesApart := by
  have hfits : clasp.Fits := by unfold Fits; decide
  have hcount : clasp.edgeCount = 14 := by decide +kernel
  have hshared : ¬ clasp.faces.EdgesApart := by
    intro hapart
    have heq : ((0, 1) : Edge) = (2, 3) :=
      hapart 0 1 _ _ rfl rfl (by decide) _ (by decide) (by decide) _
        (by decide) (by decide)
    exact absurd heq (by decide)
  obtain ⟨out, onVertex, hout, hfaces⟩ := clasp_surrounded.ambo_faces hfits
  have hvertices := hfaces.vertexCount
  have hedges := hfaces.edgeCount
  rw [hcount] at hvertices hedges
  exact ⟨clasp_surrounded, hfits, hshared, out, hout, hfaces.closed.closed,
    hvertices, hedges, hfaces.faceCount, hfaces.edgesApart⟩

end Mesh
end Polyhedra
