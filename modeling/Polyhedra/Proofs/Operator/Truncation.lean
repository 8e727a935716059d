import Mathlib
import Polyhedra.Proofs.Operator.Invariance
import Polyhedra.Proofs.Operator.Pyramids

/-!
# Truncation

The faces of the dual are the vertices of a mesh, so the filter on their side
counts is one on degrees.  The last dual turns the vertices of the raised
dual into faces: those of the dual come first and are the faces of the mesh,
with one more corner for every cut vertex among their corners, and the apexes
come after them and are the caps of the cut vertices.
-/

namespace Polyhedra
namespace Mesh

variable {mesh around raised : Mesh} {sides : ℕ}

/-- The vertices that a truncation with the filter `sides` cuts, in ascending
order. -/
def cutVertices (mesh : Mesh) (sides : ℕ) : List ℕ :=
  (List.range mesh.vertexCount).filter (mesh.faces.cuts sides)

/-- The vertices that it keeps. -/
def uncutVertices (mesh : Mesh) (sides : ℕ) : List ℕ :=
  (List.range mesh.vertexCount).filter fun v => !mesh.faces.cuts sides v

theorem mem_cutVertices_iff {v : ℕ} :
    v ∈ mesh.cutVertices sides ↔
      v < mesh.vertexCount ∧ mesh.faces.cuts sides v = true := by
  rw [cutVertices, List.mem_filter, List.mem_range]

theorem Polyhedral.cutCount_eq (h : mesh.Polyhedral) (sides : ℕ) :
    mesh.cutCount sides = (mesh.cutVertices sides).length := by
  rw [Mesh.cutCount, Surface.cutCount_eq_countP h.used,
    List.countP_eq_length_filter, cutVertices]

/-! ## Selected faces of the dual -/

namespace IsDual

variable (hdual : mesh.IsDual around) (h : mesh.Polyhedral)
include hdual h

/-- Every vertex is a face of the dual with as many sides as its degree. -/
theorem exists_face {v : ℕ} (hv : v < mesh.vertexCount) :
    ∃ ring, around.faces[v]? = some ring ∧ ring.Nodup ∧
      ring.length = mesh.faces.degree v := by
  obtain ⟨ring, hring, hat⟩ := hdual.exists_ringAt h hv
  exact ⟨ring, hring, hat.nodup, hat.length_eq_degree h.simple⟩

theorem selects_iff {v : ℕ} (hv : v < mesh.vertexCount) :
    around.faces.Selects sides v ↔ mesh.faces.cuts sides v = true := by
  obtain ⟨ring, hring, -, hlength⟩ := hdual.exists_face h hv
  rw [Surface.selects_iff hring, hlength, Surface.cuts]

theorem selects_iff_mem {v : ℕ} :
    around.faces.Selects sides v ↔ v ∈ mesh.cutVertices sides := by
  rw [mem_cutVertices_iff]
  constructor
  · intro hv
    have hlt : v < mesh.vertexCount := hv.lt.trans_eq hdual.faceCount
    exact ⟨hlt, (hdual.selects_iff h hlt).mp hv⟩
  · rintro ⟨hlt, hv⟩
    exact (hdual.selects_iff h hlt).mpr hv

theorem selectedIndices_eq (sides : ℕ) :
    around.faces.selectedIndices sides = mesh.cutVertices sides := by
  have hcut : (mesh.cutVertices sides).Pairwise (· < ·) :=
    List.pairwise_lt_range.filter _
  have hselected := Surface.selectedIndices_ascending around.faces sides
  refine eq_of_ascending (hselected.imp Nat.compare_eq_lt.mpr)
    (hcut.imp Nat.compare_eq_lt.mpr) ?_
  intro v
  rw [Surface.mem_selectedIndices_iff, hdual.selects_iff_mem h]

/-! ## The raised dual -/

variable {sites : List (VertexRole × Point)} {onFace : FaceRole → ℕ}
  {onVertex : VertexRole → ℕ}
  (hraised : raised.Realizes (Incidence.kis around.faces.incidence
      (around.faces.Selects sides)) sites onFace onVertex)
include hraised

/-- Uncut vertices stay faces, and a cut vertex becomes as many as its
degree. -/
theorem raised_faceCount :
    raised.faceCount =
      (mesh.uncutVertices sides).length +
      ((mesh.cutVertices sides).map mesh.faces.degree).sum := by
  have haround := hdual.polyhedral h
  have hsplit : {flag ∈ around.faces.incidence.flags |
        around.faces.Selects sides flag.1} =
      {flag ∈ around.faces.incidence.flags |
        flag.1 ∈ mesh.cutVertices sides} := by
    simp only [hdual.selects_iff_mem h]
  have hkept :
      {v ∈ around.faces.incidence.faces | ¬ around.faces.Selects sides v} =
        (mesh.uncutVertices sides).toFinset := by
    ext v
    rw [haround.faces_eq, hdual.faceCount]
    simp only [Set.mem_ofPred_eq, Finset.mem_coe, List.mem_toFinset,
      uncutVertices, List.mem_filter, List.mem_range,
      hdual.selects_iff_mem h, mem_cutVertices_iff]
    grind
  have hlengths : (mesh.cutVertices sides).map
        (fun v => (around.faces.getD v []).length) =
      (mesh.cutVertices sides).map mesh.faces.degree := by
    refine List.map_congr_left fun v hv => ?_
    obtain ⟨ring, hring, -, hlength⟩ :=
      hdual.exists_face h (mem_cutVertices_iff.mp hv).1
    rw [List.getD_eq_getElem?_getD, hring, ← hlength]
    rfl
  have hcutNodup : (mesh.cutVertices sides).Nodup :=
    List.nodup_range.filter _
  have huncutNodup : (mesh.uncutVertices sides).Nodup :=
    List.nodup_range.filter _
  rw [hraised.faceCount, Incidence.ncard_faces_kis haround.incidence.toCyclic
      Surface.finite_flags, hsplit,
    Surface.ncard_flags_of_faces haround.simple hcutNodup, hlengths, hkept,
    Set.ncard_coe_finset, List.toFinset_card_of_nodup huncutNodup, add_comm]

/-- The faces of the mesh are vertices of the raised dual, and so are the cut
vertices. -/
theorem raised_vertexCount
    (hsites : {role | role ∈ sites.map Prod.fst} = (Incidence.kis
      around.faces.incidence (around.faces.Selects sides)).tails) :
    raised.vertexCount = mesh.faceCount + mesh.cutCount sides := by
  have haround := hdual.polyhedral h
  have hselected :
      {v ∈ around.faces.incidence.faces | around.faces.Selects sides v} =
        (mesh.cutVertices sides).toFinset := by
    ext v
    rw [haround.faces_eq, hdual.faceCount]
    simp only [Set.mem_ofPred_eq, Finset.mem_coe, List.mem_toFinset,
      hdual.selects_iff_mem h, mem_cutVertices_iff]
    grind
  have hcutNodup : (mesh.cutVertices sides).Nodup :=
    List.nodup_range.filter _
  have htails : around.faces.incidence.tails.ncard = mesh.faceCount := by
    rw [haround.tails_eq, hdual.vertexCount]
    exact Set.ncard_Iio_nat _
  rw [hraised.vertexCount, hsites,
    Incidence.ncard_tails_kis haround.incidence.toCyclic
      Surface.finite_flags, htails, hselected, Set.ncard_coe_finset,
    List.toFinset_card_of_nodup hcutNodup, h.cutCount_eq]

/-- Every corner of a face that is cut gives the face one more. -/
theorem degree_corner {i : ℕ} {face : Face}
    (hface : mesh.faces[i]? = some face) :
    raised.faces.degree (onVertex (.corner i)) =
      face.length + face.countP (mesh.faces.cuts sides) := by
  have hclosed := h.incidence.toClosed
  have haround := (hdual.polyhedral h).incidence.toClosed
  have hsimple := h.simple face (List.mem_of_getElem? hface)
  have hi : i ∈ around.faces.incidence.tails := by
    rw [hdual.incidence, hclosed.tails_around, h.faces_eq]
    exact (List.getElem?_eq_some_iff.mp hface).1
  have htail : .corner i ∈
      (Incidence.kis around.faces.incidence
        (around.faces.Selects sides)).tails := by
    rw [Incidence.tails_kis haround.toCyclic]
    exact .inl ⟨i, hi, rfl⟩
  have hcorner : ∀ v, (∃ j, around.faces.incidence v i j) ↔
      ∃ w, mesh.faces.incidence i v w := by
    intro v
    rw [hdual.incidence]
    exact Set.ext_iff.mp (hclosed.setOf_around v) i
  have hlt : ∀ {v w}, mesh.faces.incidence i v w → v < mesh.vertexCount :=
    fun hvw =>
    tails_subset h.inRange (Incidence.mem_tails hvw)
  rw [hraised.degree_eq htail,
    Incidence.ncard_kis_corner haround Surface.finite_flags]
  congr 1
  · have hcount := Surface.ncard_corners hface hsimple fun _ => true
    simpa [hcorner] using hcount
  · rw [← Surface.ncard_corners hface hsimple]
    congr 1
    ext v
    simp only [Set.mem_ofPred_eq, hcorner]
    constructor
    · rintro ⟨hv, w, hvw⟩
      exact ⟨(hdual.selects_iff h (hlt hvw)).mp hv, w, hvw⟩
    · rintro ⟨hv, w, hvw⟩
      exact ⟨(hdual.selects_iff h (hlt hvw)).mpr hv, w, hvw⟩

theorem degree_center {v : ℕ} (hv : v ∈ mesh.cutVertices sides) :
    raised.faces.degree (onVertex (.center v)) = mesh.faces.degree v := by
  have haround := hdual.polyhedral h
  have hselects := (hdual.selects_iff_mem h).mpr hv
  have htail : .center v ∈
      (Incidence.kis around.faces.incidence
        (around.faces.Selects sides)).tails := by
    rw [Incidence.tails_kis haround.incidence.toCyclic, haround.faces_eq]
    exact .inr ⟨v, ⟨hselects.lt, hselects⟩, rfl⟩
  obtain ⟨ring, hring, hnodup, hlength⟩ :=
    hdual.exists_face h (mem_cutVertices_iff.mp hv).1
  have hcount := Surface.ncard_corners hring hnodup fun _ => true
  rw [hraised.degree_eq htail, Incidence.ncard_kis_center hselects,
    ← hlength]
  simpa using hcount

end IsDual

/-- A truncation keeps the faces in their order, with one more corner for
every cut vertex among their corners, and puts a cap with as many sides as
its degree in the place of every cut vertex.  Besides the mesh and its dual
the faces of the raised dual have to fit; these are the vertices of the
result. -/
theorem Polyhedral.truncate_faces
    (h : mesh.Polyhedral)
    (hfits : mesh.Fits)
    (sides : ℕ) (height : Float)
    (hsize : (mesh.uncutVertices sides).length +
        ((mesh.cutVertices sides).map mesh.faces.degree).sum ≤
      IndexKey.maxIndex) :
    ∃ out, mesh.truncate sides height = .ok out ∧
      out.faces.checkClosed = .ok () ∧
      out.vertexCount =
        (mesh.uncutVertices sides).length +
        ((mesh.cutVertices sides).map mesh.faces.degree).sum ∧
      out.faceCount = mesh.faceCount + mesh.cutCount sides ∧
      (∀ (i : ℕ) (face : Face), mesh.faces[i]? = some face →
        ∃ cut : Face, out.faces[i]? = some cut ∧
          cut.length = face.length + face.countP (mesh.faces.cuts sides)) ∧
      (∀ r v : ℕ, (mesh.cutVertices sides)[r]? = some v →
        ∃ cap : Face, out.faces[mesh.faceCount + r]? = some cap ∧
          cap.length = mesh.faces.degree v) ∧
      out.name =
        "t" ++ (if sides = 0 then "" else toString sides) ++ mesh.name := by
  have hcutLe : mesh.cutCount sides ≤ mesh.vertexCount := by
    rw [h.cutCount_eq]
    exact (List.length_filter_le _ _).trans_eq List.length_range
  unfold Fits at hfits
  obtain ⟨around, haround, hdual⟩ := h.exists_dual (by omega) (by omega)
  have haroundPoly := hdual.polyhedral h
  have haroundFits : around.Fits := by
    unfold Fits
    rw [hdual.vertexCount, hdual.faceCount]
    omega
  obtain ⟨raised, onFace, onVertex, hkis, hraisedPoly, hraised, hcorner,
      hcenter⟩ :=
    haroundPoly.exists_pyramids haroundFits sides height
  have hfaceCount := hdual.raised_faceCount h hraised
  have hvertexCount :=
    hdual.raised_vertexCount h hraised (haroundPoly.setOf_pyramidSites _ _)
  -- the faces of the result are the vertices of the raised dual, with their
  -- degrees
  obtain ⟨out, hout, hcut⟩ := hraisedPoly.exists_dual (by omega) (by omega)
  refine ⟨_, truncate_eq_ok haround hkis hout,
    (hcut.polyhedral hraisedPoly).closed, hcut.vertexCount.trans hfaceCount,
    hcut.faceCount.trans hvertexCount, ?_, ?_, rfl⟩
  · intro i face hface
    have hi : i < mesh.faceCount := (List.getElem?_eq_some_iff.mp hface).1
    obtain ⟨cut, hget, -, hlength⟩ := hcut.exists_face hraisedPoly
      (hi.trans_le ((Nat.le_add_right _ _).trans_eq hvertexCount.symm))
    have hdegree := hdual.degree_corner h hraised hface
    rw [hcorner i (hi.trans_eq hdual.vertexCount.symm)] at hdegree
    exact ⟨cut, hget, hlength.trans hdegree⟩
  · intro r v hv
    have hr : r < mesh.cutCount sides :=
      (List.getElem?_eq_some_iff.mp hv).1.trans_eq (h.cutCount_eq sides).symm
    obtain ⟨cap, hget, -, hlength⟩ := hcut.exists_face hraisedPoly
      ((Nat.add_lt_add_left hr mesh.faceCount).trans_eq hvertexCount.symm)
    have hdegree := hdual.degree_center h hraised (List.mem_of_getElem? hv)
    rw [← hdual.selectedIndices_eq h] at hv
    rw [hcenter r v hv, hdual.vertexCount] at hdegree
    exact ⟨cap, hget, hlength.trans hdegree⟩

/-- A square pyramid, with its apex last. -/
def squarePyramid : Mesh where
  name := "Y4"
  vertices := Array.replicate 5 .origin
  faces := [[0, 3, 2, 1], [0, 1, 4], [1, 2, 4], [2, 3, 4], [3, 0, 4]]

theorem squarePyramid_polyhedral : squarePyramid.Polyhedral := by
  apply Surface.polyhedral_of_rings
    [[0, 1, 4], [0, 2, 1], [0, 3, 2], [0, 4, 3], [1, 2, 3, 4]] <;> decide

/-- The filter 4 cuts the apex of a square pyramid only. -/
theorem Polyhedral.truncate_faces_pyramid :
    squarePyramid.Polyhedral ∧ squarePyramid.Fits ∧
      (squarePyramid.uncutVertices 4).length +
      ((squarePyramid.cutVertices 4).map squarePyramid.faces.degree).sum ≤
        IndexKey.maxIndex ∧
      ∃ out, squarePyramid.truncate 4 1 = .ok out ∧ out.vertexCount = 8 ∧
        out.faceCount = 6 ∧
        (∃ base, out.faces[0]? = some base ∧ base.length = 4) ∧
        (∃ side, out.faces[1]? = some side ∧ side.length = 4) ∧
        (∃ cap, out.faces[5]? = some cap ∧ cap.length = 4) ∧
        out.name = "t4Y4" := by
  have hfits : squarePyramid.Fits := by
    unfold Fits
    decide
  have hsize : (squarePyramid.uncutVertices 4).length +
        ((squarePyramid.cutVertices 4).map squarePyramid.faces.degree).sum ≤
      IndexKey.maxIndex := by
    decide
  obtain ⟨out, hout, -, hvertices, hfaces, hsides, hcaps, hname⟩ :=
    squarePyramid_polyhedral.truncate_faces hfits 4 1 hsize
  refine ⟨squarePyramid_polyhedral, hfits, hsize, out, hout, hvertices,
    hfaces, ?_, ?_, ?_, ?_⟩
  · exact hsides 0 _ rfl
  · exact hsides 1 _ rfl
  · exact hcaps 0 4 (by decide)
  · exact hname

end Mesh
end Polyhedra
