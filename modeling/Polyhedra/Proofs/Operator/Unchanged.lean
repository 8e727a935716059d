import Mathlib
import Polyhedra.Proofs.Operator.Moved
import Polyhedra.Proofs.Operator.PyramidList
import Polyhedra.Proofs.Operator.Truncation

/-!
# Filters that select nothing

Kis, inset, extrude, loft and truncation act on the faces, or on the
vertices, whose number of sides passes a filter.  An operator with a filter
warns when it counts none of them, before it makes anything.  The count is
right: every face that kis or an inset selects adds a vertex and every vertex
that a truncation cuts adds a face, and where there are none the shape stays
the same.
-/

namespace Polyhedra

namespace Surface

variable {surface : Surface} {sides : ℕ}

theorem passes_of_selected_eq_nil (hnone : surface.selected sides = []) :
    ∀ face ∈ surface, Face.passes sides face.length = false :=
  fun face hface =>
  Bool.eq_false_iff.mpr (List.filter_eq_nil_iff.mp hnone face hface)

theorem filter_not_passes (hnone : surface.selected sides = []) :
    (surface.filter fun face => !Face.passes sides face.length) =
      surface := by
  refine List.filter_eq_self.mpr fun face hface => ?_
  rw [passes_of_selected_eq_nil hnone face hface]
  rfl

theorem filter_indexed_eq_nil (hnone : surface.selected sides = []) :
    (surface.indexed.filter fun (face, _) => Face.passes sides face.length) =
      [] := by
  rw [← map_fst_selected] at hnone
  exact List.map_eq_nil_iff.mp hnone

theorem selectedIndices_eq_nil (hnone : surface.selected sides = []) :
    surface.selectedIndices sides = [] := by
  rw [selectedIndices, filter_indexed_eq_nil hnone]
  rfl

end Surface

namespace Mesh

variable {mesh out : Mesh} {sides : ℕ}

/-- The two meshes have the same faces when the vertices of `mesh` are read
as those of `out`; the faces may stand in another order and start at other
corners. -/
structure SameShape (mesh out : Mesh) : Prop where
  vertexCount : out.vertexCount = mesh.vertexCount
  faceCount : out.faceCount = mesh.faceCount
  renumbered : ∃ onVertex : ℕ → ℕ,
    Set.BijOn onVertex {v | v < mesh.vertexCount} {v | v < out.vertexCount} ∧
      out.Traces onVertex mesh.faces

/-- Faces that are only turned, each in its place, make the same shape. -/
theorem sameShape_of_isRotated
    (hvertices : out.vertexCount = mesh.vertexCount)
    (hfaces : out.faceCount = mesh.faceCount)
    (hrotated : ∀ (i : ℕ) (face : Face), mesh.faces[i]? = some face →
      ∃ turned, out.faces[i]? = some turned ∧ turned ~r face) :
    mesh.SameShape out := by
  refine ⟨hvertices, hfaces, id, ?_, ?_⟩
  · rw [hvertices]
    exact Set.bijOn_id _
  · refine List.Perm.of_eq (List.ext_getElem ?_ fun i hi hi' => ?_)
    · rw [List.length_map, List.length_map]
      exact hfaces
    · rw [List.length_map] at hi hi'
      obtain ⟨turned, hturned, hcycle⟩ :=
        hrotated i _ (List.getElem?_eq_getElem hi')
      rw [List.getElem?_eq_getElem hi] at hturned
      obtain rfl := Option.some.inj hturned
      rw [List.getElem_map, List.getElem_map, List.map_id]
      exact Cycle.coe_eq_coe.mpr hcycle

theorem selected_eq_nil_iff :
    mesh.faces.selected sides = [] ↔ mesh.selectedCount sides = 0 :=
  List.length_eq_zero_iff.symm

/-! ## Kis -/

theorem vertexCount_pyramids (mesh : Mesh) (sides : ℕ) (height : Float) :
    (mesh.pyramids sides height).vertexCount =
      mesh.vertexCount + mesh.selectedCount sides := by
  simp [pyramids, vertexCount, selectedCount]

theorem faces_pyramids_of_none
    (hnone : mesh.faces.selected sides = [])
    (height : Float) :
    (mesh.pyramids sides height).faces = mesh.faces := by
  rw [pyramids, hnone, Surface.filter_not_passes hnone]
  rfl

theorem sameShape_pyramids_iff (mesh : Mesh) (sides : ℕ) (height : Float) :
    mesh.SameShape (mesh.pyramids sides height) ↔
      mesh.selectedCount sides = 0 := by
  have hvertices := mesh.vertexCount_pyramids sides height
  constructor
  · intro hsame
    have hcount := hsame.vertexCount
    omega
  · intro hnone
    have hfaces :=
      faces_pyramids_of_none (selected_eq_nil_iff.mpr hnone) height
    refine sameShape_of_isRotated (by omega) (congrArg List.length hfaces)
      fun i face hface => ?_
    rw [hfaces]
    exact ⟨face, hface, .refl face⟩

namespace Polyhedral

variable (h : mesh.Polyhedral)
include h

theorem long_and_nodup : ∀ face ∈ mesh.faces, 3 ≤ face.length ∧ face.Nodup :=
  fun face hface =>
  ⟨(Surface.checkClosed_eq_ok_iff.mp h.closed).1 face hface,
    h.simple face hface⟩

theorem kis_pyramids (hfits : mesh.Fits) (sides : ℕ) (height : Float) :
    mesh.kis sides height = .ok (mesh.pyramids sides height) ∧
      (mesh.pyramids sides height).Polyhedral := by
  obtain ⟨out, -, -, hout, hpoly, -⟩ := h.exists_pyramids hfits sides height
  obtain rfl := eq_pyramids_of_kis h.inRange hfits h.long_and_nodup hout
  exact ⟨hout, hpoly⟩

end Polyhedral

/-! ## Inset, extrude and loft -/

namespace MovesTo

variable {fraction offset : Float} {onVertex : VertexRole → ℕ}
  (hmoves : mesh.MovesTo sides fraction offset out onVertex)
include hmoves

theorem sameShape (hnone : mesh.faces.selected sides = []) :
    mesh.SameShape out := by
  have hvertices := hmoves.vertexCount
  have hfaces := hmoves.faceCount
  rw [hnone, List.map_nil, List.sum_nil, Nat.add_zero] at hvertices hfaces
  have hroles : mesh.insetRoles sides = ∅ := by
    rw [insetRoles, Set.image_eq_empty, Set.eq_empty_iff_forall_notMem]
    rintro flag ⟨-, hflag⟩
    have hmem := Surface.mem_selectedIndices_iff.mpr hflag
    rw [Surface.selectedIndices_eq_nil hnone] at hmem
    cases hmem
  have hbijOn := hmoves.bijOn
  rw [hroles, Set.union_empty] at hbijOn
  have htraces := hmoves.traces
  have hkept : mesh.keptFaces sides = mesh.faces.map (List.map .corner) := by
    rw [keptFaces, Surface.filter_not_passes hnone]
  have hraised : mesh.raisedFaces sides = [] := by
    rw [raisedFaces, Surface.filter_indexed_eq_nil hnone]
    rfl
  have hring : mesh.insetRing sides = [] := by
    rw [insetRing, Surface.selectedIndices_eq_nil hnone]
    simp
  rw [hkept, hraised, hring, List.append_nil, List.append_nil] at htraces
  refine ⟨hvertices, hfaces, onVertex ∘ .corner, ?_, ?_⟩
  · have hcorner : Function.Injective VertexRole.corner :=
      fun _ _ => VertexRole.corner.inj
    exact hbijOn.comp hcorner.injOn.bijOn_image
  · unfold Traces at htraces ⊢
    rw [List.map_map, Function.comp_def] at htraces
    simpa only [List.map_map] using htraces

/-- Every selected face has new corners. -/
theorem sameShape_iff (hne : ∀ face ∈ mesh.faces, face ≠ []) :
    mesh.SameShape out ↔ mesh.selectedCount sides = 0 := by
  rw [← selected_eq_nil_iff]
  refine ⟨fun hsame => ?_, hmoves.sameShape⟩
  have hsum : ((mesh.faces.selected sides).map List.length).sum = 0 := by
    have hvertices := hmoves.vertexCount
    rw [hsame.vertexCount] at hvertices
    omega
  refine List.eq_nil_iff_forall_not_mem.mpr fun face hface => ?_
  have hlength :=
    List.sum_eq_zero_iff.mp hsum face.length (List.mem_map_of_mem hface)
  exact hne face (List.mem_of_mem_filter hface)
    (List.length_eq_zero_iff.mp hlength)

end MovesTo

/-! ## Truncation -/

namespace IsDual

variable {around : Mesh} (hdual : mesh.IsDual around) (h : mesh.Polyhedral)
include hdual h

/-- The vertices that a truncation counts are the faces of the dual that kis
selects. -/
theorem cutCount_eq_selectedCount (sides : ℕ) :
    mesh.cutCount sides = around.selectedCount sides := by
  rw [h.cutCount_eq, ← hdual.selectedIndices_eq h, selectedCount,
    ← Surface.map_getD_selectedIndices, List.length_map]

omit h in
/-- A dual depends on the faces and on how many vertices there are. -/
theorem of_faces_eq {other : Mesh}
    (hfaces : other.faces = mesh.faces)
    (hvertices : other.vertexCount = mesh.vertexCount) :
    other.IsDual (around.rename (Word.dual other.name)) where
  name := rfl
  vertexCount := hdual.vertexCount.trans (congrArg List.length hfaces.symm)
  faceCount := hdual.faceCount.trans hvertices.symm
  incidence := by
    rw [hfaces]
    exact hdual.incidence
  nodup := hdual.nodup
  head_le := hdual.head_le

end IsDual

/-- The first two of the three steps of a truncation. -/
theorem Polyhedral.exists_raised
    (h : mesh.Polyhedral)
    (hfits : mesh.Fits)
    (sides : ℕ) (height : Float) :
    ∃ around, mesh.dual = .ok around ∧ mesh.IsDual around ∧
      around.kis sides height = .ok (around.pyramids sides height) ∧
      (around.pyramids sides height).Polyhedral := by
  obtain ⟨around, haround, hdual⟩ :=
    h.exists_dual hfits.vertexCount_le hfits.faceCount_le
  have haroundFits : around.Fits := by
    unfold Fits at hfits ⊢
    rwa [hdual.vertexCount, hdual.faceCount, Nat.add_comm]
  exact ⟨around, haround, hdual,
    (hdual.polyhedral h).kis_pyramids haroundFits sides height⟩

/-- A truncation that cuts nothing needs no more room than the mesh. -/
theorem Polyhedral.fits_truncate
    (h : mesh.Polyhedral)
    (hfits : mesh.Fits)
    (hnone : mesh.cutCount sides = 0)
    (height : Float) :
    (Operator.truncate sides height).Fits mesh := by
  refine ⟨hfits, fun around raised haround hraised => ?_⟩
  obtain ⟨dual, hdualOk, hdual, hkis, -⟩ :=
    h.exists_raised hfits sides height
  obtain rfl := Except.ok.inj (hdualOk.symm.trans haround)
  obtain rfl := Except.ok.inj (hkis.symm.trans hraised)
  rw [hdual.cutCount_eq_selectedCount h] at hnone
  have hfaces :=
    faces_pyramids_of_none (selected_eq_nil_iff.mpr hnone) height
  have hfaceCount :
      (dual.pyramids sides height).faceCount = mesh.vertexCount :=
    (congrArg List.length hfaces).trans hdual.faceCount
  unfold Fits at hfits ⊢
  rw [vertexCount_pyramids, hnone, hdual.vertexCount, hfaceCount]
  omega

/-- Two duals in a row with nothing raised in between turn the faces, and
every raised face of the dual gives the result one face more. -/
theorem Polyhedral.exists_truncate
    (h : mesh.Polyhedral)
    {height : Float}
    (hfits : (Operator.truncate sides height).Fits mesh) :
    ∃ out, mesh.truncate sides height = .ok out ∧
      (mesh.SameShape out ↔ mesh.cutCount sides = 0) := by
  obtain ⟨around, haround, hdual, hkis, hraisedPoly⟩ :=
    h.exists_raised hfits.1 sides height
  have hsize := hfits.2 around _ haround hkis
  obtain ⟨cut, hcut, hback⟩ :=
    hraisedPoly.exists_dual hsize.vertexCount_le hsize.faceCount_le
  refine ⟨_, truncate_eq_ok haround hkis hcut, ?_⟩
  rw [hdual.cutCount_eq_selectedCount h]
  have hvertices := around.vertexCount_pyramids sides height
  constructor
  · intro hsame
    have hcount : cut.faceCount = mesh.faceCount := hsame.faceCount
    rw [hback.faceCount, hvertices, hdual.vertexCount] at hcount
    omega
  · intro hnone
    have hfaces :=
      faces_pyramids_of_none (selected_eq_nil_iff.mpr hnone) height
    -- the raised dual differs from the dual in its name only
    have hagain := hback.of_faces_eq hfaces.symm (by omega)
    refine sameShape_of_isRotated (hagain.vertexCount.trans hdual.faceCount)
      (hagain.faceCount.trans hdual.vertexCount) fun i face hface => ?_
    obtain ⟨turned, hturned, hrotated, -⟩ :=
      hdual.exists_isRotated hagain h hface
    exact ⟨turned, hturned, hrotated⟩

theorem Polyhedral.vertexCount_ne_zero
    (h : mesh.Polyhedral)
    (hne : mesh.faces ≠ []) :
    mesh.vertexCount ≠ 0 := by
  obtain ⟨face, hface⟩ := List.exists_mem_of_ne_nil _ hne
  obtain ⟨v, hv⟩ := List.exists_mem_of_ne_nil _ (h.face_ne_nil hface)
  exact Nat.ne_zero_of_lt (h.inRange face hface v hv)

/-- Without a filter every vertex is cut. -/
theorem Polyhedral.cutCount_zero (h : mesh.Polyhedral) :
    mesh.cutCount 0 = mesh.vertexCount := by
  have hall :
      ∀ v ∈ List.range mesh.vertexCount, mesh.faces.cuts 0 v = true :=
    fun _ _ => Face.passes_zero _
  rw [h.cutCount_eq, cutVertices, List.filter_eq_self.mpr hall,
    List.length_range]

end Mesh

/-! ## The warning -/

namespace Operator

/-- The operator says one thing about the mesh, a warning under its own
name. -/
def Warns (op : Operator) (mesh : Mesh) : Prop :=
  ∃ message, op.remarks mesh = [.warning op.name message]

variable {mesh out : Mesh} {op : Operator} {count : ℕ} {message : String}

theorem warns_iff_sameShape
    (hremarks :
      op.remarks mesh = if count = 0 then [.warning op.name message] else [])
    (hshape : mesh.SameShape out ↔ count = 0) :
    (op.Warns mesh ↔ mesh.SameShape out) ∧
      (¬ mesh.SameShape out → op.remarks mesh = []) := by
  unfold Warns
  rw [hremarks, hshape]
  by_cases hcount : count = 0
  · simp [hcount]
  · simp [hcount]

/-- A truncation without a filter never warns, because there is always a
vertex to cut. -/
theorem remarks_truncate
    (h : mesh.Polyhedral)
    (hne : mesh.faces ≠ [])
    (sides : ℕ) (height : Float) :
    (truncate sides height).remarks mesh = if mesh.cutCount sides = 0 then
        [.warning "truncate"
          (s!"no vertices of degree {sides} in '" ++ mesh.name ++ "'")]
      else [] := by
  refine if_congr
    ⟨fun hwarns => hwarns.2.2, fun hnone => ⟨?_, h.inRange, hnone⟩⟩ rfl rfl
  rintro rfl
  exact h.vertexCount_ne_zero hne (h.cutCount_zero.symm.trans hnone)

end Operator

/-- On a polyhedral mesh with faces, kis, inset, extrude, loft and truncation
warn exactly when they leave the shape as it is, and otherwise they say
nothing.  The vertices that a truncation counts before it starts are as many
as the faces that its kis selects in the dual. -/
theorem Mesh.Polyhedral.warns_iff_unchanged {mesh : Mesh}
    (h : mesh.Polyhedral)
    (hne : mesh.faces ≠ [])
    (hfits : mesh.Fits) :
    (∀ op : Operator, op.code ∈ ['k', 'n', 'x', 'l', 't'] → op.Fits mesh →
        ∃ out, op.transform mesh = .ok out ∧
          (op.Warns mesh ↔ mesh.SameShape out) ∧
          (¬ mesh.SameShape out → op.remarks mesh = [])) ∧
      ∃ around, mesh.dual = .ok around ∧
        ∀ sides, mesh.cutCount sides = around.selectedCount sides := by
  have hclosed : mesh.Closed := h.surrounded.toClosed
  have hfaces : ∀ face ∈ mesh.faces, face ≠ [] := fun _ => h.face_ne_nil
  refine ⟨fun op hop hopFits => ?_, ?_⟩
  · cases op with
    | kis sides height =>
        obtain ⟨hout, -⟩ := h.kis_pyramids hfits sides height
        exact ⟨_, hout, Operator.warns_iff_sameShape rfl
          (mesh.sameShape_pyramids_iff sides height)⟩
    | inset sides fraction offset =>
        obtain ⟨out, _, hout, hmoves⟩ :=
          hclosed.exists_movesTo sides fraction offset _
        exact ⟨out, hout,
          Operator.warns_iff_sameShape rfl (hmoves.sameShape_iff hfaces)⟩
    | extrude sides =>
        obtain ⟨out, _, hout, hmoves⟩ :=
          hclosed.exists_movesTo sides 0 extrudeOffset _
        exact ⟨out, hout,
          Operator.warns_iff_sameShape rfl (hmoves.sameShape_iff hfaces)⟩
    | loft sides fraction =>
        obtain ⟨out, _, hout, hmoves⟩ :=
          hclosed.exists_movesTo sides fraction 0 _
        exact ⟨out, hout,
          Operator.warns_iff_sameShape rfl (hmoves.sameShape_iff hfaces)⟩
    | truncate sides height =>
        obtain ⟨out, hout, hshape⟩ := h.exists_truncate hopFits
        exact ⟨out, hout, Operator.warns_iff_sameShape
          (Operator.remarks_truncate h hne sides height) hshape⟩
    | _ => simp [Operator.code] at hop
  · obtain ⟨around, haround, hdual⟩ :=
      h.exists_dual hfits.vertexCount_le hfits.faceCount_le
    exact ⟨around, haround, hdual.cutCount_eq_selectedCount h⟩

/-- No face and no vertex of a square pyramid has five edges; its four sides
are triangles, and its apex is one quadrilateral of the dual. -/
theorem Mesh.Polyhedral.warns_iff_unchanged_pyramid :
    squarePyramid.Polyhedral ∧ squarePyramid.faces ≠ [] ∧
      squarePyramid.Fits ∧
      (∃ out, squarePyramid.kis 5 0.5 = .ok out ∧
        (Operator.kis 5 0.5).Warns squarePyramid ∧
        squarePyramid.SameShape out) ∧
      (∃ out, squarePyramid.truncate 5 1 = .ok out ∧
        (Operator.truncate 5 1).Warns squarePyramid ∧
        squarePyramid.SameShape out) ∧
      (∃ out, squarePyramid.extrude 3 = .ok out ∧
        (Operator.extrude 3).remarks squarePyramid = [] ∧
        ¬ squarePyramid.SameShape out) ∧
      ∃ around, squarePyramid.dual = .ok around ∧
        around.selectedCount 4 = 1 := by
  have hpoly := squarePyramid_polyhedral
  have hne : squarePyramid.faces ≠ [] := by decide
  have hfits : squarePyramid.Fits := by
    unfold Fits
    decide
  have hcut : squarePyramid.cutCount 5 = 0 := by decide
  have hsides : (Operator.extrude 3).remarks squarePyramid = [] := rfl
  obtain ⟨hops, around, haround, hcount⟩ :=
    hpoly.warns_iff_unchanged hne hfits
  obtain ⟨raised, hraised, hkis, -⟩ := hops (.kis 5 0.5) (by decide) hfits
  obtain ⟨cut, hcutOk, htruncate, -⟩ :=
    hops (.truncate 5 1) (by decide) (hpoly.fits_truncate hfits hcut 1)
  obtain ⟨extruded, hextruded, hextrude, -⟩ :=
    hops (.extrude 3) (by decide) hfits
  have hwarns : (Operator.kis 5 0.5).Warns squarePyramid := ⟨_, rfl⟩
  have hwarns' : (Operator.truncate 5 1).Warns squarePyramid :=
    ⟨_, (Operator.remarks_truncate hpoly hne 5 1).trans (if_pos hcut)⟩
  refine ⟨hpoly, hne, hfits, ⟨raised, hraised, hwarns, hkis.mp hwarns⟩,
    ⟨cut, hcutOk, hwarns', htruncate.mp hwarns'⟩,
    ⟨extruded, hextruded, hsides, fun hsame => ?_⟩, around, haround,
    (hcount 4).symm⟩
  obtain ⟨message, hmessage⟩ := hextrude.mpr hsame
  rw [hsides] at hmessage
  cases hmessage

end Polyhedra
