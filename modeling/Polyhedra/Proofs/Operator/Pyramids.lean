import Mathlib
import Polyhedra.Proofs.Operator.StartingCorner
import Polyhedra.Proofs.Surface.Degree

/-!
# The pyramids of kis

Input vertices keep their indices and the apexes follow in the order of the
selected faces.  So the degree of every vertex of the result is known: an
input vertex gains one face for every selected face around it, and an apex is
on as many faces as its base has sides.
-/

namespace Polyhedra

theorem Incidence.ncard_rename_at {F K G L : Type} {R : Incidence F K}
    {onFace : F → G} {onKey : K → L}
    (hface : Set.InjOn onFace R.faces)
    (hkey : Set.InjOn onKey R.tails)
    {v : K}
    (hv : v ∈ R.tails) :
    {i | ∃ w, R.rename onFace onKey i (onKey v) w}.ncard =
      {f | ∃ w, R f v w}.ncard := by
  have himage : {i | ∃ w, R.rename onFace onKey i (onKey v) w} =
      onFace '' {f | ∃ w, R f v w} := by
    ext i
    constructor
    · rintro ⟨_, f, u, w, h, rfl, heq, rfl⟩
      obtain rfl := hkey (mem_tails h) hv heq
      exact ⟨f, ⟨w, h⟩, rfl⟩
    · rintro ⟨f, ⟨w, h⟩, rfl⟩
      exact ⟨_, rename_of h⟩
  rw [himage]
  apply Set.InjOn.ncard_image
  exact hface.mono fun f ⟨_, h⟩ => mem_faces h

namespace Surface

variable {surface : Surface}

theorem ncard_corners {i : ℕ} {face : Face}
    (hface : surface[i]? = some face)
    (hsimple : face.Nodup)
    (p : ℕ → Bool) :
    {v | p v ∧ ∃ w, surface.incidence i v w}.ncard = face.countP p := by
  have hcorners : {v | p v ∧ ∃ w, surface.incidence i v w} =
      (face.filter p).toFinset := by
    ext v
    simp [exists_incidence_iff, hface, and_comm]
  rw [hcorners, Set.ncard_coe_finset,
    List.toFinset_card_of_nodup (hsimple.filter _),
    List.countP_eq_length_filter]

/-- The flags of some faces are counted by the lengths of these faces. -/
theorem ncard_flags_of_faces
    (hsimple : ∀ face ∈ surface, face.Nodup)
    {indices : List ℕ}
    (hnodup : indices.Nodup) :
    {flag ∈ surface.incidence.flags | flag.1 ∈ indices}.ncard =
      (indices.map fun i => (surface.getD i []).length).sum := by
  -- the flags as a list, face by face
  let listed : List (ℕ × Edge) := indices.flatMap fun i =>
    (surface.getD i []).edges.map fun edge => (i, edge)
  have hflags : {flag ∈ surface.incidence.flags | flag.1 ∈ indices} =
      listed.toFinset := by
    ext ⟨i, edge⟩
    have hedge : (i, edge) ∈ surface.incidence.flags ↔
        edge ∈ (surface.getD i []).edges := by
      rw [List.getD_eq_getElem?_getD]
      cases hface : surface[i]? with
      | none => simp [Incidence.flags, incidence, hface, Face.edges]
      | some face => exact incidence_iff_of_getElem? hface
    simp only [listed, Set.mem_ofPred_eq, Finset.mem_coe, List.mem_toFinset,
      List.mem_flatMap, List.mem_map, Prod.mk.injEq, hedge]
    grind
  have hlisted : listed.Nodup := by
    refine List.nodup_flatMap.mpr ⟨fun i _ => ?_, ?_⟩
    · have hedges : (surface.getD i []).edges.Nodup := by
        refine List.Nodup.of_map Prod.fst ?_
        rw [Face.edges, List.map_fst_zip (by simp)]
        rw [List.getD_eq_getElem?_getD]
        cases hface : surface[i]? with
        | none => exact List.nodup_nil
        | some face => exact hsimple face (List.mem_of_getElem? hface)
      exact hedges.map fun _ _ heq => (Prod.mk.inj heq).2
    · refine hnodup.imp fun hne flag hi hj => hne ?_
      obtain ⟨_, -, rfl⟩ := List.mem_map.mp hi
      obtain ⟨_, -, heq⟩ := List.mem_map.mp hj
      exact (Prod.mk.inj heq).1.symm
  rw [hflags, Set.ncard_coe_finset, List.toFinset_card_of_nodup hlisted,
    List.length_flatMap]
  simp

theorem Selects.lt {sides i : ℕ} (h : surface.Selects sides i) :
    i < surface.length :=
  let ⟨_, hface, _⟩ := h
  (List.getElem?_eq_some_iff.mp hface).1

/-- The indices of the faces that pass the filter. -/
def selectedIndices (surface : Surface) (sides : ℕ) : List ℕ :=
  (surface.indexed.filter fun (face, _) => Face.passes sides face.length).map
    Prod.snd

theorem mem_selectedIndices_iff {sides i : ℕ} :
    i ∈ surface.selectedIndices sides ↔ surface.Selects sides i := by
  simp only [selectedIndices, List.mem_map, List.mem_filter, Prod.exists,
    mem_indexed_iff, exists_eq_right, Selects]

theorem selectedIndices_ascending (surface : Surface) (sides : ℕ) :
    (surface.selectedIndices sides).Pairwise (· < ·) := by
  have hindices :
      surface.indexed.Pairwise fun entry other => entry.2 < other.2 := by
    rw [← List.pairwise_map (f := Prod.snd) (R := fun i j => i < j), indexed,
      List.zipIdx_map_snd]
    exact List.pairwise_lt_range'
  exact List.pairwise_map.mpr (hindices.filter _)

end Surface

namespace Mesh

variable {mesh : Mesh}

theorem Realizes.degree_eq {G L : Type} {R : Incidence G L}
    {sites : List (L × Point)} {onFace : G → ℕ} {onVertex : L → ℕ}
    (h : mesh.Realizes R sites onFace onVertex)
    {v : L}
    (hv : v ∈ R.tails) :
    mesh.faces.degree (onVertex v) = {f | ∃ w, R f v w}.ncard := by
  rw [Surface.degree_eq_ncard fun face hface => (h.nodup face hface).1,
    h.incidence]
  exact Incidence.ncard_rename_at h.injOn_face h.injOn_tails hv

/-- The vertices of kis by their roles. -/
def pyramidSites (mesh : Mesh) (sides : ℕ) (height : Float) :
    List (VertexRole × Point) :=
  (mesh.indexedVertices.map fun (p, v) => (.corner v, p)) ++
    (mesh.faces.indexed.filter fun (face, _) =>
      Face.passes sides face.length).map fun (face, i) =>
      (.center i, mesh.faceCenter face + mesh.faceNormal face * height)

theorem kisBlueprint_sites (mesh : Mesh) (sides : ℕ) (height : Float) :
    (mesh.kisBlueprint sides height).sites =
      (mesh.pyramidSites sides height).map fun (role, p) =>
        (Surface.kisKey mesh.vertexCount role, p) := by
  simp [kisBlueprint, pyramidSites, indexSites, apexSites, Surface.kisKey,
    Function.comp_def]

theorem mem_pyramidSites_iff {sides : ℕ} {height : Float}
    {role : VertexRole} :
    role ∈ (mesh.pyramidSites sides height).map Prod.fst ↔
      (∃ v < mesh.vertexCount, .corner v = role) ∨
      ∃ i, mesh.faces.Selects sides i ∧ .center i = role := by
  have hvertices :
      mesh.indexedVertices.map (fun entry => VertexRole.corner entry.2) =
        (List.range mesh.vertexCount).map .corner := by
    rw [range_vertexCount, List.map_map]
    rfl
  have hapexes : (mesh.faces.indexed.filter fun (face, _) =>
          Face.passes sides face.length).map
        (fun entry => VertexRole.center entry.2) =
      (mesh.faces.selectedIndices sides).map .center := by
    rw [Surface.selectedIndices, List.map_map]
    rfl
  rw [pyramidSites, List.map_append, List.map_map, List.map_map,
    Function.comp_def, Function.comp_def, hvertices, hapexes,
    List.mem_append]
  simp [Surface.mem_selectedIndices_iff]

theorem Polyhedral.setOf_pyramidSites
    (h : mesh.Polyhedral)
    (sides : ℕ) (height : Float) :
    {role | role ∈ (mesh.pyramidSites sides height).map Prod.fst} =
      (Incidence.kis mesh.faces.incidence
        (mesh.faces.Selects sides)).tails := by
  ext role
  rw [Set.mem_ofPred_eq, mem_pyramidSites_iff,
    Incidence.tails_kis h.incidence.toCyclic, h.tails_eq, h.faces_eq]
  constructor
  · rintro (⟨v, hv, rfl⟩ | ⟨i, hi, rfl⟩)
    · exact .inl ⟨v, hv, rfl⟩
    · exact .inr ⟨i, ⟨hi.lt, hi⟩, rfl⟩
  · rintro (⟨v, hv, rfl⟩ | ⟨i, ⟨-, hi⟩, rfl⟩)
    · exact .inl ⟨v, hv, rfl⟩
    · exact .inr ⟨i, hi, rfl⟩

/-- The input vertices come first and the apexes follow in the order of the
selected faces. -/
theorem kisBlueprint_keys (hfits : mesh.Fits) (sides : ℕ) (height : Float) :
    (mesh.kisBlueprint sides height).system.positions.keys =
      (List.range mesh.vertexCount ++
        (mesh.faces.selectedIndices sides).map (mesh.vertexCount + ·)).map
        IndexKey.single := by
  apply eq_of_ascending Std.ExtTreeMap.ordered_keys
  · rw [List.pairwise_map]
    have hascending : (List.range mesh.vertexCount ++
        (mesh.faces.selectedIndices sides).map
          (mesh.vertexCount + ·)).Pairwise (· < ·) := by
      refine List.pairwise_append.mpr ⟨List.pairwise_lt_range, ?_, ?_⟩
      · exact List.pairwise_map.mpr ((Surface.selectedIndices_ascending _
          _).imp fun hij => Nat.add_lt_add_left hij _)
      · intro v hv x hx
        obtain ⟨i, -, rfl⟩ := List.mem_map.mp hx
        exact (List.mem_range.mp hv).trans_le (Nat.le_add_right _ _)
    refine hascending.imp_of_mem fun {v x} _ hx hlt =>
      IndexKey.compare_single hlt ?_
    unfold Fits at hfits
    rcases List.mem_append.mp hx with hx | hx
    · have hx := List.mem_range.mp hx
      omega
    · obtain ⟨i, hi, rfl⟩ := List.mem_map.mp hx
      have hlt : i < mesh.faceCount :=
        (Surface.mem_selectedIndices_iff.mp hi).lt
      omega
  · intro key
    rw [Std.ExtTreeMap.mem_keys, mem_kisBlueprint_positions, List.map_append,
      List.mem_append, List.map_map]
    simp only [List.mem_map, List.mem_range, Surface.mem_selectedIndices_iff]
    constructor
    · rintro (⟨v, hv, rfl⟩ | ⟨i, -, hi, rfl⟩)
      exacts [.inl ⟨v, hv, rfl⟩, .inr ⟨i, hi, rfl⟩]
    · rintro (⟨v, hv, rfl⟩ | ⟨i, hi, rfl⟩)
      exacts [.inl ⟨v, hv, rfl⟩, .inr ⟨i, hi.lt, hi, rfl⟩]

/-- The apexes are numbered in the order of the selected faces. -/
theorem kisBlueprint_rank_apex
    (hfits : mesh.Fits)
    {sides : ℕ} {height : Float} {r i : ℕ}
    (hi : (mesh.faces.selectedIndices sides)[r]? = some i) :
    (mesh.kisBlueprint sides height).system.rank (.apex mesh.vertexCount i) =
      mesh.vertexCount + r := by
  have hselects :=
    Surface.mem_selectedIndices_iff.mp (List.mem_of_getElem? hi)
  have hlt : i < mesh.faceCount := hselects.lt
  refine (FlagSystem.rank_eq_iff _
    (mem_kisBlueprint_positions.mpr (.inr ⟨i, hlt, hselects, rfl⟩))).mpr ?_
  rw [kisBlueprint_keys hfits, List.getElem?_map,
    List.getElem?_append_right (by simp), List.length_range,
    Nat.add_sub_cancel_left, List.getElem?_map, hi]
  rfl

/-- Kis makes its faces with the input vertices under their own indices and
the apexes after them. -/
theorem Polyhedral.exists_pyramids
    (h : mesh.Polyhedral)
    (hfits : mesh.Fits)
    (sides : ℕ) (height : Float) :
    ∃ out onFace onVertex, mesh.kis sides height = .ok out ∧ out.Polyhedral ∧
      out.Realizes
        (Incidence.kis mesh.faces.incidence (mesh.faces.Selects sides))
        (mesh.pyramidSites sides height) onFace onVertex ∧
      (∀ v < mesh.vertexCount, onVertex (.corner v) = v) ∧
      ∀ r i, (mesh.faces.selectedIndices sides)[r]? = some i →
        onVertex (.center i) = mesh.vertexCount + r := by
  have hroles := h.setOf_pyramidSites sides height
  have hsites := h.mem_kisBlueprint_sites sides height
  obtain ⟨out, hout, -, hdescribes⟩ :=
    Blueprint.exists_build (h.kisBlueprint_polyhedral hfits sides
        height).toCyclic (fun key hkey => (hsites key).mpr hkey)
      (InRange.nodup_kisPolygons hfits sides h.inRange fun face hface =>
        ⟨h.simple face hface, h.face_ne_nil hface⟩)
      (Word.prepend 'k' sides mesh.name)
  have hrealizes := hdescribes.realizes fun key hkey => (hsites key).mpr hkey
  rw [kisBlueprint_shape h.simple, kisBlueprint_sites] at hrealizes
  have hvertex :=
    InRange.injOn_kisKey hfits sides h.inRange h.incidence.toCyclic
  rw [← hroles] at hvertex
  exact ⟨out, _, _, (InRange.kis_eq h.inRange sides height).trans hout,
    hdescribes.polyhedral (h.kisBlueprint_polyhedral hfits sides height)
      hsites, hrealizes.of_rename
      (InRange.injOn_kisFace hfits sides h.inRange) hvertex hroles.ge,
    fun v hv => kisBlueprint_rank_single hfits.vertexCount_le hv,
      fun r i hi => kisBlueprint_rank_apex hfits hi⟩

end Mesh
end Polyhedra
