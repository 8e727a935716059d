import Mathlib
import Polyhedra.Proofs.Flag.Relabelling
import Polyhedra.Proofs.Operator.Moved

/-!
# The mesh that kis makes

On any mesh of polygons, closed or not, the result of kis can be written
down: which point has which index, which face comes at which place, and at
which corner it starts.  The walked triangles come in the order of their keys
and start at their smallest key, and the kept faces follow them unchanged.
-/

namespace Polyhedra

theorem IndexKey.compare_pair {i j a b : ℕ}
    (hlt : i < j ∨ i = j ∧ a < b)
    (hj : j ≤ maxIndex)
    (hb : b ≤ maxIndex) :
    compare (pair i a) (pair j b) = .lt := by
  change lexicographic _ _ = .lt
  rcases hlt with hij | ⟨rfl, hab⟩
  · have hslot : slot i < slot j := by
      rw [slot_eq hj, slot_eq (hij.le.trans hj)]
      omega
    simp [lexicographic, compareLex, compareOn, pair,
      Nat.compare_eq_lt.mpr hslot]
  · have hslot : slot a < slot b := by
      rw [slot_eq hb, slot_eq (hab.le.trans hb)]
      omega
    simp [lexicographic, compareLex, compareOn, pair,
      Nat.compare_eq_lt.mpr hslot]

section Sites

variable {F K : Type} [Ord F] [Ord K] [Std.TransOrd F] [Std.TransOrd K]
  [Std.LawfulEqOrd K] [DecidableEq K]

/-- Sites that are declared under ascending keys are listed as they are. -/
theorem FlagSystem.Lists.vertices_eq {blueprint : Blueprint F K}
    {solid : Solid}
    (h : blueprint.system.Lists solid)
    (hascending : (blueprint.sites.map Prod.fst).Pairwise fun key other =>
      compare key other = .lt) :
    solid.vertices = blueprint.sites.map Prod.snd := by
  obtain ⟨keys, hkeys, hmem, hlist⟩ := h.vertices
  obtain rfl : keys = blueprint.sites.map Prod.fst :=
    eq_of_ascending hkeys hascending fun key =>
      (hmem key).trans Blueprint.mem_positions_iff
  have hposition : ∀ site ∈ blueprint.sites,
      blueprint.system.position? site.1 = some site.2 := by
    intro site hsite
    have hregistered :=
      Blueprint.mem_positions_iff.mpr (List.mem_map_of_mem hsite)
    obtain ⟨p, hp⟩ :=
      Option.isSome_iff_exists.mp
        (Std.ExtTreeMap.mem_iff_isSome_getElem?.mp hregistered)
    have hsame := List.inj_on_of_nodup_map (nodup_of_ascending hascending)
      (Blueprint.mem_sites_of_position? hp) hsite rfl
    rw [← hsame]
    exact hp
  rw [List.map_map, Function.comp_def, List.map_congr_left hposition]
    at hlist
  apply List.map_injective_iff.mpr (Option.some_injective Point)
  rw [hlist, List.map_map]
  rfl

end Sites

namespace Face

/-- The directed edges of a face by ascending tails. -/
def ascendingEdges (face : Face) : List Edge :=
  face.edges.insertionSort (Order.Preimage Prod.fst (· ≤ ·))

theorem mem_ascendingEdges {face : Face} {edge : Edge} :
    edge ∈ face.ascendingEdges ↔ edge ∈ face.edges :=
  (List.perm_insertionSort _ _).mem_iff

theorem ascendingEdges_pairwise {face : Face} (hsimple : face.Nodup) :
    face.ascendingEdges.Pairwise fun edge other => edge.1 < other.1 := by
  have hle :
      face.ascendingEdges.Pairwise fun edge other => edge.1 ≤ other.1 :=
    List.pairwise_insertionSort _ _
  have hne :
      face.ascendingEdges.Pairwise fun edge other => edge.1 ≠ other.1 := by
    rw [← List.pairwise_map (f := Prod.fst) (R := (· ≠ ·))]
    refine ((List.perm_insertionSort _ _).map Prod.fst).nodup_iff.mpr ?_
    rwa [edges, List.map_fst_zip (by simp)]
  exact hle.imp₂ (fun _ _ => lt_of_le_of_ne) hne

/-- The triangle on the edge from `a` to `b`, from the smaller end of the
edge on. -/
def pyramidTriangle (apex a b : ℕ) : Face :=
  if a < b then [a, b, apex] else [b, apex, a]

theorem pyramidTriangle_isRotated (apex a b : ℕ) :
    pyramidTriangle apex a b ~r [a, b, apex] := by
  unfold pyramidTriangle
  split
  · rfl
  · exact ⟨2, rfl⟩

/-- The smaller end of the edge is the smallest corner, because the apex
comes last. -/
theorem eq_pyramidTriangle {face : Face} {apex a b : ℕ}
    (hrotated : face ~r [a, b, apex])
    (hab : a ≠ b)
    (ha : a < apex)
    (hb : b < apex)
    (hface : ∀ first ∈ face.head?, ∀ v ∈ face, first ≤ v) :
    face = pyramidTriangle apex a b := by
  refine eq_of_isRotated
    (hrotated.trans (pyramidTriangle_isRotated apex a b).symm) ?_ ?_ hface
  · rw [(pyramidTriangle_isRotated apex a b).nodup_iff]
    grind
  · intro first hfirst v hv
    unfold pyramidTriangle at hfirst hv
    grind

end Face

theorem Surface.polygonal_of_long {surface : Surface}
    (hfaces : ∀ face ∈ surface, 3 ≤ face.length ∧ face.Nodup) :
    surface.incidence.Polygonal where
  toCyclic := cyclic_of_nodup fun face hface => (hfaces face hface).2
  ne := by
    rintro i a b ⟨face, hface, hab⟩
    obtain ⟨hlong, hsimple⟩ := hfaces face (List.mem_of_getElem? hface)
    exact Face.step_ne hsimple hlong hab
  long := by
    rintro i a b c ⟨face, hface, hab⟩ ⟨other, hother, hbc⟩
    obtain rfl := Option.some.inj (hface.symm.trans hother)
    obtain ⟨hlong, hsimple⟩ := hfaces face (List.mem_of_getElem? hface)
    exact Face.step_step_ne hsimple hlong hab hbc

namespace Mesh

/-- Every edge of every selected face, with the face and the index of its
apex. -/
def pyramidEdges (mesh : Mesh) (sides : ℕ) : List (ℕ × ℕ × Edge) :=
  ((mesh.faces.indexed.filter fun (face, _) =>
      Face.passes sides face.length).zipIdx mesh.vertexCount).flatMap
    fun ((face, i), apex) =>
      face.ascendingEdges.map fun edge => (i, apex, edge)

/-- A mesh with pyramids on its selected faces: the vertices and then the
apexes, the triangles and then the faces that are kept. -/
def pyramids (mesh : Mesh) (sides : ℕ) (height : Float) : Mesh where
  name := Word.prepend 'k' sides mesh.name
  vertices := mesh.vertices ++ ((mesh.faces.selected sides).map fun face =>
    mesh.faceCenter face + mesh.faceNormal face * height).toArray
  faces :=
    ((mesh.faces.selected sides).zipIdx mesh.vertexCount).flatMap
      (fun (face, apex) =>
      face.ascendingEdges.map fun (a, b) => Face.pyramidTriangle apex a b) ++
    mesh.faces.filter fun face => !Face.passes sides face.length

variable {mesh : Mesh} {sides : ℕ}

theorem mem_pyramidEdges_iff {i apex : ℕ} {edge : Edge} :
    (i, apex, edge) ∈ mesh.pyramidEdges sides ↔
      ∃ r, apex = mesh.vertexCount + r ∧
        (mesh.faces.selectedIndices sides)[r]? = some i ∧
        mesh.faces.incidence i edge.1 edge.2 := by
  simp only [pyramidEdges, List.mem_flatMap, List.mem_map, Prod.exists,
    Prod.mk.injEq, List.mem_zipIdx_iff_le_and_getElem?_sub]
  constructor
  · rintro ⟨face, _, _, ⟨hle, hentry⟩, _, _, hedge, rfl, rfl, rfl⟩
    have hmem := List.mem_of_mem_filter (List.mem_of_getElem? hentry)
    refine ⟨_, (Nat.add_sub_of_le hle).symm, ?_, ?_⟩
    · rw [Surface.selectedIndices, List.getElem?_map, hentry]
      rfl
    · exact ⟨face, Surface.mem_indexed_iff.mp hmem,
        Face.mem_ascendingEdges.mp hedge⟩
  · rintro ⟨r, rfl, hi, face, hface, hedge⟩
    rw [Surface.selectedIndices, List.getElem?_map, Option.map_eq_some_iff]
      at hi
    obtain ⟨⟨other, _⟩, hentry, rfl⟩ := hi
    have hmem := List.mem_of_mem_filter (List.mem_of_getElem? hentry)
    have hsame := (Surface.mem_indexed_iff.mp hmem).symm.trans hface
    obtain rfl := Option.some.inj hsame
    refine ⟨other, _, _, ⟨Nat.le_add_right _ _, ?_⟩, _, _,
      Face.mem_ascendingEdges.mpr hedge, rfl, rfl, rfl⟩
    rwa [Nat.add_sub_cancel_left]

theorem map_pyramidEdges :
    (mesh.pyramidEdges sides).map
        (fun (_, apex, a, b) => Face.pyramidTriangle apex a b) =
      ((mesh.faces.selected sides).zipIdx mesh.vertexCount).flatMap
        fun (face, apex) =>
      face.ascendingEdges.map fun (a, b) =>
          Face.pyramidTriangle apex a b := by
  rw [← Surface.map_fst_selected, List.zipIdx_map, List.flatMap_map,
    pyramidEdges, List.map_flatMap]
  simp only [List.map_map]
  rfl

section Listed

variable (hrange : mesh.InRange) (hfits : mesh.Fits)

include hrange hfits

/-- The triangles are declared under ascending keys. -/
theorem pyramidEdges_pairwise (hsimple : ∀ face ∈ mesh.faces, face.Nodup) :
    ((mesh.pyramidEdges sides).map fun (i, _, a, _) =>
      IndexKey.pair i a).Pairwise fun key other => compare key other =
        .lt := by
  have hface : ∀ {face : Face} {i}, (face, i) ∈ mesh.faces.indexed →
      i ≤ IndexKey.maxIndex :=
    fun hentry => (List.getElem?_eq_some_iff.mp
      (Surface.mem_indexed_iff.mp hentry)).1.le.trans hfits.faceCount_le
  have htail : ∀ {face : Face} {i} {edge}, (face, i) ∈ mesh.faces.indexed →
      edge ∈ face.ascendingEdges → edge.1 ≤ IndexKey.maxIndex := by
    intro face i edge hentry hedge
    have hincidence : mesh.faces.incidence i edge.1 edge.2 :=
      ⟨face, Surface.mem_indexed_iff.mp hentry,
        Face.mem_ascendingEdges.mp hedge⟩
    exact hrange.vertex_fits hfits.vertexCount_le
      (Incidence.mem_tails hincidence)
  have hmem : ∀ {face : Face} {i apex}, ((face, i), apex) ∈
        (mesh.faces.indexed.filter fun (face, _) =>
          Face.passes sides face.length).zipIdx mesh.vertexCount →
      (face, i) ∈ mesh.faces.indexed :=
    fun hentry => List.mem_of_mem_filter (List.fst_mem_of_mem_zipIdx hentry)
  rw [pyramidEdges, List.map_flatMap]
  refine List.pairwise_flatMap.mpr ⟨?_, ?_⟩
  · rintro ⟨⟨face, i⟩, apex⟩ hentry
    have hentry := hmem hentry
    rw [List.map_map, List.pairwise_map]
    have hnodup :=
      hsimple face (List.mem_of_getElem? (Surface.mem_indexed_iff.mp hentry))
    refine (Face.ascendingEdges_pairwise hnodup).imp_of_mem
      fun {_ _} _ hother hlt => ?_
    exact IndexKey.compare_pair (.inr ⟨rfl, hlt⟩) (hface hentry)
      (htail hentry hother)
  · have hascending := mesh.faces.selectedIndices_ascending sides
    rw [Surface.selectedIndices,
      ← List.zipIdx_map_fst mesh.vertexCount (List.filter _ _),
      List.pairwise_map, List.pairwise_map] at hascending
    refine hascending.imp_of_mem ?_
    rintro ⟨⟨face, i⟩, apex⟩ ⟨⟨other, j⟩, apex'⟩ - hother hlt key hkey key'
      hkey'
    have hother := hmem hother
    rw [List.map_map] at hkey hkey'
    obtain ⟨edge, -, rfl⟩ := List.mem_map.mp hkey
    obtain ⟨edge', hedge', rfl⟩ := List.mem_map.mp hkey'
    exact IndexKey.compare_pair (.inl hlt) (hface hother)
      (htail hother hedge')

theorem faceKeys_kisBlueprint
    (hsimple : ∀ face ∈ mesh.faces, face.Nodup)
    (height : Float) :
    (mesh.kisBlueprint sides height).system.faces.keys =
      (mesh.pyramidEdges sides).map fun (i, _, a, _) =>
        IndexKey.pair i a := by
  apply eq_of_ascending Std.ExtTreeMap.ordered_keys
    (pyramidEdges_pairwise hrange hfits hsimple)
  intro key
  rw [Std.ExtTreeMap.mem_keys, Blueprint.mem_faces_iff]
  simp only [kisBlueprint, List.mem_map, Prod.exists, mem_pyramidEdges_iff]
  constructor
  · rintro ⟨⟨_, v, w⟩, hflag, rfl⟩
    obtain ⟨i, a, b, hab, hi, rfl, -⟩ := Surface.mem_kisFlags_iff.mp hflag
    obtain ⟨r, hr⟩ :=
      List.mem_iff_getElem?.mp (Surface.mem_selectedIndices_iff.mpr hi)
    exact ⟨i, _, a, b, ⟨r, rfl, hr, hab⟩, rfl⟩
  · rintro ⟨i, _, a, b, ⟨r, rfl, hr, hab⟩, rfl⟩
    have hi := Surface.mem_selectedIndices_iff.mp (List.mem_of_getElem? hr)
    exact ⟨⟨_, _, _⟩, Surface.mem_kisFlags_iff.mpr
        ⟨i, a, b, hab, hi, rfl, Face.mem_steps_three.mpr (.inl ⟨rfl, rfl⟩)⟩,
      rfl⟩

omit hrange in
theorem siteKeys_kisBlueprint (height : Float) :
    (mesh.kisBlueprint sides height).sites.map Prod.fst =
      (mesh.kisBlueprint sides height).system.positions.keys := by
  have hvertices :
      mesh.indexedVertices.map (fun entry => IndexKey.single entry.2) =
        (List.range mesh.vertexCount).map .single := by
    rw [range_vertexCount, List.map_map]
    rfl
  rw [kisBlueprint_keys hfits, List.map_append, ← hvertices, kisBlueprint,
    indexSites, apexSites, Surface.selectedIndices, List.map_append,
    List.map_map, List.map_map, List.map_map, List.map_map]
  rfl

omit hrange in
/-- The sites of kis are declared in the order of their keys. -/
theorem vertices_kisBlueprint {height : Float} {solid : Solid}
    (hsolid : (mesh.kisBlueprint sides height).system.resolve = .ok solid) :
    solid.vertices =
      mesh.vertices.toList ++ (mesh.faces.selected sides).map fun face =>
      mesh.faceCenter face + mesh.faceNormal face * height := by
  have hascending : (mesh.kisBlueprint sides height).sites.map Prod.fst =
      (mesh.kisBlueprint sides height).system.positions.keys :=
    siteKeys_kisBlueprint hfits height
  rw [(FlagSystem.lists_of_resolve hsolid).vertices_eq
      (hascending ▸ Std.ExtTreeMap.ordered_keys), kisBlueprint, indexSites,
    apexSites, List.map_append, List.map_map, List.map_map, indexedVertices,
    Surface.selected, ← Surface.map_filter_indexed]
  refine congrArg₂ _ ?_ rfl
  exact List.zipIdx_map_fst 0 mesh.vertices.toList

variable (hfaces : ∀ face ∈ mesh.faces, 3 ≤ face.length ∧ face.Nodup)
include hfaces

/-- Every walked face is the triangle of its key. -/
theorem faces_kisBlueprint {height : Float} {solid : Solid}
    (hsolid : (mesh.kisBlueprint sides height).system.resolve = .ok solid) :
    solid.faces = (mesh.pyramidEdges sides).map fun (_, apex, a, b) =>
      Face.pyramidTriangle apex a b := by
  have hpolygonal := Surface.polygonal_of_long hfaces
  have hlists := FlagSystem.lists_of_resolve hsolid
  have hvertices := hfits.vertexCount_le
  have hwalked := hlists.faces_forall₂
  rw [faceKeys_kisBlueprint hrange hfits fun face hface =>
    (hfaces face hface).2, List.forall₂_map_left_iff] at hwalked
  have htriangle : ∀ entry ∈ mesh.pyramidEdges sides, ∀ face ∈ solid.faces,
        (mesh.kisBlueprint sides height).system.ListsFace
          (.pair entry.1 entry.2.2.1) face →
      face = Face.pyramidTriangle entry.2.1 entry.2.2.1 entry.2.2.2 := by
    rintro ⟨i, apex, a, b⟩ hentry face hface hlisted
    obtain ⟨r, rfl, hr, hab⟩ := mem_pyramidEdges_iff.mp hentry
    have hi := Surface.mem_selectedIndices_iff.mp (List.mem_of_getElem? hr)
    have ha : a < mesh.vertexCount :=
      tails_subset hrange (Incidence.mem_tails hab)
    have hb : b < mesh.vertexCount :=
      tails_subset hrange (hpolygonal.head_mem_tails hab)
    have hrotated := hlisted.isRotated_of_steps (by simp)
      (nodup_triangle hrange hvertices hpolygonal hab) fun v w =>
        (Blueprint.system_incidence_iff_of_determinate (kisFlags_determinate
            hrange hvertices hpolygonal hfits.faceCount_le sides)).trans
          (kisFlags_step_iff hrange hvertices hpolygonal hfits.faceCount_le
            hi hab)
    simp only [List.map_cons, List.map_nil,
        kisBlueprint_rank_single hvertices ha,
        kisBlueprint_rank_single hvertices hb,
        kisBlueprint_rank_apex hfits hr]
      at hrotated
    exact Face.eq_pyramidTriangle hrotated (hpolygonal.ne hab)
      (Nat.lt_add_right _ ha) (Nat.lt_add_right _ hb)
      (hlists.head_le face hface)
  apply List.ext_getElem
  · rw [List.length_map, hwalked.length_eq]
  · intro k hk hk'
    rw [List.getElem_map]
    rw [List.length_map] at hk'
    exact htriangle _ (List.getElem_mem hk') _ (List.getElem_mem hk)
      (hwalked.get hk' hk)

theorem kisBlueprint_shape_cyclic (height : Float) :
    (mesh.kisBlueprint sides height).shape.Cyclic := by
  have hpolygonal := Surface.polygonal_of_long hfaces
  rw [kisBlueprint_shape fun face hface => (hfaces face hface).2]
  exact (Incidence.kis_cyclic hpolygonal).rename (hrange.injOn_kisFace hfits
    sides) (hrange.injOn_kisKey hfits sides hpolygonal.toCyclic)

omit hfits in
theorem mem_kisBlueprint_sites (height : Float) {key : IndexKey}
    (hkey : key ∈ (mesh.kisBlueprint sides height).shape.tails) :
    key ∈ (mesh.kisBlueprint sides height).sites.map Prod.fst := by
  have hcyclic := (Surface.polygonal_of_long hfaces).toCyclic
  rw [kisBlueprint_shape fun face hface => (hfaces face hface).2,
    Incidence.tails_rename, Incidence.tails_kis hcyclic] at hkey
  rw [mem_kisBlueprint_sites_iff]
  rcases hkey with ⟨_, ⟨v, hv, rfl⟩ | ⟨i, ⟨-, hi⟩, rfl⟩, rfl⟩
  · exact .inl ⟨v, tails_subset hrange hv, rfl⟩
  · exact .inr ⟨i, hi.lt, hi, rfl⟩

/-- A result of kis lists what its blueprint declares. -/
theorem eq_pyramids_of_kis {height : Float} {out : Mesh}
    (hout : mesh.kis sides height = .ok out) :
    out = mesh.pyramids sides height := by
  rw [InRange.kis_eq hrange] at hout
  obtain ⟨-, solid, hsolid, rfl⟩ := Blueprint.build_eq_ok_iff.mp hout
  have hkept : (mesh.kisBlueprint sides height).polygons.map
      (List.map (mesh.kisBlueprint sides height).system.rank) =
        mesh.faces.filter fun face => !Face.passes sides face.length :=
    map_rank_kisPolygons hfits.vertexCount_le hrange
  rw [vertices_kisBlueprint hfits hsolid,
    faces_kisBlueprint hrange hfits hfaces hsolid, map_pyramidEdges, hkept]
  simp [Solid.named, pyramids]

/-- On a mesh of polygons kis never fails, and its result lists the input
vertices, the apexes, the triangles by face and by tail, and the faces that
are kept as they were.  The result is closed exactly when the input is. -/
theorem kis_eq_pyramids (height : Float) :
    mesh.kis sides height = .ok (mesh.pyramids sides height) ∧
      ((mesh.pyramids sides height).faces.checkClosed = .ok () ↔
        mesh.faces.checkClosed = .ok ()) := by
  have hpolygonal := Surface.polygonal_of_long hfaces
  have hsimple : ∀ face ∈ mesh.faces, face.Nodup :=
    fun face hface => (hfaces face hface).2
  have hne : ∀ face ∈ mesh.faces, face ≠ [] := by
    rintro face hface rfl
    exact absurd (hfaces [] hface).1 (by simp)
  have hshape : (mesh.kisBlueprint sides height).shape.Cyclic :=
    kisBlueprint_shape_cyclic hrange hfits hfaces height
  have hsites :=
    fun key (hkey : key ∈ (mesh.kisBlueprint sides height).shape.tails) =>
    mem_kisBlueprint_sites hrange hfaces height hkey
  obtain ⟨out, hout, -, hdescribes⟩ :=
    Blueprint.exists_build hshape hsites (hrange.nodup_kisPolygons hfits
        sides fun face hface => ⟨hsimple face hface, hne face hface⟩)
      (Word.prepend 'k' sides mesh.name)
  rw [← InRange.kis_eq hrange] at hout
  obtain rfl := eq_pyramids_of_kis hrange hfits hfaces hout
  refine ⟨hout, ?_⟩
  rw [hdescribes.closed_iff hshape hsites, kisBlueprint_shape hsimple,
    (Incidence.kis_cyclic hpolygonal).closed_rename_iff (hrange.injOn_kisFace
      hfits sides) (hrange.injOn_kisKey hfits sides hpolygonal.toCyclic),
    Incidence.kis_closed_iff hpolygonal,
    Surface.checkClosed_iff_closed hsimple, and_iff_left hne]

end Listed

/-- A triangle and a square with one edge in common, open everywhere else. -/
def hinge : Mesh :=
  Solid.named ⟨List.replicate 5 .origin, [[3, 2, 1, 4], [2, 0, 1]]⟩ "H"

/-- The triangle is the second face and becomes a pyramid, so its sides come
first in the result and the square last; the result has the same open
edges. -/
theorem kis_eq_pyramids_hinge : hinge.InRange ∧ hinge.Fits ∧
    (∀ face ∈ hinge.faces, 3 ≤ face.length ∧ face.Nodup) ∧
    ∃ out, hinge.kis 3 0.5 = .ok out ∧ out.vertexCount = 6 ∧
      out.faces = [[0, 1, 5], [1, 2, 5], [0, 5, 2], [3, 2, 1, 4]] ∧
      out.faces.checkClosed ≠ .ok () := by
  have hrange : hinge.InRange := by decide
  have hfits : hinge.Fits := by unfold Fits; decide
  have hfaces : ∀ face ∈ hinge.faces, 3 ≤ face.length ∧ face.Nodup := by
    decide
  obtain ⟨hout, hclosed⟩ := @kis_eq_pyramids hinge 3 hrange hfits hfaces 0.5
  refine ⟨hrange, hfits, hfaces, _, hout, by decide, by decide +kernel, ?_⟩
  rw [Ne, hclosed]
  decide

end Mesh
end Polyhedra
