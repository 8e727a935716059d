import Mathlib
import Polyhedra.Proofs.Flag.Construction
import Polyhedra.Proofs.OrderedMap

/-!
# Realizations

A mesh realizes an incidence of roles when its faces are the faces of the
incidence, every one under its own index, and its vertices are the registered
roles, every one at a site of its own.  What is known about the roles of a
construction can then be read off the mesh: how many vertices, faces and
edges there are, which corners a face goes through and where they stand.
-/

namespace Polyhedra

variable {F K G L : Type}

/-- The faces of `mesh` are those of `R` and its vertices the keys of
`sites`, under the indices `onFace` and `onVertex`. -/
structure Mesh.Realizes (mesh : Mesh) (R : Incidence G L)
    (sites : List (L × Point)) (onFace : G → ℕ) (onVertex : L → ℕ) :
    Prop where
  injOn_face : Set.InjOn onFace R.faces
  injOn_vertex : Set.InjOn onVertex {key | key ∈ sites.map Prod.fst}
  registered : ∀ key ∈ R.tails, key ∈ sites.map Prod.fst
  incidence : mesh.faces.incidence = R.rename onFace onVertex
  nodup : ∀ face ∈ mesh.faces, face.Nodup ∧ face ≠ []
  vertexCount : mesh.vertexCount = {key | key ∈ sites.map Prod.fst}.ncard
  position : ∀ key ∈ sites.map Prod.fst,
    ∃ p, (key, p) ∈ sites ∧ mesh.vertices[onVertex key]? = some p

namespace Mesh.Realizes

variable {mesh : Mesh} {R : Incidence G L} {sites : List (L × Point)}
  {onFace : G → ℕ} {onVertex : L → ℕ}

/-- Roles under keys that tell them apart are realized by what realizes the
keys. -/
theorem of_rename {faceKey : G → F} {vertexKey : L → K} {indexOfFace : F → ℕ}
    {indexOf : K → ℕ}
    (h : mesh.Realizes (R.rename faceKey vertexKey)
      (sites.map fun (key, p) => (vertexKey key, p)) indexOfFace indexOf)
    (hface : Set.InjOn faceKey R.faces)
    (hvertex : Set.InjOn vertexKey {key | key ∈ sites.map Prod.fst})
    (hregistered : ∀ key ∈ R.tails, key ∈ sites.map Prod.fst) :
    mesh.Realizes R sites (indexOfFace ∘ faceKey) (indexOf ∘ vertexKey) where
  injOn_face := by
    apply h.injOn_face.comp hface
    rw [Incidence.faces_rename]
    exact Set.mapsTo_image _ _
  injOn_vertex := by
    apply h.injOn_vertex.comp hvertex
    intro key hkey
    obtain ⟨site, hsite, rfl⟩ := List.mem_map.mp hkey
    exact List.mem_map.mpr ⟨_, List.mem_map_of_mem hsite, rfl⟩
  registered := hregistered
  incidence := by rw [h.incidence, Incidence.rename_rename]
  nodup := h.nodup
  vertexCount := by
    rw [h.vertexCount, ← hvertex.ncard_image]
    congr 1
    ext key
    simp only [List.map_map, List.mem_map, Set.mem_image, Set.mem_ofPred_eq]
    constructor
    · rintro ⟨site, hsite, rfl⟩
      exact ⟨site.1, ⟨site, hsite, rfl⟩, rfl⟩
    · rintro ⟨_, ⟨site, hsite, rfl⟩, rfl⟩
      exact ⟨site, hsite, rfl⟩
  position := by
    intro key hkey
    obtain ⟨site, hsite, rfl⟩ := List.mem_map.mp hkey
    obtain ⟨p, hp, hposition⟩ := h.position (vertexKey site.1)
      (List.mem_map.mpr ⟨_, List.mem_map_of_mem hsite, rfl⟩)
    obtain ⟨other, hother, heq⟩ := List.mem_map.mp hp
    obtain ⟨hsame, rfl⟩ := Prod.mk.inj heq
    have hkeys : other.1 = site.1 :=
      hvertex (List.mem_map_of_mem hother) hkey hsame
    exact ⟨_, hkeys ▸ hother, hposition⟩

variable (h : mesh.Realizes R sites onFace onVertex)
include h

/-- Only the indices of the faces that there are matter. -/
theorem congr_face {indexOfFace : G → ℕ}
    (heq : ∀ f ∈ R.faces, onFace f = indexOfFace f) :
    mesh.Realizes R sites indexOfFace onVertex where
  injOn_face := h.injOn_face.congr heq
  injOn_vertex := h.injOn_vertex
  registered := h.registered
  incidence := by
    rw [h.incidence]
    ext i v w
    constructor
    · rintro ⟨f, a, b, hab, rfl, rfl, rfl⟩
      exact ⟨f, a, b, hab, (heq f (Incidence.mem_faces hab)).symm, rfl, rfl⟩
    · rintro ⟨f, a, b, hab, rfl, rfl, rfl⟩
      exact ⟨f, a, b, hab, heq f (Incidence.mem_faces hab), rfl, rfl⟩
  nodup := h.nodup
  vertexCount := h.vertexCount
  position := h.position

theorem injOn_tails : Set.InjOn onVertex R.tails :=
  h.injOn_vertex.mono h.registered

theorem checkClosed (hR : R.Closed) : mesh.faces.checkClosed = .ok () := by
  rw [Surface.checkClosed_iff_closed fun face hface =>
    (h.nodup face hface).1]
  refine ⟨?_, fun face hface => (h.nodup face hface).2⟩
  rw [h.incidence]
  exact hR.rename h.injOn_face h.injOn_tails

theorem faceCount : mesh.faceCount = R.faces.ncard := by
  have hfaces := Surface.faces_eq fun face hface => (h.nodup face hface).2
  rw [h.incidence, Incidence.faces_rename] at hfaces
  rw [← h.injOn_face.ncard_image, hfaces]
  exact (Set.ncard_Iio_nat _).symm

theorem two_mul_edgeCount (hR : R.Closed) :
    2 * mesh.edgeCount = R.flags.ncard := by
  have hclosed : mesh.faces.incidence.Closed :=
    h.incidence ▸ hR.rename h.injOn_face h.injOn_tails
  have hcount : 2 * mesh.edgeCount = mesh.faces.incidence.flags.ncard :=
    Surface.two_mul_edgeCount hclosed
  rw [hcount, h.incidence]
  exact (hR.ncard_rename h.injOn_face h.injOn_tails).2.2

/-- A face that goes through some keys in order goes through their indices in
the mesh. -/
theorem exists_face {f : G} {keys : List L}
    (hne : keys ≠ [])
    (hnodup : keys.Nodup)
    (hsteps : ∀ v w, R f v w ↔ (v, w) ∈ Face.steps keys) :
    ∃ face, mesh.faces[onFace f]? = some face ∧
      face ~r keys.map onVertex := by
  have htails : ∀ v ∈ keys, v ∈ R.tails := by
    intro v hv
    obtain ⟨w, hstep⟩ := Face.exists_step_from hv
    exact ⟨f, w, (hsteps v w).mpr hstep⟩
  obtain ⟨v, hv⟩ := List.exists_mem_of_ne_nil keys hne
  obtain ⟨w, hvw⟩ := Face.exists_step_from hv
  have hf : f ∈ R.faces := Incidence.mem_faces ((hsteps v w).mpr hvw)
  obtain ⟨face, hface, -⟩ :
      mesh.faces.incidence (onFace f) (onVertex v) (onVertex w) :=
    h.incidence ▸ Incidence.rename_of ((hsteps v w).mpr hvw)
  refine ⟨face, hface, ?_⟩
  obtain ⟨hfaceNodup, hfaceNe⟩ := h.nodup face (List.mem_of_getElem? hface)
  apply Face.isRotated_of_steps hfaceNodup (hnodup.map_on ?_) hfaceNe
  · intro x y
    rw [← Surface.incidence_iff_of_getElem? hface, h.incidence,
      Face.steps_map, List.mem_map]
    constructor
    · rintro ⟨g, a, b, hab, hg, rfl, rfl⟩
      obtain rfl := h.injOn_face (Incidence.mem_faces hab) hf hg
      exact ⟨(a, b), (hsteps a b).mp hab, rfl⟩
    · rintro ⟨⟨a, b⟩, hab, heq⟩
      obtain ⟨rfl, rfl⟩ := Prod.mk.inj heq
      exact Incidence.rename_of ((hsteps a b).mpr hab)
  · exact fun a ha b hb heq => h.injOn_tails (htails a ha) (htails b hb) heq

/-- A face has the corners at which its flags start, each of them once. -/
theorem exists_corners {f : G} (hf : f ∈ R.faces) :
    ∃ face, mesh.faces[onFace f]? = some face ∧
      face.length = {v | ∃ w, R f v w}.ncard ∧
      ∀ x, x ∈ face ↔ ∃ v, (∃ w, R f v w) ∧ onVertex v = x := by
  obtain ⟨v, w, hvw⟩ := id hf
  obtain ⟨face, hface, -⟩ :
      mesh.faces.incidence (onFace f) (onVertex v) (onVertex w) :=
    h.incidence ▸ Incidence.rename_of hvw
  have hmem : ∀ x, x ∈ face ↔ ∃ v, (∃ w, R f v w) ∧ onVertex v = x := by
    intro x
    have hstart : x ∈ face ↔ ∃ y, mesh.faces.incidence (onFace f) x y := by
      rw [Surface.exists_incidence_iff]
      simp [hface]
    rw [hstart, h.incidence]
    simp only [Incidence.rename_iff_of_mem_faces h.injOn_face hf]
    constructor
    · rintro ⟨_, a, b, hab, rfl, rfl⟩
      exact ⟨a, ⟨b, hab⟩, rfl⟩
    · rintro ⟨a, ⟨b, hab⟩, rfl⟩
      exact ⟨_, a, b, hab, rfl, rfl⟩
  have himage :
      (face.toFinset : Set ℕ) = onVertex '' {v | ∃ w, R f v w} := by
    ext x
    rw [Finset.mem_coe, List.mem_toFinset, hmem]
    rfl
  have hinjective : Set.InjOn onVertex {v | ∃ w, R f v w} :=
    h.injOn_tails.mono fun v ⟨_, hvw⟩ => Incidence.mem_tails hvw
  refine ⟨face, hface, ?_, hmem⟩
  rw [← hinjective.ncard_image, ← himage, Set.ncard_coe_finset,
    List.toFinset_card_of_nodup
      (h.nodup face (List.mem_of_getElem? hface)).1]

/-- Every face of the mesh is the one of some role. -/
theorem exists_role {i : ℕ} {face : Face}
    (hface : mesh.faces[i]? = some face) :
    ∃ f ∈ R.faces, onFace f = i := by
  obtain ⟨v, hv⟩ :=
    List.exists_mem_of_ne_nil face
      (h.nodup face (List.mem_of_getElem? hface)).2
  obtain ⟨w, hvw⟩ := Surface.exists_incidence_iff.mpr ⟨face, hface, hv⟩
  rw [h.incidence] at hvw
  obtain ⟨f, a, b, hab, hf, -, -⟩ := hvw
  exact ⟨f, Incidence.mem_faces hab, hf⟩

/-- When all roles go through equally many keys, all faces have that many
corners. -/
theorem length_eq {n : ℕ}
    (hkeys : ∀ f ∈ R.faces, ∃ keys : List L, keys ≠ [] ∧ keys.length = n ∧
      keys.Nodup ∧ ∀ v w, R f v w ↔ (v, w) ∈ Face.steps keys) :
    ∀ face ∈ mesh.faces, face.length = n := by
  intro face hface
  obtain ⟨i, hi⟩ := List.mem_iff_getElem?.mp hface
  obtain ⟨f, hf, rfl⟩ := h.exists_role hi
  obtain ⟨keys, hne, hlength, hnodup, hsteps⟩ := hkeys f hf
  obtain ⟨other, hother, hrotated⟩ := h.exists_face hne hnodup hsteps
  obtain rfl := Option.some.inj (hi.symm.trans hother)
  rw [hrotated.perm.length_eq, List.length_map, hlength]

end Mesh.Realizes

namespace Blueprint

section Keys

variable [Ord F] [Ord K] [Std.TransOrd F] [Std.TransOrd K]
  [Std.LawfulEqOrd F] [Std.LawfulEqOrd K] [DecidableEq F] [DecidableEq K]

theorem Describes.realizes {blueprint : Blueprint F K} {mesh : Mesh}
    (h : blueprint.Describes mesh)
    (hsites :
      ∀ v ∈ blueprint.shape.tails, v ∈ blueprint.sites.map Prod.fst) :
    mesh.Realizes blueprint.shape blueprint.sites blueprint.faceIndex
      blueprint.system.rank where
  injOn_face := injOn_faceIndex
  injOn_vertex :=
    blueprint.system.rank_injOn.mono fun _ => mem_positions_iff.mpr
  registered := hsites
  incidence := h.incidence
  nodup := h.nodup
  vertexCount := by
    rw [h.vertexCount, FlagSystem.vertexCount, size_eq_ncard]
    congr 1
    exact Set.ext fun key => mem_positions_iff
  position := by
    intro key hkey
    rw [← mem_positions_iff] at hkey
    rw [h.position key hkey]
    obtain ⟨p, hp⟩ : ∃ p, blueprint.system.position? key = some p :=
      Option.isSome_iff_exists.mp
        (Std.ExtTreeMap.mem_iff_isSome_getElem?.mp hkey)
    exact ⟨p, mem_sites_of_position? hp, hp⟩

variable [ToString F] [ToString K]

/-- A construction whose keys tell the roles apart and are registered can be
built, and the mesh realizes it.  The index of a face is the number of faces
with smaller keys. -/
theorem exists_ranked_build {R : Incidence G L}
    (hR : R.Cyclic)
    {onFace : G → F} {onKey : L → K} {sites : List (L × Point)}
    {flags : List (Flag F K)}
    (hface : Set.InjOn onFace R.faces)
    (hkey : Set.InjOn onKey {key | key ∈ sites.map Prod.fst})
    (hregistered : ∀ key ∈ R.tails, key ∈ sites.map Prod.fst)
    (hflags : ∀ f v w, ⟨f, v, w⟩ ∈ flags ↔ R.rename onFace onKey f v w)
    (name : String) :
    ∃ mesh indexOfFace indexOf, Blueprint.build
          { sites := sites.map fun (key, p) => (onKey key, p), flags } name =
        .ok mesh ∧ mesh.Realizes R sites indexOfFace indexOf ∧
      ∀ f, indexOfFace f =
        {g ∈ R.faces | compare (onFace g) (onFace f) = .lt}.ncard := by
  let blueprint : Blueprint F K :=
    { sites := sites.map fun (key, p) => (onKey key, p), flags }
  have hface' : Set.InjOn (Sum.inl ∘ onFace : G → F ⊕ ℕ) R.faces :=
    Sum.inl_injective.comp_injOn hface
  have hshape : blueprint.shape = R.rename (Sum.inl ∘ onFace) onKey :=
    shape_eq_rename hflags rfl
  have hkeys :
      ∀ v ∈ blueprint.shape.tails, v ∈ blueprint.sites.map Prod.fst := by
    rw [hshape, Incidence.tails_rename]
    rintro _ ⟨role, hrole, rfl⟩
    obtain ⟨site, hsite, rfl⟩ := List.mem_map.mp (hregistered role hrole)
    exact List.mem_map.mpr ⟨_, List.mem_map_of_mem hsite, rfl⟩
  have hcyclic : blueprint.shape.Cyclic :=
    hshape ▸ hR.rename hface' (hkey.mono hregistered)
  obtain ⟨mesh, hbuild, -, hmesh⟩ :=
    exists_build hcyclic hkeys (by simp [blueprint]) name
  have hrealizes := hmesh.realizes hkeys
  rw [hshape] at hrealizes
  refine ⟨mesh, _, _, hbuild, hrealizes.of_rename hface' hkey hregistered,
    fun f => ?_⟩
  -- the declared faces are the keys of the roles
  have hdeclared :
      ∀ g, g ∈ blueprint.system.faces ↔ g ∈ onFace '' R.faces := by
    intro g
    rw [mem_faces_iff, ← Incidence.faces_rename]
    constructor
    · rintro ⟨⟨_, v, w⟩, hflag, rfl⟩
      exact ⟨v, w, (hflags _ _ _).mp hflag⟩
    · rintro ⟨v, w, h⟩
      exact ⟨⟨g, v, w⟩, (hflags _ _ _).mpr h, rfl⟩
  have hbelow :
      {g | g ∈ blueprint.system.faces ∧ compare g (onFace f) = .lt} =
        onFace '' {g ∈ R.faces | compare (onFace g) (onFace f) = .lt} := by
    ext g
    rw [Set.mem_ofPred_eq, hdeclared]
    constructor
    · rintro ⟨⟨role, hrole, rfl⟩, hlt⟩
      exact ⟨role, ⟨hrole, hlt⟩, rfl⟩
    · rintro ⟨role, ⟨hrole, hlt⟩, rfl⟩
      exact ⟨⟨role, hrole, rfl⟩, hlt⟩
  have hrank : blueprint.faceIndex (.inl (onFace f)) =
      {g | g ∈ blueprint.system.faces ∧ compare g (onFace f) = .lt}.ncard :=
    blueprint.system.faceRank_eq_ncard _
  exact hrank.trans
    (by rw [hbelow, (hface.mono fun g hg => hg.1).ncard_image])

theorem exists_realizes_build {R : Incidence G L}
    (hR : R.Cyclic)
    {onFace : G → F} {onKey : L → K} {sites : List (L × Point)}
    {flags : List (Flag F K)}
    (hface : Set.InjOn onFace R.faces)
    (hkey : Set.InjOn onKey {key | key ∈ sites.map Prod.fst})
    (hregistered : ∀ key ∈ R.tails, key ∈ sites.map Prod.fst)
    (hflags : ∀ f v w, ⟨f, v, w⟩ ∈ flags ↔ R.rename onFace onKey f v w)
    (name : String) :
    ∃ mesh indexOfFace indexOf, Blueprint.build
        { sites := sites.map fun (key, p) => (onKey key, p), flags } name =
      .ok mesh ∧ mesh.Realizes R sites indexOfFace indexOf := by
  obtain ⟨mesh, indexOfFace, indexOf, hbuild, hrealizes, -⟩ :=
    exists_ranked_build hR hface hkey hregistered hflags name
  exact ⟨mesh, indexOfFace, indexOf, hbuild, hrealizes⟩

end Keys

/-- A construction on roles whose keys are registered can be built, and the
mesh realizes it. -/
theorem exists_realizes_buildLabelled {R : Incidence FaceRole VertexRole}
    {sites : List (VertexRole × Point)}
    {flags : List (Flag FaceRole VertexRole)}
    (hR : R.Cyclic)
    (hflags : ∀ f v w, ⟨f, v, w⟩ ∈ flags ↔ R f v w)
    (hsites : ∀ v ∈ R.tails, v ∈ sites.map Prod.fst)
    (name : String) :
    ∃ mesh onFace onVertex, buildLabelled { sites, flags } name = .ok mesh ∧
      mesh.Realizes R sites onFace onVertex := by
  let blueprint : Blueprint FaceRole VertexRole := { sites, flags }
  have hblueprint : ∀ f v w, ⟨f, v, w⟩ ∈ blueprint.flags ↔ R f v w := hflags
  obtain ⟨mesh, indexOfFace, indexOf, hbuild, hmesh⟩ :=
    exists_realizes_build hR FaceRole.label_injective.injOn
      VertexRole.label_injective.injOn hsites
      (mem_flags_relabel_iff hblueprint) name
  exact ⟨mesh, indexOfFace, indexOf, hbuild, hmesh⟩

end Blueprint
end Polyhedra
