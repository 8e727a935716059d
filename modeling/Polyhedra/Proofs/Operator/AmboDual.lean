import Mathlib
import Polyhedra.Proofs.Flag.Tracing
import Polyhedra.Proofs.Operator.Ambo
import Polyhedra.Proofs.Operator.Dual

/-!
# The ambo of the dual

A mesh and its dual have the same ambo.  The midpoint of an edge goes to the
midpoint of the dual edge, which joins the two faces at the edge.  The face
inside a face of the mesh is then the face around a vertex of the dual, and
the face around a vertex is the face inside a face of the dual, with the same
orientation.
-/

namespace Polyhedra

namespace Incidence

variable {M : Incidence ℕ ℕ} {e e' d d' : Sym2 ℕ}

/-- The edge `d` of the dual joins the two faces at the edge `e`. -/
def Crosses (M : Incidence ℕ ℕ) (e d : Sym2 ℕ) : Prop :=
  ∃ i j a b, M i a b ∧ M j b a ∧ s(a, b) = e ∧ s(i, j) = d

theorem crosses_around (h : M.Crosses e d) : Crosses M.Around d e := by
  obtain ⟨i, j, a, b, hi, hj, rfl, rfl⟩ := h
  exact ⟨b, a, i, j, ⟨a, hj, hi⟩, ⟨b, hi, hj⟩, rfl, Sym2.eq_swap⟩

theorem crosses_of_around
    (hM : M.Polyhedral)
    (h : Crosses M.Around d e) : M.Crosses e d := by
  have hback := crosses_around h
  rwa [hM.around_around] at hback

theorem Crosses.right_unique
    (hM : M.Closed)
    (h : M.Crosses e d)
    (h' : M.Crosses e d') : d = d' := by
  obtain ⟨i, j, a, b, hi, hj, rfl, rfl⟩ := h
  obtain ⟨k, l, x, y, hk, hl, hside, rfl⟩ := h'
  rcases Sym2.eq_iff.mp hside with ⟨rfl, rfl⟩ | ⟨rfl, rfl⟩
  · rw [hM.owner_unique hi hk, hM.owner_unique hj hl]
  · rw [hM.owner_unique hi hl, hM.owner_unique hj hk]
    exact Sym2.eq_swap

theorem Crosses.left_unique
    (hM : M.Polyhedral)
    (h : M.Crosses e d)
    (h' : M.Crosses e' d) : e = e' :=
  (crosses_around h).right_unique hM.around.toClosed (crosses_around h')

theorem Crosses.mem_sides (h : M.Crosses e d) : e ∈ M.sides := by
  obtain ⟨i, j, a, b, hi, -, rfl, -⟩ := h
  exact ⟨i, a, b, hi, rfl⟩

theorem exists_crosses
    (hM : M.Closed)
    (he : e ∈ M.sides) : ∃ d, M.Crosses e d := by
  obtain ⟨i, a, b, hi, rfl⟩ := he
  obtain ⟨j, -, hj⟩ := hM.mate hi
  exact ⟨s(i, j), i, j, a, b, hi, hj, rfl, rfl⟩

/-- Every flag of the ambo is a flag of the ambo of the dual; faces and
vertices change their roles. -/
theorem ambo_around
    (hM : M.Closed)
    {f : ℕ ⊕ ℕ}
    (h : ambo M f e e')
    (hd : M.Crosses e d)
    (hd' : M.Crosses e' d') :
    ambo M.Around f.swap d d' := by
  obtain ⟨i, a, b, c, hab, hbc, hflag⟩ := ambo_iff.mp h
  obtain ⟨j, -, hba⟩ := hM.mate hab
  obtain ⟨k, -, hcb⟩ := hM.mate hbc
  have hin : M.Crosses s(a, b) s(i, j) := ⟨i, j, a, b, hab, hba, rfl, rfl⟩
  have hout : M.Crosses s(b, c) s(k, i) :=
    ⟨k, i, c, b, hcb, hbc, Sym2.eq_swap, rfl⟩
  -- around `b` the faces come in the order `k`, `i`, `j`
  have hki : M.Around b k i := ⟨c, hbc, hcb⟩
  have hij : M.Around b i j := ⟨a, hba, hab⟩
  rcases hflag with ⟨rfl, rfl, rfl⟩ | ⟨rfl, rfl, rfl⟩
  · rw [hd.right_unique hM hin, hd'.right_unique hM hout]
    exact ambo_vertex_iff.mpr ⟨b, k, j, hki, hij, rfl, rfl⟩
  · rw [hd.right_unique hM hout, hd'.right_unique hM hin]
    exact ambo_face_iff.mpr ⟨k, i, j, hki, hij, rfl, rfl⟩

theorem exists_ambo_around
    (hM : M.Polyhedral)
    {f : ℕ ⊕ ℕ}
    (h : ambo M f e e') :
    ∃ d d', M.Crosses e d ∧ M.Crosses e' d' ∧ ambo M.Around f.swap d d' := by
  have htail := mem_tails h
  have hhead := (ambo_closed hM.surrounded).head_mem_tails h
  rw [tails_ambo hM.toClosed] at htail hhead
  obtain ⟨d, hd⟩ := exists_crosses hM.toClosed htail
  obtain ⟨d', hd'⟩ := exists_crosses hM.toClosed hhead
  exact ⟨d, d', hd, hd', ambo_around hM.toClosed h hd hd'⟩

theorem exists_of_ambo_around
    (hM : M.Polyhedral)
    {f : ℕ ⊕ ℕ}
    (h : ambo M.Around f.swap d d') :
    ∃ e e', M.Crosses e d ∧ M.Crosses e' d' ∧ ambo M f e e' := by
  obtain ⟨e, e', he, he', hflag⟩ := exists_ambo_around hM.around h
  rw [hM.around_around, Sum.swap_swap] at hflag
  exact ⟨e, e', crosses_of_around hM he, crosses_of_around hM he', hflag⟩

end Incidence

namespace Mesh

variable {mesh ambo : Mesh}

/-! ## The ambo in numbers -/

/-- The construction that the ambo of a mesh is built from. -/
def amboBlueprint (mesh : Mesh) : Blueprint IndexKey IndexKey where
  sites := mesh.amboSites
  flags := mesh.faces.amboFlags

theorem ambo_eq (mesh : Mesh) :
    mesh.ambo =
      mesh.requireInRange >>=
      fun _ => mesh.amboBlueprint.build ("a" ++ mesh.name) :=
  rfl

/-- The index of the vertex that the ambo has for the edge between `a` and
`b`. -/
def amboVertex (mesh : Mesh) (a b : ℕ) : ℕ :=
  mesh.amboBlueprint.system.ranks.getD (.edge a b) 0

/-- The rank of the key of an undirected edge. -/
def sideRank (mesh : Mesh) (e : Sym2 ℕ) : ℕ :=
  mesh.amboBlueprint.system.rank (IndexRole.edge e).key

/-- The index of a face of the ambo: the faces around vertices follow those
inside faces. -/
def amboIndex (mesh : Mesh) : ℕ ⊕ ℕ → ℕ :=
  Sum.elim id (mesh.faceCount + ·)

/-- The vertices of the ambo by their edges. -/
def sideSites (mesh : Mesh) : List (Sym2 ℕ × Point) :=
  mesh.faces.flatMap fun face =>
    face.triples.map fun (a, b, _) => (s(a, b), mesh.edgeMidpoint a b)

theorem amboBlueprint_sites (mesh : Mesh) :
    mesh.amboBlueprint.sites =
      mesh.sideSites.map fun (e, p) => ((IndexRole.edge e).key, p) := by
  simp only [amboBlueprint, amboSites, sideSites, List.map_flatMap,
    List.map_map]
  rfl

/-- The faces of `ambo` are those of the construction, under the indices of
faces and edges. -/
structure IsAmbo (mesh ambo : Mesh) : Prop where
  incidence : ambo.faces.incidence =
    (Incidence.ambo mesh.faces.incidence).rename mesh.amboIndex mesh.sideRank
  injOn : Set.InjOn mesh.sideRank mesh.faces.incidence.sides
  image :
    mesh.sideRank '' mesh.faces.incidence.sides = {v | v < ambo.vertexCount}
  faceCount : ambo.faceCount = mesh.faceCount + mesh.vertexCount
  nodup : ∀ face ∈ ambo.faces, face.Nodup ∧ face ≠ []

theorem setOf_sideSites (hsimple : ∀ face ∈ mesh.faces, face.Nodup) :
    {e | e ∈ mesh.sideSites.map Prod.fst} = mesh.faces.incidence.sides := by
  ext e
  rw [Set.mem_ofPred_eq, sideSites, Surface.mem_map_flatMap_triples hsimple]
  constructor
  · rintro ⟨i, a, b, c, hab, -, rfl⟩
    exact ⟨i, a, b, hab, rfl⟩
  · rintro ⟨i, a, b, hab, rfl⟩
    obtain ⟨c, hbc⟩ := Surface.incidence_next hab
    exact ⟨i, a, b, c, hab, hbc, rfl⟩

theorem amboVertex_eq
    (hsimple : ∀ face ∈ mesh.faces, face.Nodup)
    {i a b : ℕ}
    (hab : mesh.faces.incidence i a b) :
    mesh.amboVertex a b = mesh.sideRank s(a, b) :=
  mesh.amboBlueprint.system.getD_ranks (Blueprint.mem_positions_iff.mpr
    ((mem_amboSites_iff hsimple).mpr ⟨s(a, b), ⟨i, a, b, hab, rfl⟩, rfl⟩))

theorem amboFace_eq (mesh : Mesh) (f : ℕ ⊕ ℕ) :
    mesh.faces.amboFace f = IndexKey.single (mesh.amboIndex f) := by
  cases f <;> rfl

namespace Surrounded

variable (h : mesh.Surrounded)
include h

theorem faces_ambo :
    (Incidence.ambo mesh.faces.incidence).faces =
      Sum.inl '' {i | i < mesh.faceCount} ∪ Sum.inr ''
      {v | v < mesh.vertexCount} := by
  rw [Incidence.faces_ambo h.incidence.toClosed, h.faces_eq, h.tails_eq]

theorem amboIndex_lt_iff {n : ℕ} :
    n < mesh.faceCount + mesh.vertexCount ↔
      ∃ f ∈ (Incidence.ambo mesh.faces.incidence).faces,
        mesh.amboIndex f = n := by
  rw [h.faces_ambo]
  constructor
  · intro hn
    by_cases hface : n < mesh.faceCount
    · exact ⟨.inl n, .inl ⟨n, hface, rfl⟩, rfl⟩
    · have hvertex : n - mesh.faceCount < mesh.vertexCount := by omega
      refine ⟨.inr (n - mesh.faceCount), .inr ⟨_, hvertex, rfl⟩, ?_⟩
      change mesh.faceCount + (n - mesh.faceCount) = n
      omega
  · rintro ⟨_, ⟨i, hi, rfl⟩ | ⟨v, hv, rfl⟩, rfl⟩
    · exact Nat.lt_add_right _ hi
    · exact Nat.add_lt_add_left hv _

theorem injOn_amboIndex :
    Set.InjOn mesh.amboIndex
      (Incidence.ambo mesh.faces.incidence).faces := by
  rw [h.faces_ambo]
  rintro _ (⟨i, hi, rfl⟩ | ⟨v, -, rfl⟩) _ (⟨j, hj, rfl⟩ | ⟨w, -, rfl⟩) heq
  · exact congrArg Sum.inl heq
  · have hlt : i < mesh.faceCount := hi
    have hsame : i = mesh.faceCount + w := heq
    omega
  · have hlt : j < mesh.faceCount := hj
    have hsame : mesh.faceCount + v = j := heq
    omega
  · exact congrArg Sum.inr (Nat.add_left_cancel heq)

theorem mem_faces_amboBlueprint {key : IndexKey} :
    key ∈ mesh.amboBlueprint.system.faces ↔
      ∃ n < mesh.faceCount + mesh.vertexCount, IndexKey.single n = key := by
  rw [Blueprint.mem_faces_iff]
  constructor
  · rintro ⟨⟨_, v, w⟩, hflag, rfl⟩
    obtain ⟨f, e, e', hf, rfl, -, -⟩ :=
      (Surface.mem_amboFlags_iff h.simple).mp hflag
    exact ⟨_, h.amboIndex_lt_iff.mpr ⟨f, Incidence.mem_faces hf, rfl⟩,
      (amboFace_eq mesh f).symm⟩
  · rintro ⟨n, hn, rfl⟩
    obtain ⟨f, ⟨e, e', hf⟩, rfl⟩ := h.amboIndex_lt_iff.mp hn
    exact ⟨_,
      (Surface.mem_amboFlags_iff h.simple).mpr (Incidence.rename_of hf),
      amboFace_eq mesh f⟩

variable (hfits : mesh.Fits)
include hfits

/-- The keys of the faces ascend with their indices. -/
theorem faceIndex_amboBlueprint {f : ℕ ⊕ ℕ}
    (hf : f ∈ (Incidence.ambo mesh.faces.incidence).faces) :
    mesh.amboBlueprint.faceIndex (.inl (mesh.faces.amboFace f)) =
      mesh.amboIndex f := by
  have hascending : ∀ a b, a < b → b < mesh.faceCount + mesh.vertexCount →
      compare (IndexKey.single a) (IndexKey.single b) = .lt :=
    fun a b hab hb =>
      IndexKey.compare_single hab
        (hb.le.trans ((Nat.add_comm _ _).trans_le hfits))
  have hmem : ∀ key, key ∈ mesh.amboBlueprint.system.faces.keys ↔
      ∃ n < mesh.faceCount + mesh.vertexCount, IndexKey.single n = key :=
    fun _ => Std.ExtTreeMap.mem_keys.trans h.mem_faces_amboBlueprint
  rw [amboFace_eq]
  exact (countP_lt_of_numbered Std.ExtTreeMap.ordered_keys hascending hmem).2
    _ (h.amboIndex_lt_iff.mpr ⟨f, hf, rfl⟩)

/-- Ambo realizes its faces under the indices of faces and vertices, and its
vertices under the ranks of the edges. -/
theorem exists_ambo :
    ∃ ambo, mesh.ambo = .ok ambo ∧
      ambo.Realizes (Incidence.ambo mesh.faces.incidence) mesh.sideSites
        mesh.amboIndex mesh.sideRank := by
  have hclosed := h.incidence.toClosed
  have hcyclic := (Incidence.ambo_closed h.incidence).toCyclic
  have hshape : mesh.amboBlueprint.shape =
      (Incidence.ambo mesh.faces.incidence).rename
        (Sum.inl ∘ mesh.faces.amboFace) (IndexRole.key ∘ .edge) :=
    Blueprint.shape_eq_rename
      (fun _ _ _ => Surface.mem_amboFlags_iff h.simple) rfl
  have hface :
      Set.InjOn (Sum.inl ∘ mesh.faces.amboFace : ℕ ⊕ ℕ → IndexKey ⊕ ℕ)
        (Incidence.ambo mesh.faces.incidence).faces := by
    rw [Incidence.faces_ambo hclosed]
    exact Sum.inl_injective.comp_injOn (h.inRange.injOn_amboFace hfits)
  have hsites : {e | e ∈ mesh.sideSites.map Prod.fst} =
      (Incidence.ambo mesh.faces.incidence).tails := by
    rw [setOf_sideSites h.simple, Incidence.tails_ambo hclosed]
  have hkey : Set.InjOn (IndexRole.key ∘ .edge)
      {e | e ∈ mesh.sideSites.map Prod.fst} := by
    rw [setOf_sideSites h.simple]
    exact h.inRange.injOn_edgeKey hfits
  have hregistered : ∀ v ∈ mesh.amboBlueprint.shape.tails,
      v ∈ mesh.amboBlueprint.sites.map Prod.fst := by
    rw [hshape, Incidence.tails_rename, Incidence.tails_ambo hclosed]
    exact fun v hv => (mem_amboSites_iff h.simple).mpr hv
  obtain ⟨out, hbuild, -, hout⟩ :=
    Blueprint.exists_build (hshape ▸ hcyclic.rename hface (hsites ▸ hkey))
      hregistered (by simp [amboBlueprint]) ("a" ++ mesh.name)
  have hrealizes := hout.realizes hregistered
  rw [hshape, amboBlueprint_sites] at hrealizes
  have hroles := hrealizes.of_rename hface hkey hsites.ge
  refine ⟨out, ?_,
    hroles.congr_face fun f hf => h.faceIndex_amboBlueprint hfits hf⟩
  rw [ambo_eq, requireInRange_bind h.inRange]
  exact hbuild

end Surrounded

theorem Realizes.isAmbo
    (hrealizes : ambo.Realizes (Incidence.ambo mesh.faces.incidence)
      mesh.sideSites mesh.amboIndex mesh.sideRank)
    (h : mesh.Surrounded) : mesh.IsAmbo ambo where
  incidence := hrealizes.incidence
  injOn := by
    rw [← setOf_sideSites h.simple]
    exact hrealizes.injOn_vertex
  image := by
    rw [← setOf_sideSites h.simple]
    exact hrealizes.bijOn_vertex.image_eq
  faceCount := by
    have hindices : {n | n < mesh.faceCount + mesh.vertexCount} =
        mesh.amboIndex '' (Incidence.ambo mesh.faces.incidence).faces :=
      Set.ext fun n => h.amboIndex_lt_iff
    rw [hrealizes.faceCount, ← hrealizes.injOn_face.ncard_image, ← hindices]
    exact Set.ncard_Iio_nat _
  nodup := hrealizes.nodup

theorem Polyhedral.exists_ambo
    (h : mesh.Polyhedral)
    (hfits : mesh.Fits) :
    ∃ ambo, mesh.ambo = .ok ambo ∧ mesh.IsAmbo ambo := by
  obtain ⟨ambo, hambo, hrealizes⟩ := h.surrounded.exists_ambo hfits
  exact ⟨ambo, hambo, hrealizes.isAmbo h.surrounded⟩

namespace IsAmbo

theorem mem_steps_iff
    (hambo : mesh.IsAmbo ambo)
    (h : mesh.Polyhedral)
    {f : ℕ ⊕ ℕ} {face : Face}
    (hf : f ∈ (Incidence.ambo mesh.faces.incidence).faces)
    (hface : ambo.faces[mesh.amboIndex f]? = some face)
    {v w : ℕ} :
    (v, w) ∈ Face.steps face ↔
      ∃ e e', Incidence.ambo mesh.faces.incidence f e e' ∧
        mesh.sideRank e = v ∧ mesh.sideRank e' = w := by
  have hstep : ambo.faces.incidence (mesh.amboIndex f) v w ↔
      (v, w) ∈ Face.steps face :=
    Surface.incidence_iff_of_getElem? hface
  rw [← hstep, hambo.incidence]
  constructor
  · rintro ⟨g, e, e', hg, hindex, rfl, rfl⟩
    obtain rfl :=
      h.surrounded.injOn_amboIndex (Incidence.mem_faces hg) hf hindex
    exact ⟨e, e', hg, rfl, rfl⟩
  · rintro ⟨e, e', hflag, rfl, rfl⟩
    exact Incidence.rename_of hflag

theorem exists_face
    (hambo : mesh.IsAmbo ambo)
    (h : mesh.Polyhedral)
    {f : ℕ ⊕ ℕ}
    (hf : f ∈ (Incidence.ambo mesh.faces.incidence).faces) :
    ∃ face, ambo.faces[mesh.amboIndex f]? = some face ∧ face.Nodup ∧
      face ≠ [] := by
  have hlength : mesh.amboIndex f < ambo.faces.length :=
    lt_of_lt_of_eq (h.surrounded.amboIndex_lt_iff.mpr ⟨f, hf, rfl⟩)
      hambo.faceCount.symm
  exact ⟨_, List.getElem?_eq_getElem hlength,
    hambo.nodup _ (List.getElem_mem hlength)⟩

end IsAmbo

/-! ## The map between the midpoints -/

variable {dual other : Mesh}

/-- There is a map of indices that follows the edges to the dual edges. -/
theorem exists_carry (dual : Mesh)
    (hambo : mesh.IsAmbo ambo)
    (h : mesh.Polyhedral) :
    ∃ carry : ℕ → ℕ, ∀ e d, mesh.faces.incidence.Crosses e d →
      carry (mesh.sideRank e) = dual.sideRank d := by
  let start
      (p : {p : Sym2 ℕ × Sym2 ℕ // mesh.faces.incidence.Crosses p.1 p.2}) :=
    mesh.sideRank p.1.1
  let target
      (p : {p : Sym2 ℕ × Sym2 ℕ // mesh.faces.incidence.Crosses p.1 p.2}) :=
    dual.sideRank p.1.2
  have hfactors : target.FactorsThrough start := by
    rintro ⟨⟨e, d⟩, hd⟩ ⟨⟨e', d'⟩, hd'⟩ heq
    obtain rfl : e = e' := hambo.injOn hd.mem_sides hd'.mem_sides heq
    exact congrArg dual.sideRank (hd.right_unique h.incidence.toClosed hd')
  refine ⟨Function.extend start target 0, fun e d hd => ?_⟩
  exact hfactors.extend_apply 0 ⟨(e, d), hd⟩

section Carry

variable (h : mesh.Polyhedral)
  (hdual : mesh.IsDual dual)
  (hambo : mesh.IsAmbo ambo)
  (hother : dual.IsAmbo other)
  {carry : ℕ → ℕ}
  (hcarry : ∀ e d, mesh.faces.incidence.Crosses e d →
      carry (mesh.sideRank e) = dual.sideRank d)
include h hdual hambo hother hcarry

theorem carry_bijOn :
    Set.BijOn carry {v | v < ambo.vertexCount}
      {v | v < other.vertexCount} := by
  rw [← hambo.image, ← hother.image, hdual.incidence]
  have hclosed := h.incidence.toClosed
  refine ⟨?_, ?_, ?_⟩
  · rintro _ ⟨e, he, rfl⟩
    obtain ⟨d, hd⟩ := Incidence.exists_crosses hclosed he
    rw [hcarry e d hd]
    exact ⟨d, (Incidence.crosses_around hd).mem_sides, rfl⟩
  · rintro _ ⟨e, he, rfl⟩ _ ⟨e', he', rfl⟩ heq
    obtain ⟨d, hd⟩ := Incidence.exists_crosses hclosed he
    obtain ⟨d', hd'⟩ := Incidence.exists_crosses hclosed he'
    rw [hcarry e d hd, hcarry e' d' hd'] at heq
    have hsides : ∀ {e d}, mesh.faces.incidence.Crosses e d →
        d ∈ dual.faces.incidence.sides := by
      intro e d hd
      rw [hdual.incidence]
      exact (Incidence.crosses_around hd).mem_sides
    obtain rfl : d = d' := hother.injOn (hsides hd) (hsides hd') heq
    rw [hd.left_unique h.incidence hd']
  · rintro _ ⟨d, hd, rfl⟩
    obtain ⟨e, he⟩ := Incidence.exists_crosses h.incidence.around.toClosed hd
    have hcross := Incidence.crosses_of_around h.incidence he
    exact ⟨mesh.sideRank e, ⟨e, hcross.mem_sides, rfl⟩, hcarry e d hcross⟩

theorem carry_face {f : ℕ ⊕ ℕ}
    (hf : f ∈ (Incidence.ambo mesh.faces.incidence).faces) :
    ∃ face turned, ambo.faces[mesh.amboIndex f]? = some face ∧
      other.faces[dual.amboIndex f.swap]? = some turned ∧
      face.map carry ~r turned := by
  have hswap : f.swap ∈ (Incidence.ambo dual.faces.incidence).faces := by
    obtain ⟨e, e', hflag⟩ := hf
    obtain ⟨d, d', -, -, hswap⟩ :=
      Incidence.exists_ambo_around h.incidence hflag
    rw [hdual.incidence]
    exact Incidence.mem_faces hswap
  obtain ⟨face, hface, hnodup, hne⟩ := hambo.exists_face h hf
  obtain ⟨turned, hturned, hnodup', -⟩ :=
    hother.exists_face (hdual.polyhedral h) hswap
  refine ⟨face, turned, hface, hturned, ?_⟩
  have hmem : ∀ v ∈ face, v ∈ {v | v < ambo.vertexCount} := by
    intro v hv
    obtain ⟨w, hstep⟩ := Face.exists_step_from hv
    obtain ⟨x, y, hxy, rfl, -⟩ := (hambo.mem_steps_iff h hf hface).mp hstep
    rw [← hambo.image, ← Incidence.tails_ambo h.incidence.toClosed]
    exact ⟨x, Incidence.mem_tails hxy, rfl⟩
  have hinjective := (carry_bijOn h hdual hambo hother hcarry).injOn
  apply Face.isRotated_of_steps _ hnodup' (by simpa using hne)
  · intro a b
    rw [Face.steps_map, List.mem_map,
      hother.mem_steps_iff (hdual.polyhedral h) hswap hturned,
      hdual.incidence]
    constructor
    · rintro ⟨⟨v, w⟩, hstep, heq⟩
      obtain ⟨x, y, hxy, rfl, rfl⟩ :=
        (hambo.mem_steps_iff h hf hface).mp hstep
      obtain ⟨p, q, hp, hq, hpq⟩ :=
        Incidence.exists_ambo_around h.incidence hxy
      cases heq
      exact ⟨p, q, hpq, (hcarry x p hp).symm, (hcarry y q hq).symm⟩
    · rintro ⟨p, q, hpq, rfl, rfl⟩
      obtain ⟨x, y, hp, hq, hxy⟩ :=
        Incidence.exists_of_ambo_around h.incidence hpq
      refine ⟨(mesh.sideRank x, mesh.sideRank y), ?_, ?_⟩
      · exact (hambo.mem_steps_iff h hf hface).mpr ⟨x, y, hxy, rfl, rfl⟩
      · exact Prod.ext (hcarry x p hp) (hcarry y q hq)
  · exact hnodup.map_on fun v hv w hw heq =>
      hinjective (hmem v hv) (hmem w hw) heq

end Carry

/-- The ambo of a polyhedral mesh and the ambo of its dual differ in the
indices of vertices and faces and in where the faces start. -/
theorem Polyhedral.ambo_dual
    (h : mesh.Polyhedral)
    (hfits : mesh.Fits) :
    ∃ ambo dual other : Mesh, mesh.ambo = .ok ambo ∧ mesh.dual = .ok dual ∧
      dual.ambo = .ok other ∧
      ambo.faceCount = mesh.faceCount + mesh.vertexCount ∧
      other.faceCount = ambo.faceCount ∧
      (∀ v < ambo.vertexCount, ∃ i j a b, mesh.faces.incidence i a b ∧
        mesh.faces.incidence j b a ∧ mesh.amboVertex a b = v) ∧
      (∀ i a b c, mesh.faces.incidence i a b → mesh.faces.incidence i b c →
        ambo.faces.incidence i (mesh.amboVertex a b) (mesh.amboVertex b c)) ∧
      ∃ carry : ℕ → ℕ,
        (∀ i j a b, mesh.faces.incidence i a b → mesh.faces.incidence j b a →
          carry (mesh.amboVertex a b) = dual.amboVertex i j) ∧
        Set.BijOn carry {v | v < ambo.vertexCount}
          {v | v < other.vertexCount} ∧
        (∀ i < mesh.faceCount, ∃ face turned, ambo.faces[i]? = some face ∧
          other.faces[mesh.vertexCount + i]? = some turned ∧
          face.map carry ~r turned) ∧
        ∀ v < mesh.vertexCount,
          ∃ face turned, ambo.faces[mesh.faceCount + v]? = some face ∧
            other.faces[v]? = some turned ∧ face.map carry ~r turned := by
  have hclosed := h.incidence.toClosed
  have hsum : mesh.vertexCount + mesh.faceCount ≤ IndexKey.maxIndex := hfits
  obtain ⟨ambo, hok, hambo⟩ := h.exists_ambo hfits
  obtain ⟨dual, hdualOk, hdual⟩ := h.exists_dual (by omega) (by omega)
  have hdualFits : dual.Fits := by
    unfold Fits
    rw [hdual.vertexCount, hdual.faceCount]
    omega
  obtain ⟨other, hotherOk, hother⟩ :=
    (hdual.polyhedral h).exists_ambo hdualFits
  obtain ⟨carry, hcarry⟩ := exists_carry dual hambo h
  have hfaces := Incidence.faces_ambo hclosed
  rw [h.faces_eq, h.tails_eq] at hfaces
  refine ⟨ambo, dual, other, hok, hdualOk, hotherOk, hambo.faceCount, ?_, ?_,
    ?_, carry, ?_, carry_bijOn h hdual hambo hother hcarry, ?_, ?_⟩
  · rw [hother.faceCount, hambo.faceCount, hdual.faceCount,
      hdual.vertexCount, Nat.add_comm]
  · intro v hv
    obtain ⟨_, ⟨i, a, b, hab, rfl⟩, rfl⟩ :
        v ∈ mesh.sideRank '' mesh.faces.incidence.sides :=
      hambo.image ▸ hv
    obtain ⟨j, -, hba⟩ := hclosed.mate hab
    exact ⟨i, j, a, b, hab, hba, amboVertex_eq h.simple hab⟩
  · intro i a b c hab hbc
    rw [amboVertex_eq h.simple hab, amboVertex_eq h.simple hbc,
      hambo.incidence]
    have hturn :
        Incidence.ambo mesh.faces.incidence (.inl i) s(a, b) s(b, c) :=
      Incidence.ambo_face_iff.mpr ⟨a, b, c, hab, hbc, rfl, rfl⟩
    exact Incidence.rename_of hturn
  · intro i j a b hab hba
    have hij : dual.faces.incidence b i j := by
      rw [hdual.incidence]
      exact ⟨a, hba, hab⟩
    rw [amboVertex_eq h.simple hab,
      amboVertex_eq (hdual.polyhedral h).simple hij]
    exact hcarry _ _ ⟨i, j, a, b, hab, hba, rfl, rfl⟩
  · intro i hi
    have hmem : .inl i ∈ (Incidence.ambo mesh.faces.incidence).faces := by
      rw [hfaces]
      exact .inl ⟨i, hi, rfl⟩
    obtain ⟨face, turned, hface, hturned, hrotated⟩ :=
      carry_face h hdual hambo hother hcarry hmem
    rw [← hdual.faceCount]
    exact ⟨face, turned, hface, hturned, hrotated⟩
  · intro v hv
    have hmem : .inr v ∈ (Incidence.ambo mesh.faces.incidence).faces := by
      rw [hfaces]
      exact .inr ⟨v, hv, rfl⟩
    exact carry_face h hdual hambo hother hcarry hmem

/-- The face `0 1 2` of a tetrahedron, and the face around its vertex `0`. -/
theorem Polyhedral.ambo_dual_tetrahedron :
    ∃ ambo dual other : Mesh,
      (Platonic.tetrahedron.named "T").ambo = .ok ambo ∧
      (Platonic.tetrahedron.named "T").dual = .ok dual ∧
      dual.ambo = .ok other ∧
      ∃ carry : ℕ → ℕ,
        Set.BijOn carry {v | v < ambo.vertexCount}
          {v | v < other.vertexCount} ∧
        (∃ face turned, ambo.faces[0]? = some face ∧
          other.faces[4]? = some turned ∧ face.map carry ~r turned) ∧
        ∃ face turned, ambo.faces[4]? = some face ∧
          other.faces[0]? = some turned ∧ face.map carry ~r turned := by
  have hpoly : (Platonic.tetrahedron.named "T").Polyhedral :=
    Surface.polyhedral_tetrahedron
  have hfits : (Platonic.tetrahedron.named "T").Fits := by
    change 4 + 4 ≤ IndexKey.maxIndex
    decide
  obtain ⟨ambo, dual, other, hambo, hdual, hother, -, -, -, -, carry, -,
      hbij, hfaces, hvertices⟩ :=
    ambo_dual hpoly hfits
  exact ⟨ambo, dual, other, hambo, hdual, hother, carry, hbij,
    hfaces 0 (by decide), hvertices 0 (by decide)⟩

end Mesh
end Polyhedra
