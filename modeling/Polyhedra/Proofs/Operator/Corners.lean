import Mathlib
import Polyhedra.Proofs.Flag.Tracing
import Polyhedra.Proofs.Operator.Dual
import Polyhedra.Proofs.Operator.Sites

/-!
# The corners of all faces

Many operators keep a copy of every face and make one more face for every
corner of every face.  The corners are listed here with their neighbours,
each once, and so are the points that the operators place.
-/

namespace Polyhedra

/-- The edges of a face without repetition follow each other where they
meet. -/
theorem Face.mem_steps_edges_iff {face : Face}
    (hsimple : face.Nodup)
    {edge next : Edge} :
    (edge, next) ∈ Face.steps face.edges ↔
      edge ∈ face.edges ∧ next ∈ face.edges ∧ edge.2 = next.1 := by
  have hedge : ∀ {k : ℕ} {a b : ℕ}, face.edges[k]? = some (a, b) ↔
      face[k]? = some a ∧ face[(k + 1) % face.length]? = some b := by
    intro k a b
    rw [edges, successors_eq_rotate, List.getElem?_zip_eq_some]
    by_cases hk : k < face.length
    · rw [List.getElem?_rotate hk]
    · simp [List.getElem?_eq_none (not_lt.mp hk)]
  obtain ⟨a, b⟩ := edge
  obtain ⟨b', c⟩ := next
  rw [mem_steps_iff, length_edges]
  constructor
  · rintro ⟨k, hk, hnext⟩
    refine ⟨List.mem_of_getElem? hk, List.mem_of_getElem? hnext, ?_⟩
    exact Option.some.inj ((hedge.mp hk).2.symm.trans (hedge.mp hnext).1)
  · rintro ⟨hab, hbc, rfl⟩
    obtain ⟨k, hk⟩ := List.mem_iff_getElem?.mp hab
    obtain ⟨m, hm⟩ := List.mem_iff_getElem?.mp hbc
    obtain ⟨hlt, -⟩ := List.getElem?_eq_some_iff.mp (hedge.mp hk).2
    have hindex : (k + 1) % face.length = m :=
      (List.getElem?_inj hlt hsimple).mp
        ((hedge.mp hk).2.trans (hedge.mp hm).1.symm)
    exact ⟨k, hk, hindex ▸ hm⟩

namespace Surface

variable {surface : Surface}

theorem nodup_indices (surface : Surface) :
    (surface.indexed.map Prod.snd).Nodup := by
  rw [indexed, List.zipIdx_map_snd]
  exact List.nodup_range'

theorem map_indexed {α : Type} (f : Face → α) :
    (surface.indexed.map fun entry => f entry.1) = surface.map f := by
  rw [← Function.comp_def f, ← List.map_map, indexed, List.zipIdx_map_fst]

theorem map_filter_indexed {α : Type} (p : Face → Bool) (f : Face → α) :
    ((surface.indexed.filter fun entry => p entry.1).map fun entry =>
      f entry.1) = (surface.filter p).map f := by
  have hfaces : surface.indexed.map Prod.fst = surface := by
    rw [indexed, List.zipIdx_map_fst]
  rw [← Function.comp_def f, ← List.map_map, ← Function.comp_def p,
    ← List.filter_map, hfaces]

/-- Every corner of every face: the face, the corner before, the corner, and
the corner after it. -/
def cornerTriples (surface : Surface) : List (ℕ × ℕ × ℕ × ℕ) :=
  surface.indexed.flatMap fun (face, i) => face.triples.map fun triple =>
    (i, triple)

theorem mem_cornerTriples_iff
    (hsimple : ∀ face ∈ surface, face.Nodup)
    {i a b c : ℕ} :
    (i, a, b, c) ∈ surface.cornerTriples ↔
      surface.incidence i a b ∧ surface.incidence i b c := by
  rw [← exists_triple_iff hsimple]
  simp only [cornerTriples, List.mem_flatMap, List.mem_map, Prod.exists,
    mem_indexed_iff, Prod.mk.injEq]
  constructor
  · rintro ⟨face, _, hface, _, _, _, htriple, rfl, rfl, rfl, rfl⟩
    exact ⟨face, hface, htriple⟩
  · rintro ⟨face, hface, htriple⟩
    exact ⟨face, i, hface, a, b, c, htriple, rfl, rfl, rfl, rfl⟩

theorem exists_indexed {i : ℕ} (hi : i ∈ surface.incidence.faces) :
    ∃ face, (face, i) ∈ surface.indexed := by
  obtain ⟨_, _, face, hface, -⟩ := hi
  exact ⟨face, mem_indexed_iff.mpr hface⟩

theorem exists_corner_from
    (hsimple : ∀ face ∈ surface, face.Nodup)
    {i a b : ℕ}
    (hab : surface.incidence i a b) :
    ∃ c, (i, a, b, c) ∈ surface.cornerTriples := by
  obtain ⟨c, hbc⟩ := incidence_next hab
  exact ⟨c, (mem_cornerTriples_iff hsimple).mpr ⟨hab, hbc⟩⟩

theorem exists_corner_to
    (hsimple : ∀ face ∈ surface, face.Nodup)
    {i b c : ℕ}
    (hbc : surface.incidence i b c) :
    ∃ a, (i, a, b, c) ∈ surface.cornerTriples := by
  obtain ⟨a, hab⟩ := (cyclic_of_nodup hsimple).prev hbc
  exact ⟨a, (mem_cornerTriples_iff hsimple).mpr ⟨hab, hbc⟩⟩

/-- Lists without repetition, one for every face, make one when their entries
tell the faces apart. -/
theorem nodup_flatMap_indexed {α β : Type} {entries : Face → List α}
    {tag : ℕ → α → β}
    (htag : ∀ {i j x y}, tag i x = tag j y → i = j ∧ x = y)
    (hentries : ∀ face ∈ surface, (entries face).Nodup) :
    (surface.indexed.flatMap fun (face, i) =>
      (entries face).map (tag i)).Nodup := by
  refine List.nodup_flatMap.mpr ⟨?_, ?_⟩
  · rintro ⟨face, i⟩ hentry
    have hface := List.mem_of_getElem? (mem_indexed_iff.mp hentry)
    exact (hentries face hface).map fun _ _ heq => (htag heq).2
  · refine (List.pairwise_map.mp surface.nodup_indices).imp ?_
    rintro ⟨face, i⟩ ⟨other, j⟩ hne entry hi hj
    obtain ⟨_, -, rfl⟩ := List.mem_map.mp hi
    obtain ⟨_, -, heq⟩ := List.mem_map.mp hj
    exact hne (htag heq).1.symm

theorem nodup_cornerTriples (hsimple : ∀ face ∈ surface, face.Nodup) :
    surface.cornerTriples.Nodup := by
  apply nodup_flatMap_indexed fun heq => Prod.mk.inj heq
  intro face hface
  refine List.Nodup.of_map (fun triple => triple.2.2) ?_
  have hcorners : face.triples.map (fun triple => triple.2.2) = face := by
    rw [← Function.comp_def (fun edge : Edge => edge.2), ← List.map_map,
      Face.triples, List.map_snd_zip (by simp), Face.arrivals,
      List.map_snd_zip (by simp)]
  rw [hcorners]
  exact hsimple face hface

theorem nodup_ownedEdges (hsimple : ∀ face ∈ surface, face.Nodup) :
    surface.ownedEdges.Nodup := by
  refine nodup_flatMap_indexed (fun heq => (Prod.mk.inj heq).symm)
    fun face hface => ?_
  refine List.Nodup.of_map Prod.snd ?_
  rw [Face.arrivals, List.map_snd_zip (by simp)]
  exact hsimple face hface

/-! ### One face for every face, and one for every corner -/

variable {G L : Type} {R : Incidence G L}

theorem follows_faces_filter {p : Face × ℕ → Bool} {name : Face × ℕ → G}
    {keys : Face × ℕ → List L}
    (hname : ∀ {face other i j}, name (face, i) = name (other, j) → i = j)
    (hsteps : ∀ {i face}, surface[i]? = some face → p (face, i) = true →
      R.GoesThrough (name (face, i)) (keys (face, i))) :
    R.Follows ((surface.indexed.filter p).map fun entry =>
      (name entry, keys entry)) := by
  apply Incidence.Follows.of_map
    ((List.Nodup.of_map _ surface.nodup_indices).filter p)
  · rintro ⟨face, i⟩ hface ⟨other, j⟩ hother heq
    obtain rfl := hname heq
    have hi := mem_indexed_iff.mp (List.mem_of_mem_filter hface)
    have hj := mem_indexed_iff.mp (List.mem_of_mem_filter hother)
    rw [Option.some.inj (hi.symm.trans hj)]
  · rintro ⟨face, i⟩ hface
    obtain ⟨hface, hp⟩ := List.mem_filter.mp hface
    exact hsteps (mem_indexed_iff.mp hface) hp

theorem follows_faces {name : Face × ℕ → G} {keys : Face × ℕ → List L}
    (hname : ∀ {face other i j}, name (face, i) = name (other, j) → i = j)
    (hsteps : ∀ {i face}, surface[i]? = some face →
      R.GoesThrough (name (face, i)) (keys (face, i))) :
    R.Follows
      (surface.indexed.map fun entry => (name entry, keys entry)) := by
  have hall :=
    follows_faces_filter (p := fun _ => true) hname fun hface _ =>
      hsteps hface
  rwa [List.filter_true] at hall

theorem follows_corners
    (hsimple : ∀ face ∈ surface, face.Nodup)
    {name : ℕ × ℕ × ℕ × ℕ → G} {keys : ℕ × ℕ × ℕ × ℕ → List L}
    (hname : ∀ {i a b c j x y z}, name (i, a, b, c) = name (j, x, y, z) →
      i = j ∧ (a = x ∨ b = y))
    (hsteps :
      ∀ {i a b c}, surface.incidence i a b → surface.incidence i b c →
        R.GoesThrough (name (i, a, b, c)) (keys (i, a, b, c))) :
    R.Follows (surface.cornerTriples.map fun corner =>
      (name corner, keys corner)) := by
  have hcyclic := cyclic_of_nodup hsimple
  apply Incidence.Follows.of_map (nodup_cornerTriples hsimple)
  · rintro ⟨i, a, b, c⟩ hcorner ⟨j, x, y, z⟩ hother heq
    obtain ⟨hab, hbc⟩ := (mem_cornerTriples_iff hsimple).mp hcorner
    obtain ⟨hxy, hyz⟩ := (mem_cornerTriples_iff hsimple).mp hother
    obtain ⟨rfl, hshared⟩ := hname heq
    -- the corner before and the corner itself determine each other in a face
    obtain ⟨rfl, rfl⟩ : a = x ∧ b = y := by
      rcases hshared with rfl | rfl
      · exact ⟨rfl, hcyclic.head_unique hab hxy⟩
      · exact ⟨hcyclic.tail_unique hab hxy, rfl⟩
    rw [hcyclic.head_unique hbc hyz]
  · rintro ⟨i, a, b, c⟩ hcorner
    obtain ⟨hab, hbc⟩ := (mem_cornerTriples_iff hsimple).mp hcorner
    exact hsteps hab hbc

theorem follows_edges_filter
    (hsimple : ∀ face ∈ surface, face.Nodup)
    {p : Edge × ℕ → Bool} {name : Edge × ℕ → G} {keys : Edge × ℕ → List L}
    (hname :
      ∀ {a b i x y j}, surface.incidence i a b → surface.incidence j x y →
        name ((a, b), i) = name ((x, y), j) → i = j ∧ a = x ∧ b = y)
    (hsteps : ∀ {i a b}, surface.incidence i a b → p ((a, b), i) = true →
      R.GoesThrough (name ((a, b), i)) (keys ((a, b), i))) :
    R.Follows ((surface.ownedEdges.filter p).map fun entry =>
      (name entry, keys entry)) := by
  apply Incidence.Follows.of_map ((nodup_ownedEdges hsimple).filter p)
  · rintro ⟨⟨a, b⟩, i⟩ hi ⟨⟨x, y⟩, j⟩ hj heq
    have hab := mem_ownedEdges_iff.mp (List.mem_of_mem_filter hi)
    have hxy := mem_ownedEdges_iff.mp (List.mem_of_mem_filter hj)
    obtain ⟨rfl, rfl, rfl⟩ := hname hab hxy heq
    rfl
  · rintro ⟨⟨a, b⟩, i⟩ hi
    obtain ⟨hi, hp⟩ := List.mem_filter.mp hi
    exact hsteps (mem_ownedEdges_iff.mp hi) hp

/-- One face for every directed edge. -/
theorem follows_edges
    (hsimple : ∀ face ∈ surface, face.Nodup)
    (howner :
      ∀ {i j a b}, surface.incidence i a b → surface.incidence j a b → i = j)
    {name : Edge × ℕ → G} {keys : Edge × ℕ → List L}
    (hname :
      ∀ {a b i x y j}, name ((a, b), i) = name ((x, y), j) → a = x ∧ b = y)
    (hsteps : ∀ {i a b}, surface.incidence i a b →
      R.GoesThrough (name ((a, b), i)) (keys ((a, b), i))) :
    R.Follows
      (surface.ownedEdges.map fun entry => (name entry, keys entry)) := by
  have hapart :
      ∀ {a b i x y j}, surface.incidence i a b → surface.incidence j x y →
        name ((a, b), i) = name ((x, y), j) → i = j ∧ a = x ∧ b = y := by
    intro a b i x y j hab hxy heq
    obtain ⟨rfl, rfl⟩ := hname heq
    exact ⟨howner hab hxy, rfl, rfl⟩
  have hall :=
    follows_edges_filter hsimple (p := fun _ => true) hapart fun hab _ =>
      hsteps hab
  rwa [List.filter_true] at hall

/-- A copy of a face with one corner at each of its corners. -/
theorem goesThrough_corners
    (hsimple : ∀ face ∈ surface, face.Nodup)
    {f : G} {i : ℕ} {face : Face}
    (hface : surface[i]? = some face)
    (hne : face ≠ [])
    {role : ℕ → L}
    (hrole : Function.Injective role)
    (hiff : ∀ v w, R f v w ↔
      ∃ a b, surface.incidence i a b ∧ role a = v ∧ role b = w) :
    R.GoesThrough f (face.map role) where
  ne_nil := by simpa using hne
  nodup := (hsimple face (List.mem_of_getElem? hface)).map hrole
  iff := by
    intro v w
    rw [hiff, Face.steps_map, List.mem_map]
    constructor
    · rintro ⟨a, b, hab, rfl, rfl⟩
      exact ⟨(a, b), (incidence_iff_of_getElem? hface).mp hab, rfl⟩
    · rintro ⟨⟨a, b⟩, hstep, heq⟩
      obtain ⟨rfl, rfl⟩ := Prod.mk.inj heq
      exact ⟨a, b, ⟨face, hface, hstep⟩, rfl, rfl⟩

/-- A copy of a face with one corner on each of its edges. -/
theorem goesThrough_edges
    (hsimple : ∀ face ∈ surface, face.Nodup)
    {f : G} {i : ℕ} {face : Face}
    (hface : surface[i]? = some face)
    (hne : face ≠ [])
    {role : Edge → L}
    (hrole : ∀ {a b x y}, surface.incidence i a b → surface.incidence i x y →
      role (a, b) = role (x, y) → a = x ∧ b = y)
    (hiff : ∀ v w, R f v w ↔ ∃ a b c, surface.incidence i a b ∧
      surface.incidence i b c ∧ role (a, b) = v ∧ role (b, c) = w) :
    R.GoesThrough f (face.edges.map role) := by
  have hnodup := hsimple face (List.mem_of_getElem? hface)
  have hmem : ∀ {a b}, (a, b) ∈ face.edges ↔ surface.incidence i a b :=
    (incidence_iff_of_getElem? hface).symm
  refine ⟨?_, ?_, fun v w => ?_⟩
  · have hedges : face.edges ≠ [] := by
      rw [← List.length_pos_iff, Face.length_edges]
      exact List.length_pos_iff.mpr hne
    simpa using hedges
  · refine (Face.nodup_steps hnodup).map_on ?_
    rintro ⟨a, b⟩ hab ⟨x, y⟩ hxy heq
    obtain ⟨rfl, rfl⟩ := hrole (hmem.mp hab) (hmem.mp hxy) heq
    rfl
  · rw [hiff, Face.steps_map, List.mem_map]
    constructor
    · rintro ⟨a, b, c, hab, hbc, rfl, rfl⟩
      exact ⟨((a, b), (b, c)), (Face.mem_steps_edges_iff hnodup).mpr
        ⟨hmem.mpr hab, hmem.mpr hbc, rfl⟩, rfl⟩
    · rintro ⟨⟨⟨a, b⟩, ⟨b', c⟩⟩, hstep, heq⟩
      obtain ⟨hab, hbc, rfl⟩ := (Face.mem_steps_edges_iff hnodup).mp hstep
      obtain ⟨rfl, rfl⟩ := Prod.mk.inj heq
      exact ⟨a, b, c, hmem.mp hab, hmem.mp hbc, rfl, rfl⟩

end Surface

namespace Mesh

variable {mesh : Mesh} {role : VertexRole} {p : Point}

/-- An operator on roles whose faces are cycles of registered roles gives a
mesh that realizes them. -/
theorem InRange.exists_realizes
    (hrange : mesh.InRange)
    {R : Incidence FaceRole VertexRole} {sites : List (VertexRole × Point)}
    {flags : List (Flag FaceRole VertexRole)}
    (hR : R.Cyclic)
    (hflags : ∀ f v w, ⟨f, v, w⟩ ∈ flags ↔ R f v w)
    (hsites : ∀ v ∈ R.tails, v ∈ sites.map Prod.fst)
    (name : String) :
    ∃ out onFace onVertex, (mesh.requireInRange >>=
        fun _ => Blueprint.buildLabelled { sites, flags } name) = .ok out ∧
      out.Realizes R sites onFace onVertex := by
  rw [requireInRange_bind hrange]
  exact Blueprint.exists_realizes_buildLabelled hR hflags hsites name

/-- An operator on roles that it puts under keys made of indices.  When the
keys tell the roles apart, it gives a mesh that realizes them, with the faces
in the order of their keys. -/
theorem InRange.exists_ranked
    (hrange : mesh.InRange)
    {R : Incidence IndexRole IndexRole} {sites : List (IndexRole × Point)}
    {flags : List (Flag IndexKey IndexKey)}
    (hR : R.Cyclic)
    (hface : Set.InjOn IndexRole.key R.faces)
    (hkey : Set.InjOn IndexRole.key R.tails)
    (hsites : {role | role ∈ sites.map Prod.fst} = R.tails)
    (hflags : ∀ f v w, ⟨f, v, w⟩ ∈ flags ↔
      R.rename IndexRole.key IndexRole.key f v w)
    (name : String) :
    ∃ out onFace onVertex,
        (mesh.requireInRange >>= fun _ => Blueprint.build
          { sites := sites.map fun (role, p) => (role.key, p), flags }
          name) = .ok out ∧ out.Realizes R sites onFace onVertex ∧
      ∀ f, onFace f = {g ∈ R.faces | compare g.key f.key = .lt}.ncard := by
  rw [requireInRange_bind hrange]
  exact Blueprint.exists_ranked_build hR hface (hsites ▸ hkey) hsites.ge
    hflags name

/-- A construction that makes `k` flags for every flag multiplies the number
of edges. -/
theorem Closed.edgeCount_of_fills
    (h : mesh.Closed)
    {k : ℕ} {G L : Type} {pattern : Incidence.Pattern k G L}
    (hfills : pattern.Fills mesh.faces.incidence)
    (hclosed : pattern.incidence.Closed)
    {out : Mesh} {sites : List (L × Point)} {onFace : G → ℕ}
    {onVertex : L → ℕ}
    (hrealizes : out.Realizes pattern.incidence sites onFace onVertex) :
    out.edgeCount = k * mesh.edgeCount := by
  have hedges := hrealizes.two_mul_edgeCount hclosed
  rw [hfills.ncard_flags, ← h.two_mul_edgeCount, Nat.mul_left_comm] at hedges
  exact Nat.eq_of_mul_eq_mul_left two_pos hedges

/-- One role for every directed edge. -/
theorem Closed.ncard_dartRoles
    (h : mesh.Closed)
    {L : Type} {role : ℕ → ℕ → L}
    (hrole : ∀ {a b x y}, role a b = role x y → a = x ∧ b = y) :
    ((fun dart => role dart.1 dart.2) '' mesh.faces.incidence.darts).ncard =
      2 * mesh.edgeCount := by
  rw [h.two_mul_edgeCount, ← h.incidence.ncard_darts,
    Set.ncard_image_of_injective]
  rintro ⟨a, b⟩ ⟨x, y⟩ heq
  obtain ⟨rfl, rfl⟩ := hrole heq
  rfl

theorem pinchedTetrahedra_indicesFit : pinchedTetrahedra.IndicesFit :=
  pinchedTetrahedra_closed.inRange.indicesFit (by decide) (by decide)

/-- The vertices on faces as roles. -/
def usedRoles (mesh : Mesh) : Set IndexRole :=
  IndexRole.single '' mesh.faces.usedVertices

theorem ncard_tails {mesh : Mesh} :
    mesh.faces.incidence.tails.ncard = mesh.faces.usedVertices.card := by
  rw [← Surface.coe_usedVertices, Set.ncard_coe_finset]

/-- The input vertices as roles. -/
def cornerRoles (mesh : Mesh) : Set VertexRole :=
  VertexRole.corner '' {v | v < mesh.vertexCount}

theorem ncard_cornerRoles_union {roles : Set VertexRole}
    (hfinite : roles.Finite)
    (hroles : ∀ v, .corner v ∉ roles) :
    (mesh.cornerRoles ∪ roles).ncard = mesh.vertexCount + roles.ncard := by
  have hcorners : {v | v < mesh.vertexCount}.ncard = mesh.vertexCount :=
    Set.ncard_Iio_nat _
  have hcorner : Function.Injective VertexRole.corner :=
    fun _ _ => VertexRole.corner.inj
  rw [cornerRoles, ncard_image_union (Set.finite_lt_nat _) hfinite
    hcorner.injOn fun v _ => hroles v, hcorners]

theorem mem_indexedVertices_iff {v : ℕ} :
    (p, v) ∈ mesh.indexedVertices ↔
      v < mesh.vertexCount ∧ mesh.position v = p := by
  rw [indexedVertices, List.mem_zipIdx_iff_getElem?, Array.getElem?_toList,
    position, Array.getD_eq_getD_getElem?]
  constructor
  · intro h
    obtain ⟨hv, -⟩ := Array.getElem?_eq_some_iff.mp h
    exact ⟨hv, by rw [h, Option.getD_some]⟩
  · rintro ⟨hv, rfl⟩
    have hsome : mesh.vertices[v]? = some mesh.vertices[v] :=
      Array.getElem?_eq_getElem hv
    simp only [hsome, Option.getD_some]

theorem mem_map_indexedVertices {α : Type} {site : Point × ℕ → α} {x : α} :
    x ∈ mesh.indexedVertices.map site ↔
      ∃ v < mesh.vertexCount, site (mesh.position v, v) = x := by
  simp only [List.mem_map, Prod.exists, mem_indexedVertices_iff]
  constructor
  · rintro ⟨_, v, ⟨hv, rfl⟩, rfl⟩
    exact ⟨v, hv, rfl⟩
  · rintro ⟨v, hv, rfl⟩
    exact ⟨_, v, ⟨hv, rfl⟩, rfl⟩

theorem mem_unitCornerSites :
    (role, p) ∈ mesh.unitCornerSites ↔
      ∃ v < mesh.vertexCount, .corner v = role ∧
        (mesh.position v).directionOrOrigin = p := by
  simp only [unitCornerSites, mem_map_indexedVertices, Prod.mk.injEq]

theorem mem_cornerSites : (role, p) ∈ mesh.cornerSites ↔
    ∃ v < mesh.vertexCount, .corner v = role ∧ mesh.position v = p := by
  simp only [cornerSites, mem_map_indexedVertices, Prod.mk.injEq]

theorem mem_centerSites :
    (role, p) ∈ mesh.centerSites ↔
      ∃ i face, mesh.faces[i]? = some face ∧ .center i = role ∧
        (mesh.faceCenter face).directionOrOrigin = p := by
  simp only [centerSites, centers, List.mem_map, Prod.exists,
    List.mem_zipIdx_iff_getElem?, List.getElem?_map, Option.map_eq_some_iff,
    Prod.mk.injEq]
  constructor
  · rintro ⟨_, i, ⟨face, hface, rfl⟩, rfl, rfl⟩
    exact ⟨i, face, hface, rfl, rfl⟩
  · rintro ⟨i, face, hface, rfl, rfl⟩
    exact ⟨_, i, ⟨face, hface, rfl⟩, rfl, rfl⟩

theorem mem_thirdSites (hsimple : ∀ face ∈ mesh.faces, face.Nodup) :
    (role, p) ∈ mesh.thirdSites ↔
      ∃ i a b, mesh.faces.incidence i a b ∧ .third a b = role ∧
        mesh.edgeThird a b = p := by
  simp only [thirdSites, List.mem_flatMap, List.mem_map, Prod.exists,
    Prod.mk.injEq]
  constructor
  · rintro ⟨face, hface, a, b, c, htriple, rfl, rfl⟩
    obtain ⟨i, hi⟩ := List.mem_iff_getElem?.mp hface
    obtain ⟨hab, -⟩ :=
      (Surface.exists_triple_iff hsimple).mp ⟨face, hi, htriple⟩
    exact ⟨i, a, b, hab, rfl, rfl⟩
  · rintro ⟨i, a, b, hab, rfl, rfl⟩
    obtain ⟨c, hbc⟩ := Surface.incidence_next hab
    obtain ⟨face, hface, htriple⟩ :=
      (Surface.exists_triple_iff hsimple).mpr ⟨hab, hbc⟩
    exact ⟨face, List.mem_of_getElem? hface, a, b, c, htriple, rfl, rfl⟩

theorem mem_innerSites (hsimple : ∀ face ∈ mesh.faces, face.Nodup) :
    (role, p) ∈ mesh.innerSites ↔
      ∃ i face a b, mesh.faces[i]? = some face ∧ (a, b) ∈ face.edges ∧
        .inner i a = role ∧
        ((mesh.faceCenter face).oneThird
          (mesh.edgeThird a b)).directionOrOrigin = p := by
  simp only [innerSites, List.mem_flatMap, List.mem_map, Prod.exists,
    Surface.mem_indexed_iff, Prod.mk.injEq]
  exact Surface.exists_edge_iff hsimple

theorem mem_stellatedSites (hsimple : ∀ face ∈ mesh.faces, face.Nodup) :
    (role, p) ∈ mesh.stellatedSites ↔
      ∃ (i : ℕ) (face : Face) (a b : ℕ), mesh.faces[i]? = some face ∧
        (a, b) ∈ face.edges ∧ .stellated a b = role ∧
        (mesh.edgeMidpoint a b).midpoint (mesh.faceCenter face) = p := by
  rw [← Surface.exists_edge_iff hsimple]
  simp only [stellatedSites, List.mem_flatMap, List.mem_map, Prod.exists,
    Prod.mk.injEq, List.mem_iff_getElem? (l := mesh.faces), exists_and_right]

end Mesh
end Polyhedra
