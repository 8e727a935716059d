import Mathlib
import Polyhedra.Proofs.Except
import Polyhedra.Proofs.Flag.Numbering
import Polyhedra.Proofs.Flag.Realization
import Polyhedra.Proofs.Operator.Sites
import Polyhedra.Proofs.OrderedMap
import Polyhedra.Proofs.Surface.Decision
import Polyhedra.Seed.Platonic

/-!
# The dual

The faces of the dual are the rings of faces around the vertices, so its
incidence is `Around`.  Every face gets the index of its vertex and starts at
the smallest face around it.  Around the faces of a polyhedral incidence
there are its own faces again, so the dual of the dual has the same faces,
each turned to start at its smallest vertex.
-/

namespace Polyhedra

namespace Incidence

variable {F K : Type} {R : Incidence F K}

theorem Closed.tails_around (hR : R.Closed) :
    tails (F := K) (K := F) R.Around = R.faces := by
  ext f
  constructor
  · rintro ⟨v, g, w, -, hf⟩
    exact ⟨w, v, hf⟩
  · rintro ⟨v, w, h⟩
    obtain ⟨g, hg⟩ := hR.exists_around h
    exact ⟨v, g, hg⟩

theorem Closed.setOf_around (hR : R.Closed) (v : K) :
    {i | ∃ j, R.Around v i j} = {i | ∃ w, R i v w} := by
  ext i
  constructor
  · rintro ⟨j, w, -, hi⟩
    exact hR.next hi
  · rintro ⟨w, hi⟩
    exact hR.exists_around hi

theorem Closed.faces_around (hR : R.Closed) :
    faces (F := K) (K := F) R.Around = R.tails := by
  ext v
  constructor
  · rintro ⟨f, g, w, hg, -⟩
    exact ⟨g, w, hg⟩
  · rintro ⟨f, w, h⟩
    obtain ⟨g, hg⟩ := hR.exists_around h
    exact ⟨f, g, hg⟩

/-- Every flag leads to its tail from one face around it. -/
theorem Closed.ncard_flags_around (hR : R.Closed) :
    (flags (F := K) (K := F) R.Around).ncard = R.flags.ncard := by
  symm
  apply ncard_eq_of_matching fun (flag : F × K × K) (turn : K × F × F) =>
    turn.1 = flag.2.1 ∧ turn.2.2 = flag.1 ∧ R turn.2.1 flag.2.2 flag.2.1
  · rintro ⟨f, v, w⟩ h
    obtain ⟨g, -, hg⟩ := hR.mate h
    exact ⟨(v, g, f), ⟨w, h, hg⟩, rfl, rfl, hg⟩
  · rintro ⟨v, f, g⟩ ⟨w, hg, hf⟩
    exact ⟨(g, v, w), hg, rfl, rfl, hf⟩
  · rintro ⟨f, v, w⟩ h ⟨f', v', w'⟩ h' ⟨x, g, g'⟩ ⟨hx, hg', hg⟩
      ⟨hx', hg'', hg₂⟩
    obtain ⟨rfl, rfl⟩ : v = v' ∧ f = f' :=
      ⟨hx.symm.trans hx', hg'.symm.trans hg''⟩
    have hhead : w = w' := hR.head_unique h h'
    rw [hhead]
  · rintro ⟨f, v, w⟩ ⟨x, g, g'⟩ - ⟨x', k, k'⟩ - ⟨hx, hg', hg⟩ ⟨hx', hk', hk⟩
    obtain ⟨rfl, rfl⟩ : x = x' ∧ g' = k' :=
      ⟨hx.trans hx'.symm, hg'.trans hk'.symm⟩
    have howner : g = k := hR.owner_unique hg hk
    rw [howner]

theorem Polyhedral.around_around (hR : R.Polyhedral) :
    Around (F := K) (K := F) R.Around = R := by
  ext f v w
  constructor
  · rintro ⟨g, h, h'⟩
    exact (hR.edge_of_around h' h).1
  · intro h
    obtain ⟨g, -, hg⟩ := hR.mate h
    exact ⟨g, ⟨v, hg, h⟩, w, h, hg⟩

end Incidence

namespace Surface

variable {surface : Surface}

theorem mem_ownedEdges_iff {edge : Edge} {i : ℕ} :
    (edge, i) ∈ surface.ownedEdges ↔ surface.incidence i edge.1 edge.2 := by
  rw [← exists_arrival_iff]
  simp only [ownedEdges, List.mem_flatMap, List.mem_map, Prod.exists,
    mem_indexed_iff, Prod.mk.injEq]
  constructor
  · rintro ⟨face, _, hface, a, b, hedge, rfl, rfl⟩
    exact ⟨face, hface, hedge⟩
  · rintro ⟨face, hface, hedge⟩
    exact ⟨face, i, hface, edge.1, edge.2, hedge, rfl, rfl⟩

/-- On a closed surface the last owner of an edge is its only one. -/
theorem getElem?_lastOwners
    (hclosed : surface.incidence.Closed)
    {edge : Edge} {i : ℕ} :
    surface.lastOwners[edge]? = some i ↔
      surface.incidence i edge.1 edge.2 := by
  rw [← mem_ownedEdges_iff]
  apply getElem?_ofList_eq_some_iff
  intro edge i j hi hj
  exact hclosed.owner_unique (mem_ownedEdges_iff.mp hi)
    (mem_ownedEdges_iff.mp hj)

/-- The flags of the dual can be declared, and they go around the
vertices. -/
theorem exists_dualFlags (hclosed : surface.incidence.Closed) :
    ∃ flags, surface.dualFlags = .ok flags ∧
      ∀ f v w, ⟨f, v, w⟩ ∈ flags ↔
        Incidence.rename (F := ℕ) (K := ℕ) surface.incidence.Around
          IndexKey.single IndexKey.single f v w := by
  have hflag : ∀ {edge : Edge} {i j : ℕ}, surface.incidence j edge.2 edge.1 →
      dualFlag surface.lastOwners edge i =
        .ok ⟨.single edge.1, .single j, .single i⟩ := by
    intro edge i j hj
    have howner : surface.lastOwners[edge.swap]? = some j :=
      (getElem?_lastOwners hclosed).mpr hj
    unfold dualFlag
    rw [howner]
  have hdeclared : ∀ entry ∈ surface.ownedEdges, ∃ flag,
      dualFlag surface.lastOwners entry.1 entry.2 = .ok flag := by
    intro entry hentry
    obtain ⟨j, -, hj⟩ := hclosed.mate (mem_ownedEdges_iff.mp hentry)
    exact ⟨_, hflag hj⟩
  obtain ⟨flags, hflags⟩ := Except.exists_mapM_eq_ok_iff.mpr hdeclared
  refine ⟨flags, hflags, fun f v w => ?_⟩
  rw [Except.mem_iff_of_mapM_eq_ok hflags]
  constructor
  · rintro ⟨⟨⟨a, b⟩, i⟩, hentry, hok⟩
    have hab := mem_ownedEdges_iff.mp hentry
    obtain ⟨j, -, hj⟩ := hclosed.mate hab
    have heq := Except.ok.inj ((hflag hj).symm.trans hok)
    cases heq
    exact ⟨a, j, i, ⟨b, hab, hj⟩, rfl, rfl, rfl⟩
  · rintro ⟨a, j, i, ⟨b, hab, hj⟩, rfl, rfl, rfl⟩
    exact ⟨((a, b), i), mem_ownedEdges_iff.mpr hab, hflag hj⟩

end Surface

namespace Mesh

variable {mesh dual : Mesh}

/-- The faces of `dual` are the rings of faces around the vertices of
`mesh`. -/
structure IsDual (mesh dual : Mesh) : Prop where
  name : dual.name = Word.dual mesh.name
  vertexCount : dual.vertexCount = mesh.faceCount
  faceCount : dual.faceCount = mesh.vertexCount
  incidence : dual.faces.incidence = mesh.faces.incidence.Around
  nodup : ∀ face ∈ dual.faces, face.Nodup ∧ face ≠ []
  head_le : ∀ face ∈ dual.faces, ∀ first ∈ face.head?, ∀ v ∈ face, first ≤ v

theorem mem_dualSites_iff {key : IndexKey} :
    key ∈ mesh.dualSites.map Prod.fst ↔
      ∃ i < mesh.faceCount, .single i = key := by
  have hkeys : mesh.dualSites.map Prod.fst =
      (List.range mesh.faceCount).map IndexKey.single := by
    rw [range_faceCount, dualSites, List.map_map, List.map_map]
    rfl
  rw [hkeys]
  simp

theorem InRange.dual_eq
    (hrange : mesh.InRange)
    {flags : List (Flag IndexKey IndexKey)}
    (hflags : mesh.faces.dualFlags = .ok flags) :
    mesh.dual =
      Blueprint.build { sites := mesh.dualSites, flags }
        (Word.dual mesh.name) := by
  unfold Mesh.dual
  rw [requireInRange_bind hrange, hflags]
  rfl

/-- A closed mesh with simple faces in range, in which the faces around every
vertex in use are one ring. -/
structure Ringed (mesh : Mesh) : Prop where
  closed : mesh.faces.checkClosed = .ok ()
  simple : ∀ face ∈ mesh.faces, face.Nodup
  inRange : mesh.InRange
  ring : ∀ face ∈ mesh.faces, ∀ v ∈ face, ∃ ring, mesh.faces.RingAt v ring

theorem Polyhedral.ringed (h : mesh.Polyhedral) : mesh.Ringed where
  closed := h.closed
  simple := h.simple
  inRange := h.inRange
  ring := by
    intro face hface v hv
    obtain ⟨ring, -, hring⟩ := h.ring v (h.inRange face hface v hv)
    exact ⟨ring, hring⟩

namespace Ringed

variable (h : mesh.Ringed)
include h

theorem incidence : mesh.faces.incidence.Closed :=
  ((Surface.checkClosed_iff_closed h.simple).mp h.closed).1

theorem faces_eq : mesh.faces.incidence.faces = {i | i < mesh.faceCount} :=
  Surface.faces_eq ((Surface.checkClosed_iff_closed h.simple).mp h.closed).2

theorem cyclic_around :
    Incidence.Cyclic (F := ℕ) (K := ℕ) mesh.faces.incidence.Around := by
  apply Incidence.Cyclic.of_isCycle
  rintro v _ f ⟨w, hf, -⟩
  obtain ⟨face, hface, hv⟩ :=
    Surface.mem_tails_iff.mp (Incidence.mem_tails hf)
  obtain ⟨ring, hring⟩ := h.ring face hface v hv
  exact hring.isCycle_around h.incidence

/-- The dual has a face for every vertex in use. -/
theorem exists_dual
    (hvertices : mesh.vertexCount ≤ IndexKey.maxIndex)
    (hfaces : mesh.faceCount ≤ IndexKey.maxIndex) :
    ∃ dual, mesh.dual = .ok dual ∧
      dual.faceCount = mesh.faces.incidence.tails.ncard := by
  have hclosed := h.incidence
  obtain ⟨flags, hflags, hmem⟩ := Surface.exists_dualFlags hclosed
  have hkeys : ∀ {i}, i ∈ (mesh.centers.zipIdx.map Prod.swap).map Prod.fst ↔
      i < mesh.faceCount := by
    intro i
    rw [List.map_map, ← List.mem_range, range_faceCount]
    rfl
  have hsites : (mesh.centers.zipIdx.map Prod.swap).map (fun (i, center) =>
      (IndexKey.single i, center)) = mesh.dualSites := by
    rw [List.map_map]
    rfl
  have hface : Set.InjOn IndexKey.single
      (Incidence.faces (F := ℕ) mesh.faces.incidence.Around) := by
    rw [hclosed.faces_around]
    exact fun a ha b hb heq => IndexKey.single_inj (h.inRange.vertex_fits
      hvertices ha) (h.inRange.vertex_fits hvertices hb) heq
  have hkey : Set.InjOn IndexKey.single
      {i | i ∈ (mesh.centers.zipIdx.map Prod.swap).map Prod.fst} :=
    fun i hi j hj heq => IndexKey.single_inj ((hkeys.mp hi).le.trans hfaces)
      ((hkeys.mp hj).le.trans hfaces) heq
  have hregistered :
      ∀ i ∈ Incidence.tails (F := ℕ) mesh.faces.incidence.Around,
        i ∈ (mesh.centers.zipIdx.map Prod.swap).map Prod.fst := by
    rw [hclosed.tails_around, h.faces_eq]
    exact fun i hi => hkeys.mpr hi
  obtain ⟨dual, _, _, hdual, hrealizes⟩ :=
    Blueprint.exists_realizes_build h.cyclic_around hface hkey hregistered
      hmem (Word.dual mesh.name)
  rw [hsites] at hdual
  refine ⟨dual, (h.inRange.dual_eq hflags).trans hdual, ?_⟩
  rw [hrealizes.faceCount, hclosed.faces_around]

/-- When all vertices are in use the faces of the dual are numbered like the
vertices. -/
theorem exists_isDual
    (hused : mesh.faces.incidence.tails = {v | v < mesh.vertexCount})
    (hvertices : mesh.vertexCount ≤ IndexKey.maxIndex)
    (hfaces : mesh.faceCount ≤ IndexKey.maxIndex) :
    ∃ dual, mesh.dual = .ok dual ∧ mesh.IsDual dual := by
  have hclosed := h.incidence
  obtain ⟨flags, hflags, hmem⟩ := Surface.exists_dualFlags hclosed
  obtain ⟨dual, hdual, hname, hincidence, hvertexCount, hfaceCount, hnodup,
      hhead⟩ :=
    Blueprint.exists_build_numbered h.cyclic_around
      (fun a b hab hb => IndexKey.compare_single hab (hb.le.trans hvertices))
      (fun a b hab hb => IndexKey.compare_single hab (hb.le.trans hfaces))
      (hclosed.faces_around.trans hused) (hclosed.tails_around.trans
        h.faces_eq) hmem (fun _ => mem_dualSites_iff) (Word.dual mesh.name)
  exact ⟨dual, (h.inRange.dual_eq hflags).trans hdual, hname, hvertexCount,
    hfaceCount, hincidence, hnodup, hhead⟩

end Ringed

/-- A polyhedral mesh has a dual. -/
theorem Polyhedral.exists_dual
    (h : mesh.Polyhedral)
    (hvertices : mesh.vertexCount ≤ IndexKey.maxIndex)
    (hfaces : mesh.faceCount ≤ IndexKey.maxIndex) :
    ∃ dual, mesh.dual = .ok dual ∧ mesh.IsDual dual :=
  h.ringed.exists_isDual h.tails_eq hvertices hfaces

theorem IsDual.polyhedral
    (hdual : mesh.IsDual dual)
    (h : mesh.Polyhedral) : dual.Polyhedral := by
  have hpoly := h.incidence
  apply Surface.polyhedral_iff.mpr
  refine ⟨?_, hdual.nodup, ?_⟩
  · rw [hdual.incidence]
    exact hpoly.around
  · rw [hdual.incidence, hpoly.toClosed.tails_around, h.faces_eq,
      hdual.vertexCount]

theorem IsDual.edgeCount
    (hdual : mesh.IsDual dual)
    (h : mesh.Polyhedral) :
    dual.edgeCount = mesh.edgeCount := by
  have hcount := Surface.two_mul_edgeCount h.incidence.toClosed
  have hcount' :=
    Surface.two_mul_edgeCount (hdual.polyhedral h).incidence.toClosed
  rw [hdual.incidence, h.incidence.toClosed.ncard_flags_around, ← hcount]
    at hcount'
  exact Nat.eq_of_mul_eq_mul_left two_pos hcount'

theorem IsDual.eulerCharacteristic
    (hdual : mesh.IsDual dual)
    (h : mesh.Polyhedral) :
    dual.eulerCharacteristic = mesh.eulerCharacteristic := by
  unfold Mesh.eulerCharacteristic
  rw [hdual.edgeCount h, hdual.vertexCount, hdual.faceCount]
  ring

/-- The faces of the dual are the rings around the vertices. -/
theorem IsDual.exists_ringAt_of_closed
    (hdual : mesh.IsDual dual)
    (hclosed : mesh.faces.incidence.Closed)
    {v : ℕ}
    (hv : v < mesh.vertexCount) :
    ∃ ring, dual.faces[v]? = some ring ∧ mesh.faces.RingAt v ring := by
  have hlt : v < dual.faces.length := lt_of_lt_of_eq hv hdual.faceCount.symm
  have hring : dual.faces[v]? = some dual.faces[v] :=
    List.getElem?_eq_getElem hlt
  have hstep : ∀ {f g}, (f, g) ∈ Face.steps dual.faces[v] →
      mesh.faces.incidence.Around v f g := by
    intro f g hfg
    rw [← hdual.incidence]
    exact ⟨_, hring, hfg⟩
  refine ⟨_, hring, (hdual.nodup _ (List.getElem_mem hlt)).1,
    fun i => ?_, fun _ _ => hstep⟩
  rw [← Surface.exists_incidence_iff]
  constructor
  · intro hi
    obtain ⟨g, hg⟩ := Face.exists_step_from hi
    obtain ⟨w, -, hwv⟩ := hstep hg
    exact hclosed.next hwv
  · rintro ⟨w, hw⟩
    obtain ⟨g, hg⟩ := hclosed.exists_around hw
    rw [← hdual.incidence] at hg
    obtain ⟨ring, hring', hedge⟩ := hg
    obtain rfl := Option.some.inj (hring.symm.trans hring')
    exact (Face.mem_of_step hedge).1

theorem IsDual.exists_ringAt
    (hdual : mesh.IsDual dual)
    (h : mesh.Polyhedral)
    {v : ℕ}
    (hv : v < mesh.vertexCount) :
    ∃ ring, dual.faces[v]? = some ring ∧ mesh.faces.RingAt v ring :=
  hdual.exists_ringAt_of_closed h.incidence.toClosed hv

/-- The dual of the dual has the faces of the mesh, each turned to start at
its smallest vertex. -/
theorem IsDual.exists_isRotated {back : Mesh}
    (hdual : mesh.IsDual dual)
    (hback : dual.IsDual back)
    (h : mesh.Polyhedral)
    {i : ℕ} {face : Face}
    (hface : mesh.faces[i]? = some face) :
    ∃ turned, back.faces[i]? = some turned ∧ turned ~r face ∧
      ∀ first ∈ turned.head?, ∀ v ∈ face, first ≤ v := by
  have hincidence : back.faces.incidence = mesh.faces.incidence := by
    rw [hback.incidence, hdual.incidence, h.incidence.around_around]
  obtain ⟨hi, -⟩ := List.getElem?_eq_some_iff.mp hface
  have hlt : i < back.faces.length :=
    lt_of_lt_of_eq hi (hback.faceCount.trans hdual.vertexCount).symm
  have hmem := List.getElem_mem hlt
  have hturned : back.faces[i]? = some back.faces[i] :=
    List.getElem?_eq_getElem hlt
  have hsteps : ∀ a b, (a, b) ∈ Face.steps back.faces[i] ↔
      (a, b) ∈ Face.steps face := by
    intro a b
    have hback :
        back.faces.incidence i a b ↔ (a, b) ∈ Face.steps back.faces[i] :=
      Surface.incidence_iff_of_getElem? hturned
    rw [← hback, hincidence]
    exact Surface.incidence_iff_of_getElem? hface
  have hrotated :=
    Face.isRotated_of_steps (hback.nodup _ hmem).1 (h.simple face
      (List.mem_of_getElem? hface)) (hback.nodup _ hmem).2 hsteps
  refine ⟨_, hturned, hrotated, fun first hfirst v hv => ?_⟩
  exact hback.head_le _ hmem first hfirst v (hrotated.mem_iff.mpr hv)

end Mesh

/-- The dual keeps a mesh polyhedral and its Euler characteristic. -/
theorem Mesh.Polyhedral.dual {mesh : Mesh}
    (h : mesh.Polyhedral)
    (hfits : mesh.Fits) :
    ∃ out, mesh.dual = .ok out ∧ out.Polyhedral ∧
      out.eulerCharacteristic = mesh.eulerCharacteristic := by
  unfold Fits at hfits
  obtain ⟨out, hout, hdual⟩ := h.exists_dual (by omega) (by omega)
  exact ⟨out, hout, hdual.polyhedral h, hdual.eulerCharacteristic h⟩

namespace Word

theorem dual_of_cons {word : String} {rest : List Char}
    (h : word.toList = 'd' :: rest) :
    dual word = String.ofList rest := by
  unfold dual
  split
  next other hother =>
      obtain rfl : rest = other := (List.cons.inj (h.symm.trans hother)).2
      rfl
  next hother => exact absurd h (hother rest)

theorem dual_of_not_cons {word : String}
    (h : ∀ rest, word.toList ≠ 'd' :: rest) :
    dual word = "d" ++ word := by
  unfold dual
  split
  next rest hrest => exact absurd hrest (h rest)
  next => rfl

/-- Two duals cancel in a name unless it starts with two of them. -/
theorem dual_dual_eq_iff (word : String) :
    dual (dual word) = word ↔ ¬ ['d', 'd'] <+: word.toList := by
  have hstarts : ['d', 'd'] <+: word.toList ↔
      ∃ more, word.toList = 'd' :: 'd' :: more :=
    exists_congr fun _ => eq_comm
  rw [hstarts]
  by_cases hone : ∃ rest, word.toList = 'd' :: rest
  · obtain ⟨rest, hrest⟩ := hone
    rw [dual_of_cons hrest, hrest]
    by_cases htwo : ∃ more, rest = 'd' :: more
    · obtain ⟨more, rfl⟩ := htwo
      rw [dual_of_cons (String.toList_ofList)]
      refine iff_of_false (fun heq => ?_) (not_not.mpr ⟨more, rfl⟩)
      have hlength := congrArg (fun name => name.toList.length) heq
      simp only [hrest, String.toList_ofList, List.length_cons] at hlength
      omega
    · have hword : "d" ++ String.ofList rest = word := by
        apply String.toList_inj.mp
        simp [hrest]
      rw [dual_of_not_cons (by simpa using htwo), hword]
      exact iff_of_true rfl fun ⟨more, hmore⟩ =>
        htwo ⟨more, (List.cons.inj hmore).2⟩
  · have hword : ("d" ++ word).toList = 'd' :: word.toList := by simp
    rw [dual_of_not_cons fun rest hrest => hone ⟨rest, hrest⟩,
      dual_of_cons hword]
    exact iff_of_true String.ofList_toList fun ⟨more, hmore⟩ =>
      hone ⟨_, hmore⟩

end Word

/-- The dual of a polyhedral mesh exchanges vertices and faces, and the dual
of the dual gives the mesh back up to where its faces start. -/
theorem Mesh.Polyhedral.dual_dual {mesh : Mesh}
    (h : mesh.Polyhedral)
    (hvertices : mesh.vertexCount ≤ IndexKey.maxIndex)
    (hfaces : mesh.faceCount ≤ IndexKey.maxIndex) :
    ∃ dual back : Mesh, mesh.dual = .ok dual ∧ dual.dual = .ok back ∧
      dual.vertexCount = mesh.faceCount ∧ dual.faceCount = mesh.vertexCount ∧
      dual.edgeCount = mesh.edgeCount ∧
      (∀ v < mesh.vertexCount,
        ∃ ring, dual.faces[v]? = some ring ∧ mesh.faces.RingAt v ring) ∧
      back.vertexCount = mesh.vertexCount ∧ back.faceCount = mesh.faceCount ∧
      (∀ (i : ℕ) (face : Face), mesh.faces[i]? = some face →
        ∃ turned, back.faces[i]? = some turned ∧ turned ~r face ∧
          ∀ first ∈ turned.head?, ∀ v ∈ face, first ≤ v) ∧
      (back.name = mesh.name ↔ ¬ ['d', 'd'] <+: mesh.name.toList) := by
  obtain ⟨dual, hdual, hisDual⟩ := h.exists_dual hvertices hfaces
  have hvertices' : dual.vertexCount ≤ IndexKey.maxIndex :=
    hisDual.vertexCount.trans_le hfaces
  have hfaces' : dual.faceCount ≤ IndexKey.maxIndex :=
    hisDual.faceCount.trans_le hvertices
  obtain ⟨back, hback, hisBack⟩ :=
    (hisDual.polyhedral h).exists_dual hvertices' hfaces'
  refine ⟨dual, back, hdual, hback, hisDual.vertexCount, hisDual.faceCount,
    hisDual.edgeCount h, fun v => hisDual.exists_ringAt h,
      hisBack.vertexCount.trans hisDual.faceCount,
      hisBack.faceCount.trans hisDual.vertexCount,
      fun i face => hisDual.exists_isRotated hisBack h, ?_⟩
  rw [hisBack.name, hisDual.name, Word.dual_dual_eq_iff]

theorem Mesh.Polyhedral.dual_dual_tetrahedron :
    ∃ dual back : Mesh, (Platonic.tetrahedron.named "T").dual = .ok dual ∧
      dual.dual = .ok back ∧ dual.vertexCount = 4 ∧ dual.faceCount = 4 ∧
      back.name = "T" := by
  have hpoly : (Platonic.tetrahedron.named "T").Polyhedral :=
    Surface.polyhedral_tetrahedron
  obtain ⟨dual, back, hdual, hback, hvertices, hfaces, -, -, -, -, -,
      hname⟩ :=
    dual_dual hpoly (by decide) (by decide)
  exact ⟨dual, back, hdual, hback, hvertices, hfaces, hname.mpr (by decide)⟩

end Polyhedra
