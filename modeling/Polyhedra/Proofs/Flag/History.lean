import Mathlib
import Polyhedra.Proofs.Flag.LastDeclaration
import Polyhedra.Proofs.Flag.Numbering

/-!
# The calls of an assembler

An assembler keeps its polygons apart from the system in which their keys are
registered, and both grow from call to call.  A polygon is accepted only when
its keys are registered, and no call takes a key away, so every polygon that
is kept has an index for each of its keys.  What is in an assembler can be
read off its calls: the declarations, and the polygons whose keys were
registered before them.
-/

namespace Polyhedra

namespace Assembler

/-- A call that changes an assembler. -/
inductive Call where
  | vertex (key : IndexKey) (position : Point)
  | flag (edge : Flag IndexKey IndexKey)
  | vertices (mesh : Mesh)
  | polygon (keys : List IndexKey)

/-- The assembler after a call.  A polygon that is refused leaves it as it
is. -/
def perform (assembler : Assembler IndexKey IndexKey) :
    Call → Assembler IndexKey IndexKey
  | .vertex key position => assembler.setVertex key position
  | .flag edge => assembler.setFlag edge
  | .vertices mesh => assembler.addVertices mesh
  | .polygon keys =>
      match assembler.addPolygon keys with
      | .ok extended => extended
      | .error _ => assembler

def ofCalls (calls : List Call) : Assembler IndexKey IndexKey :=
  calls.foldl perform ∅

/-! ## What can be read off the calls -/

namespace Call

def declarations : Call → List (Declaration IndexKey IndexKey)
  | vertex key position => [.vertex key position]
  | flag edge => [.flag edge]
  | vertices mesh =>
      mesh.indexedVertices.map fun (p, v) => .vertex (.single v) p
  | polygon _ => []

/-- The keys that a call registers. -/
def keys : Call → List IndexKey
  | vertex key _ => [key]
  | vertices mesh => (List.range mesh.vertexCount).map .single
  | flag _ | polygon _ => []

/-- The polygon that a call adds when `known` are the keys registered
before. -/
def accepted (known : List IndexKey) : Call → List (List IndexKey)
  | polygon keys => if ∀ key ∈ keys, key ∈ known then [keys] else []
  | vertex _ _ | flag _ | vertices _ => []

end Call

/-- The keys that some calls register. -/
def registered (calls : List Call) : List IndexKey :=
  calls.flatMap Call.keys

def acceptedFrom (known : List IndexKey) : List Call → List (List IndexKey)
  | [] => []
  | call :: rest =>
      call.accepted known ++ acceptedFrom (known ++ call.keys) rest

/-- The polygons whose keys were all registered when they were offered, in
that order. -/
def accepted (calls : List Call) : List (List IndexKey) :=
  acceptedFrom [] calls

def flagged (calls : List Call) : Set IndexKey :=
  {face | ∃ flag, .flag flag ∈ calls ∧ flag.face = face}

theorem acceptedFrom_append (known : List IndexKey)
    (calls other : List Call) :
    acceptedFrom known (calls ++ other) =
      acceptedFrom known calls ++
      acceptedFrom (known ++ registered calls) other := by
  induction calls generalizing known with
  | nil => simp [acceptedFrom, registered]
  | cons call calls ih =>
      simp [acceptedFrom, ih, registered]

theorem accepted_append_singleton (calls : List Call) (call : Call) :
    accepted (calls ++ [call]) =
      accepted calls ++ call.accepted (registered calls) := by
  simp [accepted, acceptedFrom_append, acceptedFrom]

theorem mem_indexedVertices_iff_getElem? {mesh : Mesh} {p : Point} {v : ℕ} :
    (p, v) ∈ mesh.indexedVertices ↔ mesh.vertices[v]? = some p := by
  rw [Mesh.indexedVertices, List.mem_zipIdx_iff_getElem?,
    Array.getElem?_toList]

theorem Call.mem_keys_iff {call : Call} {key : IndexKey} :
    key ∈ call.keys ↔
      ∃ position, .vertex key position ∈ call.declarations := by
  cases call with
  | vertex other position => simp [keys, declarations]
  | flag edge => simp [keys, declarations]
  | polygon keys => simp [Call.keys, declarations]
  | vertices mesh =>
      simp only [keys, declarations, List.mem_map, List.mem_range,
        Prod.exists, Declaration.vertex.injEq,
        mem_indexedVertices_iff_getElem?]
      constructor
      · rintro ⟨v, hv, rfl⟩
        exact ⟨mesh.vertices[v], _, v, Array.getElem?_eq_getElem hv, rfl,
          rfl⟩
      · rintro ⟨_, p, v, hv, rfl, -⟩
        exact ⟨v, (Array.getElem?_eq_some_iff.mp hv).1, rfl⟩

theorem mem_registered_iff {calls : List Call} {key : IndexKey} :
    key ∈ registered calls ↔
      ∃ position,
        .vertex key position ∈ calls.flatMap Call.declarations := by
  simp only [registered, List.mem_flatMap, Call.mem_keys_iff]
  constructor
  · rintro ⟨call, hcall, p, hp⟩
    exact ⟨p, call, hcall, hp⟩
  · rintro ⟨p, call, hcall, hp⟩
    exact ⟨call, hcall, p, hp⟩

theorem Call.flag_mem_declarations_iff {call : Call}
    {edge : Flag IndexKey IndexKey} :
    .flag edge ∈ call.declarations ↔ call = .flag edge := by
  cases call <;> simp [declarations, eq_comm]

theorem mem_flagged_iff {calls : List Call} {face : IndexKey} :
    face ∈ flagged calls ↔
      ∃ edge, .flag edge ∈ calls.flatMap Call.declarations ∧
        edge.face = face := by
  simp [flagged, List.mem_flatMap, Call.flag_mem_declarations_iff]

theorem Call.mem_registered_of_accepted {known : List IndexKey} {call : Call}
    {polygon : List IndexKey} (h : polygon ∈ call.accepted known) :
    ∀ key ∈ polygon, key ∈ known := by
  cases call with
  | polygon keys =>
      by_cases hkeys : ∀ key ∈ keys, key ∈ known
      · rw [accepted, if_pos hkeys, List.mem_singleton] at h
        exact h ▸ hkeys
      · simp [accepted, if_neg hkeys] at h
  | vertex key position => simp [accepted] at h
  | flag edge => simp [accepted] at h
  | vertices mesh => simp [accepted] at h

/-! ## The invariant -/

/-- An assembler holds what some calls declare and the polygons that they get
accepted, and all keys of these polygons are registered. -/
structure Holds (assembler : Assembler IndexKey IndexKey)
    (calls : List Call) : Prop where
  system :
    assembler.system = .ofDeclarations (calls.flatMap Call.declarations)
  polygons : assembler.polygons.toList = accepted calls
  registered : ∀ keys ∈ assembler.polygons.toList, ∀ key ∈ keys,
    key ∈ assembler.system.positions

theorem addVertices_eq (assembler : Assembler IndexKey IndexKey)
    (mesh : Mesh) :
    assembler.addVertices mesh = { assembler with
      system :=
        (Call.vertices mesh).declarations.foldl FlagSystem.declare
          assembler.system } := by
  unfold addVertices Call.declarations
  rw [List.foldl_map]
  generalize mesh.indexedVertices = vertices
  induction vertices generalizing assembler with
  | nil => rfl
  | cons entry rest ih =>
      exact ih (assembler.setVertex (.single entry.2) entry.1)

/-- What a call changes: the system gets its declarations, and the polygons
the one that it gets accepted. -/
theorem perform_eq {assembler : Assembler IndexKey IndexKey}
    {known : List IndexKey}
    (hknown : ∀ key, key ∈ assembler.system.positions ↔ key ∈ known)
    (call : Call) :
    assembler.perform call =
      { system := call.declarations.foldl FlagSystem.declare assembler.system
        polygons :=
          assembler.polygons ++ (call.accepted known).toArray } := by
  cases call with
  | vertex key position =>
      simp [perform, setVertex, FlagSystem.declare, Call.declarations,
        Call.accepted]
  | flag edge =>
      simp [perform, setFlag, FlagSystem.declare, Call.declarations,
        Call.accepted]
  | vertices mesh => simp [perform, addVertices_eq, Call.accepted]
  | polygon keys =>
      cases hadd : assembler.addPolygon keys with
      | ok extended =>
          obtain ⟨hkeys, rfl⟩ := addPolygon_eq_ok_iff.mp hadd
          simp only [hknown] at hkeys
          simp [perform, hadd, Call.declarations, Call.accepted,
            if_pos hkeys]
      | error error =>
          obtain ⟨firsts, key, rest, rfl, -, hkey, -⟩ :=
            addPolygon_eq_error_iff.mp hadd
          have hrefused : ¬ ∀ other ∈ firsts ++ key :: rest, other ∈ known :=
            fun hall =>
            hkey ((hknown key).mpr (hall key (by simp)))
          simp [perform, hadd, Call.declarations, Call.accepted,
            if_neg hrefused]

theorem mem_positions_iff {calls : List Call} {key : IndexKey} :
    key ∈ (FlagSystem.ofDeclarations (calls.flatMap Call.declarations) :
      FlagSystem IndexKey IndexKey).positions ↔ key ∈ registered calls := by
  rw [FlagSystem.mem_positions_ofDeclarations, mem_registered_iff]

theorem last?_positionOf?_eq_none {calls : List Call} {key : IndexKey}
    (h : key ∉ registered calls) :
    Declaration.last? (Declaration.positionOf? key)
      (calls.flatMap Call.declarations) = none := by
  rw [← FlagSystem.position?_ofDeclarations (F := IndexKey)]
  exact Std.ExtTreeMap.getElem?_eq_none fun hkey =>
    h (mem_positions_iff.mp hkey)

theorem Holds.perform {assembler : Assembler IndexKey IndexKey}
    {calls : List Call} (h : assembler.Holds calls)
    (call : Call) :
    (assembler.perform call).Holds (calls ++ [call]) := by
  have hknown : ∀ key, key ∈ assembler.system.positions ↔
      key ∈ Assembler.registered calls := by
    intro key
    rw [h.system, mem_positions_iff]
  have hsystem : (assembler.perform call).system =
      .ofDeclarations ((calls ++ [call]).flatMap Call.declarations) := by
    rw [perform_eq hknown, h.system]
    simp [FlagSystem.ofDeclarations]
  have hpolygons : (assembler.perform call).polygons.toList =
      accepted (calls ++ [call]) := by
    rw [perform_eq hknown, accepted_append_singleton, ← h.polygons]
    simp
  refine ⟨hsystem, hpolygons, fun keys hkeys key hkey => ?_⟩
  rw [hsystem, mem_positions_iff, Assembler.registered, List.flatMap_append]
  apply List.mem_append_left
  rw [hpolygons, accepted_append_singleton, ← h.polygons, List.mem_append]
    at hkeys
  rcases hkeys with hbefore | hadded
  · exact (hknown key).mp (h.registered keys hbefore key hkey)
  · exact Call.mem_registered_of_accepted hadded key hkey

theorem holds_ofCalls (calls : List Call) : (ofCalls calls).Holds calls := by
  induction calls using List.reverseRecOn with
  | nil =>
      exact
        { system := rfl
          polygons := rfl
          registered := fun keys hkeys => by cases hkeys }
  | append_singleton calls call ih =>
      rw [ofCalls, List.foldl_append]
      exact ih.perform call

/-! ## Answers -/

/-- What an assembler answers after some calls. -/
structure Answers (assembler : Assembler IndexKey IndexKey)
    (calls : List Call) : Prop where
  polygons : assembler.polygons.toList = accepted calls
  /-- Every key of a polygon has an index, the number of registered keys
  below it. -/
  indexed : ∀ keys ∈ assembler.polygons.toList, ∀ key ∈ keys,
    assembler.system.ranks[key]? = some (assembler.system.rank key)
  /-- Only a face that is walked is a reason to fail. -/
  resolves : ∀ name, (∃ out, assembler.resolve name = .ok out) ↔
    ∃ solid, assembler.system.resolve = .ok solid
  faceCount :
    assembler.faceCount = (flagged calls).ncard + (accepted calls).length
  /-- The walked faces by ascending keys, then the polygons in the order of
  acceptance. -/
  faces : ∀ name out, assembler.resolve name = .ok out →
    ∃ faceKeys walked, (faceKeys.Pairwise fun a b => compare a b = .lt) ∧
      (∀ face, face ∈ faceKeys ↔ face ∈ flagged calls) ∧
      List.Forall₂ assembler.system.ListsFace faceKeys walked ∧
      out.faces =
        walked ++ (accepted calls).map (List.map assembler.system.rank)

theorem Holds.answers {assembler : Assembler IndexKey IndexKey}
    {calls : List Call} (h : assembler.Holds calls) :
    assembler.Answers calls := by
  have hfaces :
      ∀ face, face ∈ assembler.system.faces ↔ face ∈ flagged calls := by
    intro face
    rw [h.system, FlagSystem.mem_faces_ofDeclarations, mem_flagged_iff]
  have hranks :
      assembler.polygons.toList.map (Face.ofKeys assembler.system.ranks) =
        (accepted calls).map (List.map assembler.system.rank) := by
    rw [← h.polygons]
    exact List.map_congr_left fun keys hkeys =>
      assembler.system.ofKeys_ranks (h.registered keys hkeys)
  refine
    { polygons := h.polygons
      indexed := fun keys hkeys key hkey =>
        assembler.system.getElem?_ranks (h.registered keys hkeys key hkey)
      resolves := fun name => ?_
      faceCount := ?_
      faces := fun name out hout => ?_ }
  · simp only [resolve_eq_ok_iff]
    constructor
    · rintro ⟨_, solid, hsolid, -⟩
      exact ⟨solid, hsolid⟩
    · rintro ⟨solid, hsolid⟩
      exact ⟨_, solid, hsolid, rfl⟩
  · have hflagged : {face | face ∈ assembler.system.faces} = flagged calls :=
      Set.ext hfaces
    rw [faceCount, FlagSystem.faceCount, size_eq_ncard, hflagged,
      ← h.polygons, Array.length_toList]
  · obtain ⟨solid, hsolid, rfl⟩ := resolve_eq_ok_iff.mp hout
    obtain ⟨faceKeys, hascending, hmem, hwalked⟩ :=
      (FlagSystem.lists_of_resolve hsolid).faces
    refine ⟨faceKeys, solid.faces, hascending,
      fun face => (hmem face).trans (hfaces face), hwalked, ?_⟩
    exact congrArg (solid.faces ++ ·) hranks

section Polygon

variable {before : List Call} {keys : List IndexKey}

/-- An accepted polygon stays behind those that were accepted before it. -/
theorem exists_later_of_accepted {extended : Assembler IndexKey IndexKey}
    (hadd : (ofCalls before).addPolygon keys = .ok extended)
    (after : List Call) :
    ∃ later, (ofCalls (before ++ .polygon keys :: after)).polygons.toList =
      (ofCalls before).polygons.toList ++ keys :: later := by
  have hbefore := holds_ofCalls before
  have hkeys : ∀ key ∈ keys, key ∈ registered before := by
    obtain ⟨hkeys, -⟩ := addPolygon_eq_ok_iff.mp hadd
    rw [hbefore.system] at hkeys
    exact fun key hkey => mem_positions_iff.mp (hkeys key hkey)
  refine ⟨acceptedFrom (registered before) after, ?_⟩
  rw [(holds_ofCalls _).polygons, hbefore.polygons, accepted, accepted,
    acceptedFrom_append]
  simp [acceptedFrom, Call.accepted, Call.keys, if_pos hkeys]

variable {error : MeshError}
  (hadd : (ofCalls before).addPolygon keys = .error error)
include hadd

theorem exists_missing_of_refused :
    ∃ firsts key rest, keys = firsts ++ key :: rest ∧
      (∀ first ∈ firsts, first ∈ registered before) ∧
      key ∉ registered before ∧ error = .undefinedVertex (toString key) := by
  obtain ⟨firsts, key, rest, hkeys, hfirsts, hkey, herror⟩ :=
    addPolygon_eq_error_iff.mp hadd
  rw [(holds_ofCalls before).system] at hfirsts hkey
  simp only [mem_positions_iff] at hfirsts hkey
  exact ⟨firsts, key, rest, hkeys, hfirsts, hkey, herror⟩

/-- The calls go on as if a refused polygon had not been offered. -/
theorem ofCalls_of_refused (after : List Call) :
    ofCalls (before ++ .polygon keys :: after) =
      ofCalls (before ++ after) := by
  have hunchanged :
      (ofCalls before).perform (.polygon keys) = ofCalls before := by
    rw [perform, hadd]
  rw [ofCalls, ofCalls, List.foldl_append, List.foldl_append,
    List.foldl_cons]
  exact congrArg (after.foldl perform) hunchanged

end Polygon

/-- The vertices of a mesh keep their indices, and their positions unless
their keys are registered again. -/
structure Keeps (assembler : Assembler IndexKey IndexKey) (mesh : Mesh)
    (after : List Call) : Prop where
  index : ∀ v < mesh.vertexCount,
    assembler.system.ranks[IndexKey.single v]? = some v
  position : ∀ name out, assembler.resolve name = .ok out →
    ∀ v < mesh.vertexCount, .single v ∉ registered after →
      out.vertices[v]? = mesh.vertices[v]?

section Keeps

variable {before after : List Call} {mesh : Mesh}

theorem mem_registered_vertices {key : IndexKey} :
    key ∈ registered (before ++ .vertices mesh :: after) ↔
      (∃ v < mesh.vertexCount, .single v = key) ∨
      key ∈ registered (before ++ after) := by
  simp only [registered, List.flatMap_append, List.flatMap_cons,
    List.mem_append, Call.keys, List.mem_map, List.mem_range]
  exact or_left_comm

theorem last?_vertices
    (hfits : mesh.vertexCount ≤ IndexKey.maxIndex + 1)
    {v : ℕ}
    (hv : v < mesh.vertexCount) :
    Declaration.last? (Declaration.positionOf? (.single v))
      (Call.vertices mesh).declarations = mesh.vertices[v]? := by
  have hget : mesh.vertices[v]? = some mesh.vertices[v] :=
    Array.getElem?_eq_getElem hv
  rw [hget]
  apply Declaration.last?_eq_some
  · refine ⟨.vertex (.single v) mesh.vertices[v], ?_, if_pos rfl⟩
    exact List.mem_map.mpr
      ⟨(_, v), mem_indexedVertices_iff_getElem?.mpr hget, rfl⟩
  · intro declaration hdeclaration p hp
    obtain ⟨⟨q, u⟩, hu, rfl⟩ := List.mem_map.mp hdeclaration
    rw [mem_indexedVertices_iff_getElem?] at hu
    have hlt : u < mesh.vertexCount := (Array.getElem?_eq_some_iff.mp hu).1
    by_cases hkey : IndexKey.single u = .single v
    · obtain rfl : u = v := IndexKey.single_inj (by omega) (by omega) hkey
      rw [Declaration.positionOf?, if_pos rfl, Option.some.injEq] at hp
      rw [hu, Option.some.injEq] at hget
      exact hp.symm.trans hget
    · simp [Declaration.positionOf?, hkey] at hp

theorem keeps_ofCalls
    (hfits : mesh.vertexCount ≤ IndexKey.maxIndex + 1)
    (hpast : ∀ key ∈ registered (before ++ after),
        (∀ v < mesh.vertexCount, key ≠ .single v) →
      ∃ w, mesh.vertexCount ≤ w ∧ key = .single w) :
    (ofCalls (before ++ .vertices mesh :: after)).Keeps mesh after := by
  have hholds := holds_ofCalls (before ++ .vertices mesh :: after)
  generalize ofCalls (before ++ .vertices mesh :: after) = assembler
    at hholds ⊢
  have hmem : ∀ key, key ∈ assembler.system.positions ↔
      (∃ v < mesh.vertexCount, .single v = key) ∨
      key ∈ registered (before ++ after) := by
    intro key
    rw [hholds.system, mem_positions_iff, mem_registered_vertices]
  have hregistered : ∀ v < mesh.vertexCount,
      IndexKey.single v ∈ assembler.system.positions :=
    fun v hv => (hmem _).mpr (.inl ⟨v, hv, rfl⟩)
  have hrank :
      ∀ v < mesh.vertexCount, assembler.system.rank (.single v) = v := by
    intro v hv
    refine assembler.system.rank_of_numbered IndexKey.single
      (fun a b hab hb => IndexKey.compare_single hab (by omega)) hv
      (fun u hu => hregistered u (hu.trans hv)) fun other hother hlt => ?_
    by_contra hnot
    push Not at hnot
    obtain ⟨w, hw, rfl⟩ :=
      hpast other (((hmem other).mp hother).resolve_left fun ⟨u, hu, heq⟩ =>
        hnot u hu heq) fun u hu heq => hnot u hu heq.symm
    -- an index that is too large has the last slot, which the vertex `v` may
    -- have as well
    have hslot : IndexKey.slot w = IndexKey.slot v := by
      have hle : IndexKey.slot w ≤ IndexKey.slot v :=
        IndexKey.first_le_of_compare hlt
      unfold IndexKey.slot at hle ⊢
      omega
    exact hnot v hv (by rw [IndexKey.single, IndexKey.single, hslot])
  refine
    { index := fun v hv => ?_
      position := fun name out hout v hv hafter => ?_ }
  · rw [assembler.system.getElem?_ranks (hregistered v hv), hrank v hv]
  · obtain ⟨solid, hsolid, rfl⟩ := resolve_eq_ok_iff.mp hout
    have hkey :=
      (assembler.system.rank_eq_iff (hregistered v hv)).mp (hrank v hv)
    have hlast :
        assembler.system.position? (.single v) = mesh.vertices[v]? := by
      have hget : mesh.vertices[v]? = some mesh.vertices[v] :=
        Array.getElem?_eq_getElem hv
      rw [hholds.system, FlagSystem.position?_ofDeclarations,
        List.flatMap_append, List.flatMap_cons, Declaration.last?_append,
        Declaration.last?_append, last?_positionOf?_eq_none hafter,
        last?_vertices hfits hv, hget]
      rfl
    rw [← hlast,
      ← (FlagSystem.lists_of_resolve hsolid).getElem?_vertices hkey]
    exact List.getElem?_toArray

end Keeps

/-- After any calls the polygons of an assembler are those that were
accepted, and each of their keys has an index; faces are counted and listed
accordingly.  A polygon that is accepted stays, and one that is refused, for
its first unregistered key, leaves no trace.  The vertices of a mesh keep
their indices when only keys of single indices past the mesh are registered
besides. -/
theorem answers_ofCalls :
    (∀ calls, (ofCalls calls).Answers calls) ∧
      (∀ before keys extended,
        (ofCalls before).addPolygon keys = .ok extended →
        ∀ after, ∃ later,
          (ofCalls (before ++ .polygon keys :: after)).polygons.toList =
            (ofCalls before).polygons.toList ++ keys :: later) ∧
      (∀ before keys error, (ofCalls before).addPolygon keys = .error error →
        (∃ firsts key rest, keys = firsts ++ key :: rest ∧
          (∀ first ∈ firsts, first ∈ registered before) ∧
          key ∉ registered before ∧
          error = .undefinedVertex (toString key)) ∧
        ∀ after, ofCalls (before ++ .polygon keys :: after) =
          ofCalls (before ++ after)) ∧
      ∀ before mesh after, mesh.vertexCount ≤ IndexKey.maxIndex + 1 →
        (∀ key ∈ registered (before ++ after),
          (∀ v < mesh.vertexCount, key ≠ .single v) →
          ∃ w, mesh.vertexCount ≤ w ∧ key = .single w) →
        (ofCalls (before ++ .vertices mesh :: after)).Keeps mesh after := by
  refine ⟨fun calls => (holds_ofCalls calls).answers, ?_, ?_,
    fun before mesh after => keeps_ofCalls⟩
  · intro before keys extended hadd after
    exact exists_later_of_accepted hadd after
  · intro before keys error hadd
    exact ⟨exists_missing_of_refused hadd, ofCalls_of_refused hadd⟩

def triangle : Mesh where
  name := "triangle"
  vertices := #[⟨2, 0, 0⟩, ⟨0, 2, 0⟩, ⟨0, 0, 2⟩]
  faces := [[0, 1, 2]]

/-- A vertex past the triangle, the vertex 1 of the triangle again, and a
face to walk. -/
def laterCalls : List Call :=
  [.vertex (.single 3) ⟨1, 1, 1⟩, .flag ⟨.single 7, .single 1, .single 3⟩,
    .vertex (.single 1) Point.origin,
    .flag ⟨.single 7, .single 3, .single 0⟩,
    .flag ⟨.single 7, .single 0, .single 1⟩]

theorem answers_ofCalls_triangle :
    ((ofCalls (.vertices triangle ::
          .polygon [.single 0, .single 2, .single 1] :: laterCalls)).Answers
        (.vertices triangle :: .polygon [.single 0, .single 2, .single 1] ::
          laterCalls) ∧ ∃ out, (ofCalls (.vertices triangle ::
          .polygon [.single 0, .single 2, .single 1] :: laterCalls)).resolve
        "mixed" = .ok out ∧ out.faces = [[0, 1, 3], [0, 2, 1]]) ∧
      ((∃ extended, (ofCalls [.vertices triangle]).addPolygon
        [.single 0, .single 2, .single 1] = .ok extended) ∧ ∃ later,
        (ofCalls ([.vertices triangle] ++ .polygon
          [.single 0, .single 2, .single 1] :: laterCalls)).polygons.toList =
        (ofCalls [.vertices triangle]).polygons.toList ++
        [.single 0, .single 2, .single 1] :: later) ∧
      ((ofCalls [.vertices triangle]).addPolygon
        [.single 0, .single 3, .single 4] =
          .error (.undefinedVertex "(4,0,0,0)") ∧
        ofCalls ([.vertices triangle] ++
          .polygon [.single 0, .single 3, .single 4] :: laterCalls) =
        ofCalls ([.vertices triangle] ++ laterCalls)) ∧
      (triangle.vertexCount ≤ IndexKey.maxIndex + 1 ∧
        (∀ key ∈ registered ([] ++ laterCalls),
          (∀ v < triangle.vertexCount, key ≠ .single v) →
          ∃ w, triangle.vertexCount ≤ w ∧ key = .single w) ∧
        IndexKey.single 1 ∈ registered laterCalls ∧
        (ofCalls ([] ++ .vertices triangle :: laterCalls)).Keeps triangle
          laterCalls) := by
  have hfits : triangle.vertexCount ≤ IndexKey.maxIndex + 1 := by decide
  have hpast : ∀ key ∈ registered ([] ++ laterCalls),
      (∀ v < triangle.vertexCount, key ≠ .single v) →
        ∃ w, triangle.vertexCount ≤ w ∧ key = .single w := by
    intro key hkey hother
    obtain rfl | rfl : key = .single 3 ∨ key = .single 1 := by
      simpa [registered, laterCalls, Call.keys] using hkey
    · exact ⟨3, le_rfl, rfl⟩
    · exact absurd rfl (hother 1 (by decide))
  exact ⟨⟨answers_ofCalls.1 _, _, rfl, rfl⟩,
    ⟨⟨_, rfl⟩, answers_ofCalls.2.1 [.vertices triangle] _ _ rfl laterCalls⟩,
    ⟨rfl, (answers_ofCalls.2.2.1 [.vertices triangle] _ _ rfl).2 laterCalls⟩,
    hfits, hpast, by decide,
    answers_ofCalls.2.2.2 [] triangle laterCalls hfits hpast⟩

end Assembler
end Polyhedra
