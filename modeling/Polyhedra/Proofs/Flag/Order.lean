import Mathlib
import Polyhedra.Proofs.Except
import Polyhedra.Proofs.Flag.Construction

/-!
# The order of declarations

A flag replaces an earlier one with the same face and tail, so the order of
declarations matters only between flags that disagree.  Two blueprints whose
flags make the same map, and which register the same keys, are built into the
same faces or are both refused; where their sites lie makes no difference to
that.
-/

namespace Polyhedra

namespace FlagSystem

variable {F K : Type} [Ord F] [Ord K] [Std.TransOrd F] [Std.TransOrd K]
  {system other : FlagSystem F K}

theorem faces_foldl_setFlag_congr {flags : List (Flag F K)}
    (h : system.faces = other.faces) :
    (flags.foldl setFlag system).faces =
      (flags.foldl setFlag other).faces := by
  induction flags generalizing system other with
  | nil => exact h
  | cons flag flags ih =>
      refine ih ?_
      unfold setFlag
      rw [h]

section Order

variable [Std.LawfulEqOrd F] [Std.LawfulEqOrd K]

/-- The faces of a system are determined by which there are and by the heads
of their flags. -/
theorem faces_ext
    (hmem : ∀ f, f ∈ system.faces ↔ f ∈ other.faces)
    (hhead : ∀ f k, system.head? f k = other.head? f k) :
    system.faces = other.faces := by
  refine Std.ExtTreeMap.ext_getElem? fun f => ?_
  by_cases hf : f ∈ system.faces
  · obtain ⟨flags, hflags⟩ :=
      Option.isSome_iff_exists.mp
        (Std.ExtTreeMap.mem_iff_isSome_getElem?.mp hf)
    obtain ⟨flags', hflags'⟩ :=
      Option.isSome_iff_exists.mp
        (Std.ExtTreeMap.mem_iff_isSome_getElem?.mp ((hmem f).mp hf))
    rw [hflags, hflags']
    refine congrArg some (Std.ExtTreeMap.ext_getElem? fun k => ?_)
    have heq := hhead f k
    rwa [head?, head?, hflags, hflags'] at heq
  · rw [Std.ExtTreeMap.getElem?_eq_none hf,
      Std.ExtTreeMap.getElem?_eq_none fun hf' => hf ((hmem f).mpr hf')]

variable [DecidableEq F] [DecidableEq K]

theorem setFlag_comm (system : FlagSystem F K) {a b : Flag F K}
    (h : a.face = b.face → a.tail = b.tail → a.head = b.head) :
    (system.setFlag a).setFlag b = (system.setFlag b).setFlag a := by
  have hmem : ∀ (system : FlagSystem F K) (flag : Flag F K) (f : F),
        f ∈ (system.setFlag flag).faces ↔
      flag.face = f ∨ f ∈ system.faces := by
    intro system flag f
    simp [setFlag, Std.ExtTreeMap.mem_insert]
  have hfaces : ((system.setFlag a).setFlag b).faces =
      ((system.setFlag b).setFlag a).faces := by
    apply faces_ext
    · intro f
      rw [hmem, hmem, hmem, hmem]
      exact or_left_comm
    · intro f k
      simp only [head?_setFlag]
      split_ifs with hb ha
      · rw [h (ha.1.trans hb.1.symm) (ha.2.trans hb.2.symm)]
      all_goals rfl
  exact congrArg (FlagSystem.mk _ ·) hfaces

/-- Flags that do not disagree can be declared in any order. -/
theorem foldl_setFlag_perm {flags flags' : List (Flag F K)}
    (hperm : flags.Perm flags')
    (hflags : Flag.Determinate flags)
    (system : FlagSystem F K) :
    flags.foldl setFlag system = flags'.foldl setFlag system :=
  hperm.foldl_eq'
    (fun a ha b hb system => system.setFlag_comm (hflags a ha b hb)) system

/-- Flags that come in groups can be declared in any order within a group
that does not disagree with itself. -/
theorem foldl_setFlag_groups {groups groups' : List (List (Flag F K))}
    (hgroups : List.Forall₂ (fun group group' => group.Perm group' ∧
      Flag.Determinate group) groups groups')
    (system : FlagSystem F K) :
    groups.flatten.foldl setFlag system =
      groups'.flatten.foldl setFlag system := by
  induction hgroups generalizing system with
  | nil => rfl
  | cons hgroup _ ih =>
      rw [List.flatten_cons, List.flatten_cons, List.foldl_append,
        List.foldl_append, foldl_setFlag_perm hgroup.1 hgroup.2, ih]

end Order

/-! ## Systems with the same faces -/

/-- Two systems with the same flags and the same registered keys. -/
structure Alike (system other : FlagSystem F K) : Prop where
  faces : other.faces = system.faces
  keys : ∀ key, key ∈ other.positions ↔ key ∈ system.positions

namespace Alike

variable (h : system.Alike other)
include h

theorem cycles_eq [DecidableEq K] : other.cycles = system.cycles := by
  have hregistered :
      other.positions.contains = system.positions.contains := by
    funext key
    rw [Bool.eq_iff_iff, Std.ExtTreeMap.contains_iff_mem,
      Std.ExtTreeMap.contains_iff_mem, h.keys]
  unfold cycles walk
  rw [h.faces, hregistered]

section Keys

variable [Std.LawfulEqOrd K]

omit [Std.TransOrd F] in
theorem keys_eq : other.positions.keys = system.positions.keys :=
  keys_congr h.keys

omit [Std.TransOrd F] in
theorem rank_eq : other.rank = system.rank :=
  rank_congr h.keys

omit [Std.TransOrd F] in
theorem ranks_eq : other.ranks = system.ranks := by
  unfold ranks
  rw [h.keys_eq]

omit [Std.TransOrd F] in
theorem vertexCount_eq : other.vertexCount = system.vertexCount := by
  unfold vertexCount
  rw [← Std.ExtTreeMap.length_keys, ← Std.ExtTreeMap.length_keys, h.keys_eq]

end Keys

/-- The two systems resolve into the same faces, or neither resolves. -/
theorem resolve [Std.LawfulEqOrd K] [DecidableEq K] : Except.Related
    (fun solid solid' => solid'.faces = solid.faces ∧
      solid'.vertices.length = solid.vertices.length)
    system.resolve other.resolve := by
  unfold FlagSystem.resolve
  rw [h.cycles_eq, h.ranks_eq]
  refine Except.Related.bind (r := Eq) ?_ ?_
  · cases system.cycles <;> simp [Except.Related]
  · rintro cycles _ rfl
    refine ⟨rfl, ?_⟩
    rw [values_eq_map_snd_toList, values_eq_map_snd_toList, List.length_map,
      List.length_map, Std.ExtTreeMap.length_toList,
      Std.ExtTreeMap.length_toList]
    exact h.vertexCount_eq

end Alike
end FlagSystem

/-! ## Blueprints with the same faces -/

namespace Blueprint

variable {F K : Type} [Ord F] [Ord K] [Std.TransOrd F] [Std.TransOrd K]

omit [Std.TransOrd F] in
theorem foldlM_addPolygon_eq_ok_iff [ToString K] {polygons : List (List K)}
    {assembler out : Assembler F K} :
    polygons.foldlM Assembler.addPolygon assembler = .ok out ↔
      (∀ keys ∈ polygons, ∀ key ∈ keys, key ∈ assembler.system.positions) ∧
      out =
        { assembler with
          polygons := assembler.polygons ++ polygons.toArray } := by
  refine ⟨fun hok => ?_,
    fun ⟨hregistered, hout⟩ => hout ▸ foldlM_addPolygon hregistered⟩
  have hregistered :
      ∀ keys ∈ polygons, ∀ key ∈ keys, key ∈ assembler.system.positions := by
    induction polygons generalizing assembler with
    | nil => simp
    | cons keys polygons ih =>
        rw [List.foldlM_cons, Except.bind_eq_ok_iff] at hok
        obtain ⟨next, hnext, hrest⟩ := hok
        obtain ⟨hkeys, rfl⟩ := Assembler.addPolygon_eq_ok_iff.mp hnext
        have hpolygons := ih hrest
        exact List.forall_mem_cons.mpr ⟨hkeys, hpolygons⟩
  exact ⟨hregistered,
    Except.ok.inj (hok.symm.trans (foldlM_addPolygon hregistered))⟩

variable [Std.LawfulEqOrd K] {blueprint other : Blueprint F K}

/-- The same flags between the same keys, and the same polygons from other
corners on. -/
structure Alike (blueprint other : Blueprint F K) : Prop where
  system : blueprint.system.Alike other.system
  polygons : List.Forall₂ (· ~r ·) blueprint.polygons other.polygons

theorem Alike.of_flags
    (hflags : blueprint.flags.foldl FlagSystem.setFlag ∅ =
      other.flags.foldl FlagSystem.setFlag ∅)
    (hsites : ∀ key, key ∈ other.sites.map Prod.fst ↔
      key ∈ blueprint.sites.map Prod.fst)
    (hpolygons : List.Forall₂ (· ~r ·) blueprint.polygons other.polygons) :
    blueprint.Alike other where
  system :=
    { faces := by
        have hfaces : ∀ blueprint : Blueprint F K, blueprint.system.faces =
            (blueprint.flags.foldl FlagSystem.setFlag
              (∅ : FlagSystem F K)).faces := by
          intro blueprint
          rw [system_eq]
          exact FlagSystem.faces_foldl_setFlag_congr
            (foldl_setVertex_faces _ _)
        rw [hfaces, hfaces, hflags]
      keys :=
        fun key => by rw [mem_positions_iff, mem_positions_iff, hsites] }
  polygons := hpolygons

variable [DecidableEq K] [ToString F] [ToString K]

/-- A mesh is built when the faces can be walked and the keys of all polygons
are registered. -/
theorem build_eq_ok_iff {name : String} {out : Mesh} :
    blueprint.build name = .ok out ↔
      (∀ keys ∈ blueprint.polygons,
        ∀ key ∈ keys, key ∈ blueprint.system.positions) ∧
      ∃ solid, blueprint.system.resolve = .ok solid ∧
        out = Solid.named
          ⟨solid.vertices, solid.faces ++
            blueprint.polygons.map (List.map blueprint.system.rank)⟩
          name := by
  have hranks : (∀ keys ∈ blueprint.polygons,
        ∀ key ∈ keys, key ∈ blueprint.system.positions) →
      blueprint.polygons.map (Face.ofKeys blueprint.system.ranks) =
        blueprint.polygons.map (List.map blueprint.system.rank) :=
    fun hregistered =>
    List.map_congr_left fun keys hkeys =>
      blueprint.system.ofKeys_ranks (hregistered keys hkeys)
  simp only [build, assembler, Except.bind_eq_ok_iff,
    foldlM_addPolygon_eq_ok_iff, Assembler.resolve_eq_ok_iff]
  constructor
  · rintro ⟨assembler, ⟨hregistered, rfl⟩, solid, hsolid, rfl⟩
    refine ⟨hregistered, solid, hsolid, ?_⟩
    simp [← hranks hregistered]
  · rintro ⟨hregistered, solid, hsolid, rfl⟩
    refine ⟨_, ⟨hregistered, rfl⟩, solid, hsolid, ?_⟩
    simp [← hranks hregistered]

/-- Blueprints that are alike give the same walked faces, followed by their
polygons, or are both refused. -/
theorem Alike.build (h : blueprint.Alike other) (name name' : String) :
    Except.Related (fun out out' => out'.vertexCount = out.vertexCount ∧
        ∃ solid, blueprint.system.resolve = .ok solid ∧
          out.faces = solid.faces ++
            blueprint.polygons.map (List.map blueprint.system.rank) ∧
          out'.faces = solid.faces ++
            other.polygons.map (List.map blueprint.system.rank))
      (blueprint.build name) (other.build name') := by
  have hregistered : (∀ keys ∈ blueprint.polygons,
        ∀ key ∈ keys, key ∈ blueprint.system.positions) ↔
      ∀ keys ∈ other.polygons,
        ∀ key ∈ keys, key ∈ other.system.positions := by
    have hpolygons := h.polygons
    simp only [h.system.keys]
    generalize blueprint.polygons = polygons,
      other.polygons = polygons' at hpolygons ⊢
    induction hpolygons with
    | nil => simp
    | cons hrotated _ ih =>
        rw [List.forall_mem_cons, List.forall_mem_cons]
        exact and_congr (forall_congr' fun key => by rw [hrotated.mem_iff])
          ih
  obtain ⟨hsolids, hsame⟩ := Except.related_iff.mp h.system.resolve
  rw [Except.related_iff]
  simp only [build_eq_ok_iff, exists_and_left]
  refine ⟨and_congr hregistered ?_, ?_⟩
  · simpa using hsolids
  · rintro _ _ ⟨-, solid, hsolid, rfl⟩ ⟨-, solid', hsolid', rfl⟩
    obtain ⟨hfaces, hvertices⟩ := hsame solid solid' hsolid hsolid'
    refine ⟨by simpa [Mesh.vertexCount, Solid.named] using hvertices, solid,
      hsolid, rfl, ?_⟩
    rw [← h.system.rank_eq, ← hfaces]
    rfl

end Blueprint
end Polyhedra
