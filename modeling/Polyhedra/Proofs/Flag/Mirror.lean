import Mathlib
import Polyhedra.Proofs.Except
import Polyhedra.Proofs.Flag.Fault

/-!
# Flags turned around

Two systems with the same registered keys whose flags lead in opposite
directions resolve together: the flags of a face are one cycle in one
direction exactly when they are in the other, and since the keys are the
same, the vertices are numbered alike and the faces come in the same order,
each of them written backwards from some corner on.
-/

namespace Polyhedra

namespace FaceFlags.IsCycle

variable {K : Type} [Ord K] [Std.TransOrd K] {flags other : FaceFlags K}
  {keys : List K} (h : flags.IsCycle keys)
include h

theorem reverse
    (hflags : ∀ a b : K, other[a]? = some b ↔ flags[b]? = some a) :
    other.IsCycle keys.reverse where
  ne_nil := List.reverse_eq_nil_iff.not.mpr h.ne_nil
  nodup := List.nodup_reverse.mpr h.nodup
  mem_iff key := by
    rw [List.mem_reverse]
    constructor
    · intro hkey
      obtain ⟨a, hstep⟩ := Face.exists_step_to hkey
      exact mem_of_getElem?_eq_some
        ((hflags key a).mpr (h.head_of_step a key hstep))
    · intro hkey
      obtain ⟨b, hb⟩ :=
        Option.isSome_iff_exists.mp
          (Std.ExtTreeMap.mem_iff_isSome_getElem?.mp hkey)
      exact (Face.mem_of_step (h.mem_steps_iff.mpr ((hflags key b).mp hb))).2
  head_of_step tail head hstep :=
    (hflags tail head).mpr
      (h.head_of_step head tail (Face.mem_steps_reverse.mp hstep))

end FaceFlags.IsCycle

namespace FlagSystem

variable {F K : Type} [Ord F] [Ord K] [Std.TransOrd F] [Std.TransOrd K]
  {system other : FlagSystem F K}

/-- Two systems with the same keys and with flags in opposite directions. -/
structure Mirrors (system other : FlagSystem F K) : Prop where
  keys : ∀ key, key ∈ other.positions ↔ key ∈ system.positions
  faces : ∀ face, face ∈ other.faces ↔ face ∈ system.faces
  incidence :
    ∀ face v w, other.incidence face v w ↔ system.incidence face w v

namespace Mirrors

theorem symm (h : system.Mirrors other) : other.Mirrors system where
  keys key := (h.keys key).symm
  faces face := (h.faces face).symm
  incidence face v w := (h.incidence face w v).symm

variable {face : F} {flags flags' : FaceFlags K}

theorem getElem?_iff
    (h : system.Mirrors other)
    (hflags : system.faces[face]? = some flags)
    (hflags' : other.faces[face]? = some flags')
    (a b : K) :
    flags'[a]? = some b ↔ flags[b]? = some a := by
  rw [← incidence_of_getElem? hflags, ← incidence_of_getElem? hflags']
  exact h.incidence face a b

theorem sound
    (h : system.Mirrors other)
    (hflags : system.faces[face]? = some flags)
    (hflags' : other.faces[face]? = some flags')
    (hsound : system.Sound flags) : other.Sound flags' := by
  obtain ⟨hregistered, tails, hcycle⟩ := hsound
  have hturned := h.getElem?_iff hflags hflags'
  refine ⟨fun tail head hflag => ?_, tails.reverse, hcycle.reverse hturned⟩
  have hends := hregistered head tail ((hturned tail head).mp hflag)
  exact ⟨(h.keys tail).mpr hends.2, (h.keys head).mpr hends.1⟩

variable [Std.LawfulEqOrd K]

theorem rank_eq (h : system.Mirrors other) : other.rank = system.rank :=
  rank_congr h.keys

theorem isRotated
    (h : system.Mirrors other)
    {cycle cycle' : Face}
    (hlists : system.ListsFace face cycle)
    (hlists' : other.ListsFace face cycle') :
    cycle.reverse ~r cycle' := by
  obtain ⟨flags, tails, hflags, hcycle, -, rfl, -⟩ := hlists
  obtain ⟨flags', tails', hflags', hcycle', -, rfl, -⟩ := hlists'
  rw [h.rank_eq, ← List.map_reverse]
  exact ((hcycle.reverse (h.getElem?_iff hflags hflags')).isRotated
    hcycle').map _

variable [Std.LawfulEqOrd F] [DecidableEq K]

theorem exists_resolve
    (h : system.Mirrors other)
    (hok : ∃ solid, system.resolve = .ok solid) :
    ∃ solid, other.resolve = .ok solid := by
  rw [exists_resolve_eq_ok_iff] at hok ⊢
  intro face flags' hflags'
  have hface : face ∈ system.faces :=
    (h.faces face).mp (mem_of_getElem?_eq_some hflags')
  obtain ⟨flags, hflags⟩ :=
    Option.isSome_iff_exists.mp
      (Std.ExtTreeMap.mem_iff_isSome_getElem?.mp hface)
  exact h.sound hflags hflags' (hok face flags hflags)

/-- The two systems resolve into the same faces written backwards, or neither
resolves. -/
theorem resolve (h : system.Mirrors other) :
    Except.Related
      (fun solid solid' => solid'.vertices.length = solid.vertices.length ∧
        List.Forall₂ (fun face face' => face.reverse ~r face') solid.faces
          solid'.faces) system.resolve other.resolve := by
  rw [Except.related_iff]
  refine ⟨⟨h.exists_resolve, h.symm.exists_resolve⟩,
    fun solid solid' hsolid hsolid' => ?_⟩
  have hlists := lists_of_resolve hsolid
  have hlists' := lists_of_resolve hsolid'
  constructor
  · rw [hlists.length_vertices, hlists'.length_vertices, vertexCount,
      vertexCount, ← Std.ExtTreeMap.length_keys,
      ← Std.ExtTreeMap.length_keys, keys_congr h.keys]
  · have hfaces := hlists.faces_forall₂
    have hfaces' := hlists'.faces_forall₂
    rw [keys_congr h.faces] at hfaces'
    generalize system.faces.keys = keys, solid.faces = faces,
      solid'.faces = faces' at hfaces hfaces'
    induction hfaces generalizing faces' with
    | nil =>
        cases hfaces'
        exact .nil
    | cons hface _ ih =>
        cases hfaces' with
        | cons hface' hrest =>
            exact .cons (h.isRotated hface hface') (ih _ hrest)

end Mirrors
end FlagSystem

namespace Incidence

variable {F K G L : Type} {R R' : Incidence G L}
  (hturned : ∀ f v w, R' f v w ↔ R f w v)
include hturned

theorem Permuting.turned (hR : R.Permuting) : R'.Permuting where
  permutes f := by
    have hface : R' f = fun v w => R f w v := by
      ext v w
      exact hturned f v w
    rw [hface]
    exact (hR.permutes f).swap

theorem faces_turned : R'.faces = R.faces := by
  ext f
  constructor
  · rintro ⟨v, w, h⟩
    exact ⟨w, v, (hturned f v w).mp h⟩
  · rintro ⟨v, w, h⟩
    exact ⟨w, v, (hturned f w v).mpr h⟩

theorem tails_turned (hR : R.Permuting) : R'.tails = R.tails := by
  ext v
  constructor
  · rintro ⟨f, w, h⟩
    exact hR.head_mem_tails ((hturned f v w).mp h)
  · rintro ⟨f, w, h⟩
    obtain ⟨u, hu⟩ := hR.prev h
    exact ⟨f, u, (hturned f v u).mpr hu⟩

theorem rename_turned {onFace : G → F} {onKey : L → K} (f : F) (v w : K) :
    R'.rename onFace onKey f v w ↔ R.rename onFace onKey f w v := by
  constructor
  · rintro ⟨g, a, b, h, rfl, rfl, rfl⟩
    exact rename_of ((hturned g a b).mp h)
  · rintro ⟨g, a, b, h, rfl, rfl, rfl⟩
    exact rename_of ((hturned g b a).mpr h)

end Incidence

namespace Blueprint

variable {F K G L : Type} {R R' : Incidence G L}
  (hturned : ∀ f v w, R' f v w ↔ R f w v)
  [Ord F] [Ord K] [Std.TransOrd F] [Std.TransOrd K] [Std.LawfulEqOrd F]
  [Std.LawfulEqOrd K] [DecidableEq F] [DecidableEq K]
  (hR : R.Permuting)
  {onFace : G → F} {onKey : L → K} {sites sites' : List (K × Point)}
  {flags flags' : List (Flag F K)}
  (hface : Set.InjOn onFace R.faces)
  (hkey : Set.InjOn onKey R.tails)
  (hflags : ∀ f v w, ⟨f, v, w⟩ ∈ flags ↔ R.rename onFace onKey f v w)
  (hflags' : ∀ f v w, ⟨f, v, w⟩ ∈ flags' ↔ R'.rename onFace onKey f v w)
  (hsites : ∀ key, key ∈ sites'.map Prod.fst ↔ key ∈ sites.map Prod.fst)
include hturned hR hface hkey hflags hflags' hsites

theorem system_mirrors : (system { sites, flags : Blueprint F K }).Mirrors
    (system { sites := sites', flags := flags' : Blueprint F K }) where
  keys key := by rw [mem_positions_iff, mem_positions_iff, hsites]
  faces face := by
    have hfaces : ∀ {sites : List (K × Point)} {flags : List (Flag F K)}
            {R : Incidence G L},
          (∀ f v w, ⟨f, v, w⟩ ∈ flags ↔ R.rename onFace onKey f v w) →
        (face ∈ (system { sites, flags : Blueprint F K }).faces ↔
          face ∈ onFace '' R.faces) := by
      intro sites flags R hflags
      rw [mem_faces_iff, ← Incidence.faces_rename]
      constructor
      · rintro ⟨⟨_, v, w⟩, hflag, rfl⟩
        exact ⟨v, w, (hflags _ _ _).mp hflag⟩
      · rintro ⟨v, w, h⟩
        exact ⟨⟨face, v, w⟩, (hflags _ _ _).mpr h, rfl⟩
    rw [hfaces hflags, hfaces hflags', Incidence.faces_turned hturned]
  incidence face v w := by
    have hface' : Set.InjOn onFace R'.faces := by
      rwa [Incidence.faces_turned hturned]
    have hkey' : Set.InjOn onKey R'.tails := by
      rwa [Incidence.tails_turned hturned hR]
    rw [system_incidence_of_permuting hR hface hkey hflags,
      system_incidence_of_permuting (Incidence.Permuting.turned hturned hR)
        hface' hkey' hflags']
    exact Incidence.rename_turned hturned face v w

variable [ToString F] [ToString K]

/-- Constructions on the same keys with flags in opposite directions give the
same faces written backwards, or are both refused. -/
theorem build_turned (name name' : String) :
    Except.Related
      (fun out out' : Mesh => out'.vertexCount = out.vertexCount ∧
        List.Forall₂ (fun face face' => face.reverse ~r face') out.faces
          out'.faces) (build { sites, flags : Blueprint F K } name) (build
        { sites := sites', flags := flags' : Blueprint F K } name') := by
  have hresolve :=
    (system_mirrors hturned hR hface hkey hflags hflags' hsites).resolve
  rw [build_eq_resolve rfl, build_eq_resolve rfl]
  generalize (system { sites, flags : Blueprint F K }).resolve = x,
    (system { sites := sites', flags := flags' : Blueprint F K }).resolve = y
      at hresolve ⊢
  cases x with
  | error fault =>
      cases y with
      | error fault' => trivial
      | ok solid' => exact hresolve
  | ok solid =>
      cases y with
      | error fault' => exact hresolve
      | ok solid' =>
          obtain ⟨hvertices, hfaces⟩ := hresolve
          exact ⟨by simpa [Mesh.vertexCount, Solid.named] using hvertices,
            hfaces⟩

end Blueprint
end Polyhedra
