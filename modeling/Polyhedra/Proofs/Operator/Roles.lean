import Mathlib
import Polyhedra.Operator.Basic
import Polyhedra.Proofs.Flag.LastDeclaration
import Polyhedra.Proofs.Flag.Relabelling
import Polyhedra.Proofs.Operator.Gyro
import Polyhedra.Proofs.Surface.Decision
import Polyhedra.Seed.Platonic

/-!
# Roles stay apart under their labels

The operators that work on roles enter them under text labels.  Labels tell
the roles apart, so the output has one vertex for every role of a vertex and
one face for every role of a face: a vertex stands where its role was placed
last, and the flags of a face are those that were declared for its role, the
last one for every tail.
-/

namespace Polyhedra

/-! ## Last declarations under other keys -/

namespace Declaration

variable {F K G L : Type} {onFace : F → G} {onKey : K → L}

theorem last?_map {α β : Type} {value? : Declaration F K → Option α}
    {other? : Declaration G L → Option β} {rename : α → β}
    (h : ∀ declaration : Declaration F K, other?
      (declaration.map onFace onKey) = (value? declaration).map rename)
    (declarations : List (Declaration F K)) :
    last? other? (declarations.map (.map onFace onKey)) =
      (last? value? declarations).map rename := by
  unfold last?
  rw [← List.map_reverse]
  induction declarations.reverse with
  | nil => rfl
  | cons declaration rest ih =>
      rw [List.map_cons, List.findSome?_cons, List.findSome?_cons, h, ih]
      cases value? declaration <;> rfl

variable [DecidableEq F] [DecidableEq K] [DecidableEq G] [DecidableEq L]

omit [DecidableEq F] [DecidableEq G] in
theorem last?_positionOf?_map (hkey : Function.Injective onKey)
    (declarations : List (Declaration F K)) (key : K) :
    last? (positionOf? (onKey key)) (declarations.map (.map onFace onKey)) =
      last? (positionOf? key) declarations := by
  have hvalue : ∀ declaration : Declaration F K,
      positionOf? (onKey key) (declaration.map onFace onKey) =
        (positionOf? key declaration).map id := by
    intro declaration
    cases declaration with
    | vertex other position => simp [map, positionOf?, hkey.eq_iff]
    | flag edge => rfl
  rw [last?_map hvalue, Option.map_id_apply]

theorem last?_headOf?_map
    (hface : Function.Injective onFace)
    (hkey : Function.Injective onKey)
    (declarations : List (Declaration F K)) (face : F) (tail : K) :
    last? (headOf? (onFace face) (onKey tail))
        (declarations.map (.map onFace onKey)) =
      (last? (headOf? face tail) declarations).map onKey := by
  refine last?_map (fun declaration => ?_) declarations
  cases declaration with
  | vertex key position => rfl
  | flag edge =>
      simp only [map, headOf?, Flag.map, hface.eq_iff, hkey.eq_iff]
      split <;> rfl

theorem exists_of_last?_headOf? {declarations : List (Declaration F K)}
    {face : F} {tail head : K}
    (h : last? (headOf? face tail) declarations = some head) :
    .flag ⟨face, tail, head⟩ ∈ declarations := by
  obtain ⟨declaration, hmem, hhead⟩ := List.exists_of_findSome?_eq_some h
  rw [List.mem_reverse] at hmem
  cases declaration with
  | vertex key position => cases hhead
  | flag edge =>
      obtain ⟨⟨rfl, rfl⟩, rfl⟩ :
          (edge.face = face ∧ edge.tail = tail) ∧ edge.head = head := by
        simpa [headOf?] using hhead
      exact hmem

end Declaration

namespace Blueprint

variable {F K G L : Type} [DecidableEq F] [DecidableEq K]

/-- The flags of a blueprint that no later flag replaces. -/
def lastFlags (blueprint : Blueprint F K) : Incidence F K :=
  fun face tail head =>
    Declaration.last? (Declaration.headOf? face tail)
      blueprint.declarations = some head

omit [DecidableEq F] [DecidableEq K] in
theorem declarations_relabel (blueprint : Blueprint F K) (onFace : F → G)
    (onKey : K → L) :
    (blueprint.relabel onFace onKey).declarations =
      blueprint.declarations.map (.map onFace onKey) := by
  simp only [declarations, relabel, List.map_append, List.map_map]
  rfl

variable [Ord G] [Ord L] [Std.TransOrd G] [Std.TransOrd L]
  [Std.LawfulEqOrd G] [Std.LawfulEqOrd L] [DecidableEq G] [DecidableEq L]
  {onFace : F → G} {onKey : K → L}

omit [Std.LawfulEqOrd G] [DecidableEq F] [DecidableEq G] in
theorem position?_system_relabel
    (hkey : Function.Injective onKey)
    (blueprint : Blueprint F K) (key : K) :
    (blueprint.relabel onFace onKey).system.position? (onKey key) =
      Declaration.last? (Declaration.positionOf? key)
        blueprint.declarations := by
  rw [system, FlagSystem.position?_ofDeclarations, declarations_relabel,
    Declaration.last?_positionOf?_map hkey]

theorem incidence_system_relabel
    (hface : Function.Injective onFace)
    (hkey : Function.Injective onKey)
    (blueprint : Blueprint F K) :
    (blueprint.relabel onFace onKey).system.incidence =
      blueprint.lastFlags.rename onFace onKey := by
  ext g v w
  unfold FlagSystem.incidence lastFlags
  rw [system, FlagSystem.head?_ofDeclarations, declarations_relabel]
  constructor
  · intro h
    have hflag := Declaration.exists_of_last?_headOf? h
    obtain ⟨declaration, -, heq⟩ := List.mem_map.mp hflag
    cases declaration with
    | vertex key position => cases heq
    | flag edge =>
        obtain ⟨rfl, rfl, -⟩ : onFace edge.face = g ∧ onKey edge.tail = v ∧
            onKey edge.head = w := by
          simpa [Declaration.map, Flag.map] using heq
        rw [Declaration.last?_headOf?_map hface hkey] at h
        obtain ⟨head, hhead, rfl⟩ := Option.map_eq_some_iff.mp h
        exact Incidence.rename_of hhead
  · rintro ⟨face, tail, head, h, rfl, rfl, rfl⟩
    rw [Declaration.last?_headOf?_map hface hkey, h]
    rfl

end Blueprint

/-! ## Places of roles -/

namespace FlagSystem

variable {F K : Type} [Ord F] [Ord K]

theorem bijOn_rank [Std.TransOrd K] [Std.LawfulEqOrd K]
    (system : FlagSystem F K) :
    Set.BijOn system.rank {key | key ∈ system.positions}
      {v | v < system.vertexCount} :=
  ⟨fun _ hkey => system.rank_lt hkey, system.rank_injOn,
    fun _ hv => system.exists_rank_eq hv⟩

theorem bijOn_faceRank [Std.TransOrd F] [Std.LawfulEqOrd F]
    (system : FlagSystem F K) :
    Set.BijOn system.faceRank {face | face ∈ system.faces}
      {i | i < system.faceCount} := by
  refine ⟨fun _ hface => system.faceRank_lt hface, system.faceRank_injOn,
    fun i hi => ?_⟩
  have hlt : i < system.faces.keys.length := by
    rwa [Std.ExtTreeMap.length_keys]
  have hface : system.faces.keys[i] ∈ system.faces :=
    Std.ExtTreeMap.mem_keys.mp (List.getElem_mem hlt)
  exact ⟨_, hface,
    (system.faceRank_eq_iff hface).mpr (List.getElem?_eq_getElem hlt)⟩

end FlagSystem

namespace Blueprint

/-- A construction on roles with the roles under their labels. -/
def labelled (blueprint : Blueprint FaceRole VertexRole) :
    Blueprint String String :=
  blueprint.relabel FaceRole.label VertexRole.label

/-- The number of registered labels below the one of a role. -/
def vertexPlace (blueprint : Blueprint FaceRole VertexRole)
    (role : VertexRole) : ℕ :=
  blueprint.labelled.system.rank role.label

def facePlace (blueprint : Blueprint FaceRole VertexRole) (role : FaceRole) :
    ℕ :=
  blueprint.labelled.system.faceRank role.label

variable (blueprint : Blueprint FaceRole VertexRole)

theorem mem_positions_labelled {label : String} :
    label ∈ blueprint.labelled.system.positions ↔
      label ∈ VertexRole.label ''
        {role | role ∈ blueprint.sites.map Prod.fst} := by
  rw [mem_positions_iff, labelled, relabel, List.map_map, List.mem_map]
  simp only [Set.mem_image, Set.mem_ofPred_eq, List.mem_map]
  constructor
  · rintro ⟨site, hsite, rfl⟩
    exact ⟨site.1, ⟨site, hsite, rfl⟩, rfl⟩
  · rintro ⟨_, ⟨site, hsite, rfl⟩, rfl⟩
    exact ⟨site, hsite, rfl⟩

theorem mem_faces_labelled {label : String} :
    label ∈ blueprint.labelled.system.faces ↔
      label ∈
        FaceRole.label ''
      {role | ∃ flag ∈ blueprint.flags, flag.face = role} := by
  rw [mem_faces_iff, labelled, relabel]
  constructor
  · rintro ⟨_, hflag, rfl⟩
    obtain ⟨flag, hmem, rfl⟩ := List.mem_map.mp hflag
    exact ⟨flag.face, ⟨flag, hmem, rfl⟩, rfl⟩
  · rintro ⟨_, ⟨flag, hflag, rfl⟩, rfl⟩
    exact ⟨_, List.mem_map_of_mem hflag, rfl⟩

end Blueprint

/-- No two roles of a construction share a vertex or a face of the mesh, and
none is left out. -/
structure Mesh.KeepsApart (mesh : Mesh)
    (blueprint : Blueprint FaceRole VertexRole) : Prop where
  vertices : Set.BijOn blueprint.vertexPlace
    {role | role ∈ blueprint.sites.map Prod.fst} {v | v < mesh.vertexCount}
  faces : Set.BijOn blueprint.facePlace {role |
    ∃ flag ∈ blueprint.flags, flag.face = role} {i | i < mesh.faceCount}
  position : ∀ role ∈ blueprint.sites.map Prod.fst,
    mesh.vertices[blueprint.vertexPlace role]? =
      Declaration.last? (Declaration.positionOf? role) blueprint.declarations
  incidence : mesh.faces.incidence =
    blueprint.lastFlags.rename blueprint.facePlace blueprint.vertexPlace

namespace Blueprint

variable (blueprint : Blueprint FaceRole VertexRole)

theorem bijOn_vertexPlace : Set.BijOn blueprint.vertexPlace
    {role | role ∈ blueprint.sites.map Prod.fst}
    {v | v < blueprint.labelled.system.vertexCount} := by
  have hlabels : {label | label ∈ blueprint.labelled.system.positions} =
      VertexRole.label '' {role | role ∈ blueprint.sites.map Prod.fst} :=
    Set.ext fun _ => blueprint.mem_positions_labelled
  have hranks := blueprint.labelled.system.bijOn_rank
  rw [hlabels] at hranks
  exact hranks.comp VertexRole.label_injective.injOn.bijOn_image

theorem bijOn_facePlace : Set.BijOn blueprint.facePlace
    {role | ∃ flag ∈ blueprint.flags, flag.face = role}
    {i | i < blueprint.labelled.system.faceCount} := by
  have hlabels : {label | label ∈ blueprint.labelled.system.faces} =
      FaceRole.label ''
      {role | ∃ flag ∈ blueprint.flags, flag.face = role} :=
    Set.ext fun _ => blueprint.mem_faces_labelled
  have hranks := blueprint.labelled.system.bijOn_faceRank
  rw [hlabels] at hranks
  exact hranks.comp FaceRole.label_injective.injOn.bijOn_image

theorem keepsApart_of_build {blueprint : Blueprint FaceRole VertexRole}
    {name : String} {out : Mesh}
    (hpolygons : blueprint.polygons = [])
    (hbuild : blueprint.buildLabelled name = .ok out) :
    out.KeepsApart blueprint := by
  obtain ⟨-, solid, hsolid, rfl⟩ := build_eq_ok_iff.mp hbuild
  change blueprint.labelled.system.resolve = .ok solid at hsolid
  have hlists := FlagSystem.lists_of_resolve hsolid
  have hnone :
      (blueprint.relabel FaceRole.label VertexRole.label).polygons = [] := by
    rw [relabel, hpolygons, List.map_nil]
  rw [hnone, List.map_nil, List.append_nil]
  have hvertexCount : (solid.named name).vertexCount =
      blueprint.labelled.system.vertexCount :=
    List.size_toArray.trans hlists.length_vertices
  have hfaceCount :
      (solid.named name).faceCount = blueprint.labelled.system.faceCount :=
    hlists.length_faces
  constructor
  · rw [hvertexCount]
    exact blueprint.bijOn_vertexPlace
  · rw [hfaceCount]
    exact blueprint.bijOn_facePlace
  · intro role hrole
    have hregistered : role.label ∈ blueprint.labelled.system.positions :=
      blueprint.mem_positions_labelled.mpr ⟨role, hrole, rfl⟩
    have hkey := (blueprint.labelled.system.rank_eq_iff hregistered).mp rfl
    calc (solid.named name).vertices[blueprint.vertexPlace role]? =
        solid.vertices[blueprint.vertexPlace role]? :=
      List.getElem?_toArray
      _ = blueprint.labelled.system.position? role.label :=
        hlists.getElem?_vertices hkey
      _ = _ :=
        position?_system_relabel VertexRole.label_injective blueprint role
  · have hincidence := hlists.incidence_eq
    rw [labelled, incidence_system_relabel FaceRole.label_injective
      VertexRole.label_injective, Incidence.rename_rename] at hincidence
    exact hincidence

end Blueprint

namespace Operator

/-- The construction that an operator carries out on roles, for the operators
that do. -/
def Drafts (mesh : Mesh) (blueprint : Blueprint FaceRole VertexRole) :
    Operator → Prop
  | gyro => blueprint =
      { sites := mesh.unitCornerSites ++ mesh.centerSites ++ mesh.thirdSites
        flags := mesh.faces.gyroFlags }
  | propellor =>
      blueprint =
        { sites := mesh.unitCornerSites ++ mesh.thirdSites,
          flags := mesh.faces.propellorFlags }
  | whirl => blueprint =
      { sites := mesh.unitCornerSites ++ mesh.thirdSites ++ mesh.innerSites
        flags := mesh.faces.whirlFlags }
  | inset sides fraction offset => blueprint =
      { sites := mesh.cornerSites ++ mesh.insetSites sides fraction offset
        flags := mesh.faces.insetFlags sides }
  | extrude sides => blueprint =
      { sites := mesh.cornerSites ++ mesh.insetSites sides 0 extrudeOffset
        flags := mesh.faces.insetFlags sides }
  | loft sides fraction => blueprint =
      { sites := mesh.cornerSites ++ mesh.insetSites sides fraction 0
        flags := mesh.faces.insetFlags sides }
  | hollow fraction thickness => ∃ dual, mesh.dual = .ok dual ∧ blueprint =
      { sites := mesh.shellSites (mesh.shellDirections dual) thickness ++
          mesh.windowSites fraction thickness
        flags := mesh.faces.hollowFlags }
  | perspectiva =>
      blueprint =
        { sites := mesh.cornerSites ++ mesh.stellatedSites,
          flags := mesh.faces.perspectivaFlags }
  | _ => False

/-- The operator enters roles under their labels. -/
def UsesLabels : Operator → Prop
  | gyro | propellor | whirl | inset .. | extrude _ | loft .. | hollow .. |
      perspectiva =>
      True
  | _ => False

/-- An operator on roles succeeds only by building what it drafts. -/
theorem UsesLabels.exists_drafts {op : Operator}
    (hop : op.UsesLabels)
    {mesh out : Mesh}
    (hout : op.transform mesh = .ok out) :
    ∃ blueprint name, op.Drafts mesh blueprint ∧ blueprint.polygons = [] ∧
      blueprint.buildLabelled name = .ok out := by
  cases op with
  | gyro | propellor | whirl | inset | extrude | loft | perspectiva =>
      obtain ⟨_, -, hbuild⟩ := Except.bind_eq_ok_iff.mp hout
      exact ⟨_, _, rfl, rfl, hbuild⟩
  | hollow =>
      obtain ⟨_, -, hrest⟩ := Except.bind_eq_ok_iff.mp hout
      obtain ⟨dual, hdual, hbuild⟩ := Except.bind_eq_ok_iff.mp hrest
      exact ⟨_, _, ⟨dual, hdual, rfl⟩, rfl, hbuild⟩
  | _ => exact hop.elim

/-- Labels tell roles apart, and so every operator that enters roles under
labels makes one vertex for every role of a vertex and one face for every
role of a face. -/
theorem keepsApart :
    Function.Injective VertexRole.label ∧ Function.Injective FaceRole.label ∧
      ∀ (op : Operator) (mesh out : Mesh), op.UsesLabels →
        op.transform mesh = .ok out →
        ∃ blueprint, op.Drafts mesh blueprint ∧
          out.KeepsApart blueprint := by
  refine ⟨VertexRole.label_injective, FaceRole.label_injective, ?_⟩
  intro op mesh out hop hout
  obtain ⟨blueprint, name, hdrafts, hpolygons, hbuild⟩ :=
    hop.exists_drafts hout
  exact ⟨blueprint, hdrafts, Blueprint.keepsApart_of_build hpolygons hbuild⟩

theorem keepsApart_tetrahedron :
    (FaceRole.ring 1 12).label ≠ (FaceRole.ring 11 2).label ∧
      UsesLabels .gyro ∧
      ∃ out, transform (Platonic.tetrahedron.named "T") .gyro = .ok out ∧
        ∃ blueprint,
          Drafts (Platonic.tetrahedron.named "T") blueprint .gyro ∧
          out.KeepsApart blueprint := by
  have hpoly : (Platonic.tetrahedron.named "T").Polyhedral :=
    Surface.polyhedral_tetrahedron
  obtain ⟨out, hout, -⟩ := hpoly.gyro
  exact ⟨keepsApart.2.1.ne nofun, trivial, out, hout,
    keepsApart.2.2 .gyro _ _ trivial hout⟩

end Operator
end Polyhedra
