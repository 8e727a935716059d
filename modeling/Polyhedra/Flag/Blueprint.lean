import Polyhedra.Flag.Assembler

/-!
# Blueprints

A construction written down in full: the positions of its symbolic vertices,
its flags, and its polygons.  A blueprint can be put under other keys before
it is built.
-/

namespace Polyhedra

structure Blueprint (F K : Type) where
  sites : List (K × Point)
  flags : List (Flag F K)
  polygons : List (List K) := []

namespace Blueprint

variable {F K : Type}

def declarations (blueprint : Blueprint F K) : List (Declaration F K) :=
  blueprint.sites.map (fun (key, position) => .vertex key position) ++
    blueprint.flags.map .flag

/-- The same construction under other keys. -/
def relabel {G L : Type} (onFace : F → G) (onKey : K → L)
    (blueprint : Blueprint F K) : Blueprint G L where
  sites := blueprint.sites.map fun (key, position) => (onKey key, position)
  flags := blueprint.flags.map (Flag.map onFace onKey)
  polygons := blueprint.polygons.map (List.map onKey)

variable [Ord F] [Ord K] [Std.TransOrd F] [Std.TransOrd K]

def system (blueprint : Blueprint F K) : FlagSystem F K :=
  .ofDeclarations blueprint.declarations

def assembler [ToString K] (blueprint : Blueprint F K) :
    Except MeshError (Assembler F K) :=
  blueprint.polygons.foldlM Assembler.addPolygon
    { system := blueprint.system }

/-- The mesh that a construction describes. -/
def build [DecidableEq K] [ToString F] [ToString K]
    (blueprint : Blueprint F K) (name : String) : Except MeshError Mesh := do
  let assembler ← blueprint.assembler
  assembler.resolve name

end Blueprint

end Polyhedra
