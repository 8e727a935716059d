import Polyhedra.Diagnostic
import Polyhedra.Operator.Chamfer
import Polyhedra.Operator.Midpoint
import Polyhedra.Operator.Reflection
import Polyhedra.Operator.Pyramid
import Polyhedra.Operator.Subdivision
import Polyhedra.Operator.Twist
import Polyhedra.Operator.Window
import Polyhedra.Presets

/-!
# Operators

An operator with its numeric parameters.  In notation an operator is one
letter, its code; a number after the code of some operators selects faces by
their side count, vertices by their degree, or the factor of a subdivision.
The remaining parameters come from the presets.
-/

namespace Polyhedra

/-- An operator with its parameters.  A parameter `sides` is a filter on side
counts, zero for every face. -/
inductive Operator where
  | dual
  | ambo
  | gyro
  | propellor
  | kis (sides : Nat) (height : Float)
  | chamfer (depth : Float)
  | whirl
  | quinto
  | inset (sides : Nat) (fraction offset : Float)
  | extrude (sides : Nat)
  | loft (sides : Nat) (fraction : Float)
  | hollow (fraction thickness : Float)
  | perspectiva
  | reflect
  | subdivide (factor : Nat) (tolerance : Float) (maxFactor : Nat)
  /-- Here `sides` is a filter on the degree of vertices. -/
  | truncate (sides : Nat) (height : Float)

namespace Operator

/-- The operator with the given code, if there is one.  An operator that
takes no argument drops it. -/
def ofCode? (code : Char) (argument? : Option Nat) (presets : Presets) :
    Option Operator :=
  let sides := argument?.getD 0
  match code with
  | 'd' => some dual
  | 'a' => some ambo
  | 'g' => some gyro
  | 'p' => some propellor
  | 'k' => some (kis sides presets.pyramidHeight)
  | 'c' => some (chamfer presets.chamferDepth)
  | 'w' => some whirl
  | 'q' => some quinto
  | 'n' => some (inset sides presets.insetFraction presets.insetOffset)
  | 'x' => some (extrude sides)
  | 'l' => some (loft sides loftFraction)
  | 'H' => some (hollow presets.windowFraction presets.wallThickness)
  | 'P' => some perspectiva
  | 'r' => some reflect
  | 'u' =>
      some (subdivide (argument?.getD defaultSubdivision)
        presets.weldTolerance presets.maxSubdivision)
  | 't' => some (truncate sides presets.pyramidHeight)
  | _ => none

def code : Operator → Char
  | dual => 'd'
  | ambo => 'a'
  | gyro => 'g'
  | propellor => 'p'
  | kis .. => 'k'
  | chamfer .. => 'c'
  | whirl => 'w'
  | quinto => 'q'
  | inset .. => 'n'
  | extrude .. => 'x'
  | loft .. => 'l'
  | hollow .. => 'H'
  | perspectiva => 'P'
  | reflect => 'r'
  | subdivide .. => 'u'
  | truncate .. => 't'

/-- The name under which an operator raises diagnostics. -/
def name : Operator → String
  | dual => "dual"
  | ambo => "ambo"
  | gyro => "gyro"
  | propellor => "propellor"
  | kis .. => "kis"
  | chamfer .. => "chamfer"
  | whirl => "whirl"
  | quinto => "quinto"
  | inset .. => "inset"
  | extrude .. => "extrude"
  | loft .. => "loft"
  | hollow .. => "hollow"
  | perspectiva => "perspectiva1"
  | reflect => "reflect"
  | subdivide .. => "trisub"
  | truncate .. => "truncate"

/-- Whether a number after the code means anything. -/
def readsNumber : Operator → Bool
  | kis .. | inset .. | extrude .. | loft .. | subdivide .. | truncate .. =>
      true
  | _ => false

/-- The mesh that an operator makes of another one. -/
def transform (mesh : Mesh) : Operator → Except MeshError Mesh
  | dual => mesh.dual
  | ambo => mesh.ambo
  | gyro => mesh.gyro
  | propellor => mesh.propellor
  | kis sides height => mesh.kis sides height
  | chamfer depth => mesh.chamfer depth
  | whirl => mesh.whirl
  | quinto => mesh.quinto
  | inset sides fraction offset => mesh.inset sides fraction offset
  | extrude sides => mesh.extrude sides
  | loft sides fraction => mesh.loft sides fraction
  | hollow fraction thickness => mesh.hollow fraction thickness
  | perspectiva => mesh.perspectiva
  | reflect => .ok mesh.reflect
  | subdivide factor tolerance maxFactor =>
      mesh.subdivide factor tolerance maxFactor
  | truncate sides height => mesh.truncate sides height

/-- What is said about a filter on side counts that selects no face. -/
def selectionRemark (mesh : Mesh) (sides : Nat) : String :=
  if sides = 0 then "'" ++ mesh.name ++ "' has no faces"
  else s!"no {sides}-sided faces in '" ++ mesh.name ++ "'"

/-- The diagnostics that an operator raises on a mesh.  A filter that selects
nothing is reported whether or not the operator succeeds, but degrees are
counted only on a mesh in range; a mesh left alone by a subdivision is
reported only when the parameters are accepted. -/
def remarks (op : Operator) (mesh : Mesh) : Diagnostics :=
  match op with
  | kis sides _ | inset sides _ _ | extrude sides | loft sides _ =>
    if mesh.selectedCount sides = 0
      then [.warning op.name (selectionRemark mesh sides)] else []
  | truncate sides _ =>
    if sides ≠ 0 ∧ mesh.InRange ∧ mesh.cutCount sides = 0 then
      [.warning op.name
        (s!"no vertices of degree {sides} in '" ++ mesh.name ++ "'")]
    else []
  | subdivide factor tolerance maxFactor =>
    if mesh.faces.Triangular then []
    else match mesh.subdivide factor tolerance maxFactor with
      | .ok _ =>
          [.info op.name ("'" ++ mesh.name ++
            "' has non-triangular faces, left unchanged")]
      | .error _ => []
  | _ => []

end Operator

end Polyhedra
