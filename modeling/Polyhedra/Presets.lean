import Polyhedra.Decimal.Shortest

/-!
# Operator presets and limits

The numbers that the written form of an operator leaves out: distances, the
welding tolerance, and the bounds on subdivision factors and on the side
counts of seeds.  A change of a preset that would leave no meaningful value
is refused with its cause.
-/

namespace Polyhedra

structure Presets where
  /-- Lattice points of a subdivision that are closer than this become one
  vertex. -/
  weldTolerance : Float := 1e-8
  maxSubdivision : Nat := 64
  maxSides : Nat := 1024
  /-- Height of the apex of a kis above the centre of its face. -/
  pyramidHeight : Float := 0.1
  chamferDepth : Float := 0.5
  /-- Fraction of the way from a corner to the centre of its face. -/
  insetFraction : Float := 0.5
  /-- Offset along the face normal; a negative one sinks the face. -/
  insetOffset : Float := -0.2
  windowFraction : Float := 0.5
  wallThickness : Float := 0.1

/-- Offset of an extruded face along its normal. -/
def extrudeOffset : Float := 0.3

/-- A lofted face stays in its plane and keeps its size. -/
def loftFraction : Float := 0.0

def defaultSubdivision : Nat := 2

def defaultSides : Nat := 3

def minSides : Nat := 3

/-- No seed is built with more sides than this, whatever the presets
allow. -/
def maxSupportedSides : Nat := 1024

inductive PresetError where
  | toleranceNotPositive (tolerance : Float)
  | noSubdivisionFactor (limit : Nat)
  | seedLimitTooSmall (limit : Nat)
  | thicknessNotPositive (thickness : Float)

def PresetError.message : PresetError → String
  | .toleranceNotPositive tolerance =>
    "merge tolerance must be positive: " ++ shortestText tolerance
  | .noSubdivisionFactor limit => s!"max_trisub_factor must be >= 1: {limit}"
  | .seedLimitTooSmall limit =>
      s!"max_seed_sides must be >= {minSides}: {limit}"
  | .thicknessNotPositive thickness =>
    "hollow thickness must be positive: " ++ shortestText thickness

namespace Presets

/-- The default presets with another tolerance and another limit on
subdivision factors. -/
def withLimits (weldTolerance : Float) (maxSubdivision : Nat) :
    Except PresetError Presets :=
  if !(weldTolerance > 0) then
    .error (.toleranceNotPositive weldTolerance)
  else if maxSubdivision = 0 then
    .error (.noSubdivisionFactor maxSubdivision)
  else
    .ok { weldTolerance, maxSubdivision }

def withMaxSides (presets : Presets) (sides : Nat) :
    Except PresetError Presets :=
  if sides < minSides then
    .error (.seedLimitTooSmall sides)
  else
    .ok { presets with maxSides := sides }

def withPyramidHeight (presets : Presets) (height : Float) : Presets :=
  { presets with pyramidHeight := height }

def withChamferDepth (presets : Presets) (depth : Float) : Presets :=
  { presets with chamferDepth := depth }

def withInset (presets : Presets) (fraction offset : Float) : Presets :=
  { presets with insetFraction := fraction, insetOffset := offset }

def withWindow (presets : Presets) (fraction thickness : Float) :
    Except PresetError Presets :=
  if !(thickness > 0) then
    .error (.thicknessNotPositive thickness)
  else
    .ok
      { presets with windowFraction := fraction, wallThickness := thickness }

end Presets

end Polyhedra
