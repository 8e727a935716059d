import Polyhedra.Decimal.Shortest
import Polyhedra.Diagnostic
import Polyhedra.Flag.Assembler
import Polyhedra.Flag.Basic
import Polyhedra.Flag.Blueprint
import Polyhedra.Flag.IndexKey
import Polyhedra.Flag.Label
import Polyhedra.Flag.System
import Polyhedra.Flag.Walk
import Polyhedra.Geometry.Color
import Polyhedra.Geometry.Point
import Polyhedra.Geometry.Welding
import Polyhedra.Mesh.Attributes
import Polyhedra.Mesh.Basic
import Polyhedra.Mesh.Buffers
import Polyhedra.Mesh.Error
import Polyhedra.Notation.Basic
import Polyhedra.Notation.Evaluation
import Polyhedra.Operator.Basic
import Polyhedra.Operator.Chamfer
import Polyhedra.Operator.Dual
import Polyhedra.Operator.Midpoint
import Polyhedra.Operator.Pyramid
import Polyhedra.Operator.Reflection
import Polyhedra.Operator.Subdivision
import Polyhedra.Operator.Twist
import Polyhedra.Operator.Window
import Polyhedra.Operator.Word
import Polyhedra.Presets
import Polyhedra.Seed.Basic
import Polyhedra.Seed.Platonic
import Polyhedra.Seed.Ring
import Polyhedra.Seed.Standard
import Polyhedra.Surface.Basic
import Polyhedra.Surface.Closure
import Polyhedra.Surface.Count
import Polyhedra.Surface.Edge
import Polyhedra.Surface.Face
import Polyhedra.Proofs.Flag.Walk
import Polyhedra.Proofs.Except
import Polyhedra.Proofs.Flag.Resolution
import Polyhedra.Proofs.Incidence.Basic
import Polyhedra.Proofs.Surface.Closure
import Polyhedra.Proofs.Surface.Polyhedral
import Polyhedra.Proofs.Flag.Construction
import Polyhedra.Proofs.Flag.Key
import Polyhedra.Proofs.Operator.Flags
import Polyhedra.Proofs.Operator.Gyro
import Polyhedra.Proofs.Operator.Propellor
import Polyhedra.Proofs.Operator.Whirl
import Polyhedra.Proofs.Operator.Quinto
import Polyhedra.Proofs.Operator.Perspectiva
import Polyhedra.Proofs.Operator.Ambo
import Polyhedra.Proofs.Operator.Chamfer
import Polyhedra.Proofs.Operator.Inset
import Polyhedra.Proofs.Operator.Hollow
import Polyhedra.Proofs.Operator.Kis
import Polyhedra.Proofs.Flag.Numbering
import Polyhedra.Proofs.Operator.Dual
import Polyhedra.Proofs.Surface.Decision
import Polyhedra.Proofs.Operator.Reflection
import Polyhedra.Proofs.Operator.Invariance
import Polyhedra.Proofs.Notation.Chain
import Polyhedra.Proofs.Operator.Outcome
import Polyhedra.Proofs.Operator.AmboDual
import Polyhedra.Proofs.Notation.Grammar
import Polyhedra.Proofs.Notation.Composition
import Polyhedra.Proofs.Notation.Naming
import Polyhedra.Proofs.Flag.Relabelling
import Polyhedra.Proofs.Operator.StartingCorner
import Polyhedra.Proofs.Operator.Shell
import Polyhedra.Proofs.Subdivision.Closure
import Polyhedra.Proofs.Operator.Twist
import Polyhedra.Proofs.Operator.Pinch
import Polyhedra.Proofs.Operator.Truncation
import Polyhedra.Proofs.Operator.Midpoints
import Polyhedra.Proofs.Operator.Ridges
import Polyhedra.Proofs.Flag.Diagnosis
import Polyhedra.Proofs.Operator.Moved
import Polyhedra.Proofs.Operator.PyramidList
import Polyhedra.Proofs.Operator.AmboFaces
import Polyhedra.Proofs.Surface.FirstFault
import Polyhedra.Proofs.Geometry.Buckets
import Polyhedra.Proofs.Subdivision.Blocks
import Polyhedra.Proofs.Operator.Unchanged
import Polyhedra.Proofs.Flag.LastDeclaration
import Polyhedra.Proofs.Mesh.Buffers
import Polyhedra.Proofs.Notation.SeedRequest
import Polyhedra.Proofs.Seed.Ring
import Polyhedra.Proofs.Flag.Encoding
import Polyhedra.Proofs.Operator.Roles
import Polyhedra.Proofs.Operator.Mirror
import Polyhedra.Proofs.Flag.History
