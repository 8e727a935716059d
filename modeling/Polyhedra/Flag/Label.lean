import Polyhedra.Flag.Blueprint

/-!
# Text labels

Some constructions name their vertices and faces by text: a letter for the
role, followed by one or two indices in decimal.  The roles are typed here,
and a label is only the text under which a role is entered; the order of the
output is the order of these texts.
-/

namespace Polyhedra

/-- What a symbolic vertex stands for.  Faces are named `i`, vertices `v`,
`a` and `b`. -/
inductive VertexRole where
  /-- The input vertex `v`. -/
  | corner (v : Nat)
  /-- The centre of the face `i`. -/
  | center (i : Nat)
  /-- The point of the face `i` near its corner `v`. -/
  | inner (i v : Nat)
  /-- The point of the edge from `a` to `b` that is nearer to `a`. -/
  | third (a b : Nat)
  /-- The corner `v` of the shrunk copy of the face `i`. -/
  | inset (i v : Nat)
  /-- The vertex `v` moved inward. -/
  | lower (v : Nat)
  /-- The corner `v` of the window in the face `i`. -/
  | window (i v : Nat)
  /-- The corner `v` of the window in the face `i`, moved inward. -/
  | lowerWindow (i v : Nat)
  /-- The point of a face next to the middle of its edge from `a` to `b`. -/
  | stellated (a b : Nat)
deriving DecidableEq

/-- What a symbolic face stands for. -/
inductive FaceRole where
  /-- The copy of the face `i` inside it. -/
  | copy (i : Nat)
  /-- The face `i` itself. -/
  | kept (i : Nat)
  /-- The face `i` after it was moved. -/
  | raised (i : Nat)
  /-- One of the faces in a ring around the face `i`, next to its corner
  `v`. -/
  | ring (i v : Nat)
  /-- The wall on the outer shell at the edge of the face `i` that starts at
  `v`. -/
  | outer (i v : Nat)
  /-- The wall inside the window at that edge. -/
  | side (i v : Nat)
  /-- The wall on the inner shell at that edge. -/
  | bottom (i v : Nat)
  /-- The triangle at the corner `v` of the face `i`. -/
  | corner (i v : Nat)
  /-- The triangle on the edge from `a` to `b`. -/
  | edge (a b : Nat)
deriving DecidableEq

namespace Label

def one (role : String) (a : Nat) : String :=
  role ++ toString a

def two (role : String) (a b : Nat) : String :=
  role ++ toString a ++ "-" ++ toString b

/-- The label of the input vertex `v`. -/
def vertex (v : Nat) : String :=
  one "v" v

end Label

def VertexRole.label : VertexRole → String
  | corner v => Label.vertex v
  | center i => Label.one "c" i
  | inner i v => Label.two "c" i v
  | third a b => Label.two "e" a b
  | inset i v => Label.two "i" i v
  | lower v => Label.one "d" v
  | window i v => Label.two "fi" i v
  | lowerWindow i v => Label.two "fd" i v
  | stellated a b => Label.two "s" a b

def FaceRole.label : FaceRole → String
  | copy i => Label.one "in" i
  | kept i => Label.one "o" i
  | raised i => Label.one "ex" i
  | ring i v => Label.two "f" i v
  | outer i v => Label.two "o" i v
  | side i v => Label.two "s" i v
  | bottom i v => Label.two "b" i v
  | corner i v => Label.two "c" i v
  | edge a b => Label.two "e" a b

/-- An assembler that names vertices and faces by text. -/
abbrev LabelAssembler := Assembler String String

/-- The vertices of a mesh, moved to the unit sphere, under their labels. -/
def LabelAssembler.ofMesh (mesh : Mesh) : LabelAssembler :=
  mesh.indexedVertices.foldl (fun assembler (p, v) =>
    assembler.setVertex (Label.vertex v) p.directionOrOrigin) ∅

/-- Builds a construction whose roles are entered under their labels. -/
def Blueprint.buildLabelled (blueprint : Blueprint FaceRole VertexRole)
    (name : String) : Except MeshError Mesh :=
  (blueprint.relabel FaceRole.label VertexRole.label).build name

end Polyhedra
