import Mathlib
import Polyhedra.Mesh.Buffers
import Polyhedra.Proofs.Operator.Outcome
import Polyhedra.Proofs.Surface.Cycle

/-!
# What vertex buffers hold

The panels of a mesh are laid out one after another, so the place of a corner
is its place in its face plus the number of corners of the panels before.
The lists of positions, normals, colors and triangles grow by different
amounts with every panel; each of them is a list of blocks of one width, and
all of them are read off the list of shaded corners.  The fan of a polygon
uses every side of the polygon once and every diagonal from the first corner
once in each direction.
-/

namespace Polyhedra

/-! ## Lists of blocks -/

section Blocks

variable {α β : Type}

/-- The entry `k` of a list that holds `width` numbers for each entry. -/
def entry (width : ℕ) (values : List α) (k : ℕ) : List α :=
  (values.drop (width * k)).take width

end Blocks

namespace Panel

/-- The triangles around the first of `size` consecutive buffer vertices. -/
def fanTriangles (start size : ℕ) : List Face :=
  (List.range (size - 2)).map fun k => [start, start + k + 1, start + k + 2]

/-- The sides of a polygon of `size` consecutive buffer vertices. -/
def outline (start size : ℕ) : List Edge :=
  Face.edges (List.range' start size)

/-- The diagonals from the first of `size` consecutive buffer vertices. -/
def diagonals (start size : ℕ) : List Edge :=
  (List.range (size - 3)).map fun k => (start, start + k + 2)

/-- The triangles of panels that are laid out one after another. -/
def triangles (start : ℕ) : List Panel → List Face
  | [] => []
  | panel :: rest =>
      fanTriangles start panel.size ++ triangles (start + panel.size) rest

theorem length_triangles (start : ℕ) (panels : List Panel) :
    (triangles start panels).length =
      (panels.map fun panel => panel.size - 2).sum := by
  induction panels generalizing start with
  | nil => rfl
  | cons panel rest ih =>
      rw [triangles, List.length_append, ih, List.map_cons, List.sum_cons,
        fanTriangles, List.length_map, List.length_range]

end Panel

namespace VertexBuffers

/-- The position of the buffer vertex `k`. -/
def position (buffers : VertexBuffers) (k : ℕ) : List Float32 :=
  entry 3 buffers.positions k

def normal (buffers : VertexBuffers) (k : ℕ) : List Float32 :=
  entry 3 buffers.normals k

def color (buffers : VertexBuffers) (k : ℕ) : List Float32 :=
  entry 4 buffers.colors k

/-- The buffer vertices of the triangle `t`. -/
def triangle (buffers : VertexBuffers) (t : ℕ) : Face :=
  entry 3 buffers.indices t

section Panels

variable {panels : List Panel}

end Panels

end VertexBuffers

/-! ## Stored attributes -/

/-- What a mesh stores is what a refresh would store again. -/
def Mesh.Current (mesh : Mesh) : Prop :=
  ∀ stored, mesh.attributes? = some stored → stored = mesh.attributes

theorem Mesh.current_of_none {mesh : Mesh} (h : mesh.attributes? = none) :
    mesh.Current := by
  intro stored hstored
  simp [h] at hstored

/-- Every mesh that the computation makes is without stored attributes. -/
def MakesBare (x : Except MeshError Mesh) : Prop :=
  ∀ out, x = .ok out → out.attributes? = none

theorem MakesBare.bind {α : Type} {x : Except MeshError α}
    {f : α → Except MeshError Mesh} (h : ∀ a, MakesBare (f a)) :
    MakesBare (x >>= f) := by
  intro out hout
  obtain ⟨a, -, ha⟩ := Except.bind_eq_ok_iff.mp hout
  exact h a out ha

theorem Blueprint.build_makesBare {F K : Type} [Ord F] [Ord K]
    [Std.TransOrd F] [Std.TransOrd K] [DecidableEq K] [ToString F]
    [ToString K] (blueprint : Blueprint F K) (name : String) :
    MakesBare (blueprint.build name) :=
  .bind fun _ => .bind fun solid out hout => by
    obtain rfl := Except.ok.inj hout
    rfl

/-- An operator stores no attributes, but a subdivision that leaves its mesh
alone keeps them. -/
theorem Operator.current_transform {op : Operator} {mesh out : Mesh}
    (hmesh : mesh.Current)
    (h : op.transform mesh = .ok out) : out.Current := by
  have hdual : ∀ mesh : Mesh, MakesBare mesh.dual := fun mesh =>
    .bind fun _ => .bind fun _ => Blueprint.build_makesBare _ _
  cases op with
  | dual => exact Mesh.current_of_none (hdual mesh out h)
  | ambo | gyro | propellor | chamfer | whirl | quinto | perspectiva | kis |
      inset | extrude
  | loft =>
      obtain ⟨_, -, h⟩ := Except.bind_eq_ok_iff.mp h
      exact Mesh.current_of_none (Blueprint.build_makesBare _ _ out h)
  | hollow fraction thickness =>
      obtain ⟨_, -, h⟩ := Except.bind_eq_ok_iff.mp h
      obtain ⟨_, -, h⟩ := Except.bind_eq_ok_iff.mp h
      exact Mesh.current_of_none (Blueprint.build_makesBare _ _ out h)
  | reflect =>
      obtain rfl := Except.ok.inj h
      exact Mesh.current_of_none rfl
  | subdivide factor tolerance maxFactor =>
      rcases mesh.subdivide_cases factor tolerance maxFactor with
        ⟨_, _, hrefused⟩ | ⟨-, hidle⟩ | ⟨-, -, hrange⟩ | ⟨-, -, hcut⟩
      · exact absurd (h.symm.trans hrefused) (by simp)
      · obtain rfl := Except.ok.inj (hidle.symm.trans h)
        exact hmesh
      · exact absurd (h.symm.trans hrange) (by simp)
      · obtain rfl := Except.ok.inj (hcut.symm.trans h)
        exact Mesh.current_of_none rfl
  | truncate sides height =>
      obtain ⟨around, -, h⟩ := Except.bind_eq_ok_iff.mp h
      obtain ⟨raised, -, h⟩ := Except.bind_eq_ok_iff.mp h
      obtain ⟨cut, hcut, h⟩ := Except.bind_eq_ok_iff.mp h
      obtain rfl := Except.ok.inj h
      exact Mesh.current_of_none (hdual raised cut hcut)

/-! ## The panels of a mesh -/

namespace Surface

/-- The faces with at least three corners. -/
def shown (surface : Surface) : Surface :=
  surface.filter fun face => 3 ≤ face.length

/-- How many corners the faces before the face `i` have. -/
def cornersBefore (surface : Surface) (i : ℕ) : ℕ :=
  Surface.sideCounts (surface.take i) |>.sum

/-- How many triangles the fans of the faces before the face `i` have. -/
def trianglesBefore (surface : Surface) (i : ℕ) : ℕ :=
  ((surface.take i).map fun face => face.length - 2).sum

end Surface

namespace VertexBuffers

/-- The triangles of the face `i`: as many as its fan has, after those of the
faces before. -/
def trianglesOf (buffers : VertexBuffers) (surface : Surface) (i : ℕ)
    (face : Face) : List Face :=
  (List.range (face.length - 2)).map fun k =>
    buffers.triangle (surface.trianglesBefore i + k)

/-- The buffers hold the faces of the mesh that have at least three corners,
one after another: every corner with its own position and with the normal and
the color of its face, and every face cut into triangles that use its sides
once and its diagonals from the first corner once in each direction. -/
structure Holds (buffers : VertexBuffers) (mesh : Mesh) : Prop where
  length_positions :
    buffers.positions.length = 3 * mesh.faces.shown.sideCounts.sum
  length_normals :
    buffers.normals.length = 3 * mesh.faces.shown.sideCounts.sum
  length_colors : buffers.colors.length = 4 * mesh.faces.shown.sideCounts.sum
  length_indices : buffers.indices.length = 3 * buffers.triangleCount
  triangleCount : buffers.triangleCount =
    (mesh.faces.shown.map fun face => face.length - 2).sum
  corner : ∀ (i c v : ℕ) (face : Face), mesh.faces.shown[i]? = some face →
    face[c]? = some v →
    ∃ p, mesh.vertices[v]? = some p ∧
      buffers.position (mesh.faces.shown.cornersBefore i + c) = p.toSingle ∧
      buffers.normal (mesh.faces.shown.cornersBefore i + c) =
        (mesh.faceNormal face).toSingle ∧
      buffers.color (mesh.faces.shown.cornersBefore i + c) =
        (Color.ofSides face.length).channels
  index : ∀ v ∈ buffers.indices, v < mesh.faces.shown.sideCounts.sum ∧
    v.toUInt32.toNat = v
  owner : ∀ t < buffers.triangleCount, ∃ (i k : ℕ) (face : Face),
    mesh.faces.shown[i]? = some face ∧ k < face.length - 2 ∧
      t = mesh.faces.shown.trianglesBefore i + k
  inside : ∀ (i : ℕ) (face : Face), mesh.faces.shown[i]? = some face →
    ∀ triangle ∈ buffers.trianglesOf mesh.faces.shown i face,
      ∀ v ∈ triangle, mesh.faces.shown.cornersBefore i ≤ v ∧
        v < mesh.faces.shown.cornersBefore i + face.length
  edges : ∀ (i : ℕ) (face : Face), mesh.faces.shown[i]? = some face →
    ((buffers.trianglesOf mesh.faces.shown i face).flatMap Face.edges).Perm
      (Panel.outline (mesh.faces.shown.cornersBefore i) face.length ++
        (Panel.diagonals (mesh.faces.shown.cornersBefore i) face.length ++
          (Panel.diagonals (mesh.faces.shown.cornersBefore i)
            face.length).map Prod.swap))

end VertexBuffers

namespace Mesh

variable {mesh : Mesh}

/-- The face as it enters the buffers with its own attributes. -/
def panel (mesh : Mesh) (face : Face) : Panel :=
  ⟨face.map mesh.position, mesh.faceNormal face, Color.ofSides face.length⟩

theorem getElem?_vertices
    (hrange : mesh.InRange)
    {face : Face}
    (hface : face ∈ mesh.faces)
    {v : ℕ}
    (hv : v ∈ face) :
    mesh.vertices[v]? = some (mesh.position v) := by
  have hlt : v < mesh.vertices.size := hrange face hface v hv
  rw [position, Array.getElem?_eq_getElem hlt, Array.getD, dif_pos hlt]
  rfl

end Mesh

end Polyhedra
