/-!
# Points in space

Positions and directions in double precision.  Every operation fixes the
order of its floating-point steps, so that a construction gives the same bits
each time it is carried out: products are summed from the first coordinate to
the third, and a list of points is added from the left, starting at the
origin.
-/

namespace Polyhedra

/-- Whether two numbers differ by less than `1e-10`. -/
def nearlyEqual (a b : Float) : Bool :=
  (a - b).abs < 1e-10

structure Point where
  x : Float
  y : Float
  z : Float
deriving BEq, Inhabited

namespace Point

def origin : Point := ⟨0, 0, 0⟩

instance : Add Point := ⟨fun p q => ⟨p.x + q.x, p.y + q.y, p.z + q.z⟩⟩

instance : Sub Point := ⟨fun p q => ⟨p.x - q.x, p.y - q.y, p.z - q.z⟩⟩

instance : Neg Point := ⟨fun p => ⟨-p.x, -p.y, -p.z⟩⟩

instance : HMul Point Float Point := ⟨fun p s => ⟨p.x * s, p.y * s, p.z * s⟩⟩

instance : HDiv Point Float Point := ⟨fun p s => ⟨p.x / s, p.y / s, p.z / s⟩⟩

def dot (p q : Point) : Float :=
  p.x * q.x + p.y * q.y + p.z * q.z

def cross (p q : Point) : Point :=
  ⟨p.y * q.z - q.y * p.z, p.z * q.x - q.z * p.x, p.x * q.y - q.x * p.y⟩

def length (p : Point) : Float :=
  (p.dot p).sqrt

def distance (p q : Point) : Float :=
  (p - q).length

/-- The direction of `p`; meaningful for points away from the origin only. -/
def direction (p : Point) : Point :=
  p * (1 / p.length)

/-- The direction of `p`, or the origin when its length has no finite
positive reciprocal. -/
def directionOrOrigin (p : Point) : Point :=
  let scale := 1 / p.length
  if scale.isFinite && scale > 0 then p * scale else origin

def sum (points : List Point) : Point :=
  points.foldl (· + ·) origin

/-- The point `t` of the way from `p` to `q`. -/
def tween (p q : Point) (t : Float) : Point :=
  p + (q - p) * t

def oneThird (p q : Point) : Point :=
  tween p q (1 / 3)

def midpoint (p q : Point) : Point :=
  (p + q) * (0.5 : Float)

end Point

end Polyhedra
