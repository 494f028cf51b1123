/-! The curve P-256, `y² = x³ - 3x + b` over a prime field, and multiples of its points. Points are
added in Jacobian coordinates, which need no division; `z = 0` stands for the point at infinity. -/

namespace WorkLedger.Curve

/-- `2^256 - 2^224 + 2^192 + 2^96 - 1`. -/
def prime : Nat := 115792089210356248762697446949407573530086143415290314195533631308867097853951

/-- The number of points on the curve. -/
def order : Nat := 115792089210356248762697446949407573529996955224135760342422259061068512044369

theorem prime_eq :
    prime = Nat.pow 2 256 - Nat.pow 2 224 + Nat.pow 2 192 + Nat.pow 2 96 - 1 := by decide

/-- Residues that coordinates are taken from. -/
abbrev Coordinate := Fin prime

/-- Residues that points are multiplied by. -/
abbrev Scalar := Fin order

/-- The residue of a number. -/
def Coordinate.ofNat (n : Nat) : Coordinate := ⟨n % prime, Nat.mod_lt n (by decide)⟩

/-- The residue of a number. -/
def Scalar.ofNat (n : Nat) : Scalar := ⟨n % order, Nat.mod_lt n (by decide)⟩

/-- The 256 bits of a number from the top. -/
def bitsDown (n : Nat) : List Bool := (List.range 256).map fun i => n.testBit (255 - i)

/-- Square and multiply, one bit of the exponent after the other. -/
def power {m : Nat} (x : Fin m) (exponent : Nat) : Fin m :=
  (bitsDown exponent).foldl (fun acc bit => if bit then acc * acc * x else acc * acc)
    ⟨1 % m, Nat.mod_lt 1 x.pos⟩

/-- The inverse modulo a prime, by Fermat; zero for zero. -/
def inverse {m : Nat} (x : Fin m) : Fin m := power x (m - 2)

def b : Coordinate :=
  Coordinate.ofNat 41058363725152142129326129780047268409114441015993725554835256314039467401291

def onCurve (x y : Coordinate) : Bool := y * y == x * x * x - (x + x + x) + b

structure Point where
  x : Coordinate
  y : Coordinate
  z : Coordinate
  deriving DecidableEq

namespace Point

def infinity : Point := ⟨Coordinate.ofNat 1, Coordinate.ofNat 1, Coordinate.ofNat 0⟩

def ofAffine (x y : Coordinate) : Point := ⟨x, y, Coordinate.ofNat 1⟩

def isInfinity (p : Point) : Bool := p.z.val == 0

/-- The generator that all keys are multiples of. -/
def base : Point := ofAffine
  (Coordinate.ofNat 48439561293906451759052585252797914202762949526041747995844080717082404635286)
  (Coordinate.ofNat 36134250956749795798585127919587881956611106672985015071877198253568414405109)

def double (p : Point) : Point :=
  let delta := p.z * p.z
  let gamma := p.y * p.y
  let beta := p.x * gamma
  let slope := (p.x - delta) * (p.x + delta)
  let alpha := slope + slope + slope
  let beta2 := beta + beta
  let beta4 := beta2 + beta2
  let x := alpha * alpha - (beta4 + beta4)
  let gamma2 := gamma + gamma
  let gamma4 := gamma2 * gamma2
  let yz := p.y + p.z
  ⟨x, alpha * (beta4 - x) - (gamma4 + gamma4), yz * yz - gamma - delta⟩

def add (p q : Point) : Point :=
  if p.isInfinity then q
  else if q.isInfinity then p
  else
    let pzz := p.z * p.z
    let qzz := q.z * q.z
    let u := p.x * qzz
    let s := p.y * qzz * q.z
    let h := q.x * pzz - u
    let r := q.y * pzz * p.z - s
    if h.val == 0 then
      if r.val == 0 then double p else infinity
    else
      let hh := h * h
      let hhh := hh * h
      let v := u * hh
      let x := r * r - hhh - (v + v)
      ⟨x, r * (v - x) - s * hhh, p.z * q.z * h⟩

/-- Double and add, one bit of the factor after the other. -/
def multiple (factor : Nat) (p : Point) : Point :=
  (bitsDown factor).foldl (fun acc bit => if bit then add (double acc) p else double acc) infinity

/-- The coordinates of a point that is not at infinity. -/
def affine? (p : Point) : Option (Coordinate × Coordinate) :=
  if p.isInfinity then none
  else
    let w := inverse p.z
    let ww := w * w
    some (p.x * ww, p.y * ww * w)

end Point

end WorkLedger.Curve
