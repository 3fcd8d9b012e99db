import SigmaProofs.Arithmetic.Inverse
import SigmaProofs.Arithmetic.Power
import SigmaProofs.Group

/-!
# The curve secp256k1

The points with `y ^ 2 = x ^ 3 + 7` over the field of `2^256 - 2^32 - 977` elements, and the point
at infinity, which form a group of prime order. Points are compared and stored in affine
coordinates; sums are computed in Jacobian coordinates `(x, y, z)`, which stand for
`(x / z ^ 2, y / z ^ 3)`.

A point is encoded as SEC 1 says: one byte for the form, then the coordinates. Points are written
in compressed form; `decode?` also reads both coordinates, and an `x` alone that stands for the
point with even `y`.
-/

namespace SigmaProofs.Secp256k1

/-- The size of the field. -/
def p : Nat := 2 ^ (256 : Nat) - 2 ^ (32 : Nat) - 977

/-- The number of points. -/
def order : Nat := 0xFFFFFFFFFFFFFFFFFFFFFFFFFFFFFFFEBAAEDCE6AF48A03BBFD25E8CD0364141

/-- A point of the curve. -/
inductive Point where
  | infinity
  | affine (x y : Nat)
deriving DecidableEq, Repr

def generator : Point :=
  .affine 0x79BE667EF9DCBBAC55A06295CE870B07029BFCDB2DCE28D959F2815B16F81798
    0x483ADA7726A3C4655DA4FBFC0E1108A8FD17B448A68554199C47D08FFB10D4B8

/-! ## The field -/

namespace BaseField

def add (a b : Nat) : Nat := (a + b) % p

def sub (a b : Nat) : Nat := (a + (p - b)) % p

def mul (a b : Nat) : Nat := a * b % p

def inv (a : Nat) : Nat := (inverseMod? a p).getD 0

/-- A square root, if there is one. -/
def sqrt? (a : Nat) : Option Nat :=
  let r := powMod a ((p + 1) / 4) p
  if mul r r = a then some r else none

end BaseField

open BaseField

/-- The right-hand side of the equation of the curve. -/
def cubic (x : Nat) : Nat := add (mul (mul x x) x) 7

/-! ## Sums in Jacobian coordinates -/

/-- A point in Jacobian coordinates; `z = 0` is infinity. -/
structure Jacobian where
  x : Nat
  y : Nat
  z : Nat

namespace Jacobian

def infinity : Jacobian := ⟨1, 1, 0⟩

def ofPoint : Point → Jacobian
  | .infinity => infinity
  | .affine x y => ⟨x, y, 1⟩

def toPoint (P : Jacobian) : Point :=
  if P.z = 0 then .infinity
  else
    let i := inv P.z
    let i2 := mul i i
    .affine (mul P.x i2) (mul P.y (mul i2 i))

def double (P : Jacobian) : Jacobian :=
  if P.z = 0 then P
  else
    let a := mul P.x P.x
    let b := mul P.y P.y
    let c := mul b b
    let xb := add P.x b
    let d := mul 2 (sub (sub (mul xb xb) a) c)
    let e := mul 3 a
    let x := sub (mul e e) (mul 2 d)
    ⟨x, sub (mul e (sub d x)) (mul 8 c), mul 2 (mul P.y P.z)⟩

def add (P Q : Jacobian) : Jacobian :=
  if P.z = 0 then Q
  else if Q.z = 0 then P
  else
    let pz2 := mul P.z P.z
    let qz2 := mul Q.z Q.z
    let u1 := mul P.x qz2
    let u2 := mul Q.x pz2
    let s1 := mul P.y (mul qz2 Q.z)
    let s2 := mul Q.y (mul pz2 P.z)
    if u1 = u2 then
      if s1 = s2 then double P else infinity
    else
      let h := sub u2 u1
      let r := sub s2 s1
      let h2 := mul h h
      let h3 := mul h2 h
      let v := mul u1 h2
      let x := sub (sub (mul r r) h3) (mul 2 v)
      ⟨x, sub (mul r (sub v x)) (mul s1 h3), mul h (mul P.z Q.z)⟩

/-- The sum of `n` copies of `P`. -/
def times (P : Jacobian) (n : Nat) : Jacobian :=
  if n = 0 then infinity
  else
    let twice := double (times P (n / 2))
    if n % 2 = 1 then add twice P else twice
termination_by n
decreasing_by omega

end Jacobian

/-! ## The group -/

namespace Point

/-- The multiple of a point by a number, which counts modulo the order. -/
def times (P : Point) (n : Nat) : Point := ((Jacobian.ofPoint P).times (n % order)).toPoint

def add (P Q : Point) : Point := ((Jacobian.ofPoint P).add (Jacobian.ofPoint Q)).toPoint

def neg : Point → Point
  | infinity => infinity
  | affine x y => affine x ((p - y) % p)

/-! ### Encoding -/

/-- A coordinate in 32 bytes. -/
def coordinate (n : Nat) : Bytes := (littleEndian 32 n).reverse

/-- The point with the given `x` whose `y` has the given parity. -/
def decompress? (x parity : Nat) : Option Point :=
  if p ≤ x then none
  else
    (sqrt? (cubic x)).map fun y => affine x (if y % 2 = parity then y else (p - y) % p)

def encode : Point → Bytes
  | infinity => [0]
  | affine x y => UInt8.ofNat (2 + y % 2) :: coordinate x

def decode? : Bytes → Option Point
  | [0] => some infinity
  | form :: bytes =>
    if bytes.length = 32 then
      let x := Bytes.toNat bytes
      if form = 2 || form = 5 then decompress? x 0
      else if form = 3 then decompress? x 1
      else none
    else if bytes.length = 64 && form = 4 then
      let x := Bytes.toNat (bytes.take 32)
      let y := Bytes.toNat (bytes.drop 32)
      if x < p && y < p && mul y y = cubic x then some (affine x y) else none
    else none
  | [] => none

end Point

/-- The group of the curve. Its order is prime, so every point is a member. -/
def group : PrimeGroup Point where
  generator := generator
  order := order
  identity := .infinity
  pow := Point.times
  mul := Point.add
  inv := Point.neg
  isMember _ := true
  validity := .mk fun _ =>
    (generator.times (order - 1)).add generator == .infinity && generator != .infinity
  encode := Point.encode
  decode? := Point.decode?

end SigmaProofs.Secp256k1
