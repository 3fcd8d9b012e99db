import SigmaProofs.Arithmetic.Power
import SigmaProofs.Group

/-!
# The group ristretto255

The group is a quotient of the points of an Edwards curve over the field of `2^255 - 19` elements.
Each element of the quotient has one canonical name, a field element that is not negative; elements
are stored under their names, so that they are equal exactly if their names are. Sums are computed
on points of the curve, in extended coordinates `(x, y, z, t)` with `x * y = z * t`.

The name in 32 bytes, least significant first, is the encoding of an element; `decode?` refuses all
other byte strings.
-/

namespace SigmaProofs.Ristretto

/-- The size of the field. -/
def p : Nat := 2 ^ (255 : Nat) - 19

/-- The number of elements of the group. -/
def order : Nat := 2 ^ (252 : Nat) + 27742317777372353535851937790883648493

/-! ## The field -/

namespace BaseField

def add (a b : Nat) : Nat := (a + b) % p

def sub (a b : Nat) : Nat := (a + (p - b)) % p

def neg (a : Nat) : Nat := (p - a) % p

def mul (a b : Nat) : Nat := a * b % p

/-- The odd elements count as negative. -/
def isNegative (a : Nat) : Bool := a % 2 == 1

/-- The element or its negative, whichever is not negative. -/
def abs (a : Nat) : Nat := if isNegative a then neg a else a

/-- A square root of -1. -/
def sqrtMinusOne : Nat :=
  19681161376707505956807079304988542015446066515923890162744021073123829784752

/-- Whether `1 / v` is a square, and its root that is not negative; the root of its product with
the root of -1 otherwise. -/
def inverseSqrt (v : Nat) : Bool × Nat :=
  let v3 := mul (mul v v) v
  let v7 := mul (mul v3 v3) v
  let r := mul v3 (powMod v7 ((p - 5) / 8) p)
  let check := mul v (mul r r)
  let isRoot := check == 1
  let isRootOfNegative := check == neg 1
  let isTwisted := check == neg sqrtMinusOne
  let r := if isRootOfNegative || isTwisted then mul r sqrtMinusOne else r
  (isRoot || isRootOfNegative, abs r)

end BaseField

open BaseField

/-- The constant of the curve `-x ^ 2 + y ^ 2 = 1 + d * x ^ 2 * y ^ 2`. -/
def d : Nat := 37095705934669439343138083508754565189542113879843219016388785533085940283555

/-- The root of `1 / (-1 - d)`. -/
def inverseSqrtOfMinusOneMinusD : Nat :=
  54469307008909316920995813868745141605393597292927456921205312896311721017578

/-! ## Points of the curve -/

/-- A point in extended coordinates. -/
structure Point where
  x : Nat
  y : Nat
  z : Nat
  t : Nat

namespace Point

def identity : Point := ⟨0, 1, 1, 0⟩

def add (P Q : Point) : Point :=
  let a := mul (sub P.y P.x) (sub Q.y Q.x)
  let b := mul (BaseField.add P.y P.x) (BaseField.add Q.y Q.x)
  let c := mul (mul P.t (2 * d)) Q.t
  let zz := mul (2 * P.z) Q.z
  let e := sub b a
  let f := sub zz c
  let g := BaseField.add zz c
  let h := BaseField.add b a
  ⟨mul e f, mul g h, mul f g, mul e h⟩

def double (P : Point) : Point :=
  let a := mul P.x P.x
  let b := mul P.y P.y
  let c := mul (2 * P.z) P.z
  let h := BaseField.add a b
  let xy := BaseField.add P.x P.y
  let e := sub h (mul xy xy)
  let g := sub a b
  let f := BaseField.add c g
  ⟨mul e f, mul g h, mul f g, mul e h⟩

def neg (P : Point) : Point := ⟨BaseField.neg P.x, P.y, P.z, BaseField.neg P.t⟩

/-- The sum of `n` copies of `P`. -/
def times (P : Point) (n : Nat) : Point :=
  if n = 0 then identity
  else
    let twice := double (times P (n / 2))
    if n % 2 = 1 then add twice P else twice
termination_by n
decreasing_by omega

/-- The name of the element that a point belongs to. -/
def name (P : Point) : Nat :=
  let u1 := mul (BaseField.add P.z P.y) (sub P.z P.y)
  let u2 := mul P.x P.y
  let i := (inverseSqrt (mul u1 (mul u2 u2))).2
  let den1 := mul i u1
  let den2 := mul i u2
  let zInv := mul (mul den1 den2) P.t
  let isRotated := isNegative (mul P.t zInv)
  let x := if isRotated then mul P.y sqrtMinusOne else P.x
  let y := if isRotated then mul P.x sqrtMinusOne else P.y
  let den := if isRotated then mul den1 inverseSqrtOfMinusOneMinusD else den2
  let y := if isNegative (mul x zInv) then BaseField.neg y else y
  abs (mul den (sub P.z y))

/-- The point for a name, if it is a name. -/
def ofName? (s : Nat) : Option Point :=
  if p ≤ s || isNegative s then none
  else
    let ss := mul s s
    let u1 := sub 1 ss
    let u2 := BaseField.add 1 ss
    let u2u2 := mul u2 u2
    let v := sub (BaseField.neg (mul d (mul u1 u1))) u2u2
    let (isSquare, i) := inverseSqrt (mul v u2u2)
    let denX := mul i u2
    let denY := mul (mul i denX) v
    let x := abs (mul (2 * s) denX)
    let y := mul u1 denY
    let t := mul x y
    if !isSquare || isNegative t || y == 0 then none else some ⟨x, y, 1, t⟩

end Point

/-! ## The group -/

/-- An element of the group, under its name. -/
structure Element where
  name : Nat
deriving DecidableEq, Repr

namespace Element

def identity : Element := ⟨0⟩

/-- The generator of RFC 9496. -/
def generator : Element :=
  ⟨0x762D8DE04559A6B68DDD82A56A0BE3585F5100C561A984A8714EBC6A0AAEF2E2⟩

def ofPoint (P : Point) : Element := ⟨P.name⟩

/-- A point of the element. -/
def toPoint (a : Element) : Point := (Point.ofName? a.name).getD .identity

/-- The multiple of an element by a number, which counts modulo the order. -/
def times (a : Element) (n : Nat) : Element := .ofPoint (a.toPoint.times (n % order))

def add (a b : Element) : Element := .ofPoint (a.toPoint.add b.toPoint)

def neg (a : Element) : Element := .ofPoint a.toPoint.neg

def encode (a : Element) : Bytes := littleEndian 32 a.name

def decode? (bs : Bytes) : Option Element :=
  if bs.length = 32 then
    (Point.ofName? (ofLittleEndian bs)).map fun _ => ⟨ofLittleEndian bs⟩
  else none

end Element

/-- The group. Its order is prime, so every element is a member. -/
def group : PrimeGroup Element where
  generator := .generator
  order := order
  identity := .identity
  pow := Element.times
  mul := Element.add
  inv := Element.neg
  isMember _ := true
  validity := .mk fun _ =>
    (Element.generator.times (order - 1)).add .generator == .identity &&
      Element.generator != .identity
  encode := Element.encode
  decode? := Element.decode?

end SigmaProofs.Ristretto
