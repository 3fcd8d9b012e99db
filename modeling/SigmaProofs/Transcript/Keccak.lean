/-!
# The permutation Keccak-f[1600]

The state is five by five lanes of 64 bits; lane `(x, y)` stands at place `x + 5 * y`. A round is
`θ` (parities of columns are added), `ρ` and `π` (lanes are rotated and moved), `χ` (each lane
takes in a product of its neighbours) and `ι` (a constant is added). Bytes are packed into lanes
least significant first.
-/

namespace SigmaProofs.Keccak

/-- The lanes of a state. -/
abbrev Lanes := Vector UInt64 25

/-- The lane in the given column and row, both counted modulo five. -/
def Lanes.at (a : Lanes) (x y : Nat) : UInt64 := a.get (Fin.ofNat 25 (x % 5 + 5 * (y % 5)))

/-- The lanes that `f` gives for column and row. -/
def lanesOf (f : Nat → Nat → UInt64) : Lanes := Vector.ofFn fun i => f (i.val % 5) (i.val / 5)

def rotateLeft (w : UInt64) (n : Nat) : UInt64 :=
  if n = 0 then w else (w <<< UInt64.ofNat n) ||| (w >>> UInt64.ofNat (64 - n))

/-- By how much a lane is rotated. -/
def rotations : Vector Nat 25 :=
  #v[0, 1, 62, 28, 27, 36, 44, 6, 55, 20, 3, 10, 43, 25, 39, 41, 45, 15, 21, 8, 18, 2, 61, 56, 14]

/-- The constants of the rounds. -/
def roundConstants : List UInt64 := [
  0x0000000000000001, 0x0000000000008082, 0x800000000000808A, 0x8000000080008000,
  0x000000000000808B, 0x0000000080000001, 0x8000000080008081, 0x8000000000008009,
  0x000000000000008A, 0x0000000000000088, 0x0000000080008009, 0x000000008000000A,
  0x000000008000808B, 0x800000000000008B, 0x8000000000008089, 0x8000000000008003,
  0x8000000000008002, 0x8000000000000080, 0x000000000000800A, 0x800000008000000A,
  0x8000000080008081, 0x8000000000008080, 0x0000000080000001, 0x8000000080008008]

/-- Adds to each lane the parities of two neighbouring columns. -/
def theta (a : Lanes) : Lanes :=
  let parity : Vector UInt64 5 := Vector.ofFn fun x =>
    a.at x.val 0 ^^^ a.at x.val 1 ^^^ a.at x.val 2 ^^^ a.at x.val 3 ^^^ a.at x.val 4
  lanesOf fun x y =>
    a.at x y ^^^ parity.get (Fin.ofNat 5 (x + 4)) ^^^
      rotateLeft (parity.get (Fin.ofNat 5 (x + 1))) 1

/-- Rotates each lane and moves it from `(x, y)` to `(y, 2 * x + 3 * y)`. -/
def rhoPi (a : Lanes) : Lanes :=
  lanesOf fun x y =>
    let x' := (x + 3 * y) % 5
    rotateLeft (a.at x' x) (rotations.get (Fin.ofNat 25 (x' + 5 * x)))

/-- Adds to each lane the product of the next but one with the complement of the next. -/
def chi (a : Lanes) : Lanes :=
  lanesOf fun x y => a.at x y ^^^ (~~~ a.at (x + 1) y &&& a.at (x + 2) y)

/-- Adds a constant to the first lane. -/
def iota (constant : UInt64) (a : Lanes) : Lanes := a.set 0 (a.get 0 ^^^ constant)

def round (a : Lanes) (constant : UInt64) : Lanes := iota constant (chi (rhoPi (theta a)))

/-- All rounds on the lanes. -/
def permuteLanes (a : Lanes) : Lanes := roundConstants.foldl round a

/-- The bytes of a state. -/
abbrev State := Vector UInt8 200

/-- The lanes of a state. -/
def State.toLanes (s : State) : Lanes :=
  Vector.ofFn fun i => (List.range 8).foldr
    (fun j w => (w <<< 8) ||| (s.get (Fin.ofNat 200 (8 * i.val + j))).toUInt64) 0

/-- The state with the given lanes. -/
def State.ofLanes (a : Lanes) : State :=
  Vector.ofFn fun i =>
    (a.get (Fin.ofNat 25 (i.val / 8)) >>> (8 * UInt64.ofNat (i.val % 8))).toUInt8

/-- The permutation of states. -/
def permute (s : State) : State := .ofLanes (permuteLanes s.toLanes)

end SigmaProofs.Keccak
