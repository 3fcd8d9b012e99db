import SigmaProofs.Arithmetic.Power
import SigmaProofs.Arithmetic.ProbablePrime
import SigmaProofs.Error
import SigmaProofs.Group

/-!
# Schnorr groups

The subgroup of prime order `q` in the multiplicative group modulo a prime `p`, generated by `g`.
Elements are natural numbers; the members are those from 1 up to `p` whose `q`-th power is 1.
An element is encoded big-endian in as many bytes as `p` has.
-/

namespace SigmaProofs

/-- The parameters of a Schnorr group; nothing is assumed of them. -/
structure SchnorrGroup where
  p : Nat
  q : Nat
  g : Nat
deriving DecidableEq, Repr

namespace SchnorrGroup

/-- `p` and `q` pass the test for primes, `q` divides `p - 1`, and `g` generates a subgroup of
order `q`. -/
def hasPrimeOrder (S : SchnorrGroup) : Bool :=
  3 < S.p && S.q != 0 && (S.p - 1) % S.q == 0 && 1 < S.g && S.g < S.p &&
    powMod S.g S.q S.p == 1 && isProbablePrime S.q && isProbablePrime S.p

/-- The length of an encoded member. -/
def elementLength (S : SchnorrGroup) : Nat := (bitLength S.p + 7) / 8

def pow (S : SchnorrGroup) (a x : Nat) : Nat := powMod a x S.p

def mul (S : SchnorrGroup) (a b : Nat) : Nat := a * b % S.p

/-- The inverse of a member: its power `q - 1`. -/
def inv (S : SchnorrGroup) (a : Nat) : Nat := powMod a (S.q - 1) S.p

def isMember (S : SchnorrGroup) (a : Nat) : Bool :=
  a != 0 && a < S.p && powMod a S.q S.p == 1

def encode (S : SchnorrGroup) (a : Nat) : Bytes := (Bytes.ofNat a).padLeft S.elementLength

def decode? (S : SchnorrGroup) (bs : Bytes) : Option Nat :=
  if bs.length = S.elementLength && S.isMember bs.toNat then some bs.toNat else none

/-- The group with the given parameters; they are only checked when its validity is asked for. -/
def toPrimeGroup (S : SchnorrGroup) : PrimeGroup Nat where
  generator := S.g
  order := S.q
  identity := 1
  pow := S.pow
  mul := S.mul
  inv := S.inv
  isMember := S.isMember
  validity := .mk fun _ => S.hasPrimeOrder
  encode := S.encode
  decode? := S.decode?

/-- The parameters, if they describe a group of prime order. -/
def ofParameters (p q g : Nat) : Except ConfigError SchnorrGroup :=
  if hasPrimeOrder ⟨p, q, g⟩ then .ok ⟨p, q, g⟩
  else .error (.invalidGroup .notPrimeOrderSubgroup)

/-- The prime of the 2048-bit MODP group of RFC 3526. -/
def modp2048Prime : Nat :=
  0xFFFFFFFFFFFFFFFFC90FDAA22168C234C4C6628B80DC1CD129024E088A67CC74020BBEA63B139B22514A08798E3404DDEF9519B3CD3A431B302B0A6DF25F14374FE1356D6D51C245E485B576625E7EC6F44C42E9A637ED6B0BFF5CB6F406B7EDEE386BFB5A899FA5AE9F24117C4B1FE649286651ECE45B3DC2007CB8A163BF0598DA48361C55D39A69163FA8FD24CF5F83655D23DCA3AD961C62F356208552BB9ED529077096966D670C354E4ABC9804F1746C08CA18217C32905E462E36CE3BE39E772C180E86039B2783A2EC07A28FB5C55DF06F4C52C9DE2BCBF6955817183995497CEA956AE515D2261898FA051015728E5A8AACAA68FFFFFFFFFFFFFFFF

/-- The 2048-bit MODP group of RFC 3526, with generator 2. -/
def modp2048 : SchnorrGroup := ⟨modp2048Prime, (modp2048Prime - 1) / 2, 2⟩

end SchnorrGroup

end SigmaProofs
