import Mathlib

/-!
# Cryptographic identifiers

The primary names authorities, headers and payload batches by fixed-size byte strings
from the `crypto` crate, and aggregates votes with BLS shares from `blsttc`.  Neither
crate is part of the repository, so this module gives each type the structure the
primary's code relies on and nothing more: digests and Ed25519 keys are 32 bytes,
digests are ordered lexicographically (the derived `Ord` of `Digest([u8; 32])`), BLS
G2 keys are totally ordered, and signatures are opaque.
-/

namespace Sailfish

/-- `crypto::Digest`: 32 bytes. -/
@[ext] structure Digest where
  bytes : List UInt8
  length_bytes : bytes.length = 32
  deriving DecidableEq

/-- The derived `Ord` of `Digest([u8; 32])`: lexicographic on the bytes. -/
instance : LT Digest := ⟨fun a b => List.Lex (· < ·) a.bytes b.bytes⟩

instance (a b : Digest) : Decidable (a < b) :=
  inferInstanceAs (Decidable (List.Lex (· < ·) a.bytes b.bytes))

/-- `Digest::default()`: 32 zero bytes. -/
instance : Inhabited Digest := ⟨⟨List.replicate 32 0, List.length_replicate 32 0⟩⟩

/-- `crypto::PublicKey`, an Ed25519 key: 32 bytes. -/
@[ext] structure PublicKey where
  bytes : List UInt8
  length_bytes : bytes.length = 32
  deriving DecidableEq

/-- `crypto::Signature`, an Ed25519 signature; the primary only stores and forwards it. -/
structure Signature where
  encoding : Nat
  deriving DecidableEq

/--
`blsttc::PublicKeyShareG2`.  Its `Ord` compares compressed encodings of one fixed
length, which is the order of those encodings read as numbers.
-/
structure PublicKeyShareG2 where
  encoding : Nat
  deriving DecidableEq, Inhabited

instance : LinearOrder PublicKeyShareG2 :=
  LinearOrder.lift' PublicKeyShareG2.encoding fun a b h => by
    cases a
    cases b
    cases h
    rfl

/-- `blsttc::SignatureShareG1`; `default` is `SignatureShareG1::default()`. -/
structure SignatureShareG1 where
  encoding : Nat
  deriving DecidableEq, Inhabited

end Sailfish
