import Sailfish.Crypto

/-!
# Byte strings

Hashers are fed byte strings: digests and keys as their bytes, integers through
`to_le_bytes`.  This module models `to_le_bytes` and proves the two facts the digest
pre-images rest on: an integer's little-endian bytes determine it, and a concatenation
of fixed-width pieces can be cut back into its pieces.
-/

namespace Sailfish

/-- The `n` low bytes of `value`, least significant first. -/
def leBytes : Nat → Nat → List UInt8
  | 0, _ => []
  | n + 1, value => (value % 256).toUInt8 :: leBytes n (value / 256)

/-- The number whose little-endian bytes are `bytes`. -/
def fromLeBytes : List UInt8 → Nat
  | [] => 0
  | byte :: rest => byte.toNat + 256 * fromLeBytes rest

@[simp] theorem length_leBytes (n value : Nat) : (leBytes n value).length = n := by
  induction n generalizing value with
  | zero => rfl
  | succ n ih => simp [leBytes, ih]

theorem fromLeBytes_leBytes (n value : Nat) :
    fromLeBytes (leBytes n value) = value % 256 ^ n := by
  induction n generalizing value with
  | zero => simp [leBytes, fromLeBytes, Nat.mod_one]
  | succ n ih =>
      have hbyte : ((value % 256).toUInt8).toNat = value % 256 :=
        UInt8.toNat_ofNat_of_lt (Nat.mod_lt _ (by decide))
      rw [leBytes, fromLeBytes, hbyte, ih, Nat.pow_succ, Nat.mul_comm _ 256, Nat.mod_mul]

/-- `u64::to_le_bytes`. -/
def UInt64.toLeBytes (x : UInt64) : List UInt8 := leBytes 8 x.toNat

/-- `u32::to_le_bytes`. -/
def UInt32.toLeBytes (x : UInt32) : List UInt8 := leBytes 4 x.toNat

@[simp] theorem UInt64.length_toLeBytes (x : UInt64) : (UInt64.toLeBytes x).length = 8 :=
  length_leBytes 8 _

@[simp] theorem UInt32.length_toLeBytes (x : UInt32) : (UInt32.toLeBytes x).length = 4 :=
  length_leBytes 4 _

/-- Below `256 ^ n`, a number is determined by its `n` little-endian bytes. -/
theorem leBytes_injective {n v w : Nat} (hv : v < 256 ^ n) (hw : w < 256 ^ n)
    (h : leBytes n v = leBytes n w) : v = w := by
  have hread := congrArg fromLeBytes h
  rwa [fromLeBytes_leBytes, fromLeBytes_leBytes, Nat.mod_eq_of_lt hv,
    Nat.mod_eq_of_lt hw] at hread

theorem UInt64.toLeBytes_injective {x y : UInt64}
    (h : UInt64.toLeBytes x = UInt64.toLeBytes y) : x = y :=
  UInt64.toNat.inj (leBytes_injective x.toNat_lt_size y.toNat_lt_size h)

theorem UInt32.toLeBytes_injective {x y : UInt32}
    (h : UInt32.toLeBytes x = UInt32.toLeBytes y) : x = y :=
  UInt32.toNat.inj (leBytes_injective x.toNat_lt_size y.toNat_lt_size h)

/-- Fixed-width pieces are recovered from their concatenation. -/
theorem flatMap_injective_of_length {α : Type} {f : α → List UInt8} {width : Nat}
    (hwidth : 0 < width) (hlen : ∀ a, (f a).length = width) (hf : ∀ a b, f a = f b → a = b) :
    ∀ {l l' : List α}, l.flatMap f = l'.flatMap f → l = l'
  | [], [], _ => rfl
  | [], b :: _, h => by
      have := congrArg List.length h
      simp [hlen] at this
      omega
  | a :: _, [], h => by
      have := congrArg List.length h
      simp [hlen] at this
      omega
  | a :: l, b :: l', h => by
      rw [List.flatMap_cons, List.flatMap_cons] at h
      obtain ⟨hab, hrest⟩ := List.append_inj h ((hlen a).trans (hlen b).symm)
      rw [hf a b hab, flatMap_injective_of_length hwidth hlen hf hrest]

end Sailfish
