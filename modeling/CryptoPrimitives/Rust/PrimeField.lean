import CryptoPrimitives.Rust.Uint
import Mathlib.Algebra.Field.ZMod

/-!
# What the code uses of `PrimeField`

The field of `p` elements, and its elements as bits and as bytes.
-/

namespace CryptoPrimitives.PrimeField

open Digits (ofBits)

/-- `F::MODULUS_BIT_SIZE`. -/
def modulusBitSize (p : Nat) : Nat := p.log2 + 1

/-- The bytes of `F::BigInt`, which is made of 64-bit limbs. -/
def bigIntBytes (p : Nat) : Nat := 8 * ((modulusBitSize p + 63) / 64)

section

variable {p : Nat}

/-- `x.into_bigint().to_bits_le()`. -/
def toBitsLe (x : ZMod p) : List Bool := (List.range (8 * bigIntBytes p)).map x.val.testBit

/-- `x.into_bigint().to_bytes_le()`. -/
def toBytesLe (x : ZMod p) : List UInt8 :=
  (List.range (bigIntBytes p)).map fun i => UInt8.ofNat (x.val / 256 ^ i)

/-- The 64-bit limbs of a `F::BigInt`, the least significant one first. -/
def bigIntLimbs (p n : Nat) : List Nat := (List.range (bigIntBytes p / 8)).map (Digits.limb 64 n)

/-- `BigInt::from_bits_be`. It drops what its limbs have no room for. -/
def fromBitsBe (p : Nat) (bits : List Bool) : Nat := ofBits (bits.reverse.take (8 * bigIntBytes p))

/-- `BigInt::from_bits_le`. It drops what its limbs have no room for. -/
def fromBitsLe (p : Nat) (bits : List Bool) : Nat := ofBits (bits.take (8 * bigIntBytes p))

/-- What `serialize_compressed` and `serialize_uncompressed` write. -/
def serialize (x : ZMod p) : List UInt8 := toLeBytes ((modulusBitSize p + 7) / 8) x.val

/-- `F::from_bigint`. -/
def fromBigint (p n : Nat) : Option (ZMod p) := if n < p then some n else none

/-- `F::from_le_bytes_mod_order`. -/
def fromLeBytesModOrder (p : Nat) (bytes : List UInt8) : ZMod p :=
  (Nat.ofDigits 256 (bytes.map UInt8.toNat) : Nat)

/-- `x.inverse()`. -/
def inverse (x : ZMod p) : Option (ZMod p) := if x = 0 then none else some x⁻¹

theorem modulusBitSize_le : modulusBitSize p ≤ 8 * bigIntBytes p := by
  rw [bigIntBytes]
  omega

theorem lt_two_pow_modulusBitSize : p < 2 ^ modulusBitSize p := Nat.lt_log2_self

theorem two_pow_le (hp : p ≠ 0) : 2 ^ (modulusBitSize p - 1) ≤ p := Nat.log2_self_le hp

theorem val_lt_two_pow [NeZero p] (x : ZMod p) : x.val < 2 ^ modulusBitSize p :=
  x.val_lt.trans lt_two_pow_modulusBitSize

/-- The low bits of an element. -/
theorem take_toBitsLe (x : ZMod p) {n : Nat} (h : n ≤ modulusBitSize p) :
    (toBitsLe x).take n = (List.range n).map x.val.testBit := by
  rw [toBitsLe, ← List.map_take, List.take_range, Nat.min_eq_left (h.trans modulusBitSize_le)]

theorem one_le_log2 [hp : Fact p.Prime] : 1 ≤ p.log2 :=
  (Nat.le_log2 hp.out.ne_zero).mpr hp.out.two_le

theorem fromBitsBe_eq {bits : List Bool} (h : bits.length ≤ modulusBitSize p) :
    fromBitsBe p bits = ofBits bits.reverse := by
  rw [fromBitsBe, List.take_of_length_le (by rw [List.length_reverse]; exact h.trans modulusBitSize_le)]

theorem val_lt_pow_bytes [NeZero p] (x : ZMod p) {count : Nat} (h : modulusBitSize p ≤ 8 * count) :
    x.val < 256 ^ count := by
  have hpow : 256 ^ count = 2 ^ (8 * count) := by rw [pow_mul]; rfl
  rw [hpow]
  exact (val_lt_two_pow x).trans_le (Nat.pow_le_pow_right Nat.two_pos h)

/-- An element is read back from its bytes. -/
theorem fromLeBytesModOrder_toBytesLe [NeZero p] (x : ZMod p) : fromLeBytesModOrder p (toBytesLe x) = x := by
  have hnumber := leNumber_toLeBytes (bigIntBytes p) x.val
  rw [Nat.mod_eq_of_lt (val_lt_pow_bytes x modulusBitSize_le)] at hnumber
  exact (congrArg Nat.cast hnumber).trans x.natCast_zmod_val

/-- The bytes that are written have room for every element. -/
theorem leNumber_serialize [NeZero p] (x : ZMod p) : leNumber (serialize x) = x.val := by
  rw [serialize, leNumber_toLeBytes, Nat.mod_eq_of_lt (val_lt_pow_bytes x (by omega))]

/-- The bytes that an element is serialized to. -/
def serializedBytes (p : Nat) : Nat := (modulusBitSize p + 7) / 8

theorem serializedBytes_le (p : Nat) : serializedBytes p ≤ bigIntBytes p := by
  rw [serializedBytes, bigIntBytes]
  omega

theorem length_serialize (x : ZMod p) : (serialize x).length = serializedBytes p := length_toLeBytes _ _

theorem length_toBytesLe (x : ZMod p) : (toBytesLe x).length = bigIntBytes p := by
  rw [toBytesLe, List.length_map, List.length_range]

theorem toBytesLe_eq [NeZero p] (x : ZMod p) :
    toBytesLe x = serialize x ++ List.replicate (bigIntBytes p - serializedBytes p) 0 := by
  have hle : (serialize x).length ≤ bigIntBytes p := (length_serialize x).le.trans (serializedBytes_le p)
  have h := toLeBytes_leNumber hle
  rwa [leNumber_serialize, length_serialize] at h

end

end CryptoPrimitives.PrimeField
