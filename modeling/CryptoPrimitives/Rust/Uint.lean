import CryptoPrimitives.Framework.Digits
import Mathlib.Data.UInt

/-!
# What the code uses of `u8`, `u32` and `u64`
-/

namespace CryptoPrimitives

/-- `x.rotate_right(n)`. -/
def rotateRight (x : UInt32) (n : Nat) : UInt32 := ⟨x.toBitVec.rotateRight n⟩

/-- `u32::from_be_bytes`. -/
def fromBeBytes (bytes : List UInt8) : UInt32 :=
  UInt32.ofNat (bytes.foldl (fun acc byte => acc * 256 + byte.toNat) 0)

/-- The `count` low bytes of `n`, as in `u32::to_be_bytes` and `u64::to_be_bytes`. -/
def toBeBytes (count n : Nat) : List UInt8 := (List.range count).reverse.map fun i => UInt8.ofNat (n / 256 ^ i)

/-- The `count` low bytes of `n`, as in `u64::to_le_bytes`. -/
def toLeBytes (count n : Nat) : List UInt8 := (List.range count).map fun i => UInt8.ofNat (n / 256 ^ i)

/-- The number of bytes, the least significant one first. -/
def leNumber (bytes : List UInt8) : Nat := Nat.ofDigits 256 (bytes.map UInt8.toNat)

/-- `serialize_compressed` and `serialize_uncompressed` of a `Vec<u8>` and of a `&[u8]`. -/
def serializeBytes (bytes : List UInt8) : List UInt8 := toLeBytes 8 bytes.length ++ bytes

/-! ## Bytes of numbers -/

theorem length_toLeBytes (count n : Nat) : (toLeBytes count n).length = count := by
  rw [toLeBytes, List.length_map, List.length_range]

theorem toLeBytes_succ (count n : Nat) : toLeBytes (count + 1) n = UInt8.ofNat n :: toLeBytes count (n / 256) := by
  rw [toLeBytes, List.range_succ_eq_map, List.map_cons, List.map_map, pow_zero, Nat.div_one, toLeBytes]
  congr 1
  refine List.map_congr_left fun i _ => ?_
  rw [Function.comp_apply, Nat.pow_succ', Nat.div_div_eq_div_mul]

theorem toLeBytes_zero (count : Nat) : toLeBytes count 0 = List.replicate count 0 := by
  induction count with
  | zero => rfl
  | succ count ih => rw [toLeBytes_succ, Nat.zero_div, ih, List.replicate_succ]; rfl

theorem leNumber_cons (byte : UInt8) (bytes : List UInt8) :
    leNumber (byte :: bytes) = byte.toNat + 256 * leNumber bytes := Nat.ofDigits_cons

/-- Zeros behind the bytes of a number. -/
theorem leNumber_append_replicate (bytes : List UInt8) (n : Nat) :
    leNumber (bytes ++ List.replicate n 0) = leNumber bytes := by
  induction bytes with
  | nil =>
    induction n with
    | zero => rfl
    | succ n ih =>
      rw [List.nil_append] at ih ⊢
      rw [List.replicate_succ, leNumber_cons, ih]
      rfl
  | cons byte bytes ih => rw [List.cons_append, leNumber_cons, leNumber_cons, ih]

theorem leNumber_lt (bytes : List UInt8) : leNumber bytes < 256 ^ bytes.length := by
  induction bytes with
  | nil => exact Nat.one_pos
  | cons byte bytes ih =>
    have := byte.toNat_lt
    rw [leNumber_cons, List.length_cons, Nat.pow_succ']
    omega

/-- The number of so many low bytes. -/
theorem leNumber_toLeBytes (count n : Nat) : leNumber (toLeBytes count n) = n % 256 ^ count := by
  have hbytes : (toLeBytes count n).map UInt8.toNat = (List.range count).map fun i => n / 256 ^ i % 256 := by
    rw [toLeBytes, List.map_map]
    exact List.map_congr_left fun i _ => UInt8.toNat_ofNat'
  rw [leNumber, hbytes, Digits.ofDigits_lowDigits]

/-- Bytes are the low bytes of their number, and zeros are behind them. -/
theorem toLeBytes_leNumber {count : Nat} {bytes : List UInt8} (h : bytes.length ≤ count) :
    toLeBytes count (leNumber bytes) = bytes ++ List.replicate (count - bytes.length) 0 := by
  induction bytes generalizing count with
  | nil => rw [show leNumber [] = 0 from rfl, toLeBytes_zero]; rfl
  | cons byte bytes ih =>
    obtain ⟨count, rfl⟩ : ∃ n, count = n + 1 := ⟨count - 1, by rw [List.length_cons] at h; omega⟩
    rw [List.length_cons, Nat.add_le_add_iff_right] at h
    have hlt := byte.toNat_lt
    have hdiv : leNumber (byte :: bytes) / 256 = leNumber bytes := by
      rw [leNumber_cons]
      omega
    have hbyte : UInt8.ofNat (leNumber (byte :: bytes)) = byte := by
      rw [← UInt8.toNat_inj, UInt8.toNat_ofNat', leNumber_cons]
      omega
    rw [toLeBytes_succ, hdiv, hbyte, ih h, List.length_cons, Nat.add_sub_add_right, List.cons_append]

theorem toLeBytes_inj {count m n : Nat} (hm : m < 256 ^ count) (hn : n < 256 ^ count)
    (h : toLeBytes count m = toLeBytes count n) : m = n := by
  induction count generalizing m n with
  | zero => rw [pow_zero] at hm hn; omega
  | succ count ih =>
    rw [toLeBytes_succ, toLeBytes_succ, List.cons.injEq, ← UInt8.toNat_inj, UInt8.toNat_ofNat', UInt8.toNat_ofNat'] at h
    rw [Nat.pow_succ'] at hm hn
    have := ih (Nat.div_lt_of_lt_mul hm) (Nat.div_lt_of_lt_mul hn) h.2
    omega

end CryptoPrimitives
