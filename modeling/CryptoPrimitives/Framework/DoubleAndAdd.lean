import CryptoPrimitives.Framework.Digits
import Mathlib.Algebra.Group.Basic

/-!
# Double and add

Loops that compute a multiple of an element from the bits of a number.

* `foldl_lsbFirst`: from the least significant bit on, with the doubled element beside the
  sum;
* `foldl_msbFirst`: from the most significant bit on, by doubling the sum;
  `foldl_msbFirst_dropWhile`: bits that are not set may be left out before the first one
  that is.
-/

namespace DoubleAndAdd

open Digits (ofBits)

variable {A : Type} [AddCommMonoid A]

theorem foldl_lsbFirst (bits : List Bool) (sum cur : A) :
    (bits.foldl (fun s bit => (if bit then s.1 + s.2 else s.1, s.2 + s.2)) (sum, cur)).1 =
      sum + ofBits bits • cur := by
  induction bits generalizing sum cur with
  | nil => rw [List.foldl_nil, Digits.ofBits_nil, zero_nsmul, add_zero]
  | cons bit bits ih =>
    rw [List.foldl_cons, ih, Digits.ofBits_cons, add_nsmul, mul_nsmul, two_nsmul]
    cases bit with
    | false => simp
    | true => rw [if_pos rfl, Bool.toNat_true, one_nsmul, add_assoc]

theorem foldl_msbFirst (bits : List Bool) (base sum : A) :
    bits.foldl (fun sum bit => if bit then sum + sum + base else sum + sum) sum =
      2 ^ bits.length • sum + ofBits bits.reverse • base := by
  induction bits generalizing sum with
  | nil => rw [List.foldl_nil, List.length_nil, pow_zero, one_nsmul, List.reverse_nil, Digits.ofBits_nil,
      zero_nsmul, add_zero]
  | cons bit bits ih =>
    have hdouble : 2 ^ (bit :: bits).length • sum = 2 ^ bits.length • (sum + sum) := by
      rw [List.length_cons, pow_succ, mul_nsmul', two_nsmul]
    rw [List.foldl_cons, ih, hdouble, List.reverse_cons, Digits.ofBits_concat, List.length_reverse, add_nsmul]
    cases bit with
    | false => simp
    | true =>
      rw [if_pos rfl, nsmul_add, Bool.toNat_true, mul_one, add_assoc, add_comm (2 ^ bits.length • base)]

/-- Bits that are not set double nothing. -/
theorem foldl_msbFirst_dropWhile (bits : List Bool) (base : A) :
    (bits.dropWhile (!·)).foldl (fun sum bit => if bit then sum + sum + base else sum + sum) 0 =
      ofBits bits.reverse • base := by
  induction bits with
  | nil => rw [List.dropWhile_nil, List.foldl_nil, List.reverse_nil, Digits.ofBits_nil, zero_nsmul]
  | cons bit bits ih =>
    cases bit with
    | false =>
      rw [List.dropWhile_cons_of_pos rfl, ih, List.reverse_cons, Digits.ofBits_concat, Bool.toNat_false, mul_zero,
        add_zero]
    | true => rw [List.dropWhile_cons_of_neg Bool.false_ne_true, foldl_msbFirst, nsmul_zero, zero_add]

end DoubleAndAdd
