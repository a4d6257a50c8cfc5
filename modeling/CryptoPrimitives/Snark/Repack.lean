import CryptoPrimitives.Rust.Collections
import CryptoPrimitives.Rust.Outcome
import CryptoPrimitives.Rust.PrimeField

/-!
# Packing elements of one field into another

`BooleanInputVar::repack_input` of `snark/constraints.rs`: the bits of the elements,
most significant first, are cut into chunks of `capacity` bits.

* `notSmaller_eq`: the loop over the limbs compares the moduli.
* `ofBits_reverse_lt`: a chunk stands for a number below the modulus.
* `repackInput_eq`: so `repack_input` returns the elements of the chunks.
* `repackInput_inj`: from which the elements packed can be read back.
-/

namespace CryptoPrimitives.Snark

open Digits (ofBits limb)
open PrimeField (modulusBitSize bigIntBytes bigIntLimbs toBitsLe fromBitsBe fromBigint)

/-- The loop over the limbs of two moduli, the most significant ones first. -/
def notSmaller : List (Nat × Nat) → Bool
  | [] => true
  | (left, right) :: rest =>
    if left < right then false
    else if left > right then true
    else notSmaller rest

/-- How many bits of elements of the field of `p` elements go into one of the field of `q`. -/
def capacity (q p : Nat) : Nat :=
  if modulusBitSize q = modulusBitSize p then
    if notSmaller ((bigIntLimbs q q).zip (bigIntLimbs p p)).reverse then modulusBitSize q
    else modulusBitSize q - 1
  else modulusBitSize q - 1

/-- The bits of an element, the most significant one first. -/
def elementBits {p : Nat} (elem : ZMod p) : List Bool :=
  let bits := (toBitsLe elem).take (modulusBitSize p)
  (bits ++ List.replicate (modulusBitSize p - bits.length) false).reverse

/-- `src_bits`. -/
def srcBits {p : Nat} (src : List (ZMod p)) : List Bool := (src.map elementBits).flatten

/-- `BooleanInputVar::repack_input`, into the field of `q` elements. -/
def repackInput {p : Nat} (q : Nat) (src : List (ZMod p)) : Outcome (List (ZMod q)) :=
  (chunks (capacity q p) (srcBits src)).mapM fun chunk => unwrapOption (fromBigint q (fromBitsBe q chunk))

/-! ## The capacity -/

/-- The loop compares the numbers that the limbs belong to. -/
theorem notSmaller_eq (w a b m : Nat) :
    notSmaller (((List.range m).map (limb w a)).zip ((List.range m).map (limb w b))).reverse =
      decide (b % 2 ^ (w * m) ≤ a % 2 ^ (w * m)) := by
  induction m with
  | zero => simp [notSmaller, Nat.mod_one]
  | succ m ih =>
    have hlen : ((List.range m).map (limb w a)).length = ((List.range m).map (limb w b)).length := by
      rw [List.length_map, List.length_map]
    have ha := Nat.mod_lt a (Nat.two_pow_pos (w * m))
    have hb := Nat.mod_lt b (Nat.two_pow_pos (w * m))
    rw [List.range_succ, List.map_append, List.map_append, List.zip_append hlen, List.reverse_append,
      Digits.mod_two_pow_succ w a, Digits.mod_two_pow_succ w b]
    show notSmaller ((limb w a m, limb w b m) ::
      (((List.range m).map (limb w a)).zip ((List.range m).map (limb w b))).reverse) = _
    rw [notSmaller, ih]
    split
    · rename_i hlt
      have := Nat.mul_le_mul_right (2 ^ (w * m)) (Nat.succ_le_of_lt hlt)
      rw [Nat.succ_mul] at this
      exact (decide_eq_false (by omega)).symm
    · split
      · rename_i _ hgt
        have := Nat.mul_le_mul_right (2 ^ (w * m)) (Nat.succ_le_of_lt hgt)
        rw [Nat.succ_mul] at this
        exact (decide_eq_true (by omega)).symm
      · rw [show limb w a m = limb w b m by omega, decide_eq_decide]
        exact Nat.add_le_add_iff_left.symm

variable {p q : Nat}

theorem notSmaller_limbs (h : modulusBitSize q = modulusBitSize p) :
    notSmaller ((bigIntLimbs q q).zip (bigIntLimbs p p)).reverse = decide (p ≤ q) := by
  have hlimbs : bigIntBytes q = bigIntBytes p := by rw [bigIntBytes, bigIntBytes, h]
  have hroom (n : Nat) : n < 2 ^ (64 * (bigIntBytes n / 8)) := by
    refine PrimeField.lt_two_pow_modulusBitSize.trans_le (Nat.pow_le_pow_right Nat.two_pos ?_)
    rw [bigIntBytes]
    omega
  rw [bigIntLimbs, bigIntLimbs, ← hlimbs, notSmaller_eq, Nat.mod_eq_of_lt (hlimbs ▸ hroom p),
    Nat.mod_eq_of_lt (hroom q)]

theorem capacity_le : capacity q p ≤ modulusBitSize q := by
  rw [capacity]
  split
  · split
    · exact le_refl _
    · exact Nat.sub_le _ 1
  · exact Nat.sub_le _ 1

theorem capacity_pos [Fact q.Prime] : 0 < capacity q p := by
  have h : 1 ≤ modulusBitSize q - 1 := PrimeField.one_le_log2
  rw [capacity]
  split
  · split <;> omega
  · exact h

/-- A whole element of the smaller field goes into one of the larger field of as many bits,
else a bit is left free. -/
theorem capacity_cases (q p : Nat) :
    capacity q p = modulusBitSize q ∧ modulusBitSize q = modulusBitSize p ∧ p ≤ q ∨
      capacity q p = modulusBitSize q - 1 := by
  rw [capacity]
  split
  · rename_i h
    rw [notSmaller_limbs h]
    by_cases hle : p ≤ q
    · exact .inl ⟨if_pos (decide_eq_true hle), h, hle⟩
    · exact .inr (if_neg fun hd => hle (of_decide_eq_true hd))
  · exact .inr rfl

/-! ## The chunks -/

theorem elementBits_eq (elem : ZMod p) :
    elementBits elem = ((List.range (modulusBitSize p)).map elem.val.testBit).reverse := by
  rw [elementBits, PrimeField.take_toBitsLe elem le_rfl, List.length_map, List.length_range, Nat.sub_self,
    List.replicate_zero, List.append_nil]

theorem length_elementBits (elem : ZMod p) : (elementBits elem).length = modulusBitSize p := by
  rw [elementBits_eq, List.length_reverse, List.length_map, List.length_range]

theorem ofBits_elementBits [NeZero p] (elem : ZMod p) : ofBits (elementBits elem).reverse = elem.val := by
  rw [elementBits_eq, List.reverse_reverse, Digits.ofBits_testBit,
    Nat.mod_eq_of_lt (PrimeField.val_lt_two_pow elem)]

theorem length_srcBits (src : List (ZMod p)) : (srcBits src).length = modulusBitSize p * src.length := by
  rw [srcBits, List.length_flatten, List.map_map]
  rw [(List.map_congr_left fun x _ => length_elementBits x :
    src.map (List.length ∘ elementBits) = src.map fun _ => modulusBitSize p), List.map_const',
    List.sum_replicate_nat, Nat.mul_comm]

/-- Chunks of the bits of one element are the elements. -/
theorem chunks_srcBits (src : List (ZMod p)) : chunks (modulusBitSize p) (srcBits src) = src.map elementBits :=
  chunks_flatten (Nat.succ_pos _) fun bits h => by
    obtain ⟨elem, -, rfl⟩ := List.mem_map.mp h
    exact length_elementBits elem

/-- A chunk stands for a number below the modulus of the field it goes into. -/
theorem ofBits_reverse_lt [Fact p.Prime] [Fact q.Prime] {src : List (ZMod p)} {chunk : List Bool}
    (h : chunk ∈ chunks (capacity q p) (srcBits src)) : ofBits chunk.reverse < q := by
  rcases capacity_cases q p with ⟨hcap, hsize, hle⟩ | hcap
  · rw [hcap, hsize, chunks_srcBits] at h
    obtain ⟨elem, -, rfl⟩ := List.mem_map.mp h
    rw [ofBits_elementBits]
    exact elem.val_lt.trans_le hle
  · calc ofBits chunk.reverse < 2 ^ chunk.reverse.length := Digits.ofBits_lt _
      _ ≤ 2 ^ (modulusBitSize q - 1) := Nat.pow_le_pow_right Nat.two_pos (by
          rw [List.length_reverse, ← hcap]
          exact length_le_of_mem_chunks capacity_pos h)
      _ ≤ q := PrimeField.two_pow_le (Fact.out : q.Prime).ne_zero

variable [Fact p.Prime] [Fact q.Prime]

/-- The element of a chunk. -/
def chunkElement (q : Nat) (chunk : List Bool) : ZMod q := (ofBits chunk.reverse : Nat)

theorem val_chunkElement {src : List (ZMod p)} {chunk : List Bool}
    (h : chunk ∈ chunks (capacity q p) (srcBits src)) : (chunkElement q chunk).val = ofBits chunk.reverse :=
  ZMod.val_natCast_of_lt (ofBits_reverse_lt h)

/-- No chunk fails to be an element. -/
theorem fromBigint_chunk {src : List (ZMod p)} {chunk : List Bool}
    (h : chunk ∈ chunks (capacity q p) (srcBits src)) :
    (unwrapOption (fromBigint q (fromBitsBe q chunk)) : Outcome (ZMod q)) = .ok (chunkElement q chunk) := by
  rw [PrimeField.fromBitsBe_eq ((length_le_of_mem_chunks capacity_pos h).trans capacity_le), fromBigint,
    if_pos (ofBits_reverse_lt h)]
  rfl

theorem repackInput_eq (src : List (ZMod p)) :
    repackInput q src = .ok ((chunks (capacity q p) (srcBits src)).map (chunkElement q)) :=
  Except.mapM_eq_map fun _ h => fromBigint_chunk h

theorem map_val_chunkElement (src : List (ZMod p)) :
    ((chunks (capacity q p) (srcBits src)).map (chunkElement q)).map ZMod.val =
      (chunks (capacity q p) (srcBits src)).map fun chunk => ofBits chunk.reverse := by
  rw [List.map_map]
  exact List.map_congr_left fun _ h => val_chunkElement h

/-- As many elements packed into the same elements are the same. -/
theorem repackInput_inj {xs ys : List (ZMod p)} (hl : xs.length = ys.length)
    (h : repackInput q xs = repackInput q ys) : xs = ys := by
  rw [repackInput_eq, repackInput_eq, Except.ok.injEq] at h
  have hvals := congrArg (List.map ZMod.val) h
  rw [map_val_chunkElement, map_val_chunkElement] at hvals
  have hbits : srcBits xs = srcBits ys :=
    chunks_map_inj capacity_pos (fun c d hcd hof => List.reverse_injective
      (Digits.ofBits_inj (by rw [List.length_reverse, List.length_reverse, hcd]) hof))
      (by rw [length_srcBits, length_srcBits, hl]) hvals
  have helements := congrArg (List.map fun bits => ofBits (List.reverse bits))
    (congrArg (chunks (modulusBitSize p)) hbits)
  rw [chunks_srcBits, chunks_srcBits, List.map_map, List.map_map] at helements
  refine List.map_injective_iff.mpr (ZMod.val_injective p) ?_
  calc xs.map ZMod.val = xs.map ((fun bits => ofBits (List.reverse bits)) ∘ elementBits) :=
        List.map_congr_left fun x _ => (ofBits_elementBits x).symm
    _ = ys.map ((fun bits => ofBits (List.reverse bits)) ∘ elementBits) := helements
    _ = ys.map ZMod.val := List.map_congr_left fun y _ => ofBits_elementBits y

end CryptoPrimitives.Snark
