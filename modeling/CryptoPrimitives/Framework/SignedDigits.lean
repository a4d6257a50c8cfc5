import Mathlib.Algebra.Ring.GeomSum
import Mathlib.Data.Int.GCD
import Mathlib.Tactic.Ring

/-!
# Signed digits

Numbers written in a base `b` with digits of either sign, least significant first.

* `natAbs_ofSigned_le`: digits up to `m` stand for numbers up to `m` in every place.
* `ofSigned_inj`: digits that are not zero and below half the base are determined by the number,
  with how many they are.
* `exists_ofSigned`: digits up to half the base stand for every number up to that bound.
-/

namespace SignedDigits

open Finset (range)

/-- The number that signed digits stand for. -/
def ofSigned (b : Nat) : List Int → Int
  | [] => 0
  | d :: ds => d + b * ofSigned b ds

variable {b m : Nat}

theorem natAbs_ofSigned_le {ds : List Int} (h : ∀ d ∈ ds, d.natAbs ≤ m) :
    (ofSigned b ds).natAbs ≤ m * ∑ i ∈ range ds.length, b ^ i := by
  induction ds with
  | nil => exact Nat.zero_le _
  | cons d ds ih =>
    have hd := h d List.mem_cons_self
    have hds := ih fun e he => h e (List.mem_cons_of_mem _ he)
    rw [ofSigned, List.length_cons, geom_sum_succ]
    calc (d + b * ofSigned b ds).natAbs ≤ d.natAbs + (b * ofSigned b ds).natAbs := Int.natAbs_add_le _ _
      _ = d.natAbs + b * (ofSigned b ds).natAbs := by rw [Int.natAbs_mul, Int.natAbs_natCast]
      _ ≤ m + b * (m * ∑ i ∈ range ds.length, b ^ i) := Nat.add_le_add hd (Nat.mul_le_mul_left b hds)
      _ = m * (b * ∑ i ∈ range ds.length, b ^ i + 1) := by ring

/-- The bound is reached. -/
theorem ofSigned_replicate (n : Nat) : ofSigned b (List.replicate n (m : Int)) = (m * ∑ i ∈ range n, b ^ i : Nat) := by
  induction n with
  | zero => rfl
  | succ n ih =>
    rw [List.replicate_succ, ofSigned, ih, geom_sum_succ]
    push_cast
    ring

/-- A multiple of the base below it is zero. -/
theorem eq_zero_of_add_mul {d s : Int} (hd : d.natAbs < b) (h : d + b * s = 0) : d = 0 := by
  have hdvd : (b : Int) ∣ d := ⟨-s, by rw [mul_neg]; omega⟩
  exact Int.eq_zero_of_dvd_of_natAbs_lt_natAbs hdvd (by rwa [Int.natAbs_natCast])

theorem ofSigned_inj (hb : 2 * m < b) {ds es : List Int} (hd : ∀ d ∈ ds, d ≠ 0 ∧ d.natAbs ≤ m)
    (he : ∀ e ∈ es, e ≠ 0 ∧ e.natAbs ≤ m) (h : ofSigned b ds = ofSigned b es) : ds = es := by
  induction ds generalizing es with
  | nil =>
    cases es with
    | nil => rfl
    | cons e es =>
      have hhead := he e List.mem_cons_self
      exact absurd (eq_zero_of_add_mul (show e.natAbs < b by omega) h.symm) hhead.1
  | cons d ds ih =>
    have hhead := hd d List.mem_cons_self
    cases es with
    | nil => exact absurd (eq_zero_of_add_mul (show d.natAbs < b by omega) h) hhead.1
    | cons e es =>
      have hhead' := he e List.mem_cons_self
      simp only [ofSigned] at h
      have hzero : d - e + b * (ofSigned b ds - ofSigned b es) = 0 := by rw [mul_sub]; omega
      have hde : d - e = 0 := eq_zero_of_add_mul (by omega) hzero
      obtain rfl : d = e := by omega
      have hb0 : (b : Int) ≠ 0 := by omega
      have htail : ofSigned b ds = ofSigned b es := mul_left_cancel₀ hb0 (by omega)
      rw [ih (fun d hd' => hd d (List.mem_cons_of_mem _ hd')) (fun e he' => he e (List.mem_cons_of_mem _ he')) htail]

/-- The lowest digit is taken with the nearest multiple of the base, unless the digits left cannot
reach it. -/
theorem exists_ofSigned (hb0 : 0 < b) (hb : b ≤ 2 * m + 1) {n x : Nat} (hx : x ≤ m * ∑ i ∈ range n, b ^ i) :
    ∃ ds : List Int, ds.length = n ∧ (∀ d ∈ ds, d.natAbs ≤ m) ∧ ofSigned b ds = x := by
  induction n generalizing x with
  | zero =>
    obtain rfl : x = 0 := by simpa using hx
    exact ⟨[], rfl, nofun, rfl⟩
  | succ n ih =>
    obtain ⟨ds, hlen, hds, hval⟩ := ih (Nat.min_le_left (m * ∑ i ∈ range n, b ^ i) ((x + m) / b))
    generalize hy : min (m * ∑ i ∈ range n, b ^ i) ((x + m) / b) = y at hval
    have hlow : b * y ≤ x + m := by
      have hle : y ≤ (x + m) / b := hy ▸ Nat.min_le_right _ _
      calc b * y ≤ b * ((x + m) / b) := Nat.mul_le_mul_left b hle
        _ ≤ x + m := Nat.mul_div_le _ _
    have hhigh : x ≤ b * y + m := by
      rw [geom_sum_succ] at hx
      rcases Nat.le_total (m * ∑ i ∈ range n, b ^ i) ((x + m) / b) with hle | hle
      · rw [Nat.min_eq_left hle] at hy
        calc x ≤ m * (b * ∑ i ∈ range n, b ^ i + 1) := hx
          _ = b * (m * ∑ i ∈ range n, b ^ i) + m := by ring
          _ = b * y + m := by rw [hy]
      · rw [Nat.min_eq_right hle] at hy
        have hlt := Nat.lt_mul_div_succ (x + m) hb0
        rw [hy, Nat.mul_succ] at hlt
        omega
    refine ⟨((x : Int) - (b * y : Nat)) :: ds, by rw [List.length_cons, hlen], ?_, ?_⟩
    · rw [List.forall_mem_cons]
      exact ⟨by omega, hds⟩
    · rw [ofSigned, hval]
      push_cast
      ring

end SignedDigits
