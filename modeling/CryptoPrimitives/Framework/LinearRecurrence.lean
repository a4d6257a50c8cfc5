import Mathlib.Algebra.LinearRecurrence
import Mathlib.Algebra.Polynomial.AlgebraMap
import Mathlib.Algebra.Polynomial.Derivative
import Mathlib.Algebra.CharP.Lemmas
import Mathlib.Algebra.CharP.Two
import Mathlib.LinearAlgebra.Pi
import Mathlib.RingTheory.Coprime.Lemmas

/-!
# Linear recurrences and their samples

A polynomial acts on sequences with `X` as the shift: the solutions of a recurrence are the
sequences that its characteristic polynomial annihilates (`isSolution_iff`).

* `eq_zero_of_isCoprime`: a sequence that two coprime polynomials annihilate is zero.
* `IsSolution.decimate`: in characteristic `p`, with coefficients in the prime field, every `p`-th
  entry of a solution makes a solution again.
* `IsSolution.eq_zero_of_even`: in characteristic 2, a solution whose even entries are zero is zero
  where the characteristic polynomial and `X` times its derivative are coprime.
* `IsSolution.exists_sample`: so one of as many samples as the order, at every second entry, is not zero.
-/

open Polynomial

namespace LinearRecurrence

variable {R : Type*} [CommRing R]

/-- The shift of sequences. -/
def shift (R : Type*) [CommRing R] : Module.End R (ℕ → R) := LinearMap.funLeft R R Nat.succ

theorem shift_pow_apply (k : ℕ) (u : ℕ → R) (n : ℕ) : (shift R ^ k) u n = u (n + k) := by
  induction k generalizing n with
  | zero => rfl
  | succ k ih =>
    rw [pow_succ']
    show (shift R ^ k) u (n + 1) = u (n + (k + 1))
    rw [ih, Nat.add_right_comm, Nat.add_assoc]

theorem aeval_monomial_apply (k : ℕ) (a : R) (u : ℕ → R) (n : ℕ) :
    aeval (shift R) (monomial k a) u n = a * u (n + k) := by
  rw [aeval_monomial]
  show a * (shift R ^ k) u n = a * u (n + k)
  rw [shift_pow_apply]

theorem aeval_sum_monomial_apply {ι : Type*} (s : Finset ι) (k : ι → ℕ) (a : ι → R) (u : ℕ → R) (n : ℕ) :
    aeval (shift R) (∑ i ∈ s, monomial (k i) (a i)) u n = ∑ i ∈ s, a i * u (n + k i) := by
  rw [map_sum, LinearMap.sum_apply, Finset.sum_apply]
  exact Finset.sum_congr rfl fun i _ => aeval_monomial_apply ..

/-- The solutions are what the characteristic polynomial annihilates. -/
theorem isSolution_iff {E : LinearRecurrence R} {u : ℕ → R} :
    E.IsSolution u ↔ aeval (shift R) E.charPoly u = 0 := by
  have hn (n : ℕ) : aeval (shift R) E.charPoly u n = u (n + E.order) - ∑ i, E.coeffs i * u (n + i) := by
    rw [charPoly, map_sub]
    show aeval (shift R) _ u n - aeval (shift R) _ u n = _
    rw [aeval_monomial_apply, aeval_sum_monomial_apply, one_mul]
  constructor
  · exact fun h => funext fun n => (hn n).trans (sub_eq_zero.mpr (h n))
  · exact fun h n => sub_eq_zero.mp ((hn n).symm.trans (congrFun h n))

/-- Coprime polynomials annihilate the zero sequence only. -/
theorem eq_zero_of_isCoprime {f g : R[X]} (h : IsCoprime f g) {u : ℕ → R} (hf : aeval (shift R) f u = 0)
    (hg : aeval (shift R) g u = 0) : u = 0 := by
  obtain ⟨a, b, hab⟩ := h
  calc u = aeval (shift R) (a * f + b * g) u := by rw [hab, map_one]; rfl
    _ = aeval (shift R) a (aeval (shift R) f u) + aeval (shift R) b (aeval (shift R) g u) := by
      rw [map_add, map_mul, map_mul]; rfl
    _ = 0 := by rw [hf, hg, map_zero, map_zero, add_zero]

namespace IsSolution

variable {E : LinearRecurrence R} {u : ℕ → R}

theorem tail (h : E.IsSolution u) (m : ℕ) : E.IsSolution fun n => u (m + n) := fun n => by
  simp only [← Nat.add_assoc]
  exact h (m + n)

theorem eq_zero_of_window (h : E.IsSolution u) (hzero : ∀ i < E.order, u i = 0) : u = 0 := by
  refine (E.eq_iff_eqOn_range_order u 0 h (E.solSpace.zero_mem)).mpr fun i hi => ?_
  exact hzero i (Finset.mem_range.mp (Finset.mem_coe.mp hi))

/-- A solution with a zero tail is zero where the recurrence can be run backwards. -/
theorem eq_zero_of_tail (hX : IsCoprime E.charPoly X) (h : E.IsSolution u) {m : ℕ} (hzero : ∀ n, u (m + n) = 0) :
    u = 0 := by
  refine eq_zero_of_isCoprime (hX.pow_right (n := m)) (isSolution_iff.mp h) (funext fun n => ?_)
  rw [X_pow_eq_monomial, aeval_monomial_apply, one_mul, Nat.add_comm]
  exact hzero n

/-- So a nonzero solution is not zero on any window. -/
theorem exists_ne_zero (hX : IsCoprime E.charPoly X) (h : E.IsSolution u) (hu : u ≠ 0) (m : ℕ) :
    ∃ i < E.order, u (m + i) ≠ 0 := by
  by_contra hall
  push Not at hall
  exact hu (h.eq_zero_of_tail hX (congrFun ((h.tail m).eq_zero_of_window hall)))

/-- The characteristic polynomial to the power `p` is that polynomial in `X ^ p`. -/
theorem decimate {p : ℕ} [Fact p.Prime] [CharP R p] (hc : ∀ i, E.coeffs i ^ p = E.coeffs i) (h : E.IsSolution u) :
    E.IsSolution fun n => u (p * n) := fun n => by
  have hpow : E.charPoly ^ p = monomial (E.order * p) 1 - ∑ i : Fin E.order, monomial (i * p) (E.coeffs i) := by
    rw [charPoly, sub_pow_char, sum_pow_char, monomial_pow, one_pow]
    exact congrArg _ (Finset.sum_congr rfl fun i _ => by rw [monomial_pow, hc])
  have hzero : aeval (shift R) (E.charPoly ^ p) u = 0 := by
    obtain ⟨k, hk⟩ := Nat.exists_eq_succ_of_ne_zero (Fact.out : p.Prime).ne_zero
    rw [hk, pow_succ, map_mul]
    show aeval (shift R) (E.charPoly ^ k) (aeval (shift R) E.charPoly u) = 0
    rw [isSolution_iff.mp h, map_zero]
  have hn := congrFun hzero (p * n)
  rw [hpow, map_sub] at hn
  change aeval (shift R) _ u (p * n) - aeval (shift R) _ u (p * n) = 0 at hn
  rw [aeval_monomial_apply, aeval_sum_monomial_apply, sub_eq_zero, one_mul] at hn
  show u (p * (n + E.order)) = ∑ i, E.coeffs i * u (p * (n + i))
  rw [Nat.mul_add, Nat.mul_comm p E.order, hn]
  exact Finset.sum_congr rfl fun i _ => by rw [Nat.mul_add, Nat.mul_comm p i]

end IsSolution

/-- A polynomial on a sequence multiplied by the index: the rule for a product with a derivation. -/
theorem aeval_natCast_mul (f : R[X]) (u : ℕ → R) (n : ℕ) :
    aeval (shift R) f (fun n => n * u n) n = n * aeval (shift R) f u n + aeval (shift R) (X * derivative f) u n := by
  induction f using Polynomial.induction_on' with
  | add f g hf hg =>
    simp only [map_add, mul_add]
    show aeval (shift R) f _ n + aeval (shift R) g _ n = n * (aeval (shift R) f u n + aeval (shift R) g u n) +
      (aeval (shift R) (X * derivative f) u n + aeval (shift R) (X * derivative g) u n)
    rw [hf, hg]
    ring
  | monomial k a =>
    have hderiv : (X * derivative (monomial k a) : R[X]) = monomial k (a * k) := by
      rw [derivative_monomial, X_mul_monomial]
      rcases Nat.eq_zero_or_pos k with rfl | hk
      · rw [Nat.cast_zero, mul_zero, map_zero, map_zero]
      · rw [Nat.sub_add_cancel hk]
    rw [hderiv, aeval_monomial_apply, aeval_monomial_apply, aeval_monomial_apply, Nat.cast_add]
    ring

namespace IsSolution

variable [CharP R 2] {E : LinearRecurrence R} {u : ℕ → R}

/-- A solution whose even entries are zero is itself multiplied by the index, so that the
derivative annihilates it too. -/
theorem eq_zero_of_even (hsep : IsCoprime E.charPoly (X * derivative E.charPoly)) (h : E.IsSolution u)
    (heven : ∀ n, u (2 * n) = 0) : u = 0 := by
  have hself : (fun n : ℕ => (n : R) * u n) = u := funext fun n => by
    rcases Nat.even_or_odd' n with ⟨m, rfl | rfl⟩
    · rw [heven, mul_zero]
    · rw [Nat.cast_add, Nat.cast_mul, Nat.cast_two, CharTwo.two_eq_zero, zero_mul, zero_add, Nat.cast_one, one_mul]
  refine eq_zero_of_isCoprime hsep (isSolution_iff.mp h) (funext fun n => ?_)
  have hmul := aeval_natCast_mul E.charPoly u n
  rw [hself, isSolution_iff.mp h] at hmul
  simpa using hmul.symm

/-- Of as many samples of a nonzero solution as the order, one at every second entry, not all are zero. -/
theorem exists_sample (hX : IsCoprime E.charPoly X) (hsep : IsCoprime E.charPoly (derivative E.charPoly))
    (hc : ∀ i, E.coeffs i ^ 2 = E.coeffs i) (h : E.IsSolution u) (hu : u ≠ 0) (m : ℕ) :
    ∃ k < E.order, u (m + 2 * k) ≠ 0 := by
  have : Fact (Nat.Prime 2) := ⟨Nat.prime_two⟩
  by_contra hall
  push Not at hall
  have heven := ((h.tail m).decimate hc).eq_zero_of_window hall
  have htail := (h.tail m).eq_zero_of_even (hX.mul_right hsep) (congrFun heven)
  exact hu (h.eq_zero_of_tail hX (congrFun htail))

end IsSolution

end LinearRecurrence
