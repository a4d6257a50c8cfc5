import Mathlib.LinearAlgebra.Lagrange
import Mathlib.LinearAlgebra.Matrix.ToLinearEquiv

/-!
# Cauchy matrices

The matrix of the inverses of `x i + y j`, over a field. A vector that it takes to zero is the
numerator of a rational function with a zero at each `x i`; the numerator has less degree than there
are `x i`, so it is zero (`eq_zero_of_cauchy`). Hence the matrix is nonsingular
(`det_cauchy_ne_zero`), and so is every square matrix of some of its rows and columns, which is a
Cauchy matrix again.
-/

namespace Cauchy

open Polynomial Finset

variable {K ι : Type*} [Field K] [Fintype ι] [DecidableEq ι]

/-- The numerator of `∑ j, v j / (X + y j)`. -/
noncomputable def numerator (y v : ι → K) : K[X] := ∑ j, C (v j) * ∏ k ∈ univ.erase j, (X + C (y k))

theorem degree_numerator_lt (y v : ι → K) : (numerator y v).degree < #(univ : Finset ι) := by
  rw [← mem_degreeLT]
  refine Submodule.sum_mem _ fun j _ => ?_
  rw [← smul_eq_C_mul]
  refine Submodule.smul_mem _ _ (mem_degreeLT.mpr ?_)
  simp only [degree_prod, degree_X_add_C, sum_const, nsmul_one, Nat.cast_lt]
  exact Finset.card_lt_card (Finset.erase_ssubset (mem_univ j))

/-- Where no denominator is zero, the numerator is the sum times the denominators. -/
theorem eval_numerator (y v : ι → K) {a : K} (ha : ∀ j, a + y j ≠ 0) :
    (numerator y v).eval a = (∏ k, (a + y k)) * ∑ j, (a + y j)⁻¹ * v j := by
  rw [numerator, eval_finsetSum, Finset.mul_sum]
  refine Finset.sum_congr rfl fun j _ => ?_
  rw [eval_mul, eval_C, eval_prod, ← Finset.mul_prod_erase univ _ (mem_univ j)]
  simp only [eval_add, eval_X, eval_C]
  rw [mul_mul_mul_comm, mul_inv_cancel₀ (ha j), one_mul, mul_comm]

/-- At the pole of one term only this term is left. -/
theorem eval_numerator_neg (y v : ι → K) (j : ι) :
    (numerator y v).eval (-y j) = v j * ∏ k ∈ univ.erase j, (-y j + y k) := by
  rw [numerator, eval_finsetSum, Finset.sum_eq_single j]
  · simp only [eval_mul, eval_C, eval_prod, eval_add, eval_X]
  · intro i _ hij
    rw [eval_mul, eval_prod, Finset.prod_eq_zero (Finset.mem_erase.mpr ⟨hij.symm, mem_univ j⟩), mul_zero]
    rw [eval_add, eval_X, eval_C, neg_add_cancel]
  · exact fun hj => absurd (mem_univ j) hj

variable {x y : ι → K}

/-- The matrix takes no other vector to zero. -/
theorem eq_zero_of_cauchy (hx : Function.Injective x) (hy : Function.Injective y) (hxy : ∀ i j, x i + y j ≠ 0)
    {v : ι → K} (hv : ∀ i, ∑ j, (x i + y j)⁻¹ * v j = 0) : v = 0 := by
  funext j
  have hzero : numerator y v = 0 :=
    eq_zero_of_degree_lt_of_eval_index_eq_zero univ hx.injOn (degree_numerator_lt y v) fun i _ => by
      rw [eval_numerator y v (hxy i), hv, mul_zero]
  have hpole := eval_numerator_neg y v j
  rw [hzero, eval_zero] at hpole
  refine (mul_eq_zero.mp hpole.symm).resolve_right (Finset.prod_ne_zero_iff.mpr fun k hk heq => ?_)
  exact Finset.ne_of_mem_erase hk (hy (neg_add_eq_zero.mp heq).symm)

theorem det_cauchy_ne_zero (hx : Function.Injective x) (hy : Function.Injective y) (hxy : ∀ i j, x i + y j ≠ 0) :
    (Matrix.of fun i j => (x i + y j)⁻¹).det ≠ 0 := by
  intro hdet
  obtain ⟨v, hv, hzero⟩ := Matrix.exists_mulVec_eq_zero_iff.mpr hdet
  exact hv (eq_zero_of_cauchy hx hy hxy (congrFun hzero))

end Cauchy
