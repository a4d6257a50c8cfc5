import Mathlib.Algebra.Field.Basic
import Mathlib.Algebra.Group.Basic
import Mathlib.Algebra.Ring.Parity
import Mathlib.Tactic.FieldSimp
import Mathlib.Tactic.LinearCombination
import Mathlib.Tactic.Ring

/-!
# Twisted Edwards curves

The curve `a * x ^ 2 + y ^ 2 = 1 + d * x ^ 2 * y ^ 2` over a field, with the addition law

`(x₁, y₁) + (x₂, y₂) = ((x₁ * y₂ + y₁ * x₂) / (1 + t), (y₁ * y₂ - a * x₁ * x₂) / (1 - t))`

for `t = d * x₁ * x₂ * y₁ * y₂`. It is complete when no denominator is zero (`Complete`), as for a square `a` and
a `d` that is not one (`complete_of_isSquare`); the points of the curve are a commutative group then.

* `x_eq_iff`: the points with one coordinate `x` are a point and what its negation and the point
  `(0, -1)` of order two add up to.
* `eq_of_x_eq`: so points whose orders are odd are determined by `x`.
-/

namespace TwistedEdwards

section

variable {F : Type*} [Field F]

/-- The equation of the curve. -/
def OnCurve (a d x y : F) : Prop := a * x ^ 2 + y ^ 2 = 1 + d * x ^ 2 * y ^ 2

instance [DecidableEq F] (a d x y : F) : Decidable (OnCurve a d x y) := inferInstanceAs (Decidable (_ = _))

/-- The addition law has no exceptions. -/
def Complete (a d : F) : Prop :=
  ∀ ⦃x₁ y₁ x₂ y₂ : F⦄, OnCurve a d x₁ y₁ → OnCurve a d x₂ y₂ →
    1 + d * x₁ * x₂ * y₁ * y₂ ≠ 0 ∧ 1 - d * x₁ * x₂ * y₁ * y₂ ≠ 0

/-- A product of coordinates that is a square root of one makes `d` a square. -/
theorem isSquare_of_prod_sq {s d x₁ y₁ x₂ y₂ : F} (h2 : (2 : F) ≠ 0) (h0 : s ≠ 0) (h₁ : OnCurve (s ^ 2) d x₁ y₁)
    (h₂ : OnCurve (s ^ 2) d x₂ y₂) (h : (d * x₁ * x₂ * y₁ * y₂) ^ 2 = 1) : IsSquare d := by
  have hne : d * x₁ * x₂ * y₁ * y₂ ≠ 0 := fun hzero => by
    rw [hzero, zero_pow two_ne_zero] at h
    exact zero_ne_one h
  simp only [mul_ne_zero_iff] at hne
  obtain ⟨⟨⟨⟨-, hx₁⟩, hx₂⟩, hy₁⟩, hy₂⟩ := hne
  unfold OnCurve at h₁ h₂
  have hxy : x₁ * y₁ ≠ 0 := mul_ne_zero hx₁ hy₁
  have hplus : (s * x₁ + d * x₁ * x₂ * y₁ * y₂ * y₁) ^ 2 = d * (x₁ * y₁ * (s * x₂ + y₂)) ^ 2 := by
    linear_combination h₁ - d * x₁ ^ 2 * y₁ ^ 2 * h₂ + (y₁ ^ 2 - 1) * h
  have hminus : (s * x₁ - d * x₁ * x₂ * y₁ * y₂ * y₁) ^ 2 = d * (x₁ * y₁ * (s * x₂ - y₂)) ^ 2 := by
    linear_combination h₁ - d * x₁ ^ 2 * y₁ ^ 2 * h₂ + (y₁ ^ 2 - 1) * h
  have hsquare {u v : F} (hv : v ≠ 0) (huv : u ^ 2 = d * v ^ 2) : IsSquare d :=
    ⟨u / v, by rw [div_mul_div_comm, ← pow_two, ← pow_two, huv, mul_div_cancel_right₀ d (pow_ne_zero 2 hv)]⟩
  by_cases hsum : s * x₂ + y₂ = 0
  · refine hsquare (mul_ne_zero hxy fun hdiff => ?_) hminus
    have hdouble : 2 * (s * x₂) = 0 := by linear_combination hsum + hdiff
    exact mul_ne_zero h2 (mul_ne_zero h0 hx₂) hdouble
  · exact hsquare (mul_ne_zero hxy hsum) hplus

theorem complete_of_isSquare {a d : F} (h2 : (2 : F) ≠ 0) (h0 : a ≠ 0) (ha : IsSquare a) (hd : ¬ IsSquare d) :
    Complete a d := by
  obtain ⟨s, rfl⟩ := ha
  rw [← pow_two] at *
  have hs : s ≠ 0 := fun hs => h0 (by rw [hs, zero_pow two_ne_zero])
  refine fun x₁ y₁ x₂ y₂ h₁ h₂ => ⟨fun h => hd (isSquare_of_prod_sq h2 hs h₁ h₂ ?_), fun h =>
    hd (isSquare_of_prod_sq h2 hs h₁ h₂ ?_)⟩
  · rw [eq_neg_of_add_eq_zero_right h, neg_one_sq]
  · rw [← sub_eq_zero.mp h, one_pow]

/-- A sum of points, as fractions, is on the curve. -/
theorem onCurve_div {a d u v s t : F} (hs : s ≠ 0) (ht : t ≠ 0)
    (h : a * u ^ 2 * t ^ 2 + v ^ 2 * s ^ 2 = s ^ 2 * t ^ 2 + d * u ^ 2 * v ^ 2) : OnCurve a d (u / s) (v / t) := by
  unfold OnCurve
  field_simp
  linear_combination h

theorem onCurve_add {a d x₁ y₁ x₂ y₂ : F} (h₁ : OnCurve a d x₁ y₁) (h₂ : OnCurve a d x₂ y₂)
    (hs : 1 + d * x₁ * x₂ * y₁ * y₂ ≠ 0) (ht : 1 - d * x₁ * x₂ * y₁ * y₂ ≠ 0) :
    OnCurve a d ((x₁ * y₂ + y₁ * x₂) / (1 + d * x₁ * x₂ * y₁ * y₂))
      ((y₁ * y₂ - a * x₁ * x₂) / (1 - d * x₁ * x₂ * y₁ * y₂)) := by
  refine onCurve_div hs ht ?_
  unfold OnCurve at h₁ h₂
  -- the difference is a multiple of the two equations
  linear_combination
    (1 + y₁ ^ 2 + d * x₁ ^ 2 * y₁ ^ 2 + a * x₁ ^ 2 - y₁ ^ 2 * y₂ ^ 2 - a * y₁ ^ 2 * x₂ ^ 2 - a * x₁ ^ 2 * y₂ ^ 2 -
      a ^ 2 * x₁ ^ 2 * x₂ ^ 2 + d * x₁ ^ 2 * y₁ ^ 2 * y₂ ^ 4 + a ^ 2 * d * x₁ ^ 2 * y₁ ^ 2 * x₂ ^ 4 +
      2 * a * x₁ ^ 2 * y₁ ^ 2 * y₂ ^ 2 + 2 * a ^ 2 * x₁ ^ 2 * y₁ ^ 2 * x₂ ^ 2 - 2 * d * x₁ ^ 2 * y₁ ^ 2 * y₂ ^ 2 -
      2 * a * x₁ ^ 2 * y₁ ^ 2 - 2 * a * d * x₁ ^ 2 * y₁ ^ 2 * x₂ ^ 2) * h₁ +
    (y₁ ^ 4 + a ^ 2 * x₁ ^ 4 - 2 * d * x₁ ^ 2 * y₁ ^ 2 + 4 * a * x₁ ^ 2 * y₁ ^ 2 - d ^ 2 * x₁ ^ 4 * y₁ ^ 4 -
      2 * a * x₁ ^ 2 * y₁ ^ 4 - 2 * a ^ 2 * x₁ ^ 4 * y₁ ^ 2 + 2 * a * d * x₁ ^ 4 * y₁ ^ 4 -
      d * x₁ ^ 2 * y₁ ^ 4 * y₂ ^ 2 - a * d * x₁ ^ 2 * y₁ ^ 4 * x₂ ^ 2 - a * d * x₁ ^ 4 * y₁ ^ 2 * y₂ ^ 2 -
      a ^ 2 * d * x₁ ^ 4 * y₁ ^ 2 * x₂ ^ 2 + d ^ 2 * x₁ ^ 4 * y₁ ^ 4 * y₂ ^ 2 + a * d ^ 2 * x₁ ^ 4 * y₁ ^ 4 * x₂ ^ 2 +
      d ^ 3 * x₁ ^ 4 * y₁ ^ 4 * x₂ ^ 2 * y₂ ^ 2) * h₂

/-! ## Associativity -/

/-- The sum of a point given by fractions and another one. -/
theorem add_div {a d u v s t x y : F} (hs : s ≠ 0) (ht : t ≠ 0) :
    ((u / s * y + v / t * x) / (1 + d * (u / s) * x * (v / t) * y) =
        (u * t * y + v * s * x) / (s * t + d * u * v * x * y)) ∧
      (v / t * y - a * (u / s) * x) / (1 - d * (u / s) * x * (v / t) * y) =
        (v * s * y - a * u * t * x) / (s * t - d * u * v * x * y) := by
  have hst : s * t ≠ 0 := mul_ne_zero hs ht
  have hx : u * t * y + v * s * x = s * t * (u / s * y + v / t * x) := by field_simp
  have hx' : s * t + d * u * v * x * y = s * t * (1 + d * (u / s) * x * (v / t) * y) := by field_simp
  have hy : v * s * y - a * u * t * x = s * t * (v / t * y - a * (u / s) * x) := by field_simp
  have hy' : s * t - d * u * v * x * y = s * t * (1 - d * (u / s) * x * (v / t) * y) := by field_simp
  rw [hx, hx', hy, hy', mul_div_mul_left _ _ hst, mul_div_mul_left _ _ hst]
  exact ⟨rfl, rfl⟩

section

variable {a d x₁ y₁ x₂ y₂ x₃ y₃ : F} (h₁ : OnCurve a d x₁ y₁) (h₂ : OnCurve a d x₂ y₂) (h₃ : OnCurve a d x₃ y₃)
include h₁ h₂ h₃

/-! Both ways to add three points, as fractions without the denominators. The difference is a multiple of the three
equations of the curve. -/

theorem add_assoc_x :
    ((x₁ * y₂ + y₁ * x₂) * (1 - d * x₁ * x₂ * y₁ * y₂) * y₃ + (y₁ * y₂ - a * x₁ * x₂) * (1 + d * x₁ * x₂ * y₁ * y₂) * x₃) *
        ((1 + d * x₂ * x₃ * y₂ * y₃) * (1 - d * x₂ * x₃ * y₂ * y₃) +
          d * (x₂ * y₃ + y₂ * x₃) * (y₂ * y₃ - a * x₂ * x₃) * x₁ * y₁) =
      ((x₂ * y₃ + y₂ * x₃) * (1 - d * x₂ * x₃ * y₂ * y₃) * y₁ + (y₂ * y₃ - a * x₂ * x₃) * (1 + d * x₂ * x₃ * y₂ * y₃) * x₁) *
        ((1 + d * x₁ * x₂ * y₁ * y₂) * (1 - d * x₁ * x₂ * y₁ * y₂) +
          d * (x₁ * y₂ + y₁ * x₂) * (y₁ * y₂ - a * x₁ * x₂) * x₃ * y₃) := by
  unfold OnCurve at h₁ h₂ h₃
  linear_combination
    d * x₂ * y₂ * (y₁ * x₂ ^ 2 * y₂ * y₃ ^ 3 + x₁ * y₂ ^ 3 * x₃ * y₃ ^ 2 + x₁ * x₂ * y₂ ^ 2 * y₃ ^ 3 +
      d * y₁ * x₂ ^ 2 * y₂ ^ 3 * x₃ ^ 2 * y₃ + d * y₁ * x₂ ^ 3 * y₂ ^ 2 * x₃ * y₃ ^ 2 + a * y₁ * x₂ * y₂ ^ 2 * x₃ ^ 3 +
      a * x₁ * x₂ ^ 2 * y₂ * x₃ + a * d * x₁ * x₂ ^ 3 * y₂ ^ 2 * x₃ ^ 2 * y₃ - y₁ * y₂ ^ 3 * x₃ ^ 2 * y₃ -
      y₁ * x₂ * y₂ ^ 2 * x₃ - y₁ * x₂ ^ 2 * y₂ * y₃ - x₁ * x₂ * y₂ ^ 2 * y₃ - d * x₁ * x₂ ^ 2 * y₂ ^ 3 * x₃ * y₃ ^ 2 -
      a * y₁ * x₂ ^ 3 * x₃ * y₃ ^ 2 - a ^ 2 * x₁ * x₂ ^ 2 * y₂ * x₃ ^ 3 - a ^ 2 * x₁ * x₂ ^ 3 * x₃ ^ 2 * y₃) * h₁ +
    d * x₂ * y₂ * (y₁ ^ 3 * y₂ * x₃ ^ 2 * y₃ + y₁ ^ 3 * x₂ * x₃ * y₃ ^ 2 + x₁ * y₂ * x₃ * y₃ ^ 2 +
      x₁ * y₁ ^ 2 * x₂ * y₃ + x₁ ^ 2 * y₁ * y₂ * y₃ + a * x₁ * y₁ ^ 2 * y₂ * x₃ ^ 3 + a * x₁ ^ 2 * y₁ * x₂ * x₃ +
      a ^ 2 * x₁ ^ 3 * x₂ * x₃ ^ 2 * y₃ - y₁ * y₂ * x₃ ^ 2 * y₃ - y₁ * x₂ * x₃ * y₃ ^ 2 - x₁ * y₁ ^ 2 * y₂ * x₃ -
      x₁ * y₁ ^ 2 * x₂ * y₃ ^ 3 - x₁ ^ 2 * y₁ * y₂ * y₃ ^ 3 - a * x₁ * x₂ * x₃ ^ 2 * y₃ -
      a * x₁ ^ 3 * y₂ * x₃ * y₃ ^ 2 - a ^ 2 * x₁ ^ 2 * y₁ * x₂ * x₃ ^ 3) * h₂ +
    d * x₂ * y₂ * (y₁ * x₂ * y₂ ^ 2 * x₃ + y₁ * x₂ ^ 2 * y₂ * y₃ + x₁ * x₂ * y₂ ^ 2 * y₃ + x₁ ^ 2 * y₁ * y₂ ^ 3 * y₃ +
      d * x₁ * y₁ ^ 2 * x₂ ^ 2 * y₂ ^ 3 * x₃ + a * x₁ * y₁ ^ 2 * x₂ ^ 3 * y₃ + a ^ 2 * x₁ ^ 2 * y₁ * x₂ ^ 3 * x₃ +
      a ^ 2 * x₁ ^ 3 * x₂ ^ 2 * y₂ * x₃ - y₁ ^ 3 * x₂ * y₂ ^ 2 * x₃ - y₁ ^ 3 * x₂ ^ 2 * y₂ * y₃ -
      x₁ * y₁ ^ 2 * y₂ ^ 3 * x₃ - d * x₁ * y₁ ^ 2 * x₂ ^ 3 * y₂ ^ 2 * y₃ - d * x₁ ^ 2 * y₁ * x₂ ^ 2 * y₂ ^ 3 * y₃ -
      a * x₁ * x₂ ^ 2 * y₂ * x₃ - a * x₁ ^ 3 * x₂ * y₂ ^ 2 * y₃ - a * d * x₁ ^ 2 * y₁ * x₂ ^ 3 * y₂ ^ 2 * x₃) * h₃

theorem add_assoc_y :
    ((y₁ * y₂ - a * x₁ * x₂) * (1 + d * x₁ * x₂ * y₁ * y₂) * y₃ -
          a * (x₁ * y₂ + y₁ * x₂) * (1 - d * x₁ * x₂ * y₁ * y₂) * x₃) *
        ((1 + d * x₂ * x₃ * y₂ * y₃) * (1 - d * x₂ * x₃ * y₂ * y₃) -
          d * (x₂ * y₃ + y₂ * x₃) * (y₂ * y₃ - a * x₂ * x₃) * x₁ * y₁) =
      ((y₂ * y₃ - a * x₂ * x₃) * (1 + d * x₂ * x₃ * y₂ * y₃) * y₁ -
          a * (x₂ * y₃ + y₂ * x₃) * (1 - d * x₂ * x₃ * y₂ * y₃) * x₁) *
        ((1 + d * x₁ * x₂ * y₁ * y₂) * (1 - d * x₁ * x₂ * y₁ * y₂) -
          d * (x₁ * y₂ + y₁ * x₂) * (y₁ * y₂ - a * x₁ * x₂) * x₃ * y₃) := by
  unfold OnCurve at h₁ h₂ h₃
  linear_combination
    d * x₂ * y₂ * (y₁ * y₂ ^ 3 * x₃ * y₃ ^ 2 + y₁ * x₂ * y₂ ^ 2 * y₃ ^ 3 + a * y₁ * x₂ ^ 2 * y₂ * x₃ +
      a * x₁ * y₂ ^ 3 * x₃ ^ 2 * y₃ + a * x₁ * x₂ * y₂ ^ 2 * x₃ + a * x₁ * x₂ ^ 2 * y₂ * y₃ +
      a * d * y₁ * x₂ ^ 3 * y₂ ^ 2 * x₃ ^ 2 * y₃ + a ^ 2 * x₁ * x₂ ^ 3 * x₃ * y₃ ^ 2 - y₁ * x₂ * y₂ ^ 2 * y₃ -
      d * y₁ * x₂ ^ 2 * y₂ ^ 3 * x₃ * y₃ ^ 2 - a * x₁ * x₂ ^ 2 * y₂ * y₃ ^ 3 -
      a * d * x₁ * x₂ ^ 2 * y₂ ^ 3 * x₃ ^ 2 * y₃ - a * d * x₁ * x₂ ^ 3 * y₂ ^ 2 * x₃ * y₃ ^ 2 -
      a ^ 2 * y₁ * x₂ ^ 2 * y₂ * x₃ ^ 3 - a ^ 2 * y₁ * x₂ ^ 3 * x₃ ^ 2 * y₃ - a ^ 2 * x₁ * x₂ * y₂ ^ 2 * x₃ ^ 3) * h₁ +
    d * x₂ * y₂ * (y₁ * y₂ * x₃ * y₃ ^ 2 + x₁ * y₁ ^ 2 * y₂ * y₃ ^ 3 + a * y₁ ^ 3 * x₂ * x₃ ^ 2 * y₃ +
      a * x₁ * y₂ * x₃ ^ 2 * y₃ + a * x₁ * x₂ * x₃ * y₃ ^ 2 + a * x₁ ^ 2 * y₁ * x₂ * y₃ +
      a ^ 2 * x₁ * y₁ ^ 2 * x₂ * x₃ ^ 3 + a ^ 2 * x₁ ^ 2 * y₁ * y₂ * x₃ ^ 3 - y₁ ^ 3 * y₂ * x₃ * y₃ ^ 2 -
      x₁ * y₁ ^ 2 * y₂ * y₃ - a * y₁ * x₂ * x₃ ^ 2 * y₃ - a * x₁ * y₁ ^ 2 * x₂ * x₃ - a * x₁ ^ 2 * y₁ * y₂ * x₃ -
      a * x₁ ^ 2 * y₁ * x₂ * y₃ ^ 3 - a ^ 2 * x₁ ^ 3 * y₂ * x₃ ^ 2 * y₃ - a ^ 2 * x₁ ^ 3 * x₂ * x₃ * y₃ ^ 2) * h₂ +
    d * x₂ * y₂ * (y₁ * x₂ * y₂ ^ 2 * y₃ + d * x₁ * y₁ ^ 2 * x₂ ^ 2 * y₂ ^ 3 * y₃ + a * y₁ ^ 3 * x₂ ^ 2 * y₂ * x₃ +
      a * d * x₁ * y₁ ^ 2 * x₂ ^ 3 * y₂ ^ 2 * x₃ + a * d * x₁ ^ 2 * y₁ * x₂ ^ 2 * y₂ ^ 3 * x₃ +
      a ^ 2 * x₁ ^ 2 * y₁ * x₂ ^ 3 * y₃ + a ^ 2 * x₁ ^ 3 * x₂ * y₂ ^ 2 * x₃ + a ^ 2 * x₁ ^ 3 * x₂ ^ 2 * y₂ * y₃ -
      y₁ ^ 3 * x₂ * y₂ ^ 2 * y₃ - x₁ * y₁ ^ 2 * y₂ ^ 3 * y₃ - a * y₁ * x₂ ^ 2 * y₂ * x₃ - a * x₁ * x₂ * y₂ ^ 2 * x₃ -
      a * x₁ * x₂ ^ 2 * y₂ * y₃ - a * x₁ ^ 2 * y₁ * y₂ ^ 3 * x₃ - a * d * x₁ ^ 2 * y₁ * x₂ ^ 3 * y₂ ^ 2 * y₃ -
      a ^ 2 * x₁ * y₁ ^ 2 * x₂ ^ 3 * x₃) * h₃

end

end

/-! ## The group of points -/

/-- A twisted Edwards curve with a complete addition law. -/
structure Curve (F : Type*) [Field F] where
  a : F
  d : F
  two_ne_zero : (2 : F) ≠ 0
  a_ne_d : a ≠ d
  complete : Complete a d

namespace Curve

variable {F : Type*} [Field F]

@[ext]
structure Point (E : Curve F) where
  x : F
  y : F
  onCurve : OnCurve E.a E.d x y
deriving DecidableEq

variable {E : Curve F}

namespace Point

instance : Zero E.Point := ⟨⟨0, 1, by unfold OnCurve; ring⟩⟩

instance : Neg E.Point := ⟨fun P => ⟨-P.x, P.y, by
  have h := P.onCurve
  unfold OnCurve at *
  linear_combination h⟩⟩

instance : Add E.Point := ⟨fun P Q => {
  x := (P.x * Q.y + P.y * Q.x) / (1 + E.d * P.x * Q.x * P.y * Q.y)
  y := (P.y * Q.y - E.a * P.x * Q.x) / (1 - E.d * P.x * Q.x * P.y * Q.y)
  onCurve := onCurve_add P.onCurve Q.onCurve (E.complete P.onCurve Q.onCurve).1 (E.complete P.onCurve Q.onCurve).2 }⟩

@[simp] theorem zero_x : (0 : E.Point).x = 0 := rfl

@[simp] theorem zero_y : (0 : E.Point).y = 1 := rfl

@[simp] theorem neg_x (P : E.Point) : (-P).x = -P.x := rfl

@[simp] theorem neg_y (P : E.Point) : (-P).y = P.y := rfl

theorem add_x (P Q : E.Point) :
    (P + Q).x = (P.x * Q.y + P.y * Q.x) / (1 + E.d * P.x * Q.x * P.y * Q.y) := rfl

theorem add_y (P Q : E.Point) :
    (P + Q).y = (P.y * Q.y - E.a * P.x * Q.x) / (1 - E.d * P.x * Q.x * P.y * Q.y) := rfl

protected theorem add_comm (P Q : E.Point) : P + Q = Q + P := by
  ext
  · rw [add_x, add_x]
    ring_nf
  · rw [add_y, add_y]
    ring_nf

protected theorem zero_add (P : E.Point) : 0 + P = P := by
  ext
  · simp [add_x]
  · simp [add_y]

protected theorem neg_add_cancel (P : E.Point) : -P + P = 0 := by
  have hcurve := P.onCurve
  unfold OnCurve at hcurve
  ext
  · rw [add_x, neg_x, neg_y, zero_x, show -P.x * P.y + P.y * P.x = 0 by ring, zero_div]
  · have hne := (E.complete (-P).onCurve P.onCurve).2
    rw [add_y, zero_y, div_eq_one_iff_eq hne, neg_x, neg_y]
    linear_combination hcurve

/-- The coordinates of a sum of three points, as fractions. -/
theorem add_add_eq (P Q R : E.Point) :
    (P + Q + R).x =
        ((P.x * Q.y + P.y * Q.x) * (1 - E.d * P.x * Q.x * P.y * Q.y) * R.y +
          (P.y * Q.y - E.a * P.x * Q.x) * (1 + E.d * P.x * Q.x * P.y * Q.y) * R.x) /
        ((1 + E.d * P.x * Q.x * P.y * Q.y) * (1 - E.d * P.x * Q.x * P.y * Q.y) +
          E.d * (P.x * Q.y + P.y * Q.x) * (P.y * Q.y - E.a * P.x * Q.x) * R.x * R.y) ∧
      (P + Q + R).y =
        ((P.y * Q.y - E.a * P.x * Q.x) * (1 + E.d * P.x * Q.x * P.y * Q.y) * R.y -
          E.a * (P.x * Q.y + P.y * Q.x) * (1 - E.d * P.x * Q.x * P.y * Q.y) * R.x) /
        ((1 + E.d * P.x * Q.x * P.y * Q.y) * (1 - E.d * P.x * Q.x * P.y * Q.y) -
          E.d * (P.x * Q.y + P.y * Q.x) * (P.y * Q.y - E.a * P.x * Q.x) * R.x * R.y) := by
  obtain ⟨hs, ht⟩ := E.complete P.onCurve Q.onCurve
  rw [add_x, add_y, add_x, add_y]
  exact add_div hs ht

/-- The denominators of these fractions. -/
theorem add_add_ne_zero (P Q R : E.Point) :
    (1 + E.d * P.x * Q.x * P.y * Q.y) * (1 - E.d * P.x * Q.x * P.y * Q.y) +
        E.d * (P.x * Q.y + P.y * Q.x) * (P.y * Q.y - E.a * P.x * Q.x) * R.x * R.y ≠ 0 ∧
      (1 + E.d * P.x * Q.x * P.y * Q.y) * (1 - E.d * P.x * Q.x * P.y * Q.y) -
        E.d * (P.x * Q.y + P.y * Q.x) * (P.y * Q.y - E.a * P.x * Q.x) * R.x * R.y ≠ 0 := by
  obtain ⟨hs, ht⟩ := E.complete P.onCurve Q.onCurve
  obtain ⟨hsum, hdiff⟩ := E.complete (P + Q).onCurve R.onCurve
  have hst := mul_ne_zero hs ht
  have hproduct : (1 + E.d * P.x * Q.x * P.y * Q.y) * (1 - E.d * P.x * Q.x * P.y * Q.y) *
      (E.d * (P + Q).x * R.x * (P + Q).y * R.y) =
        E.d * (P.x * Q.y + P.y * Q.x) * (P.y * Q.y - E.a * P.x * Q.x) * R.x * R.y := by
    rw [add_x, add_y]
    field_simp
  constructor
  · rw [← hproduct, ← mul_one_add]
    exact mul_ne_zero hst hsum
  · rw [← hproduct, ← mul_one_sub]
    exact mul_ne_zero hst hdiff

protected theorem add_assoc (P Q R : E.Point) : P + Q + R = P + (Q + R) := by
  rw [Point.add_comm P (Q + R)]
  obtain ⟨hx, hy⟩ := add_add_eq P Q R
  obtain ⟨hx', hy'⟩ := add_add_eq Q R P
  obtain ⟨hne, hne'⟩ := add_add_ne_zero P Q R
  obtain ⟨hne₂, hne₂'⟩ := add_add_ne_zero Q R P
  ext
  · rw [hx, hx', div_eq_div_iff hne hne₂]
    exact add_assoc_x P.onCurve Q.onCurve R.onCurve
  · rw [hy, hy', div_eq_div_iff hne' hne₂']
    exact add_assoc_y P.onCurve Q.onCurve R.onCurve

instance : AddCommGroup E.Point where
  add_assoc := Point.add_assoc
  zero_add := Point.zero_add
  add_zero P := (Point.add_comm P 0).trans (Point.zero_add P)
  neg_add_cancel := Point.neg_add_cancel
  add_comm := Point.add_comm
  nsmul := nsmulRec
  zsmul := zsmulRec

/-! ## Points with one coordinate -/

/-- The point of order two. -/
def twoTorsion : E.Point := ⟨0, -1, by unfold OnCurve; ring⟩

theorem add_twoTorsion (P : E.Point) : (P + twoTorsion).x = -P.x ∧ (P + twoTorsion).y = -P.y := by
  rw [add_x, add_y]
  simp [twoTorsion]

theorem twoTorsion_ne_zero : (twoTorsion : E.Point) ≠ 0 := fun h => by
  have hy : (-1 : F) = 1 := congrArg y h
  refine E.two_ne_zero ?_
  linear_combination -hy

theorem two_nsmul_twoTorsion : 2 • (twoTorsion : E.Point) = 0 := by
  obtain ⟨hx, hy⟩ := add_twoTorsion (twoTorsion : E.Point)
  rw [two_nsmul]
  ext
  · rw [hx]
    exact neg_zero
  · rw [hy]
    exact neg_neg 1

theorem odd_nsmul_twoTorsion {r : Nat} (hr : Odd r) : r • (twoTorsion : E.Point) = twoTorsion := by
  obtain ⟨k, rfl⟩ := hr
  rw [add_nsmul, one_nsmul, mul_nsmul, two_nsmul_twoTorsion, nsmul_zero, zero_add]

/-- No point is where the curve has only one coordinate `x`. -/
theorem one_sub_d_mul_ne_zero (P : E.Point) : 1 - E.d * P.x ^ 2 ≠ 0 := fun h => by
  have hcurve := P.onCurve
  unfold OnCurve at hcurve
  have hx : P.x ≠ 0 := fun hx => by
    rw [hx] at h
    refine one_ne_zero (α := F) ?_
    linear_combination h
  refine E.a_ne_d (mul_right_cancel₀ (pow_ne_zero 2 hx) ?_)
  linear_combination hcurve + (1 - P.y ^ 2) * h

/-- The second point with the same `x` has the opposite `y`. -/
theorem x_eq_iff {P Q : E.Point} : P.x = Q.x ↔ Q = P ∨ Q = -(P + twoTorsion) := by
  obtain ⟨hx, hy⟩ := add_twoTorsion P
  constructor
  · intro h
    have hP := P.onCurve
    have hQ := Q.onCurve
    unfold OnCurve at hP hQ
    rw [← h] at hQ
    have hsquares : Q.y ^ 2 = P.y ^ 2 := by
      refine mul_left_cancel₀ P.one_sub_d_mul_ne_zero ?_
      linear_combination hQ - hP
    rcases sq_eq_sq_iff_eq_or_eq_neg.mp hsquares with heq | hneg
    · exact .inl (Point.ext h.symm heq)
    · refine .inr (Point.ext ?_ ?_)
      · rw [neg_x, hx, neg_neg, h]
      · rw [neg_y, hy, hneg]
  · rintro (rfl | rfl)
    · rfl
    · rw [neg_x, hx, neg_neg]

/-- Two points that an odd multiple takes to zero are not a point and its second one. -/
theorem eq_of_x_eq {r : Nat} (hr : Odd r) {P Q : E.Point} (hP : r • P = 0) (hQ : r • Q = 0) (h : P.x = Q.x) :
    P = Q := by
  rcases x_eq_iff.mp h with heq | hother
  · exact heq.symm
  · rw [hother, neg_nsmul, nsmul_add, hP, zero_add, odd_nsmul_twoTorsion hr, neg_eq_zero] at hQ
    exact absurd hQ twoTorsion_ne_zero

end Point

end Curve

end TwistedEdwards
