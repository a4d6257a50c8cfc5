import Mathlib.Algebra.BigOperators.Group.Finset.Basic
import Mathlib.Algebra.Group.Subgroup.Finite
import Mathlib.Algebra.Group.Pi.Basic
import Mathlib.Algebra.Module.Defs

/-!
# Combinations of points

A hash that encodes its input as coefficients, and combines fixed points with them. Where the differences of two
encodings are all coefficients below some bounds (`DifferencesBelow`), the relations of the points with such
coefficients are the collisions of the hash (`relation_iff`). It has none exactly when the points are `Independent`
(`injective_iff`).
-/

namespace Combination

variable {ι α C : Type} [Fintype ι] [AddCommGroup C]

/-- The points `g` with coefficients `x`. -/
def combine (g : ι → C) (x : ι → Int) : C := ∑ i, x i • g i

theorem combine_sub (g : ι → C) (x y : ι → Int) : combine g (x - y) = combine g x - combine g y := by
  simp only [combine, Pi.sub_apply, sub_zsmul, ← sub_eq_add_neg, Finset.sum_sub_distrib]

theorem combine_mem {H : AddSubgroup C} {g : ι → C} (hg : ∀ i, g i ∈ H) (x : ι → Int) : combine g x ∈ H :=
  H.sum_mem fun i _ => H.zsmul_mem (hg i) (x i)

/-- A relation of the points with coefficients below the bounds. -/
structure Relation (g : ι → C) (bound : ι → Nat) (d : ι → Int) : Prop where
  natAbs_lt : ∀ i, (d i).natAbs < bound i
  combine_eq : combine g d = 0

/-- The points have no such relation other than 0. -/
def Independent (g : ι → C) (bound : ι → Nat) : Prop := ∀ d, Relation g bound d → d = 0

/-- The differences of encodings are the coefficients below the bounds. -/
def DifferencesBelow (bound : ι → Nat) (enc : α → ι → Int) : Prop :=
  ∀ d, (∃ a b, enc a - enc b = d) ↔ ∀ i, (d i).natAbs < bound i

variable {bound : ι → Nat} {enc : α → ι → Int}

/-- The relations are the differences of two values with one combination. -/
theorem relation_iff (h : DifferencesBelow bound enc) (g : ι → C) (d : ι → Int) :
    Relation g bound d ↔ ∃ a b, combine g (enc a) = combine g (enc b) ∧ enc a - enc b = d := by
  constructor
  · rintro ⟨hlt, hzero⟩
    obtain ⟨a, b, rfl⟩ := (h d).mpr hlt
    rw [combine_sub, sub_eq_zero] at hzero
    exact ⟨a, b, hzero, rfl⟩
  · rintro ⟨a, b, heq, rfl⟩
    exact ⟨(h _).mp ⟨a, b, rfl⟩, by rw [combine_sub, heq, sub_self]⟩

theorem injective_iff (h : DifferencesBelow bound enc) (hinj : Function.Injective enc) (g : ι → C) :
    (Function.Injective fun a => combine g (enc a)) ↔ Independent g bound := by
  constructor
  · intro hcombine d hd
    obtain ⟨a, b, heq, rfl⟩ := (relation_iff h g d).mp hd
    rw [hcombine heq, sub_self]
  · intro hindep a b heq
    exact hinj (sub_eq_zero.mp (hindep _ ((relation_iff h g _).mpr ⟨a, b, heq, rfl⟩)))

omit [Fintype ι] in
/-- Natural coefficients that may be anything below the bounds. -/
theorem differencesBelow_natCast {enc : α → ι → Nat} (hrange : ∀ x, x ∈ Set.range enc ↔ ∀ i, x i < bound i) :
    DifferencesBelow bound fun a i => (enc a i : Int) := by
  intro d
  constructor
  · rintro ⟨a, b, rfl⟩ i
    have ha := (hrange _).mp ⟨a, rfl⟩ i
    have hb := (hrange _).mp ⟨b, rfl⟩ i
    simp only [Pi.sub_apply]
    omega
  · intro hd
    obtain ⟨a, ha⟩ := (hrange fun i => (d i).toNat).mpr fun i => by have := hd i; omega
    obtain ⟨b, hb⟩ := (hrange fun i => (-d i).toNat).mpr fun i => by have := hd i; omega
    refine ⟨a, b, funext fun i => ?_⟩
    simp only [Pi.sub_apply, ha, hb]
    omega

end Combination
