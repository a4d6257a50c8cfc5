import CryptoPrimitives.Framework.Codes
import CryptoPrimitives.Sponge.AbsorbTypes

/-!
# Unambiguous types

`Absorb` writes a list as its entries, one after another, and an option with a tag in front. A `Coding` writes values
so, and may frame some lists, as `[u8]` is when it is turned into field elements.

* `Coding.Lawful.injective_iff`: values are determined by what they are written as exactly for the `unambiguous` types,
  where all that is in them fits.
-/

namespace CryptoPrimitives.Sponge

namespace AbsorbType

variable (framed : AbsorbType → Bool)

/-- Where a value ends can be told from what it is turned into: a list has to be `framed`. -/
def delimited : AbsorbType → Bool
  | slice A | vec A => framed A
  | option A | ref A => A.delimited
  | _ => true

/-- No two values are turned into the same. -/
def unambiguous : AbsorbType → Bool
  | slice A | vec A => framed A || A.delimited framed
  | option A | ref A => A.unambiguous
  | _ => true

/-- Not a type of other types. -/
def isLeaf : AbsorbType → Bool
  | slice _ | vec _ | option _ | ref _ => false
  | _ => true

/-- All types in it that are no types of types have the property. -/
def ForallLeaves (P : AbsorbType → Prop) : AbsorbType → Prop
  | slice A | vec A | option A | ref A => A.ForallLeaves P
  | A => P A

end AbsorbType

/-- A way to write the values of each type, as a relation, and what it depends on: the lists that are framed, and the
types, not of other types, of which the values fit. -/
structure Coding (β : Type) where
  code (A : AbsorbType) : A.Value → List β → Prop
  zero : β
  one : β
  framed : AbsorbType → Bool
  covers : AbsorbType → Prop
  fits : AbsorbType → Prop

namespace Coding

variable {β : Type}

/-- Options have a tag, lists are written one value after another unless they are framed, and the values of the other
types, which have a zero, are delimited exactly when they fit. -/
structure Lawful (C : Coding β) : Prop where
  zero_ne_one : C.zero ≠ C.one
  code_slice {A : AbsorbType} : A.ForallLeaves C.covers → C.framed A = false →
    C.code (.slice A) = Code.list (C.code A)
  code_vec (A : AbsorbType) : C.code (.vec A) = C.code (.slice A)
  code_option (A : AbsorbType) : C.code (.option A) = Code.option C.zero C.one (C.code A)
  code_ref (A : AbsorbType) : C.code (.ref A) = C.code A
  leaf_delimited {A : AbsorbType} : A.isLeaf = true → C.covers A → C.fits A → Code.Delimited (C.code A)
  leaf_fits {A : AbsorbType} : A.isLeaf = true → C.covers A → Code.Injective (C.code A) → C.fits A
  leaf_zeros {A : AbsorbType} : A.isLeaf = true → C.covers A →
    ∃ x n, C.code A x (List.replicate n C.zero)
  framed_delimited {A : AbsorbType} : C.framed A = true → Code.Delimited (C.code (.slice A))
  framed_zeros {A : AbsorbType} : C.framed A = true → ∃ x n, C.code (.slice A) x (List.replicate n C.zero)
  framed_fits {A : AbsorbType} : C.framed A = true → A.ForallLeaves C.fits

namespace Lawful

variable {C : Coding β} (h : C.Lawful) {A : AbsorbType}
include h

theorem exists_zeros_slice (hA : A.ForallLeaves C.covers) (hzeros : ∃ x n, C.code A x (List.replicate n C.zero)) :
    ∃ x n, C.code (.slice A) x (List.replicate n C.zero) := by
  cases hframed : C.framed A with
  | false =>
    obtain ⟨x, n, hx⟩ := hzeros
    rw [h.code_slice hA hframed]
    exact ⟨[x], n, Code.list_singleton.mpr hx⟩
  | true => exact h.framed_zeros hframed

theorem exists_zeros (hA : A.ForallLeaves C.covers) : ∃ x n, C.code A x (List.replicate n C.zero) := by
  induction A with
  | slice A ih => exact h.exists_zeros_slice hA (ih hA)
  | vec A ih =>
    rw [h.code_vec]
    exact h.exists_zeros_slice hA (ih hA)
  | option A ih =>
    rw [h.code_option]
    exact ⟨none, 1, rfl⟩
  | ref A ih =>
    rw [h.code_ref]
    exact ih hA
  | _ => exact h.leaf_zeros rfl hA

/-- Types whose values end where it can be told. -/
theorem delimited (hA : A.ForallLeaves C.covers) (hfits : A.ForallLeaves C.fits)
    (hdelim : A.delimited C.framed = true) : Code.Delimited (C.code A) := by
  induction A with
  | slice A ih => exact h.framed_delimited hdelim
  | vec A ih =>
    rw [h.code_vec]
    exact h.framed_delimited hdelim
  | option A ih =>
    rw [h.code_option]
    exact (ih hA hfits hdelim).option h.zero_ne_one
  | ref A ih =>
    rw [h.code_ref]
    exact ih hA hfits hdelim
  | _ => exact h.leaf_delimited rfl hA hfits

theorem overruns_slice (hA : A.ForallLeaves C.covers) (hframed : C.framed A = false) :
    Code.Overruns C.zero (C.code (.slice A)) := by
  obtain ⟨x, n, hx⟩ := h.exists_zeros hA
  rw [h.code_slice hA hframed]
  exact Code.overruns_list hx

/-- The other types have a list that is not framed at their end, and zeros behind it may be in it or not. -/
theorem overruns (hA : A.ForallLeaves C.covers) (hdelim : A.delimited C.framed = false) :
    Code.Overruns C.zero (C.code A) := by
  induction A with
  | slice A ih => exact h.overruns_slice hA hdelim
  | vec A ih =>
    rw [h.code_vec]
    exact h.overruns_slice hA hdelim
  | option A ih =>
    rw [h.code_option]
    exact (ih hA hdelim).option
  | ref A ih =>
    rw [h.code_ref]
    exact ih hA hdelim
  | _ => cases hdelim

theorem not_injective_list (hA : A.ForallLeaves C.covers) (hdelim : A.delimited C.framed = false) :
    ¬ Code.Injective (Code.list (C.code A)) := by
  have hnil {A : AbsorbType} (hA : A.ForallLeaves C.covers) (hframed : C.framed A = false) :
      C.code (.slice A) [] [] := by
    rw [h.code_slice hA hframed]
    exact Code.list_nil.mpr rfl
  induction A with
  | slice A ih => exact Code.not_injective_list_of_nil (hnil hA hdelim)
  | vec A ih =>
    rw [h.code_vec]
    exact Code.not_injective_list_of_nil (hnil hA hdelim)
  | option A ih =>
    have hover : Code.Overruns C.zero (C.code A) := h.overruns hA hdelim
    have hover' : Code.Overruns C.zero (Code.option C.zero C.one (C.code A)) := hover.option
    rw [h.code_option]
    exact hover'.not_injective_list (z := none) rfl
  | ref A ih =>
    rw [h.code_ref]
    exact ih hA hdelim
  | _ => cases hdelim

theorem injective_slice_iff (hA : A.ForallLeaves C.covers)
    (ih : Code.Injective (C.code A) → A.ForallLeaves C.fits) : Code.Injective (C.code (.slice A)) ↔
      (C.framed A || A.delimited C.framed) = true ∧ A.ForallLeaves C.fits := by
  cases hframed : C.framed A with
  | true =>
    rw [Bool.true_or]
    exact ⟨fun _ => ⟨rfl, h.framed_fits hframed⟩, fun _ => (h.framed_delimited hframed).injective⟩
  | false =>
    rw [Bool.false_or, h.code_slice hA hframed]
    refine ⟨fun hinj => ⟨?_, ih hinj.of_list⟩, fun hboth => (h.delimited hA hboth.2 hboth.1).list_injective⟩
    exact Bool.not_eq_false _ ▸ fun hdelim => h.not_injective_list hA hdelim hinj

/-- A value is determined by what it is turned into exactly when its type is unambiguous and all that is in it fits. -/
theorem injective_iff (hA : A.ForallLeaves C.covers) :
    Code.Injective (C.code A) ↔ A.unambiguous C.framed = true ∧ A.ForallLeaves C.fits := by
  induction A with
  | slice A ih => exact h.injective_slice_iff hA fun hinj => ((ih hA).mp hinj).2
  | vec A ih =>
    rw [h.code_vec]
    exact h.injective_slice_iff hA fun hinj => ((ih hA).mp hinj).2
  | option A ih =>
    rw [h.code_option]
    exact ⟨fun hinj => (ih hA).mp hinj.of_option, fun hboth => ((ih hA).mpr hboth).option h.zero_ne_one⟩
  | ref A ih =>
    rw [h.code_ref]
    exact ih hA
  | _ =>
    exact ⟨fun hinj => ⟨rfl, h.leaf_fits rfl hA hinj⟩, fun hboth => (h.leaf_delimited rfl hA hboth.2).injective⟩

end Lawful

end Coding

end CryptoPrimitives.Sponge
