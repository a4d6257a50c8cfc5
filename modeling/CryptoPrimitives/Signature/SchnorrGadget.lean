import CryptoPrimitives.Gadget.Uint
import CryptoPrimitives.Signature.Schnorr

/-!
# Randomizing a public key in a circuit

`signature/schnorr/constraints.rs`, over variables `GC` with the operations of a group.
The native code takes the bits of each byte from the most significant one on, the gadget
from the least significant one on: `randomizeAgrees_iff` says for which randomness they
lead to the same key.
-/

namespace CryptoPrimitives.Schnorr

open Digits (ofBits)
open Synthesis (Computes)

/-- The operations of `CurveVar` that the gadget uses. -/
class GroupVar (C : outParam Type) (GC : Type) extends Add GC where
  /-- The value assigned to a variable. -/
  value : GC → C
  scalarMulLe : GC → List Boolean → Gadget GC

/-- The operations compute what they name. -/
class LawfulGroupVar (C : outParam Type) (GC : Type) [AddCommGroup C] [GroupVar C GC] : Prop where
  value_add (v w : GC) : GroupVar.value (v + w) = GroupVar.value v + GroupVar.value w
  scalarMulLe_computes (v : GC) (bits : List Boolean) : Computes (GroupVar.scalarMulLe v bits) fun w =>
    GroupVar.value w = ofBits (bits.map Boolean.value) • GroupVar.value v

instance {C : Type} [AddCommGroup C] : GroupVar C (Assigned C) where
  add := .map₂ (· + ·)
  value := Assigned.value
  scalarMulLe v bits := pure (v.map (ofBits (bits.map Boolean.value) • ·))

instance {C : Type} [AddCommGroup C] : LawfulGroupVar C (Assigned C) where
  value_add := Assigned.value_map₂ (· + ·)
  scalarMulLe_computes v bits := .pure (Assigned.value_map (ofBits (bits.map Boolean.value) • ·) v)

/-- `SchnorrRandomizePkGadget::randomize`. -/
def SchnorrRandomizePkGadget.randomize {C GC B : Type} [GroupVar C GC] [UInt8Var B] [UInt8BitsVar B]
    (generator publicKey : GC) (randomness : List B) : Gadget GC := do
  let bits ← randomness.mapM UInt8BitsVar.toBitsLe
  let multiple ← GroupVar.scalarMulLe generator bits.flatten
  pure (publicKey + multiple)

/-- `u8::reverse_bits`. -/
def reverseBits (byte : UInt8) : UInt8 := UInt8.ofNat (ofBits (byteBits byte).reverse)

/-! ## The bits of bytes -/

theorem bytesToBits_eq (bytes : List UInt8) :
    bytesToBits bytes = (bytes.map fun byte => (byteBits byte).reverse).flatten := by
  rw [bytesToBits, List.flatMap]
  congr 1
  refine List.map_congr_left fun byte _ => ?_
  rw [byteBits, ← List.map_reverse, List.range_eq_range', List.reverse_range', List.map_map,
    List.range_eq_range']
  refine List.map_congr_left fun i hi => ?_
  have := List.mem_range'_1.mp hi
  rw [Function.comp_apply, shiftRight_and_one byte (by omega), Nat.zero_add, Nat.sub_right_comm]

theorem toNat_reverseBits (byte : UInt8) : (reverseBits byte).toNat = ofBits (byteBits byte).reverse := by
  have hlt := Digits.ofBits_lt (byteBits byte).reverse
  rw [List.length_reverse, length_byteBits] at hlt
  rw [reverseBits, UInt8.toNat_ofNat', Nat.mod_eq_of_lt hlt]

/-- The native code reads each byte reversed. -/
theorem randomizer_eq (randomness : List UInt8) : randomizer randomness = leNumber (randomness.map reverseBits) := by
  rw [randomizer, bytesToBits_eq, ofBits_flatten _ fun byte => by rw [List.length_reverse, length_byteBits],
    leNumber, List.map_map]
  exact congrArg _ (List.map_congr_left fun byte _ => (toNat_reverseBits byte).symm)

/-! ## The gadget -/

section

variable {C GC B : Type} [AddCommGroup C] [GroupVar C GC] [UInt8Var B] [UInt8BitsVar B]

/-- On these variables the gadget computes what `randomize_public_key` computes on their
values. -/
def RandomizeAgrees (salt : List UInt8) (generator publicKey : GC) (randomness : List B) : Prop :=
  ∃ pk', randomizePublicKey ⟨GroupVar.value generator, salt⟩ (GroupVar.value publicKey)
      (randomness.map UInt8Var.value) = .ok pk' ∧
    Computes (SchnorrRandomizePkGadget.randomize generator publicKey randomness) fun v => GroupVar.value v = pk'

variable [LawfulGroupVar C GC] [LawfulUInt8BitsVar B]

theorem randomize_computes (generator publicKey : GC) (randomness : List B) :
    Computes (SchnorrRandomizePkGadget.randomize generator publicKey randomness) fun v =>
      GroupVar.value v = GroupVar.value publicKey +
        leNumber (randomness.map UInt8Var.value) • GroupVar.value generator := by
  refine (Computes.mapM_map fun byte _ => LawfulUInt8BitsVar.toBitsLe_computes byte).bind fun bits hbits => ?_
  refine (LawfulGroupVar.scalarMulLe_computes generator bits.flatten).bind fun multiple hmultiple => .pure ?_
  have hvalues : bits.flatten.map Boolean.value = ((randomness.map UInt8Var.value).map byteBits).flatten := by
    rw [List.map_flatten, hbits, List.map_map]
    rfl
  rw [LawfulGroupVar.value_add, hmultiple, hvalues, ofBits_flatten_byteBits]

theorem RandomizeAgrees.modEq {salt : List UInt8} {generator publicKey : GC} {randomness : List B}
    (h : RandomizeAgrees salt generator publicKey randomness) :
    leNumber ((randomness.map UInt8Var.value).map reverseBits) ≡ leNumber (randomness.map UInt8Var.value)
      [MOD addOrderOf (GroupVar.value generator)] := by
  obtain ⟨pk', hpk', h⟩ := h
  obtain ⟨v, hv, hv'⟩ := h.exists_and (randomize_computes generator publicKey randomness)
  rw [randomizePublicKey_eq, Except.ok.injEq] at hpk'
  rw [← hpk', hv', add_comm] at hv
  rw [← nsmul_eq_nsmul_iff_modEq, ← randomizer_eq]
  exact (add_right_cancel hv).symm

/-- They agree exactly when the randomness stands for the same multiple of the generator
with the bits of each byte reversed. -/
theorem randomizeAgrees_iff (salt : List UInt8) (generator publicKey : GC) (randomness : List B) :
    RandomizeAgrees salt generator publicKey randomness ↔
      leNumber ((randomness.map UInt8Var.value).map reverseBits) ≡ leNumber (randomness.map UInt8Var.value)
        [MOD addOrderOf (GroupVar.value generator)] := by
  refine ⟨RandomizeAgrees.modEq, fun h => ?_⟩
  rw [← nsmul_eq_nsmul_iff_modEq, ← randomizer_eq] at h
  exact ⟨_, randomizePublicKey_eq _ _ _, (randomize_computes generator publicKey randomness).mono fun v hv => by
    rw [hv, ← h, add_comm]⟩

end

theorem randomizeAgrees_palindrome : RandomizeAgrees [] (Assigned.constant (1 : ZMod 7)) (.var 3)
    [Assigned.var (129 : UInt8), .var 24] :=
  (randomizeAgrees_iff [] _ _ _).mpr (congrArg (· % addOrderOf (1 : ZMod 7)) (by decide))

/-- The one byte 1 stands for 128 times the generator in the native code. -/
theorem not_randomizeAgrees_one :
    ¬RandomizeAgrees [] (Assigned.constant (1 : ZMod 7)) (.var 3) [Assigned.var (1 : UInt8)] := fun h => by
  have hmod := h.modEq
  rw [show GroupVar.value (Assigned.constant (1 : ZMod 7)) = 1 from rfl, ZMod.addOrderOf_one] at hmod
  exact absurd hmod (by decide)

end CryptoPrimitives.Schnorr
