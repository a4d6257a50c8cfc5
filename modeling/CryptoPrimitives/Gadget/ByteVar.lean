import CryptoPrimitives.Gadget.BooleanVar

/-!
# What the gadgets use of `UInt8<F>` in a constraint system

`CircuitFpVarBytes`: the bytes of an element in a circuit, which `ark-r1cs-std` makes of its canonical bits. `ByteVar`: a
byte by its bits, as the linear combinations have them.
-/

namespace CryptoPrimitives

open Circuit (Builds Fixed)
open CircuitFpVar (eval)
open Digits (ofBits)
open PrimeField (bigIntBytes modulusBitSize)

/-- `UInt8<F>`. -/
class CircuitUInt8 (p : outParam Nat) (B : Type) where
  /-- The value of a byte under an assignment. -/
  value : (Nat → ZMod p) → B → UInt8

/-- `FpVar::to_bytes_le`. -/
class CircuitFpVarBytes (p : outParam Nat) (B : outParam Type) (V : Type) [CircuitFpVar p V] where
  toBytesLe : V → CircuitGadget p (List B)

/-- Under every assignment that satisfies the constraints the bytes are those of the limbs of the element. -/
class LawfulCircuitFpVarBytes (p : outParam Nat) (B : outParam Type) (V : Type) [CircuitFpVar p V] [CircuitUInt8 p B]
    [CircuitFpVarBytes p B V] : Prop where
  toBytesLe_builds {w : List (ZMod p)} {v : V} (hv : Fixed w fun ρ => eval ρ v) :
    Builds w (CircuitFpVarBytes.toBytesLe v) (fun _ _ => True) fun ρ bytes =>
      bytes.map (CircuitUInt8.value ρ) = PrimeField.toBytesLe (eval ρ v)

/-- A byte by its bits, the least significant one first. -/
structure ByteVar (V : Type) where
  bits : List (BooleanVar V)

variable {p : Nat}

instance {V : Type} [CircuitFpVar p V] : CircuitUInt8 p (ByteVar V) where
  value ρ byte := UInt8.ofNat (ofBits (byte.bits.map (BooleanVar.value ρ)))

theorem BooleanVar.isBit_of_elementBitsLe [Fact p.Prime] {V : Type} [CircuitFpVar p V] {ρ : Nat → ZMod p}
    {bits : List (BooleanVar V)} {x : ZMod p} (h : bits.map (lc ρ) = elementBitsLe x) :
    (∀ bit ∈ bits, bit.IsBit ρ) ∧ bits.map (value ρ) = (List.range (modulusBitSize p)).map x.val.testBit := by
  refine isBit_of_map_lc_eq (h.trans ?_)
  rw [List.map_map]
  rfl

namespace LinearVar

/-- The bits of a variable, filled up with zeros to those of its limbs, eight for each byte. -/
def toBytesLe (v : LinearVar p) : CircuitGadget p (List (ByteVar (LinearVar p))) := do
  let bits ← v.toBitsLe
  let filled := bits ++ List.replicate (8 * bigIntBytes p - bits.length) (.constant false)
  pure ((List.range (bigIntBytes p)).map fun i => ⟨(filled.drop (8 * i)).take 8⟩)

instance : CircuitFpVarBytes p (ByteVar (LinearVar p)) (LinearVar p) := ⟨toBytesLe⟩

theorem toBytesLe_builds [hp : Fact p.Prime] {w : List (ZMod p)} {v : LinearVar p} (hv : Fixed w fun ρ => v.eval ρ) :
    Builds w v.toBytesLe (fun _ _ => True) fun ρ bytes =>
      bytes.map (CircuitUInt8.value ρ) = PrimeField.toBytesLe (v.eval ρ) := by
  have : NeZero p := ⟨hp.out.ne_zero⟩
  unfold toBytesLe
  refine (toBitsLe_builds hv).bind fun bits w' _ _ _ => .pure trivial fun ρ hlc => ?_
  have hbits := congrArg ofBits (BooleanVar.isBit_of_elementBitsLe hlc).2
  rw [Digits.ofBits_testBit, Nat.mod_eq_of_lt (PrimeField.val_lt_two_pow _)] at hbits
  rw [List.map_map]
  refine List.map_congr_left fun i _ => ?_
  show UInt8.ofNat (ofBits (List.map (BooleanVar.value ρ) _)) = UInt8.ofNat ((v.eval ρ).val / 256 ^ i)
  rw [List.map_take, List.map_drop, List.map_append, List.map_replicate, Digits.ofBits_take, Digits.ofBits_drop,
    Digits.ofBits_append, hbits, BooleanVar.value, Digits.ofBits_replicate_false, Nat.mul_zero, Nat.add_zero, pow_mul]
  exact UInt8.ofNat_mod_size

instance [Fact p.Prime] : LawfulCircuitFpVarBytes p (ByteVar (LinearVar p)) (LinearVar p) := ⟨toBytesLe_builds⟩

end LinearVar

end CryptoPrimitives
