import CryptoPrimitives.Gadget.Boolean
import CryptoPrimitives.Rust.PrimeField

/-!
# What the gadgets use of `FpVar<F>`

`FpVar p V`: the type `V` has the operations of the variables over the field of `p`
elements. `LawfulFpVar`: they compute the field and bit operations they name.
-/

namespace CryptoPrimitives

open Synthesis (Computes Mirrors)
open PrimeField (modulusBitSize)

/-- The operations of `FpVar<F>` that the gadgets use. -/
class FpVar (p : outParam Nat) (V : Type) extends Add V, Zero V where
  /-- The value assigned to a variable. -/
  value : V → ZMod p
  /-- `FpVar::Constant`. -/
  constant : ZMod p → V
  /-- `AllocatedFp::new_witness`, as an `FpVar`. -/
  newWitness : ZMod p → Gadget V
  addConstant : V → ZMod p → V
  mulConstant : V → ZMod p → V
  powByConstant : V → Nat → Gadget V
  toBitsLe : V → Gadget (List Boolean)

/-- The operations compute what they name. -/
class LawfulFpVar (p : outParam Nat) (V : Type) [FpVar p V] : Prop where
  value_zero : FpVar.value (0 : V) = 0
  value_constant (x : ZMod p) : FpVar.value (FpVar.constant x : V) = x
  value_add (v w : V) : FpVar.value (v + w) = FpVar.value v + FpVar.value w
  value_addConstant (v : V) (x : ZMod p) : FpVar.value (FpVar.addConstant v x) = FpVar.value v + x
  value_mulConstant (v : V) (x : ZMod p) : FpVar.value (FpVar.mulConstant v x) = FpVar.value v * x
  newWitness_computes (x : ZMod p) : Computes (FpVar.newWitness x : Gadget V) fun v => FpVar.value v = x
  powByConstant_computes (v : V) (n : Nat) :
    Computes (FpVar.powByConstant v n) fun w => FpVar.value w = FpVar.value v ^ n
  toBitsLe_computes (v : V) : Computes (FpVar.toBitsLe v) fun bits =>
    bits.map Boolean.value = (List.range (modulusBitSize p)).map (FpVar.value v).val.testBit

/-- The value of the linear combination `bit.lc()`. -/
def Boolean.lc {p : Nat} (bit : Boolean) : ZMod p := if bit.value then 1 else 0

/-! ## Assigned variables -/

section

variable {p : Nat}

/-- The bits of an assigned element. -/
def Assigned.toBitsLe (v : Assigned (ZMod p)) : List Boolean :=
  (List.range (modulusBitSize p)).map fun i =>
    match v with
    | constant x => .constant (x.val.testBit i)
    | var x => .var (x.val.testBit i)

instance : FpVar p (Assigned (ZMod p)) where
  add := .map₂ (· + ·)
  zero := .constant 0
  value := Assigned.value
  constant := .constant
  newWitness x := pure (.var x)
  addConstant v x := v.map (· + x)
  mulConstant v x := v.map (· * x)
  powByConstant v n := pure (v.map (· ^ n))
  toBitsLe v := pure v.toBitsLe

instance : LawfulFpVar p (Assigned (ZMod p)) where
  value_zero := rfl
  value_constant _ := rfl
  value_add := Assigned.value_map₂ (· + ·)
  value_addConstant v x := Assigned.value_map (· + x) v
  value_mulConstant v x := Assigned.value_map (· * x) v
  newWitness_computes _ := .pure rfl
  powByConstant_computes v n := .pure (Assigned.value_map (· ^ n) v)
  toBitsLe_computes v := .pure (by cases v <;> exact List.map_map)

end

end CryptoPrimitives
