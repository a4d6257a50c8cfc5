import CryptoPrimitives.Gadget.Circuit

/-!
# What the gadgets use of `Boolean<F>` in a constraint system

A boolean of a circuit is a constant, or a variable of which the constraints say that it
is 0 or 1: `IsBit` is what they say under one assignment. `CircuitFpVarBits` are the public
inputs of a circuit and the bits of its elements, which `ark-r1cs-std` constrains to be the
canonical ones.
-/

namespace CryptoPrimitives

open Circuit (Builds Extends Fixed emit)
open CircuitFpVar (eval)
open PrimeField (modulusBitSize)

/-- `Boolean<F>`, over variables of the type `V`. -/
inductive BooleanVar (V : Type) where
  | constant (b : Bool)
  | var (v : V)

namespace BooleanVar

variable {p : Nat} {V : Type} [CircuitFpVar p V]

/-- What `bit.lc()` is under an assignment. -/
def lc (ρ : Nat → ZMod p) : BooleanVar V → ZMod p
  | constant b => if b then 1 else 0
  | var v => eval ρ v

/-- What `bit.value()` is under an assignment. -/
def value (ρ : Nat → ZMod p) : BooleanVar V → Bool
  | constant b => b
  | var v => decide (eval ρ v = 1)

/-- Its linear combination is 0 or 1. -/
def IsBit (ρ : Nat → ZMod p) (bit : BooleanVar V) : Prop := bit.lc ρ = if bit.value ρ then 1 else 0

/-- `FpVar::from`. -/
def toFpVar [CircuitConstant p V] : BooleanVar V → V
  | constant b => CircuitConstant.constant (if b then 1 else 0)
  | var v => v

theorem eval_toFpVar [CircuitConstant p V] [LawfulCircuitConstant p V] (ρ : Nat → ZMod p) (bit : BooleanVar V) :
    eval ρ bit.toFpVar = bit.lc ρ := by
  cases bit with
  | constant b => exact LawfulCircuitConstant.eval_constant ρ _
  | var v => rfl

theorem isBit_of_lc_eq [Fact p.Prime] {ρ : Nat → ZMod p} {bit : BooleanVar V} {b : Bool}
    (h : bit.lc ρ = if b then 1 else 0) : bit.IsBit ρ ∧ bit.value ρ = b := by
  have hvalue : bit.value ρ = b := by
    cases bit with
    | constant c => cases b <;> cases c <;> simp_all [lc, value]
    | var v => cases b <;> simp_all [lc, value]
  exact ⟨by rw [IsBit, hvalue, h], hvalue⟩

theorem isBit_of_map_lc_eq [Fact p.Prime] {ρ : Nat → ZMod p} {bits : List (BooleanVar V)} {bs : List Bool}
    (h : bits.map (lc ρ) = bs.map fun b => if b then 1 else 0) :
    (∀ bit ∈ bits, bit.IsBit ρ) ∧ bits.map (value ρ) = bs := by
  induction bits generalizing bs with
  | nil => exact ⟨List.forall_mem_nil _, (List.map_eq_nil_iff.mp h.symm).symm⟩
  | cons bit bits ih =>
    cases bs with
    | nil => cases h
    | cons b bs =>
      obtain ⟨hhead, htail⟩ := List.cons.inj h
      obtain ⟨hbit, hvalue⟩ := isBit_of_lc_eq hhead
      obtain ⟨hbits, hvalues⟩ := ih htail
      exact ⟨List.forall_mem_cons.mpr ⟨hbit, hbits⟩, by rw [List.map_cons, hvalue, hvalues]⟩

end BooleanVar

/-- `FpVar::new_input` and `to_bits_le`. -/
class CircuitFpVarBits (p : outParam Nat) (V : Type) [CircuitFpVar p V] where
  newInput : ZMod p → CircuitGadget p V
  toBitsLe : V → CircuitGadget p (List (BooleanVar V))

/-- The bits of an element, as elements. -/
def elementBitsLe {p : Nat} (x : ZMod p) : List (ZMod p) :=
  (List.range (modulusBitSize p)).map fun i => if x.val.testBit i then 1 else 0

/-- An input has the value it is given, and under every assignment that satisfies the
constraints the bits are those of the element. -/
class LawfulCircuitFpVarBits (p : outParam Nat) (V : Type) [CircuitFpVar p V] [CircuitFpVarBits p V] : Prop where
  newInput_builds (w : List (ZMod p)) (x : ZMod p) :
    Builds w (CircuitFpVarBits.newInput x : CircuitGadget p V) (fun w' v => ∀ ρ, Extends w' ρ → eval ρ v = x)
      fun _ _ => True
  toBitsLe_builds {w : List (ZMod p)} {v : V} (hv : Fixed w fun ρ => eval ρ v) :
    Builds w (CircuitFpVarBits.toBitsLe v) (fun _ _ => True) fun ρ bits =>
      bits.map (BooleanVar.lc ρ) = elementBitsLe (eval ρ v)

namespace LinearVar

variable {p : Nat}

/-- The bits of a variable are variables of their own, which a constraint ties to it. -/
def toBitsLe : LinearVar p → CircuitGadget p (List (BooleanVar (LinearVar p)))
  | constant x => pure ((List.range (modulusBitSize p)).map fun i => .constant (x.val.testBit i))
  | var offset terms => do
    let bits ← Circuit.assigned fun ρ => elementBitsLe ((var offset terms).eval ρ)
    let vars ← bits.mapM newWitness
    emit fun ρ => vars.map (LinearVar.eval ρ) = elementBitsLe ((var offset terms).eval ρ)
    pure (vars.map .var)

instance : CircuitFpVarBits p (LinearVar p) := ⟨newWitness, toBitsLe⟩

theorem toBitsLe_builds {w : List (ZMod p)} {v : LinearVar p} (hv : Fixed w fun ρ => v.eval ρ) :
    Builds w v.toBitsLe (fun _ _ => True) fun ρ bits => bits.map (BooleanVar.lc ρ) = elementBitsLe (v.eval ρ) := by
  cases v with
  | constant x =>
    refine .pure trivial fun ρ => ?_
    rw [List.map_map]
    rfl
  | var offset terms =>
    refine (Circuit.assigned_builds (hv.map elementBitsLe)).bind fun bits w₁ _ ⟨hw₁, hbits⟩ _ => ?_
    subst hw₁
    refine (mapM_newWitness_builds w₁ bits).bind fun vars w₂ hw₂ hvalues _ => ?_
    refine (Circuit.emit_builds fun ρ hρ => ?_).bind fun _ w₃ _ _ _ => .pure trivial fun ρ hrow _ _ => ?_
    · rw [hbits ρ (hρ.of_prefix hw₂)]
      exact hvalues ρ hρ
    · rw [List.map_map]
      exact hrow

instance : LawfulCircuitFpVarBits p (LinearVar p) where
  newInput_builds w x := (newWitness_builds w x).mono (fun _ _ _ _ h => h.2) fun _ _ _ => trivial
  toBitsLe_builds := toBitsLe_builds

end LinearVar

end CryptoPrimitives
