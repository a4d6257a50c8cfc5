import CryptoPrimitives.Gadget.Instance
import CryptoPrimitives.Snark.Repack

/-!
# Inputs of another field as bits

`BooleanInputVar` of `snark/constraints.rs`, for elements of the field of `q` elements in
a circuit over that of `p`.

* `newInput_repackInput`: the circuit's instance variables are the elements that
  `repack_input` packs, and the bits unpacked from them those of the elements.
* `fromFieldElements_computes`: the bits of the chunks of elements of the circuit's
  field; `fromFieldElements_repackInput`: they stand for the elements that
  `repack_input` packs.
-/

namespace CryptoPrimitives.Snark

open Digits (ofBits)
open InstanceGadget (Allocates)
open PrimeField (modulusBitSize toBitsLe fromBitsBe fromBigint)
open Synthesis (Computes)

variable {p q : Nat} {V : Type} [FpVar p V]

namespace BooleanInputVar

/-- `BooleanInputVar::new_input`. -/
def newInput (V : Type) [FpVar p V] [FpVarAlloc p V] (src : List (ZMod q)) :
    InstanceGadget p (List (List Boolean)) := do
  let srcBooleans ← (chunks (capacity p q) (srcBits src)).mapM fun chunk => do
    let elem ← liftM (unwrapOption (fromBigint p (fromBitsBe p chunk)) : Outcome (ZMod p))
    let elemGadget : V ← InstanceGadget.newInput elem
    let booleans ← liftM (FpVar.toBitsLe elemGadget)
    pure (booleans.take chunk.length).reverse
  pure ((chunks (modulusBitSize q) srcBooleans.flatten).map List.reverse)

/-- `BooleanInputVar::new_variable`. -/
def newVariable (V : Type) [FpVar p V] [FpVarAlloc p V] (src : List (ZMod q)) (mode : AllocationMode) :
    InstanceGadget p (List (List Boolean)) :=
  if mode = .input then newInput V src
  else src.mapM fun elem => ((toBitsLe elem).take (modulusBitSize q)).mapM fun bit =>
    liftM (Boolean.newVariable bit mode)

/-- `BooleanInputVar::from_field_elements`. -/
def fromFieldElements (q : Nat) (src : List V) : Gadget (List (List Boolean)) := do
  let srcBooleans ← src.mapM fun elem => do
    let bits ← FpVar.toBitsLe elem
    pure bits.reverse
  pure ((chunks (capacity q p) srcBooleans.flatten).map List.reverse)

end BooleanInputVar

/-- The bits of an element, the least significant one first. -/
def canonicalBits (x : ZMod q) : List Bool := (List.range (modulusBitSize q)).map x.val.testBit

theorem reverse_elementBits (x : ZMod q) : (elementBits x).reverse = canonicalBits x := by
  rw [elementBits_eq, List.reverse_reverse]
  rfl

namespace BooleanInputVar

section

variable [LawfulFpVar p V]

/-- The bits of the chunks. -/
theorem fromFieldElements_computes [Fact q.Prime] (src : List V) :
    Computes (fromFieldElements q src) fun booleans => booleans.map (List.map Boolean.value) =
      (chunks (capacity q p) (srcBits (src.map FpVar.value))).map List.reverse := by
  have helem (elem : V) : Computes (do
        let bits ← FpVar.toBitsLe elem
        pure bits.reverse)
      fun bits => bits.map Boolean.value = elementBits (FpVar.value elem) :=
    (LawfulFpVar.toBitsLe_computes elem).bind fun bits hbits => .pure (by
      rw [List.map_reverse, hbits, elementBits_eq])
  refine (Computes.mapM_map fun elem _ => helem elem).bind fun srcBooleans hvalues => .pure ?_
  have hflat : srcBooleans.flatten.map Boolean.value = srcBits (src.map FpVar.value) := by
    rw [List.map_flatten, hvalues, srcBits, List.map_map]
    rfl
  rw [← hflat, chunks_map capacity_pos, List.map_map, List.map_map]
  exact List.map_congr_left fun chunk _ => List.map_reverse

/-- The bits read as numbers are the elements that `repack_input` packs, and as many
elements packed into the same ones are the same. -/
theorem fromFieldElements_repackInput [Fact p.Prime] [Fact q.Prime] (src : List V) :
    (∃ dest, repackInput q (src.map FpVar.value) = .ok dest ∧
      Computes (fromFieldElements q src) fun booleans =>
        booleans.map (fun bits => ofBits (bits.map Boolean.value)) = dest.map ZMod.val) ∧
      ∀ xs ys : List (ZMod p), xs.length = ys.length → repackInput q xs = repackInput q ys → xs = ys := by
  refine ⟨⟨_, repackInput_eq _, (fromFieldElements_computes src).mono fun booleans hvalues => ?_⟩,
    fun xs ys => repackInput_inj⟩
  rw [map_val_chunkElement]
  calc booleans.map (fun bits => ofBits (bits.map Boolean.value))
      = (booleans.map (List.map Boolean.value)).map ofBits := by rw [List.map_map]; rfl
    _ = _ := by rw [hvalues, List.map_map]; rfl

/-- The three bits of 6 go into two elements of the field of five elements. -/
theorem fromFieldElements_repackInput_six : repackInput 5 [(6 : ZMod 7)] = .ok [3, 0] ∧
    Computes (fromFieldElements 5 [Assigned.var (6 : ZMod 7)]) fun booleans =>
      booleans.map (fun bits => ofBits (bits.map Boolean.value)) = [3, 0] := by
  have hsix : repackInput 5 [(6 : ZMod 7)] = .ok [3, 0] := by decide +kernel
  have h7 : Fact (Nat.Prime 7) := ⟨by decide⟩
  have h5 : Fact (Nat.Prime 5) := ⟨by decide⟩
  obtain ⟨⟨dest, hdest, h⟩, -⟩ := fromFieldElements_repackInput (q := 5) [Assigned.var (6 : ZMod 7)]
  obtain rfl : [3, 0] = dest := Except.ok.inj (hsix.symm.trans hdest)
  exact ⟨hsix, h⟩

variable [FpVarAlloc p V] [LawfulFpVarAlloc p V] [Fact p.Prime] [Fact q.Prime]

/-- A chunk is allocated as its element, and unpacked again. -/
theorem newInput_chunk {src : List (ZMod q)} {chunk : List Bool} (h : chunk ∈ chunks (capacity p q) (srcBits src)) :
    Allocates (do
        let elem ← liftM (unwrapOption (fromBigint p (fromBitsBe p chunk)) : Outcome (ZMod p))
        let elemGadget : V ← InstanceGadget.newInput elem
        let booleans ← liftM (FpVar.toBitsLe elemGadget)
        pure (booleans.take chunk.length).reverse)
      [chunkElement p chunk] fun booleans => booleans.map Boolean.value = chunk := by
  have hlen : chunk.length ≤ modulusBitSize p := (length_le_of_mem_chunks capacity_pos h).trans capacity_le
  refine .lift_bind (computes_liftM (fromBigint_chunk h) rfl) ?_
  rintro _ rfl
  rw [← List.append_nil [chunkElement p chunk]]
  refine (InstanceGadget.newInput_allocates _).bind fun elemGadget hvalue => ?_
  refine .lift_bind (LawfulFpVar.toBitsLe_computes elemGadget) fun bits hbits => .pure ?_
  have htake : (bits.take chunk.length).map Boolean.value = chunk.reverse := by
    have hreverse : chunk.reverse.length = chunk.length := List.length_reverse
    rw [List.map_take, hbits, hvalue, val_chunkElement h, ← hreverse]
    exact Digits.take_testBit_ofBits _ (hreverse.trans_le hlen)
  rw [List.map_reverse, htake, List.reverse_reverse]

omit [LawfulFpVar p V] [LawfulFpVarAlloc p V] [Fact p.Prime] [Fact q.Prime] in
theorem newVariable_witness_allocates (src : List (ZMod q)) :
    Allocates (newVariable V src .witness) [] fun booleans =>
      booleans.map (List.map Boolean.value) = src.map canonicalBits := by
  have hbits (elem : ZMod q) : Allocates (((toBitsLe elem).take (modulusBitSize q)).mapM fun bit =>
      (liftM (Boolean.newVariable bit .witness) : InstanceGadget p Boolean)) []
      fun booleans => booleans.map Boolean.value = canonicalBits elem := by
    have h : ∀ bits : List Bool, Allocates (bits.mapM fun bit =>
        (liftM (Boolean.newVariable bit .witness) : InstanceGadget p Boolean)) (bits.flatMap fun _ => [])
        fun booleans => booleans.map Boolean.value = bits.map id := fun bits =>
      Allocates.mapM_map fun bit _ => .lift (Boolean.newVariable_computes bit .witness)
    rw [PrimeField.take_toBitsLe elem le_rfl, ← canonicalBits]
    simpa only [List.map_id, List.flatMap_eq_nil_iff.mpr fun _ _ => rfl] using h (canonicalBits elem)
  have h : Allocates (newVariable V src .witness) (src.flatMap fun _ => []) fun booleans =>
      booleans.map (List.map Boolean.value) = src.map canonicalBits :=
    Allocates.mapM_map fun elem _ => hbits elem
  rwa [List.flatMap_eq_nil_iff.mpr fun _ _ => rfl] at h

/-- The instance variables are the elements that `repack_input` packs, and the bits
unpacked from them are the bits of the elements, as in witness mode. -/
theorem newInput_repackInput (src : List (ZMod q)) :
    ∃ dest, repackInput p src = .ok dest ∧
      Allocates (newInput V src) dest (fun booleans =>
        booleans.map (List.map Boolean.value) = src.map canonicalBits) ∧
      Allocates (newVariable V src .witness) [] fun booleans =>
        booleans.map (List.map Boolean.value) = src.map canonicalBits := by
  refine ⟨_, repackInput_eq src, ?_, ?_⟩
  · rw [newInput, List.map_eq_flatMap]
    refine (Allocates.mapM_map (g := id) fun chunk h => newInput_chunk (V := V) h).bind_pure
      fun srcBooleans hvalues => ?_
    have hflat : srcBooleans.flatten.map Boolean.value = srcBits src := by
      rw [List.map_flatten, hvalues, List.map_id, flatten_chunks capacity_pos]
    have hchunks := congrArg (List.map List.reverse) (chunks_srcBits src)
    rw [← hflat, chunks_map (show 0 < modulusBitSize q from Nat.succ_pos _), List.map_map, List.map_map] at hchunks
    rw [List.map_map]
    calc _ = _ := List.map_congr_left fun chunk _ => List.map_reverse
      _ = _ := hchunks
      _ = src.map canonicalBits := List.map_congr_left fun x _ => reverse_elementBits x
  · exact newVariable_witness_allocates src

end

/-- Two elements of three bits each are three instance variables. -/
theorem newInput_repackInput_small : repackInput 5 [(6 : ZMod 7), 1] = .ok [3, 0, 1] ∧
    Allocates (newInput (Assigned (ZMod 5)) [(6 : ZMod 7), 1]) [3, 0, 1] fun booleans =>
      booleans.map (List.map Boolean.value) = [[false, true, true], [true, false, false]] := by
  have hsmall : repackInput 5 [(6 : ZMod 7), 1] = .ok [3, 0, 1] := by decide +kernel
  have hbits : [(6 : ZMod 7), 1].map canonicalBits = [[false, true, true], [true, false, false]] := by
    decide +kernel
  have h7 : Fact (Nat.Prime 7) := ⟨by decide⟩
  have h5 : Fact (Nat.Prime 5) := ⟨by decide⟩
  obtain ⟨dest, hdest, h, -⟩ := newInput_repackInput (V := Assigned (ZMod 5)) [(6 : ZMod 7), 1]
  obtain rfl : [3, 0, 1] = dest := Except.ok.inj (hsmall.symm.trans hdest)
  rw [hbits] at h
  exact ⟨hsmall, h⟩

end BooleanInputVar

end CryptoPrimitives.Snark
