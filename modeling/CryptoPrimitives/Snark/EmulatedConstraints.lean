import CryptoPrimitives.Gadget.CircuitInputs
import CryptoPrimitives.Snark.EmulatedInput
import CryptoPrimitives.Sponge.EmulatedConstraints

/-!
# Inputs of another field, with their constraints

`new_input` of `BooleanInputVar` and of `EmulatedFieldInputVar` of `snark/constraints.rs`,
in a constraint system.

* `BooleanInputVar.newInput_records`: the bits are those of the elements that are packed into
  the inputs.
* `exists_limbSlices`: the slices of the limbs are all the bits, one after the other.
* `EmulatedFieldInputVar.newInput_representsBits`: the limbs of each element are the numbers
  of the slices of its bits.
-/

namespace CryptoPrimitives.Snark.InCircuit

open Circuit (Builds Extends Fixed Satisfies satisfies_append)
open CircuitFpVar (eval)
open Digits (ofBits limb)
open InstanceCircuit (Records records_liftM_bind)
open PrimeField (modulusBitSize fromBitsBe fromBigint)
open Sponge (EmulatedFp EmulatedFpVar AllocatedEmulatedFpVar limbsOf prime_65537 prime_131071)

variable {p q : Nat} {V : Type} [CircuitFpVar p V]

/-- `BooleanInputVar::new_input`. -/
def BooleanInputVar.newInput [CircuitFpVarBits p V] (src : List (ZMod q)) :
    InstanceCircuit p V (List (List (BooleanVar V))) := do
  let srcBooleans ← (chunks (capacity p q) (srcBits src)).mapM fun chunk => do
    let elem ← liftM (unwrapOption (fromBigint p (fromBitsBe p chunk)) : Outcome (ZMod p))
    let elemGadget : V ← InstanceCircuit.newInput elem
    let booleans ← liftM (CircuitFpVarBits.toBitsLe elemGadget : CircuitGadget p (List (BooleanVar V)))
    pure (booleans.take chunk.length).reverse
  pure ((chunks (modulusBitSize q) srcBooleans.flatten).map List.reverse)

/-- The bits of limb `j`, among bits of which the most significant ones come first. -/
def limbSlice {α : Type} (bitPerTopLimb bitPerNonTopLimb : Nat) (fieldBits : List α) (j : Nat) : Outcome (List α) :=
  if j = 0 then slice fieldBits 0 bitPerTopLimb
  else slice fieldBits (bitPerTopLimb + (j - 1) * bitPerNonTopLimb) (bitPerTopLimb + j * bitPerNonTopLimb)

/-- `bit_sum` after the loop. -/
def bitSum [CircuitConstant p V] (bitsSlice : List (BooleanVar V)) : V :=
  (bitsSlice.reverse.foldl (fun acc bit => (acc.1 + CircuitFpVar.mulConstant bit.toFpVar acc.2, acc.2 + acc.2))
    ((0, 1) : V × ZMod p)).1

/-- Step 3 of `new_input`, on one element and its bits. -/
def checkConsistency [CircuitConstant p V] (E : EmulatedFp p q) (fieldBits : List (BooleanVar V))
    (fieldElem : AllocatedEmulatedFpVar p V) : CircuitGadget p Unit := do
  let fieldBits := fieldBits.reverse
  let lowLimbs ← liftM (usizeSub E.numLimbs 1 : Outcome Nat)
  let bitPerTopLimb ← liftM (usizeSub (modulusBitSize q) (lowLimbs * E.bitsPerLimb) : Outcome Nat)
  fieldElem.limbs.zipIdx.forM fun entry => do
    let bitsSlice ← liftM (limbSlice bitPerTopLimb E.bitsPerLimb fieldBits entry.2)
    CircuitFpVar.enforceEqual entry.1 (bitSum bitsSlice)

/-- Steps 2 and 3 of `new_input`, with `AllocatedEmulatedFpVar::new_witness`. -/
def checkedElements [CircuitConstant p V] (E : EmulatedFp p q)
    (newWitness : ZMod q → CircuitGadget p (AllocatedEmulatedFpVar p V)) (src : List (ZMod q))
    (booleanAllocation : List (List (BooleanVar V))) : CircuitGadget p (List (AllocatedEmulatedFpVar p V)) := do
  let fieldAllocation ← src.mapM fun elem => do
    let elemAllocated ← newWitness elem
    pure { elemAllocated with isInTheNormalForm := true, numOfAdditionsOverNormalForm := 0 }
  (booleanAllocation.zip fieldAllocation).forM fun entry => checkConsistency E entry.1 entry.2
  pure fieldAllocation

/-- `EmulatedFieldInputVar::new_input`. -/
def EmulatedFieldInputVar.newInput [CircuitFpVarBits p V] [CircuitConstant p V] (E : EmulatedFp p q)
    (newWitness : ZMod q → CircuitGadget p (AllocatedEmulatedFpVar p V)) (src : List (ZMod q)) :
    InstanceCircuit p V (List (EmulatedFpVar p q V)) := do
  let booleanAllocation ← BooleanInputVar.newInput src
  let fieldAllocation ← liftM (checkedElements E newWitness src booleanAllocation)
  pure (fieldAllocation.map .var)

/-! ## The bits -/

/-- The low bits of an element, the most significant one first. -/
def lowBits (n : Nat) (x : ZMod p) : List Bool := ((canonicalBits x).take n).reverse

theorem elementBitsLe_eq (x : ZMod p) : elementBitsLe x = (canonicalBits x).map fun b => if b then 1 else 0 := by
  rw [canonicalBits, List.map_map]
  rfl

theorem ofBits_canonicalBits [NeZero p] (x : ZMod p) : ofBits (canonicalBits x) = x.val := by
  rw [← reverse_elementBits, ofBits_elementBits]

section

variable [Fact p.Prime] [Fact q.Prime]

/-- A chunk is the low bits of its element. -/
theorem lowBits_chunkElement {src : List (ZMod q)} {chunk : List Bool}
    (h : chunk ∈ chunks (capacity p q) (srcBits src)) : lowBits chunk.length (chunkElement p chunk) = chunk := by
  have hlen : chunk.reverse.length ≤ modulusBitSize p := by
    rw [List.length_reverse]
    exact (length_le_of_mem_chunks capacity_pos h).trans capacity_le
  rw [lowBits, canonicalBits, val_chunkElement h, ← List.length_reverse, Digits.take_testBit_ofBits _ hlen,
    List.reverse_reverse]

/-- The low bits of the elements that as many elements are packed into are their bits. -/
theorem flatten_lowBits {src src' : List (ZMod q)} {xs : List (ZMod p)} (hlen : src'.length = src.length)
    (h : repackInput p src' = .ok xs) :
    (List.zipWith (fun chunk x => lowBits chunk.length x) (chunks (capacity p q) (srcBits src)) xs).flatten =
      srcBits src' := by
  rw [repackInput_eq, Except.ok.injEq] at h
  have hunits : (srcBits src).map (fun _ => ()) = (srcBits src').map fun _ => () := by
    rw [List.map_const', List.map_const', length_srcBits, length_srcBits, hlen]
  have hlens : (chunks (capacity p q) (srcBits src)).map List.length =
      (chunks (capacity p q) (srcBits src')).map List.length := by
    have hchunks := congrArg (List.map List.length ∘ chunks (capacity p q)) hunits
    simpa only [Function.comp_apply, chunks_map (capacity_pos (q := p) (p := q)), List.map_map, Function.comp_def,
      List.length_map] using hchunks
  calc _ = (List.zipWith lowBits ((chunks (capacity p q) (srcBits src)).map List.length) xs).flatten := by
        rw [List.zipWith_map_left]
    _ = (List.zipWith (fun chunk x => lowBits chunk.length x) (chunks (capacity p q) (srcBits src'))
          ((chunks (capacity p q) (srcBits src')).map (chunkElement p))).flatten := by
        rw [hlens, List.zipWith_map_left, h]
    _ = (chunks (capacity p q) (srcBits src')).flatten := by
        rw [List.zipWith_map_right, List.zipWith_self,
          List.map_congr_left fun chunk hchunk => lowBits_chunkElement hchunk, List.map_id']
    _ = srcBits src' := flatten_chunks capacity_pos _

variable [CircuitFpVarBits p V] [LawfulCircuitFpVarBits p V]

omit [Fact p.Prime] [Fact q.Prime] in
/-- The bits of an input are those of its value. -/
theorem newInput_chunk_records [Fact p.Prime] {chunk : List Bool} {elem : ZMod p}
    (helem : (unwrapOption (fromBigint p (fromBitsBe p chunk)) : Outcome (ZMod p)) = .ok elem) (w : List (ZMod p)) :
    Records w (do
        let elem ← liftM (unwrapOption (fromBigint p (fromBitsBe p chunk)) : Outcome (ZMod p))
        let elemGadget : V ← InstanceCircuit.newInput elem
        let booleans ← liftM (CircuitFpVarBits.toBitsLe elemGadget : CircuitGadget p (List (BooleanVar V)))
        pure (booleans.take chunk.length).reverse : InstanceCircuit p V (List (BooleanVar V)))
      (fun w' _ added => ∃ v, added = [v] ∧ ∀ ρ, Extends w' ρ → eval ρ v = elem)
      fun ρ bits added => ∃ v, added = [v] ∧
        (∀ bit ∈ bits, bit.IsBit ρ) ∧ bits.map (BooleanVar.value ρ) = lowBits chunk.length (eval ρ v) := by
  refine records_liftM_bind helem ?_
  refine (InstanceCircuit.newInput_records w elem).bind ?_
  intro v added w₁ hw₁ hadded _
  obtain ⟨rfl, hv⟩ := hadded
  have hfixed : Fixed w₁ fun ρ => eval ρ v := fun ρ ρ' hρ hρ' => (hv ρ hρ).trans (hv ρ' hρ').symm
  refine .lift_bind (LawfulCircuitFpVarBits.toBitsLe_builds hfixed) fun booleans w₂ hw₂ _ _ => ?_
  refine .pure ⟨v, rfl, fun ρ hρ => hv ρ (hρ.of_prefix hw₂)⟩ fun ρ hbits _ => ⟨v, rfl, ?_⟩
  refine BooleanVar.isBit_of_map_lc_eq ?_
  rw [List.map_reverse, List.map_take, hbits, elementBitsLe_eq, ← List.map_take, ← List.map_reverse, lowBits]

omit [Fact p.Prime] [Fact q.Prime] [CircuitFpVarBits p V] [LawfulCircuitFpVarBits p V] in
/-- The bits of all inputs, one after the other. -/
theorem value_flatten {ρ : Nat → ZMod p} {blocks : List (List Bool)} {ys : List (List (BooleanVar V))} {added : List V}
    (h : List.Forall₂ (fun bits r => (∀ bit ∈ bits, bit.IsBit ρ) ∧
      bits.map (BooleanVar.value ρ) = lowBits r.1.length (eval ρ r.2)) ys (blocks.zip added)) :
    (∀ bit ∈ ys.flatten, bit.IsBit ρ) ∧ ys.flatten.map (BooleanVar.value ρ) =
      (List.zipWith (fun chunk x => lowBits chunk.length x) blocks (added.map (eval ρ))).flatten := by
  obtain ⟨hbits, hlow⟩ := (List.forall₂_and_left _ _).mp h
  refine ⟨fun bit hbit => ?_, ?_⟩
  · obtain ⟨bits, hmem, hbit⟩ := List.mem_flatten.mp hbit
    exact hbits bits hmem bit hbit
  · have hvals : ys.map (List.map (BooleanVar.value ρ)) =
        (blocks.zip added).map fun r => lowBits r.1.length (eval ρ r.2) := by
      rw [map_eq_map_iff_forall₂]
      exact hlow
    rw [List.map_flatten, hvals, List.zip_eq_zipWith, List.map_zipWith, List.zipWith_map_right]

/-- As many bits for each element as the modulus has; the inputs are the elements that
`repack_input` packs, and the bits those of any elements that are packed into the inputs. -/
theorem BooleanInputVar.newInput_records (src : List (ZMod q)) (w : List (ZMod p)) :
    Records w (newInput src : InstanceCircuit p V (List (List (BooleanVar V))))
      (fun w' booleans added => booleans.length = src.length ∧ (∀ bits ∈ booleans, bits.length = modulusBitSize q) ∧
        ∀ ρ, Extends w' ρ → repackInput p src = .ok (added.map (eval ρ)))
      fun ρ booleans added => (∀ bits ∈ booleans, ∀ bit ∈ bits, bit.IsBit ρ) ∧
        ∀ src' : List (ZMod q), src'.length = src.length → repackInput p src' = .ok (added.map (eval ρ)) →
          booleans.map (List.map (BooleanVar.value ρ)) = src'.map canonicalBits := by
  have hsize : 0 < modulusBitSize q := Nat.succ_pos _
  unfold newInput
  refine (Records.mapM (H := fun w' chunk v => ∀ ρ, Extends w' ρ → eval ρ v = chunkElement p chunk)
    (fun _ _ _ _ hw hv ρ hρ => hv ρ (hρ.of_prefix hw))
    fun chunk hchunk w' _ => newInput_chunk_records (fromBigint_chunk hchunk) w').bind fun ys added w₁ hw₁ hadded hys => ?_
  have hvalues (ρ : Nat → ZMod p) (hρ : Extends w₁ ρ) : repackInput p src = .ok (added.map (eval ρ)) := by
    rw [repackInput_eq, Except.ok.injEq, map_eq_map_iff_forall₂]
    exact hadded.imp fun chunk v hv => (hv ρ hρ).symm
  have hlen : ys.flatten.length = modulusBitSize q * src.length := by
    have hhonest := Circuit.extends_getD w₁
    rw [← List.length_map (BooleanVar.value _), (value_flatten (hys _ hhonest)).2,
      flatten_lowBits rfl (hvalues _ hhonest), length_srcBits]
  obtain ⟨hcount, hwidth⟩ := chunks_of_length hsize hlen
  refine .pure ⟨by rw [List.length_map, hcount], ?_, ?_⟩ fun ρ h => ⟨?_, ?_⟩
  · intro bits hbits
    obtain ⟨chunk, hchunk, rfl⟩ := List.mem_map.mp hbits
    rw [List.length_reverse, hwidth chunk hchunk]
  · rwa [List.append_nil]
  · intro bits hbits bit hbit
    obtain ⟨chunk, hchunk, rfl⟩ := List.mem_map.mp hbits
    refine (value_flatten h).1 bit ?_
    rw [← flatten_chunks hsize ys.flatten]
    exact List.mem_flatten.mpr ⟨chunk, hchunk, List.mem_reverse.mp hbit⟩
  · intro src' hsrc' hrepack
    rw [List.append_nil] at hrepack
    calc ((chunks (modulusBitSize q) ys.flatten).map List.reverse).map (List.map (BooleanVar.value ρ))
        = (chunks (modulusBitSize q) (ys.flatten.map (BooleanVar.value ρ))).map List.reverse := by
          rw [chunks_map hsize, List.map_map, List.map_map]
          exact List.map_congr_left fun chunk _ => List.map_reverse
      _ = (src'.map elementBits).map List.reverse := by
          rw [(value_flatten h).2, flatten_lowBits hsrc' hrepack, chunks_srcBits]
      _ = src'.map canonicalBits := by
          rw [List.map_map]
          exact List.map_congr_left fun x _ => reverse_elementBits x

end

/-! ## The slices -/

/-- One slice after the other, the slices are the bits. -/
theorem exists_limbSlices {α : Type} (top w : Nat) (bits : List α) (k : Nat) (h : top + k * w ≤ bits.length) :
    ∃ slices, (List.range (k + 1)).mapM (limbSlice top w bits) = .ok slices ∧
      slices.flatten = bits.take (top + k * w) := by
  induction k with
  | zero =>
    rw [Nat.zero_mul, Nat.add_zero] at h ⊢
    refine ⟨[bits.take top], ?_, List.flatten_singleton⟩
    have hslice : limbSlice top w bits 0 = .ok (bits.take top) := slice_of_le (Nat.zero_le top) h
    simp [hslice]
  | succ k ih =>
    have hstep : (k + 1) * w = k * w + w := Nat.succ_mul k w
    obtain ⟨slices, hslices, hflat⟩ := ih (by omega)
    have hslice : limbSlice top w bits (k + 1) = .ok ((bits.drop (top + k * w)).take w) := by
      rw [limbSlice, if_neg (Nat.succ_ne_zero k), Nat.add_sub_cancel, slice_of_le (by omega) h]
      congr 2
      omega
    refine ⟨slices ++ [(bits.drop (top + k * w)).take w], ?_, ?_⟩
    · rw [List.range_succ, List.mapM_append, hslices, Except.ok_bind]
      simp [hslice]
    · rw [List.flatten_append, hflat, List.flatten_singleton, hstep, ← Nat.add_assoc]
      exact List.take_add.symm

theorem mem_of_limbSlice {α : Type} {top w j : Nat} {bits bitsSlice : List α}
    (h : limbSlice top w bits j = .ok bitsSlice) : ∀ bit ∈ bitsSlice, bit ∈ bits := by
  have hslice (start stop : Nat) (h : (slice bits start stop : Outcome (List α)) = .ok bitsSlice) :
      ∀ bit ∈ bitsSlice, bit ∈ bits := fun bit hbit => by
    obtain ⟨-, rfl⟩ := ite_raise_eq_ok.mp h
    exact List.mem_of_mem_drop (List.mem_of_mem_take hbit)
  rw [limbSlice] at h
  split at h
  · exact hslice _ _ h
  · exact hslice _ _ h

/-! ## The limbs -/

theorem map_eq_map_range_iff {α β : Type} {xs : List α} {f : α → β} {g : Nat → β} :
    xs.map f = (List.range xs.length).map g ↔ ∀ entry ∈ xs.zipIdx, f entry.1 = g entry.2 := by
  have hf : xs.map f = xs.zipIdx.map fun entry => f entry.1 := by
    conv_lhs => rw [← List.zipIdx_map_fst 0 xs, List.map_map]
    rfl
  have hg : (List.range xs.length).map g = xs.zipIdx.map fun entry => g entry.2 := by
    rw [List.range_eq_range', ← List.zipIdx_map_snd 0 xs, List.map_map]
    rfl
  rw [hf, hg, List.map_inj_left]

section

variable {E : EmulatedFp p q}

omit [CircuitFpVar p V] in
/-- `AllocatedEmulatedFpVar::new_witness` allocates the limbs of an element. -/
def AllocatesLimbs (E : EmulatedFp p q) (newWitness : ZMod q → CircuitGadget p (AllocatedEmulatedFpVar p V)) : Prop :=
  ∀ w x, Builds w (newWitness x) (fun w' v => ∀ ρ, Extends w' ρ →
    v.limbs.map (eval ρ) = limbsOf p E.bitsPerLimb E.numLimbs x.val) fun _ _ => True

theorem allocatesLimbs_builds {newWitness : ZMod q → CircuitGadget p (AllocatedEmulatedFpVar p V)}
    (hnew : AllocatesLimbs E newWitness) (src : List (ZMod q)) (w : List (ZMod p)) :
    Builds w (src.mapM fun elem => do
        let elemAllocated ← newWitness elem
        pure ({ elemAllocated with isInTheNormalForm := true, numOfAdditionsOverNormalForm := 0 } :
          AllocatedEmulatedFpVar p V))
      (fun w' vs => List.Forall₂ (fun x v => (v.isInTheNormalForm = true ∧ v.numOfAdditionsOverNormalForm = 0) ∧
        ∀ ρ, Extends w' ρ → v.limbs.map (eval ρ) = limbsOf p E.bitsPerLimb E.numLimbs x.val) src vs)
      fun _ _ => True := by
  refine (Builds.mapM (S := fun _ _ _ => True) ?_ ?_).mono (fun _ _ _ _ h => h) fun _ _ _ => trivial
  · intro w₁ w₂ x v hw h
    exact ⟨h.1, fun ρ hρ => h.2 ρ (hρ.of_prefix hw)⟩
  · intro x _ w' _
    refine (hnew w' x).bind fun v w'' _ hv _ => ?_
    exact .pure ⟨⟨rfl, rfl⟩, hv⟩ fun _ _ => trivial

variable [Fact p.Prime]

/-- The slices of the bits are in their range and each bit is in one of them. Under an
assignment the limbs of the element are the numbers of the slices, and it is the number of
all the bits. -/
def RepresentsBits (E : EmulatedFp p q) (ρ : Nat → ZMod p) (bits : List (BooleanVar V))
    (element : EmulatedFpVar p q V) : Prop :=
  ∃ v slices, element = .var v ∧ v.isInTheNormalForm = true ∧ v.numOfAdditionsOverNormalForm = 0 ∧
    (List.range v.limbs.length).mapM (limbSlice (modulusBitSize q - (E.numLimbs - 1) * E.bitsPerLimb) E.bitsPerLimb
      bits.reverse) = .ok slices ∧
    slices.flatten = bits.reverse ∧
    (v.limbs.map fun limb => (eval ρ limb).val) =
      slices.map (fun bitsSlice => ofBits (bitsSlice.reverse.map (BooleanVar.value ρ))) ∧
    element.integer E ρ = ofBits (bits.map (BooleanVar.value ρ))

/-- An element with the limbs of the number of some bits represents these. -/
theorem representsBits_of_limbs (hE : E.Lawful) (hlow : (E.numLimbs - 1) * E.bitsPerLimb < modulusBitSize q)
    {ρ : Nat → ZMod p} {bits : List (BooleanVar V)} {v : AllocatedEmulatedFpVar p V}
    (hlen : bits.length = modulusBitSize q) (hnormal : v.isInTheNormalForm = true)
    (hadditions : v.numOfAdditionsOverNormalForm = 0)
    (hv : v.limbs.map (eval ρ) = limbsOf p E.bitsPerLimb E.numLimbs (ofBits (bits.map (BooleanVar.value ρ)))) :
    RepresentsBits E ρ bits (.var v : EmulatedFpVar p q V) := by
  have hm := hE.numLimbs_pos
  have hlimbs : v.limbs.length = E.numLimbs := by
    rw [← List.length_map (eval ρ), hv, Sponge.length_limbsOf]
  have hroom : ofBits (bits.map (BooleanVar.value ρ)) < 2 ^ (E.bitsPerLimb * E.numLimbs) := by
    refine (Digits.ofBits_lt _).trans_le (Nat.pow_le_pow_right Nat.two_pos ?_)
    rw [List.length_map, hlen]
    exact hE.modulusBitSize_le
  have hvals : (v.limbs.map fun limb => (eval ρ limb).val) =
      (limbsOf p E.bitsPerLimb E.numLimbs (ofBits (bits.map (BooleanVar.value ρ)))).map ZMod.val := by
    rw [← hv, List.map_map]
    rfl
  obtain ⟨slices, hslices, hflat⟩ := exists_limbSlices (modulusBitSize q - (E.numLimbs - 1) * E.bitsPerLimb) E.bitsPerLimb
    bits.reverse (E.numLimbs - 1) (by rw [List.length_reverse]; omega)
  rw [Nat.sub_add_cancel hm] at hslices
  refine ⟨v, slices, rfl, hnormal, hadditions, hlimbs ▸ hslices, ?_, ?_, ?_⟩
  · rw [hflat]
    exact List.take_of_length_le (by rw [List.length_reverse]; omega)
  · obtain ⟨hcount, hslice⟩ := (Except.mapM_range_eq_ok []).mp hslices
    rw [hvals, limbsOf_eq, List.map_map]
    refine List.ext_getElem (by rw [List.length_map, List.length_map, List.length_range, hcount]) fun j hj _ => ?_
    rw [List.length_map, List.length_range] at hj
    obtain ⟨bitsSlice, hbitsSlice, hvalue⟩ := exists_bitsSlice hlen hlow.le hE.modulusBitSize_le hj
    have heq : slices[j] = bitsSlice := by
      rw [List.getElem_eq_getD []]
      exact Except.ok.inj ((hslice j hj).symm.trans hbitsSlice)
    rw [List.getElem_map, List.getElem_map, List.getElem_range, heq, hvalue]
    exact ZMod.val_natCast_of_lt ((Digits.limb_lt _ _ _).trans_le hE.two_pow_le)
  · show (v.limbs.map fun limb => (eval ρ limb).val).foldl _ 0 = _
    rw [hvals, Sponge.foldl_limbsOf hE.two_pow_le hroom]

variable [LawfulCircuitFpVar p V] [CircuitConstant p V] [LawfulCircuitConstant p V]

theorem eval_bitSum {ρ : Nat → ZMod p} {bits : List (BooleanVar V)} (h : ∀ bit ∈ bits, bit.IsBit ρ) :
    eval ρ (bitSum bits) = (ofBits (bits.reverse.map (BooleanVar.value ρ)) : Nat) := by
  have hfold (bits : List (BooleanVar V)) (h : ∀ bit ∈ bits, bit.IsBit ρ) (sum : V) (cur : ZMod p) :
      eval ρ (bits.foldl (fun acc bit => (acc.1 + CircuitFpVar.mulConstant bit.toFpVar acc.2, acc.2 + acc.2))
        (sum, cur)).1 = eval ρ sum + ofBits (bits.map (BooleanVar.value ρ)) • cur := by
    rw [← DoubleAndAdd.foldl_lsbFirst, List.foldl_map]
    induction bits generalizing sum cur with
    | nil => rfl
    | cons bit bits ih =>
      obtain ⟨hbit, hbits⟩ := List.forall_mem_cons.mp h
      rw [List.foldl_cons, List.foldl_cons, ih hbits, LawfulCircuitFpVar.eval_add, LawfulCircuitFpVar.eval_mulConstant,
        BooleanVar.eval_toFpVar, hbit]
      cases bit.value ρ <;> simp
  rw [bitSum, hfold _ (fun bit hbit => h bit (List.mem_reverse.mp hbit)), LawfulCircuitFpVar.eval_zero, zero_add,
    nsmul_one]

/-- The limbs of an element are the sums of the slices of its bits. -/
theorem checkConsistency_builds (hE : E.Lawful) (hlow : (E.numLimbs - 1) * E.bitsPerLimb < modulusBitSize q)
    {bits : List (BooleanVar V)} {v : AllocatedEmulatedFpVar p V} (hlen : bits.length = modulusBitSize q)
    {w : List (ZMod p)} (hbits : ∀ ρ, Extends w ρ → ∀ bit ∈ bits, bit.IsBit ρ)
    (hv : ∀ ρ, Extends w ρ →
      v.limbs.map (eval ρ) = limbsOf p E.bitsPerLimb E.numLimbs (ofBits (bits.map (BooleanVar.value ρ)))) :
    Builds w (checkConsistency E bits v) (fun _ _ => True) fun ρ _ => (∀ bit ∈ bits, bit.IsBit ρ) →
      v.limbs.map (eval ρ) = limbsOf p E.bitsPerLimb E.numLimbs (ofBits (bits.map (BooleanVar.value ρ))) := by
  have hm := hE.numLimbs_pos
  have hlimbs : v.limbs.length = E.numLimbs := by
    rw [← List.length_map (eval _), hv _ (Circuit.extends_getD w), Sponge.length_limbsOf]
  have hlimbsOf (ρ : Nat → ZMod p) :
      v.limbs.map (eval ρ) = limbsOf p E.bitsPerLimb E.numLimbs (ofBits (bits.map (BooleanVar.value ρ))) ↔
        ∀ entry ∈ v.limbs.zipIdx, eval ρ entry.1 = ((limb E.bitsPerLimb (ofBits (bits.map (BooleanVar.value ρ)))
          (E.numLimbs - 1 - entry.2) : Nat) : ZMod p) := by
    rw [limbsOf_eq]
    conv_lhs => rw [← hlimbs]
    rw [map_eq_map_range_iff, hlimbs]
  unfold checkConsistency
  refine builds_liftM_bind (usizeSub_of_le hm) ?_
  refine builds_liftM_bind (usizeSub_of_le hlow.le) ?_
  refine (Builds.forM (S := fun ρ entry => (∀ bit ∈ bits, bit.IsBit ρ) →
    eval ρ entry.1 = ((limb E.bitsPerLimb (ofBits (bits.map (BooleanVar.value ρ)))
      (E.numLimbs - 1 - entry.2) : Nat) : ZMod p)) ?_).mono (fun _ _ _ _ h => h) ?_
  · intro entry hentry w' hw
    obtain ⟨limbVar, j⟩ := entry
    have hj : j < E.numLimbs := hlimbs ▸ (List.mem_zipIdx' hentry).1
    obtain ⟨bitsSlice, hslice, hvalue⟩ := exists_bitsSlice hlen hlow.le hE.modulusBitSize_le hj
    have hsum (ρ : Nat → ZMod p) (h : ∀ bit ∈ bits, bit.IsBit ρ) : eval ρ (bitSum bitsSlice) =
        ((limb E.bitsPerLimb (ofBits (bits.map (BooleanVar.value ρ))) (E.numLimbs - 1 - j) : Nat) : ZMod p) := by
      rw [eval_bitSum fun bit hbit => h bit (List.mem_reverse.mp (mem_of_limbSlice hslice bit hbit)), hvalue]
    refine builds_liftM_bind hslice ?_
    refine (LawfulCircuitFpVar.enforceEqual_builds fun ρ hρ => ?_).mono (fun _ _ _ _ h => h) fun ρ _ heq h => ?_
    · have hρ' := hρ.of_prefix hw
      rw [hsum ρ (hbits ρ hρ')]
      exact (hlimbsOf ρ).mp (hv ρ hρ') _ hentry
    · rw [heq, hsum ρ h]
  · intro ρ _ h hbit
    exact (hlimbsOf ρ).mpr fun entry hentry => h entry hentry hbit

variable [Fact q.Prime] {newWitness : ZMod q → CircuitGadget p (AllocatedEmulatedFpVar p V)}

/-- The elements that are allocated represent the bits of the same elements. -/
theorem checkedElements_builds (hE : E.Lawful) (hlow : (E.numLimbs - 1) * E.bitsPerLimb < modulusBitSize q)
    (hnew : AllocatesLimbs E newWitness) {src : List (ZMod q)} {booleans : List (List (BooleanVar V))}
    (hcount : booleans.length = src.length) (hwidth : ∀ bits ∈ booleans, bits.length = modulusBitSize q)
    {w : List (ZMod p)} (hbits : ∀ ρ, Extends w ρ → (∀ bits ∈ booleans, ∀ bit ∈ bits, bit.IsBit ρ) ∧
      booleans.map (List.map (BooleanVar.value ρ)) = src.map canonicalBits) :
    Builds w (checkedElements E newWitness src booleans) (fun _ _ => True) fun ρ vs =>
      (∀ bits ∈ booleans, ∀ bit ∈ bits, bit.IsBit ρ) →
        List.Forall₂ (RepresentsBits E ρ) booleans (vs.map .var : List (EmulatedFpVar p q V)) := by
  unfold checkedElements
  refine (allocatesLimbs_builds hnew src w).bind fun vs w₁ hw₁ hvs _ => ?_
  have hlen := hcount.trans hvs.length_eq
  have hentries : ∀ bits v, (bits, v) ∈ booleans.zip vs →
      (v.isInTheNormalForm = true ∧ v.numOfAdditionsOverNormalForm = 0) ∧ ∀ ρ, Extends w₁ ρ → v.limbs.map (eval ρ) =
        limbsOf p E.bitsPerLimb E.numLimbs (ofBits (bits.map (BooleanVar.value ρ))) := by
    intro bits v hentry
    obtain ⟨i, hi, hget⟩ := List.getElem_of_mem hentry
    rw [List.getElem_zip, Prod.mk.injEq] at hget
    obtain ⟨rfl, rfl⟩ := hget
    rw [List.length_zip] at hi
    obtain ⟨hflags, hv⟩ := (List.forall₂_iff_get.mp hvs).2 i (by omega) (by omega)
    refine ⟨hflags, fun ρ hρ => ?_⟩
    have hvalues := (hbits ρ (hρ.of_prefix hw₁)).2
    rw [map_eq_map_iff_forall₂] at hvalues
    have hvalue := (List.forall₂_iff_get.mp hvalues).2 i (by omega) (by omega)
    rw [List.get_eq_getElem] at hvalue
    rw [hvalue, ofBits_canonicalBits]
    exact hv ρ hρ
  refine (Builds.forM (S := fun ρ entry => (∀ bit ∈ entry.1, bit.IsBit ρ) → entry.2.limbs.map (eval ρ) =
    limbsOf p E.bitsPerLimb E.numLimbs (ofBits (entry.1.map (BooleanVar.value ρ)))) ?_).bind fun _ w₂ _ _ _ => ?_
  · intro entry hentry w' hw'
    obtain ⟨bits, v⟩ := entry
    have hmem := (List.of_mem_zip hentry).1
    exact checkConsistency_builds hE hlow (hwidth bits hmem)
      (fun ρ hρ => (hbits ρ (hρ.of_prefix (hw₁.trans hw'))).1 bits hmem)
      fun ρ hρ => (hentries bits v hentry).2 ρ (hρ.of_prefix hw')
  · refine .pure trivial fun ρ hlimbs _ hbit => ?_
    rw [List.forall₂_map_right_iff, List.forall₂_iff_zip]
    refine ⟨hlen, fun {bits v} hentry => ?_⟩
    have hmem := (List.of_mem_zip hentry).1
    obtain ⟨⟨hnormal, hadditions⟩, -⟩ := hentries bits v hentry
    exact representsBits_of_limbs hE hlow (hwidth bits hmem) hnormal hadditions (hlimbs _ hentry (hbit bits hmem))

/-! ## The inputs -/

variable [CircuitFpVarBits p V] [LawfulCircuitFpVarBits p V]

/-- The public inputs of another field, allocated as bits and as elements: the bits and the
elements of one call. The values assigned satisfy the constraints; under every assignment
that satisfies them, each element represents its bits, and where the inputs are those that
elements of the other field are packed into, the integers are these elements. -/
theorem EmulatedFieldInputVar.newInput_representsBits (hE : E.Lawful)
    (hlow : (E.numLimbs - 1) * E.bitsPerLimb < modulusBitSize q) (hnew : AllocatesLimbs E newWitness)
    (src : List (ZMod q)) (w : List (ZMod p)) (constraints : List (Constraint (ZMod p))) (assigned : List V) :
    ∃ booleans elements inputs w₁ w₂ emitted₁ emitted₂,
      ((BooleanInputVar.newInput src).run assigned).run ⟨w, constraints⟩ =
        .ok ((booleans, assigned ++ inputs), ⟨w₁, constraints ++ emitted₁⟩) ∧
      ((EmulatedFieldInputVar.newInput E newWitness src).run assigned).run ⟨w, constraints⟩ =
        .ok ((elements, assigned ++ inputs), ⟨w₂, constraints ++ (emitted₁ ++ emitted₂)⟩) ∧
      booleans.length = src.length ∧
      (∀ ρ, Extends w₂ ρ → Satisfies ρ (emitted₁ ++ emitted₂) ∧ repackInput p src = .ok (inputs.map (eval ρ))) ∧
      ∀ ρ, Satisfies ρ (emitted₁ ++ emitted₂) → List.Forall₂ (RepresentsBits E ρ) booleans elements ∧
        ∀ src' : List (ZMod q), src'.length = src.length → repackInput p src' = .ok (inputs.map (eval ρ)) →
          elements.map (EmulatedFpVar.integer E ρ) = src'.map ZMod.val := by
  obtain ⟨⟨booleans, _⟩, w₁, emitted₁, hrun₁, hw₁, ⟨inputs, rfl, hcount, hwidth, hinputs⟩, hhonest₁, hsound₁⟩ :=
    BooleanInputVar.newInput_records (V := V) src w assigned constraints
  have hbits (ρ : Nat → ZMod p) (h : Satisfies ρ emitted₁) : (∀ bits ∈ booleans, ∀ bit ∈ bits, bit.IsBit ρ) ∧
      ∀ src' : List (ZMod q), src'.length = src.length → repackInput p src' = .ok (inputs.map (eval ρ)) →
        booleans.map (List.map (BooleanVar.value ρ)) = src'.map canonicalBits := by
    obtain ⟨inputs', heq, hbits⟩ := hsound₁ ρ h
    rwa [List.append_cancel_left heq]
  obtain ⟨vs, w₂, emitted₂, hrun₂, hw₂, -, hhonest₂, hsound₂⟩ :=
    checkedElements_builds hE hlow hnew hcount hwidth (fun ρ hρ => ⟨(hbits ρ (hhonest₁ ρ hρ)).1,
      (hbits ρ (hhonest₁ ρ hρ)).2 src rfl (hinputs ρ hρ)⟩) (constraints ++ emitted₁)
  refine ⟨booleans, vs.map .var, inputs, w₁, w₂, emitted₁, emitted₂, hrun₁, ?_, hcount, ?_, ?_⟩
  · unfold newInput
    rw [← List.append_assoc]
    simp [StateT.run_bind, hrun₁, hrun₂]
  · intro ρ hρ
    have hρ₁ := hρ.of_prefix hw₂
    exact ⟨satisfies_append.mpr ⟨hhonest₁ ρ hρ₁, hhonest₂ ρ hρ⟩, hinputs ρ hρ₁⟩
  · intro ρ hρ
    obtain ⟨hρ₁, hρ₂⟩ := satisfies_append.mp hρ
    obtain ⟨hbit, hunpack⟩ := hbits ρ hρ₁
    have hrepresents := hsound₂ ρ hρ₂ hbit
    refine ⟨hrepresents, fun src' hlen hrepack => ?_⟩
    have hintegers : booleans.map (fun bits => ofBits (bits.map (BooleanVar.value ρ))) =
        (vs.map .var).map (EmulatedFpVar.integer E ρ) := by
      rw [map_eq_map_iff_forall₂]
      refine hrepresents.imp fun bits element h => ?_
      obtain ⟨v, slices, -, -, -, -, -, -, hinteger⟩ := h
      exact hinteger.symm
    calc (vs.map .var).map (EmulatedFpVar.integer E ρ)
        = (booleans.map (List.map (BooleanVar.value ρ))).map ofBits := by
          rw [← hintegers, List.map_map]
          rfl
      _ = (src'.map canonicalBits).map ofBits := by rw [hunpack src' hlen hrepack]
      _ = src'.map ZMod.val := by
          rw [List.map_map]
          exact List.map_congr_left fun x _ => ofBits_canonicalBits x

end

/-- The limbs of an element, each of them in its range. -/
def rangeCheckedWitness (E : EmulatedFp p q) (x : ZMod q) : CircuitGadget p (AllocatedEmulatedFpVar p (LinearVar p)) := do
  let limbs ← (limbsOf p E.bitsPerLimb E.numLimbs x.val).mapM LinearVar.newWitness
  Circuit.emit fun ρ => ∀ limb ∈ limbs, (limb.eval ρ).val < 2 ^ E.bitsPerLimb
  pure { limbs, numOfAdditionsOverNormalForm := 1, isInTheNormalForm := false }

theorem rangeCheckedWitness_allocatesLimbs (E : EmulatedFp p q) :
    AllocatesLimbs E (rangeCheckedWitness E) := fun w x => by
  refine (LinearVar.mapM_newWitness_builds w _).bind fun limbs w₁ hw₁ heval _ => ?_
  refine (Circuit.emit_builds fun ρ hρ limb hlimb => ?_).bind fun _ w₂ _ hw₂ _ => .pure ?_ fun _ _ _ => trivial
  · have hmem := List.mem_map_of_mem (f := LinearVar.eval ρ) hlimb
    rw [heval ρ hρ] at hmem
    obtain ⟨k, -, hk⟩ := List.mem_map.mp hmem
    rw [← hk, ZMod.val_natCast]
    exact (Nat.mod_le _ _).trans_lt (Digits.limb_lt _ _ _)
  · subst hw₂
    exact heval

/-- Two elements of a field of 17 bits, from three inputs in a smaller one. -/
theorem EmulatedFieldInputVar.newInput_representsBits_65537 :
    let E : EmulatedFp 65537 131071 := .positional 65537 131071 17 1
    let src : List (ZMod 131071) := [98307, 3]
    repackInput 65537 src = .ok [49153, 32768, 3] ∧
      ∃ (elements : List (EmulatedFpVar 65537 131071 (LinearVar 65537))) (inputs : List (LinearVar 65537))
        (w : List (ZMod 65537)) (emitted : List (Constraint (ZMod 65537))),
        ((EmulatedFieldInputVar.newInput E (rangeCheckedWitness E) src).run []).run ⟨[], []⟩ =
            .ok ((elements, inputs), ⟨w, emitted⟩) ∧
        (∀ ρ, Extends w ρ → Satisfies ρ emitted) ∧
        ∀ ρ, Satisfies ρ emitted → inputs.map (eval ρ) = [49153, 32768, 3] →
          elements.map (EmulatedFpVar.integer E ρ) = [98307, 3] := by
  intro E src
  have hrepack : repackInput 65537 src = .ok [49153, 32768, 3] := by decide +kernel
  have hvals : src.map ZMod.val = [98307, 3] := by decide +kernel
  have hlow : (E.numLimbs - 1) * E.bitsPerLimb < modulusBitSize 131071 := by decide +kernel
  have hroom : modulusBitSize 131071 ≤ 1 * 17 := by decide +kernel
  have hp : Fact (Nat.Prime 65537) := ⟨prime_65537⟩
  have hq : Fact (Nat.Prime 131071) := ⟨prime_131071⟩
  have hE : E.Lawful := EmulatedFp.positional_lawful hroom (by decide)
  obtain ⟨booleans, elements, inputs, w₁, w₂, emitted₁, emitted₂, -, hrun, -, hhonest, hsound⟩ :=
    EmulatedFieldInputVar.newInput_representsBits hE hlow (rangeCheckedWitness_allocatesLimbs E) src [] [] []
  refine ⟨hrepack, elements, inputs, w₂, emitted₁ ++ emitted₂, hrun, fun ρ hρ => (hhonest ρ hρ).1, ?_⟩
  intro ρ hρ hinputs
  rw [(hsound ρ hρ).2 src rfl (by rw [hrepack, hinputs]), hvals]

end CryptoPrimitives.Snark.InCircuit
