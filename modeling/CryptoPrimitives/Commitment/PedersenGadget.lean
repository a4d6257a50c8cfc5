import CryptoPrimitives.Commitment.Pedersen
import CryptoPrimitives.Crh.PedersenGadget

/-!
# The gadget of the Pedersen commitment

`commitment/pedersen/constraints.rs`. The native code takes the bits of the randomness from its limbs, the gadget from
the bytes that it is serialized to; both stop at the last power of the generator.

* `CommGadget.commit_eq`: the gadget of the hash, and the multiple for the randomness.
* `commit_computes`: it has the value of the commitment.
* `commit_homomorphic`: that, and how commitments to one input add up, for the parameters of a setup.
-/

namespace CryptoPrimitives.PedersenCommitment

open Pedersen (Window MultiscalarVar LawfulMultiscalarVar doublings selectedSum)
open Synthesis (Computes Rejects Mirrors)

/-- `CurveVar::precomputed_base_scalar_mul_le`. -/
class ScalarMulVar (C : outParam Type) (GG : Type) where
  precomputedBaseScalarMulLe : GG → List (Boolean × C) → Gadget GG

/-- It adds the points at the bits that are set. -/
class LawfulScalarMulVar (C : outParam Type) (GG : Type) [AddCommGroup C] [MultiscalarVar C GG] [ScalarMulVar C GG] :
    Prop where
  scalarMul_computes (v : GG) (bits : List Boolean) (multiples : List C) :
    Computes (ScalarMulVar.precomputedBaseScalarMulLe v (bits.zip multiples)) fun w =>
      MultiscalarVar.value w = MultiscalarVar.value v + selectedSum (bits.map Boolean.value) multiples

instance {C : Type} [AddCommGroup C] : ScalarMulVar C (Assigned C) where
  precomputedBaseScalarMulLe v s := pure (.var (v.value + (s.map fun t => if t.1.value then t.2 else 0).sum))

instance {C : Type} [AddCommGroup C] : LawfulScalarMulVar C (Assigned C) where
  scalarMul_computes v bits multiples := .pure (congrArg (v.value + ·) (by
    rw [selectedSum, List.zipWith_map_left, List.map_zip_eq_zipWith]
    rfl))

/-- `RandomnessVar`. -/
structure RandomnessVar (B : Type) where
  bytes : List B

section

variable {C GG B : Type} [UInt8Var B] {q : Nat}

/-- `RandomnessVar::new_variable`. Without a value it is 0. -/
def RandomnessVar.newVariable [UInt8VecVar B] (f : Except SynthesisError (ZMod q)) (mode : AllocationMode) :
    Gadget (RandomnessVar B) := do
  let r := PrimeField.serialize (match f with | .ok randomness => randomness | .error _ => 0)
  match mode with
  | .constant => pure ⟨UInt8VecVar.constantVec r⟩
  | .input => pure ⟨← UInt8VecVar.newInputVec r⟩
  | .witness => pure ⟨← UInt8VecVar.newWitnessVec r⟩

/-- `CommGadget::commit`. -/
def CommGadget.commit [MultiscalarVar C GG] [ScalarMulVar C GG] [UInt8BitsVar B] (W : Window)
    (parameters : Parameters C) (input : List B) (r : RandomnessVar B) : Gadget GG := do
  liftM (assert (decide (input.length * 8 ≤ W.windowSize * W.numWindows))
    "assertion failed: (input.len() * 8) <= (W::WINDOW_SIZE * W::NUM_WINDOWS)" : Outcome Unit)
  let bits ← input.mapM UInt8BitsVar.toBitsLe
  let inputInBits := bits.flatten
  let paddingSize := W.windowSize * W.numWindows - inputInBits.length
  let inputInBits := inputInBits ++ List.replicate paddingSize (Boolean.constant false)
  liftM (assertEq inputInBits.length (W.windowSize * W.numWindows) : Outcome Unit)
  liftM (assertEq parameters.generators.length W.numWindows : Outcome Unit)
  let inputInBits ← liftM (checkedChunks W.windowSize inputInBits : Outcome (List (List Boolean)))
  let result : GG ← MultiscalarVar.precomputedBaseMultiscalarMulLe parameters.generators inputInBits
  let randBits ← r.bytes.mapM UInt8BitsVar.toBitsLe
  ScalarMulVar.precomputedBaseScalarMulLe result (randBits.flatten.zip parameters.randomnessGenerator)

/-- The last step of the gadget. -/
def CommGadget.blind [ScalarMulVar C GG] [UInt8BitsVar B] (parameters : Parameters C) (r : RandomnessVar B)
    (result : GG) : Gadget GG := do
  let randBits ← r.bytes.mapM UInt8BitsVar.toBitsLe
  ScalarMulVar.precomputedBaseScalarMulLe result (randBits.flatten.zip parameters.randomnessGenerator)

/-- The gadget of the hash comes first. -/
theorem CommGadget.commit_eq [MultiscalarVar C GG] [ScalarMulVar C GG] [UInt8BitsVar B] (W : Window)
    (parameters : Parameters C) (input : List B) (r : RandomnessVar B) :
    (CommGadget.commit W parameters input r : Gadget GG) =
      Pedersen.CRHGadget.evaluate W ⟨parameters.generators⟩ input >>= CommGadget.blind parameters r := by
  simp only [commit, Pedersen.CRHGadget.evaluate, bind_assoc]
  rfl

section

variable [AddCommGroup C] [MultiscalarVar C GG] [LawfulMultiscalarVar C GG] [ScalarMulVar C GG]
  [LawfulScalarMulVar C GG] [UInt8BitsVar B] [LawfulUInt8BitsVar B] [NeZero q] {W : Window} {parameters : Parameters C}
  {h : C}

/-- A variable of the bytes that the randomness is serialized to. -/
def RandomnessVar.Represents (rVar : RandomnessVar B) (r : ZMod q) : Prop :=
  rVar.bytes.map UInt8Var.value = PrimeField.serialize r

omit [UInt8BitsVar B] [LawfulUInt8BitsVar B] [NeZero q] in
theorem RandomnessVar.newVariable_computes [UInt8VecVar B] [LawfulUInt8VecVar B] (f : Except SynthesisError (ZMod q))
    (mode : AllocationMode) : Computes (RandomnessVar.newVariable f mode : Gadget (RandomnessVar B)) fun rVar =>
      rVar.Represents (match f with | .ok randomness => randomness | .error _ => 0) := by
  cases mode with
  | constant => exact .pure (LawfulUInt8VecVar.value_constantVec _)
  | input => exact (LawfulUInt8VecVar.newInputVec_computes _).bind fun bytes hbytes => .pure hbytes
  | witness => exact (LawfulUInt8VecVar.newWitnessVec_computes _).bind fun bytes hbytes => .pure hbytes

omit [LawfulMultiscalarVar C GG] in
/-- The bits that are used are those of the randomness. -/
theorem CommGadget.blind_computes (hp : parameters.Matches q W h) {rVar : RandomnessVar B} {r : ZMod q}
    (hr : rVar.Represents r) (result : GG) : Computes (CommGadget.blind parameters rVar result) fun v =>
      MultiscalarVar.value v = MultiscalarVar.value result + r.val • h := by
  refine (Pedersen.computes_toBitsLe rVar.bytes).bind fun bits hbits => ?_
  refine (LawfulScalarMulVar.scalarMul_computes result bits.flatten parameters.randomnessGenerator).mono fun v hv => ?_
  rw [hv, hbits, hr, Pedersen.bytesToBits_eq, hp.randomnessGenerator_eq, Pedersen.selectedSum_doublings,
    Digits.ofBits_take, ofBits_flatten_byteBits, PrimeField.leNumber_serialize,
    Nat.mod_eq_of_lt (PrimeField.val_lt_two_pow r)]

/-- On an input that fits, and on variables of the randomness, the gadget has the value of the commitment. -/
theorem CommGadget.commit_computes (hp : parameters.Matches q W h) (hw : 0 < W.windowSize) {input : List B}
    (hl : input.length * 8 ≤ W.inputSizeBits) {rVar : RandomnessVar B} {r : ZMod q} (hr : rVar.Represents r) :
    Computes (CommGadget.commit W parameters input rVar : Gadget GG) fun v =>
      Commitment.commit W parameters (input.map UInt8Var.value) r = .ok (MultiscalarVar.value v) := by
  rw [commit_eq, Commitment.commit_eq hp (by rwa [List.length_map])]
  refine (Pedersen.crhGadget_computes hp.generators_matches hw hl).bind fun result hresult => ?_
  refine (blind_computes hp hr result).mono fun v hv => ?_
  rw [hresult, hv]
  rfl

omit [AddCommGroup C] [LawfulMultiscalarVar C GG] [LawfulScalarMulVar C GG] in
theorem CommGadget.commit_rejects (hw : W.windowSize = 0) (input : List B) (rVar : RandomnessVar B) :
    Rejects (CommGadget.commit W parameters input rVar : Gadget GG) := by
  rw [commit_eq]
  exact (Pedersen.crhGadget_rejects W _ (.inr hw)).bind _

/-- The gadget returns what the native code does. With windows of no bits both panic. -/
structure HasValueOf (W : Window) (native : Outcome C) (gadget : Gadget GG) : Prop where
  value_eq (hw : 0 < W.windowSize) : ∃ c, native = .ok c ∧ Computes gadget fun v => MultiscalarVar.value v = c
  rejects (hw : W.windowSize = 0) : (∃ p, native = .error (.panic p)) ∧ Rejects gadget

variable (GG) in
/-- For every window and the parameters of a setup that draws points of the group of order `q`, with the first one of
them as `h`: on every input that fits, commitments add up, without randomness they are the hash, and the gadget has
their value on all variables of the input and of the randomness. -/
theorem commit_homomorphic [UInt8VecVar B] [LawfulUInt8VecVar B] {R : Type} {rand : R → C × R}
    (hrand : ∀ rng, q • (rand rng).1 = 0) {rng rng' : R}
    (hsetup : Commitment.setup q rand W rng = .ok (parameters, rng')) :
    ∃ h, parameters.randomnessGenerator.head? = some h ∧
      ∀ bytes : List UInt8, bytes.length * 8 ≤ W.inputSizeBits →
        (∀ r s : ZMod q, Commitment.commit W parameters bytes (r + s) =
          (· + s.val • h) <$> Commitment.commit W parameters bytes r) ∧
        Commitment.commit W parameters bytes (0 : ZMod q) = Pedersen.CRH.evaluate W ⟨parameters.generators⟩ bytes ∧
        ∀ (input : List B) (r : ZMod q) (mode : AllocationMode), input.map UInt8Var.value = bytes →
          HasValueOf W (Commitment.commit W parameters bytes r)
            (RandomnessVar.newVariable (.ok r) mode >>= CommGadget.commit W parameters input : Gadget GG) := by
  have hp := Commitment.setup_matches hsetup
  refine ⟨(rand rng).1, hp.head?_eq, fun bytes hl => ?_⟩
  refine ⟨Commitment.commit_add hp hl (hrand rng), Commitment.commit_zero hp hl, fun input r mode hinput => ?_⟩
  have halloc := RandomnessVar.newVariable_computes (B := B) (.ok r) mode
  constructor
  · intro hw
    obtain ⟨c, hc⟩ := Commitment.exists_commit hp hl hw r
    refine ⟨c, hc, halloc.bind fun rVar hrVar => ?_⟩
    have hl' : input.length * 8 ≤ W.inputSizeBits := by rwa [← hinput, List.length_map] at hl
    refine (CommGadget.commit_computes hp hw hl' hrVar).mono fun v hv => ?_
    rw [hinput, hc] at hv
    exact (Except.ok.inj hv).symm
  · intro hw
    refine ⟨Commitment.commit_of_windowSize_zero hp hl hw r, halloc.bind_rejects fun rVar _ => ?_⟩
    exact CommGadget.commit_rejects hw input rVar

end

end

/-- Parameters with one point, for 9 windows of 4 bits. -/
def parametersSeven : Parameters (ZMod 7) := ⟨doublings 3 1, List.replicate 9 (doublings 4 1)⟩

/-- Four bytes, in windows of 36 bits, and randomness whose sum is reduced. -/
theorem commit_homomorphic_seven :
    Commitment.commit ⟨4, 9⟩ parametersSeven [1, 2, 3, 4] (3 + 5 : ZMod 7) =
      (· + 5 • 1) <$> Commitment.commit ⟨4, 9⟩ parametersSeven [1, 2, 3, 4] (3 : ZMod 7) ∧
    HasValueOf ⟨4, 9⟩ (Commitment.commit ⟨4, 9⟩ parametersSeven [1, 2, 3, 4] (3 : ZMod 7))
      (RandomnessVar.newVariable (.ok (3 : ZMod 7)) .witness >>=
        CommGadget.commit ⟨4, 9⟩ parametersSeven [Assigned.var (1 : UInt8), .var 2, .var 3, .var 4] :
          Gadget (Assigned (ZMod 7))) := by
  have hseven : 7 • (1 : ZMod 7) = 0 := by decide
  have hsetup : Commitment.setup 7 (fun rng : Unit => ((1 : ZMod 7), rng)) ⟨4, 9⟩ () = .ok (parametersSeven, ()) := rfl
  obtain ⟨h, hhead, hall⟩ :=
    commit_homomorphic (Assigned (ZMod 7)) (B := Assigned UInt8) (fun _ => hseven) hsetup
  obtain rfl : (1 : ZMod 7) = h := Option.some.inj hhead
  obtain ⟨hadd, -, hgadget⟩ := hall [1, 2, 3, 4] (by decide)
  exact ⟨hadd 3 5, hgadget _ 3 .witness rfl⟩

end CryptoPrimitives.PedersenCommitment
