import CryptoPrimitives.Commitment.PedersenGadget
import CryptoPrimitives.Encryption.Elgamal
import CryptoPrimitives.Signature.SchnorrGadget

/-!
# ElGamal encryption in a circuit

`encryption/elgamal/constraints.rs`, over variables `GG` with the operations of a group.

* `encrypt_computes`: on bytes of any number, the gadget encrypts with that number of times the generator.
* `encrypt_allocated`: on allocated values it has the value of the native ciphertext.
* `exists_randomness_iff`: the ciphertexts that the circuit accepts for a key and a message, with any bytes as the
  randomness, are those that decrypt to the message.
-/

namespace CryptoPrimitives.ElGamal

open Digits (ofBits)
open GroupScalars
open Schnorr (GroupVar LawfulGroupVar mul)
open Synthesis (Computes)

/-- The operations of `CurveVar` that points are allocated and compared with. -/
class GroupAllocVar (C : outParam Type) (GG : Type) [GroupVar C GG] where
  newVariable : Except SynthesisError C → AllocationMode → Gadget GG
  isEq : GG → GG → Gadget Boolean

class LawfulGroupAllocVar (C : outParam Type) (GG : Type) [DecidableEq C] [GroupVar C GG] [GroupAllocVar C GG] :
    Prop where
  newVariable_computes (x : C) (mode : AllocationMode) :
    Computes (GroupAllocVar.newVariable (.ok x) mode : Gadget GG) fun v => GroupVar.value v = x
  isEq_computes (v w : GG) :
    Computes (GroupAllocVar.isEq v w) fun b => b.value = decide (GroupVar.value v = GroupVar.value w)

instance {C : Type} [AddCommGroup C] [DecidableEq C] : GroupAllocVar C (Assigned C) where
  newVariable
    | .ok x, .constant => pure (.constant x)
    | .ok x, _ => pure (.var x)
    | .error e, _ => Synthesis.fail (.err e)
  isEq v w := pure (.var (decide (v.value = w.value)))

instance {C : Type} [AddCommGroup C] [DecidableEq C] : LawfulGroupAllocVar C (Assigned C) where
  newVariable_computes x mode := by cases mode <;> exact .pure rfl
  isEq_computes _ _ := .pure rfl

/-- `RandomnessVar`. -/
abbrev RandomnessVar := PedersenCommitment.RandomnessVar

/-- `ParametersVar`. -/
structure ParametersVar (GG : Type) where
  generator : GG

/-- `PlaintextVar`. -/
structure PlaintextVar (GG : Type) where
  plaintext : GG

/-- `PublicKeyVar`. -/
structure PublicKeyVar (GG : Type) where
  pk : GG

/-- `OutputVar`. -/
structure OutputVar (GG : Type) where
  c1 : GG
  c2 : GG

section

variable {C GG B : Type} {q : Nat} [GroupVar C GG] [GroupAllocVar C GG] [UInt8Var B]

/-- `RandomnessVar::new_variable`, which is that of the commitment. -/
def RandomnessVar.newVariable [UInt8VecVar B] (f : Except SynthesisError (Randomness q)) (mode : AllocationMode) :
    Gadget (RandomnessVar B) :=
  PedersenCommitment.RandomnessVar.newVariable (Randomness.scalar <$> f) mode

/-- `ParametersVar::new_variable`. -/
def ParametersVar.newVariable (f : Except SynthesisError (Parameters C)) (mode : AllocationMode) :
    Gadget (ParametersVar GG) := do
  let generator ← GroupAllocVar.newVariable (Parameters.generator <$> f) mode
  pure ⟨generator⟩

/-- `PlaintextVar::new_variable`. -/
def PlaintextVar.newVariable (f : Except SynthesisError C) (mode : AllocationMode) : Gadget (PlaintextVar GG) := do
  let plaintext ← GroupAllocVar.newVariable f mode
  pure ⟨plaintext⟩

/-- `PublicKeyVar::new_variable`. -/
def PublicKeyVar.newVariable (f : Except SynthesisError C) (mode : AllocationMode) : Gadget (PublicKeyVar GG) := do
  let pk ← GroupAllocVar.newVariable f mode
  pure ⟨pk⟩

/-- `OutputVar::new_variable`. -/
def OutputVar.newVariable (f : Except SynthesisError (C × C)) (mode : AllocationMode) : Gadget (OutputVar GG) := do
  let c1 ← GroupAllocVar.newVariable (Prod.fst <$> f) mode
  let c2 ← GroupAllocVar.newVariable (Prod.snd <$> f) mode
  pure ⟨c1, c2⟩

/-- `OutputVar::is_eq`. -/
def OutputVar.isEq (output other : OutputVar GG) : Gadget Boolean := do
  let eq1 ← GroupAllocVar.isEq output.c1 other.c1
  let eq2 ← GroupAllocVar.isEq output.c2 other.c2
  pure (eq1.and eq2)

/-- `EqGadget::enforce_equal`, which the trait derives from `is_eq`. -/
def OutputVar.enforceEqual (output other : OutputVar GG) : Gadget Unit := do
  let eq ← output.isEq other
  eq.enforceEqual .TRUE

/-- `ElGamalEncGadget::encrypt`. -/
def ElGamalEncGadget.encrypt [UInt8BitsVar B] (parameters : ParametersVar GG) (message : PlaintextVar GG)
    (randomness : RandomnessVar B) (publicKey : PublicKeyVar GG) : Gadget (OutputVar GG) := do
  let bits ← randomness.bytes.mapM UInt8BitsVar.toBitsLe
  let s ← GroupVar.scalarMulLe publicKey.pk bits.flatten
  let c1 ← GroupVar.scalarMulLe parameters.generator bits.flatten
  let c2 := message.plaintext + s
  pure ⟨c1, c2⟩

/-- The value of a ciphertext. -/
def OutputVar.value (output : OutputVar GG) : C × C := (GroupVar.value output.c1, GroupVar.value output.c2)

/-! ## The gadget -/

variable [AddCommGroup C] [LawfulGroupVar C GG] [UInt8BitsVar B] [LawfulUInt8BitsVar B]

omit [GroupAllocVar C GG] in
/-- On any bytes the gadget encrypts with their number as the randomness. -/
theorem encrypt_computes (parameters : ParametersVar GG) (message : PlaintextVar GG) (randomness : RandomnessVar B)
    (publicKey : PublicKeyVar GG) :
    Computes (ElGamalEncGadget.encrypt parameters message randomness publicKey) fun output =>
      let n := leNumber (randomness.bytes.map UInt8Var.value)
      output.value = (n • GroupVar.value parameters.generator,
        GroupVar.value message.plaintext + n • GroupVar.value publicKey.pk) := by
  refine (Computes.mapM_map fun byte _ => LawfulUInt8BitsVar.toBitsLe_computes byte).bind fun bits hbits => ?_
  have hvalues : bits.flatten.map Boolean.value = ((randomness.bytes.map UInt8Var.value).map byteBits).flatten := by
    rw [List.map_flatten, hbits, List.map_map]
    rfl
  refine (LawfulGroupVar.scalarMulLe_computes publicKey.pk bits.flatten).bind fun s hs => ?_
  refine (LawfulGroupVar.scalarMulLe_computes parameters.generator bits.flatten).bind fun c1 hc1 => .pure ?_
  rw [OutputVar.value, LawfulGroupVar.value_add, hs, hc1, hvalues, ofBits_flatten_byteBits]

variable [DecidableEq C] [LawfulGroupAllocVar C GG]

omit [UInt8Var B] [AddCommGroup C] [LawfulGroupVar C GG] [UInt8BitsVar B] [LawfulUInt8BitsVar B] in
theorem OutputVar.isEq_computes (output other : OutputVar GG) :
    Computes (output.isEq other) fun b => b.value = true ↔ output.value = other.value := by
  refine (LawfulGroupAllocVar.isEq_computes output.c1 other.c1).bind fun eq1 heq1 => ?_
  refine (LawfulGroupAllocVar.isEq_computes output.c2 other.c2).bind fun eq2 heq2 => .pure ?_
  rw [Boolean.value_and, heq1, heq2, Bool.and_eq_true, decide_eq_true_eq, decide_eq_true_eq, value, value,
    Prod.mk.injEq]

omit [UInt8Var B] [AddCommGroup C] [LawfulGroupVar C GG] [UInt8BitsVar B] [LawfulUInt8BitsVar B] in
/-- The constraints of `enforce_equal` hold exactly for equal ciphertexts. -/
theorem OutputVar.enforceEqual_run (output other : OutputVar GG) :
    (output.enforceEqual other).run true = .ok ((), true) ↔ output.value = other.value := by
  obtain ⟨eq, heq, hvalue⟩ := output.isEq_computes other true
  rw [enforceEqual, StateT.run_bind, heq, Except.ok_bind, Boolean.enforceEqual_run, ← hvalue]
  exact and_iff_right rfl

/-! ## What the circuit accepts -/

variable [NeZero q]

/-- On the variables of a message, a key and randomness the gadget has the value of their ciphertext, whatever is
constant in them. -/
theorem encrypt_allocated [UInt8VecVar B] [LawfulUInt8VecVar B] (pp : Parameters C) (pk m : C) (r : Randomness q)
    (mode₁ mode₂ mode₃ mode₄ : AllocationMode) :
    Computes (do
      let parameters : ParametersVar GG ← ParametersVar.newVariable (.ok pp) mode₁
      let message ← PlaintextVar.newVariable (.ok m) mode₂
      let randomness : RandomnessVar B ← RandomnessVar.newVariable (.ok r) mode₃
      let publicKey ← PublicKeyVar.newVariable (.ok pk) mode₄
      ElGamalEncGadget.encrypt parameters message randomness publicKey) fun output =>
        encrypt pp pk m r = .ok output.value := by
  refine ((LawfulGroupAllocVar.newVariable_computes pp.generator mode₁).bind fun v hv => .pure hv).bind
    fun parameters (hparameters : GroupVar.value parameters.generator = pp.generator) => ?_
  refine ((LawfulGroupAllocVar.newVariable_computes m mode₂).bind fun v hv => .pure hv).bind
    fun message (hmessage : GroupVar.value message.plaintext = m) => ?_
  refine (PedersenCommitment.RandomnessVar.newVariable_computes (.ok r.scalar) mode₃).bind
    fun randomness hrandomness => ?_
  refine ((LawfulGroupAllocVar.newVariable_computes pk mode₄).bind fun v hv => .pure hv).bind
    fun publicKey (hpk : GroupVar.value publicKey.pk = pk) => ?_
  refine (encrypt_computes parameters message randomness publicKey).mono fun output houtput => ?_
  have hn : leNumber (randomness.bytes.map UInt8Var.value) = r.scalar.val :=
    (congrArg leNumber hrandomness).trans (PrimeField.leNumber_serialize r.scalar)
  rw [encrypt_eq_ok, houtput, hn, hparameters, hmessage, hpk]

theorem encrypt_allocated_seven : Computes (do
    let parameters : ParametersVar (Assigned (ZMod 7)) ← ParametersVar.newVariable (.ok ⟨1⟩) .constant
    let message ← PlaintextVar.newVariable (.ok 2) .witness
    let randomness : RandomnessVar (Assigned UInt8) ← RandomnessVar.newVariable (.ok (⟨2⟩ : Randomness 7)) .witness
    let publicKey ← PublicKeyVar.newVariable (.ok 4) .witness
    ElGamalEncGadget.encrypt parameters message randomness publicKey) fun output =>
      encrypt ⟨1⟩ 4 2 (⟨2⟩ : Randomness 7) = .ok output.value :=
  encrypt_allocated ⟨1⟩ 4 2 ⟨2⟩ .constant .witness .witness .witness

/-- With a public key of `keygen`, the circuit accepts a ciphertext for some bytes as the randomness exactly when it
decrypts to the message and its first component is a multiple of the generator. -/
theorem exists_randomness_iff [UInt8VecVar B] [LawfulUInt8VecVar B] {parameters : ParametersVar GG}
    {message : PlaintextVar GG} {publicKey : PublicKeyVar GG} (expected : OutputVar GG)
    (hG : addOrderOf (GroupVar.value parameters.generator) = q) {R : Type} {rand : R → ZMod q × R} {rng rng' : R}
    {sk : SecretKey q}
    (hkey : keygen rand ⟨GroupVar.value parameters.generator⟩ rng = .ok ((GroupVar.value publicKey.pk, sk), rng')) :
    (∃ randomness : RandomnessVar B,
      (ElGamalEncGadget.encrypt parameters message randomness publicKey >>= expected.enforceEqual).run true =
        .ok ((), true)) ↔
      expected.value.1 ∈ AddSubgroup.zmultiples (GroupVar.value parameters.generator) ∧
        decrypt ⟨GroupVar.value parameters.generator⟩ sk expected.value = .ok (GroupVar.value message.plaintext) := by
  have hpk := keygen_eq_ok hkey
  have horder := nsmul_order hG
  have hpkOrder : q • GroupVar.value publicKey.pk = 0 := by
    rw [hpk]
    exact nsmul_nsmul_eq_zero horder _
  -- the circuit accepts what is encrypted with the number of the bytes
  have hrun (randomness : RandomnessVar B) :
      (ElGamalEncGadget.encrypt parameters message randomness publicKey >>= expected.enforceEqual).run true =
        .ok ((), true) ↔ encrypt ⟨GroupVar.value parameters.generator⟩ (GroupVar.value publicKey.pk)
          (GroupVar.value message.plaintext)
          ⟨((leNumber (randomness.bytes.map UInt8Var.value) : Nat) : ZMod q)⟩ = .ok expected.value := by
    obtain ⟨output, houtput, hvalue⟩ := encrypt_computes parameters message randomness publicKey true
    rw [StateT.run_bind, houtput, Except.ok_bind, OutputVar.enforceEqual_run, hvalue, encrypt_eq_ok,
      natCast_val_nsmul horder, natCast_val_nsmul hpkOrder]
  rw [← exists_encrypt_iff hG hkey]
  constructor
  · exact fun ⟨randomness, h⟩ => ⟨_, (hrun randomness).mp h⟩
  · rintro ⟨r, hr⟩
    refine ⟨⟨UInt8VecVar.constantVec (PrimeField.serialize r.scalar)⟩, (hrun _).mpr ?_⟩
    rw [LawfulUInt8VecVar.value_constantVec, PrimeField.leNumber_serialize, ZMod.natCast_zmod_val]
    exact hr

end

/-- The ciphertext (2, 3) of 2 under the public key of 4. -/
theorem exists_randomness_iff_seven : ∃ randomness : RandomnessVar (Assigned UInt8),
    (ElGamalEncGadget.encrypt ⟨Assigned.constant (1 : ZMod 7)⟩ ⟨.var 2⟩ randomness ⟨.var 4⟩ >>=
      OutputVar.enforceEqual ⟨.var 2, .var 3⟩).run true = .ok ((), true) := by
  have hkey : keygen (fun rng : Unit => ((4 : ZMod 7), rng)) ⟨(1 : ZMod 7)⟩ () = .ok ((4, ⟨4⟩), ()) := rfl
  exact (exists_randomness_iff ⟨Assigned.var 2, Assigned.var 3⟩ (ZMod.addOrderOf_one 7) hkey).mpr ⟨⟨2, rfl⟩, rfl⟩

end CryptoPrimitives.ElGamal
