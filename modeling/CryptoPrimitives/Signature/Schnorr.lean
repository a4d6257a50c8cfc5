import CryptoPrimitives.Framework.DoubleAndAdd
import CryptoPrimitives.Rust.Outcome
import CryptoPrimitives.Rust.Uint
import Mathlib.Algebra.Field.ZMod
import Mathlib.GroupTheory.OrderOfElement

/-!
# Schnorr signatures

`signature/schnorr/mod.rs`, over a commutative group `C` and the scalar field of `r`
elements.

* `randomizePublicKey_eq`, `randomizeSignature_eq`: one loop computes a multiple of the
  generator from the last bit on, the other a scalar from the first bit on, and both from
  the number `randomizer` of the randomness.
* `verify_sign`: what `sign` returns is accepted.
* `verify_randomize`: randomizing key and signature does not change the verdict.
-/

namespace CryptoPrimitives.Schnorr

open Digits (ofBits)

/-- What the scheme takes from its curve and its digest. -/
structure Scheme (C : Type) (r : Nat) where
  /-- `serialize_compressed` of a point. -/
  serializeCompressed : C → Except Error (List UInt8)
  /-- `D::digest`. -/
  digest : List UInt8 → List UInt8
  /-- `C::ScalarField::from_random_bytes`. -/
  fromRandomBytes : List UInt8 → Option (ZMod r)

/-- `Parameters`. -/
structure Parameters (C : Type) where
  generator : C
  salt : List UInt8

/-- `Signature`. -/
structure Signature (r : Nat) where
  proverResponse : ZMod r
  verifierChallenge : ZMod r
deriving DecidableEq

/-- `bytes_to_bits`. -/
def bytesToBits (bytes : List UInt8) : List Bool :=
  bytes.flatMap fun byte => (List.range 8).map fun i => (byte >>> UInt8.ofNat (8 - i - 1)) &&& 1 == 1

section

variable {C : Type} [AddCommGroup C] {r : Nat}

/-- `point.mul(scalar)`. -/
def mul (point : C) (scalar : ZMod r) : C := scalar.val • point

/-- `hash_input`. -/
def hashInput (S : Scheme C r) (parameters : Parameters C) (proverCommitment : C) (message : List UInt8) :
    Except Error (List UInt8) := do
  let commitment ← S.serializeCompressed proverCommitment
  pure (parameters.salt ++ commitment ++ serializeBytes message)

/-- `keygen`, where `rand` draws a scalar. -/
def keygen {R : Type} (rand : R → ZMod r × R) (parameters : Parameters C) (rng : R) : (C × ZMod r) × R :=
  let (secretKey, rng) := rand rng
  ((mul parameters.generator secretKey, secretKey), rng)

/-- The loop of `sign`, with fuel for each scalar that it draws. -/
def signLoop {R : Type} (S : Scheme C r) (rand : R → ZMod r × R) (parameters : Parameters C)
    (message : List UInt8) : Nat → R → Outcome ((ZMod r × ZMod r) × R)
  | 0, _ => raise .diverge
  | fuel + 1, rng => do
    let (randomScalar, rng) := rand rng
    let proverCommitment := mul parameters.generator randomScalar
    let hashInput ← propagate (hashInput S parameters proverCommitment message)
    match S.fromRandomBytes (S.digest hashInput) with
    | some verifierChallenge => pure ((randomScalar, verifierChallenge), rng)
    | none => signLoop S rand parameters message fuel rng

/-- `sign`. -/
def sign {R : Type} (S : Scheme C r) (rand : R → ZMod r × R) (fuel : Nat) (parameters : Parameters C)
    (sk : ZMod r) (message : List UInt8) (rng : R) : Outcome (Signature r × R) := do
  let ((randomScalar, verifierChallenge), rng) ← signLoop S rand parameters message fuel rng
  pure (⟨randomScalar - verifierChallenge * sk, verifierChallenge⟩, rng)

/-- `verify`. -/
def verify (S : Scheme C r) (parameters : Parameters C) (pk : C) (message : List UInt8)
    (signature : Signature r) : Except Error Bool := do
  let claimedProverCommitment :=
    mul parameters.generator signature.proverResponse + mul pk signature.verifierChallenge
  let hashInput ← hashInput S parameters claimedProverCommitment message
  match S.fromRandomBytes (S.digest hashInput) with
  | some obtainedVerifierChallenge => pure (signature.verifierChallenge == obtainedVerifierChallenge)
  | none => pure false

/-- `randomize_public_key`. -/
def randomizePublicKey (parameters : Parameters C) (publicKey : C) (randomness : List UInt8) : Except Error C :=
  let encoded := ((bytesToBits randomness).reverse.dropWhile (!·)).foldl
    (fun encoded bit => if bit then encoded + encoded + parameters.generator else encoded + encoded) 0
  pure (encoded + publicKey)

/-- `randomize_signature`. -/
def randomizeSignature (signature : Signature r) (randomness : List UInt8) : Except Error (Signature r) :=
  let (multiplier, _) := (bytesToBits randomness).foldl
    (fun s bit => (if bit then s.1 + s.2 else s.1, s.2 + s.2)) ((0, 1) : ZMod r × ZMod r)
  pure ⟨signature.proverResponse - signature.verifierChallenge * multiplier, signature.verifierChallenge⟩

end

/-! ## The randomizer -/

/-- The number that randomness stands for. -/
def randomizer (randomness : List UInt8) : Nat := ofBits (bytesToBits randomness)

section

variable {C : Type} [AddCommGroup C] {r : Nat}

theorem randomizePublicKey_eq (parameters : Parameters C) (publicKey : C) (randomness : List UInt8) :
    randomizePublicKey parameters publicKey randomness =
      .ok (randomizer randomness • parameters.generator + publicKey) := by
  rw [randomizePublicKey, DoubleAndAdd.foldl_msbFirst_dropWhile, List.reverse_reverse]
  rfl

theorem randomizeSignature_eq (signature : Signature r) (randomness : List UInt8) :
    randomizeSignature signature randomness =
      .ok ⟨signature.proverResponse - signature.verifierChallenge * (randomizer randomness : Nat),
        signature.verifierChallenge⟩ := by
  have h := DoubleAndAdd.foldl_lsbFirst (bytesToBits randomness) (0 : ZMod r) 1
  rw [zero_add, nsmul_one] at h
  rw [randomizeSignature, ← randomizer] at *
  rw [← h]
  rfl

/-! ## Scalars -/

/-- Multiples of an element of order `r` by equal scalars. -/
theorem nsmul_eq_of_cast_eq {G : C} (hG : addOrderOf G = r) {m n : Nat} (h : (m : ZMod r) = n) :
    m • G = n • G := by
  rw [nsmul_eq_nsmul_iff_modEq, hG]
  exact (ZMod.natCast_eq_natCast_iff m n r).mp h

theorem mul_natCast [NeZero r] {G : C} (hG : addOrderOf G = r) (n : Nat) : mul G (n : ZMod r) = n • G :=
  nsmul_eq_of_cast_eq hG (ZMod.natCast_zmod_val _)

theorem mul_add [NeZero r] {G : C} (hG : addOrderOf G = r) (x y : ZMod r) : mul G (x + y) = mul G x + mul G y := by
  rw [mul, mul, mul, ← add_nsmul]
  refine nsmul_eq_of_cast_eq hG ?_
  rw [Nat.cast_add, ZMod.natCast_zmod_val, ZMod.natCast_zmod_val, ZMod.natCast_zmod_val]

theorem mul_mul [NeZero r] {G : C} (hG : addOrderOf G = r) (x y : ZMod r) : mul G (x * y) = mul (mul G y) x := by
  rw [mul, mul, mul, ← mul_nsmul]
  refine nsmul_eq_of_cast_eq hG ?_
  rw [Nat.cast_mul, ZMod.natCast_zmod_val, ZMod.natCast_zmod_val, ZMod.natCast_zmod_val, mul_comm]

/-- A response that takes off what the key adds. -/
theorem mul_sub_add [NeZero r] {G : C} (hG : addOrderOf G = r) (x e y : ZMod r) :
    mul G (x - e * y) + mul (mul G y) e = mul G x := by
  rw [← mul_mul hG, ← mul_add hG, sub_add_cancel]

/-! ## Verdicts -/

variable {S : Scheme C r} {parameters : Parameters C}

/-- The challenge that `sign` stops at is the hash of its commitment. -/
theorem signLoop_eq_ok {R : Type} {rand : R → ZMod r × R} {message : List UInt8} {fuel : Nat} {rng rng' : R}
    {randomScalar verifierChallenge : ZMod r}
    (h : signLoop S rand parameters message fuel rng = .ok ((randomScalar, verifierChallenge), rng')) :
    ∃ input, hashInput S parameters (mul parameters.generator randomScalar) message = .ok input ∧
      S.fromRandomBytes (S.digest input) = some verifierChallenge := by
  induction fuel generalizing rng with
  | zero => exact absurd h raise_ne_ok
  | succ fuel ih =>
    rw [signLoop] at h
    obtain ⟨input, hinput, h⟩ := Except.bind_eq_ok.mp h
    split at h
    · rename_i challenge hchallenge
      obtain ⟨hpair, -⟩ := Prod.mk.inj (Except.ok.inj h)
      obtain ⟨rfl, rfl⟩ := Prod.mk.inj hpair
      exact ⟨input, propagate_eq_ok.mp hinput, hchallenge⟩
    · exact ih h

variable [NeZero r] (hG : addOrderOf parameters.generator = r)
include hG

theorem verify_sign {R : Type} {rand : R → ZMod r × R} {fuel : Nat} {sk : ZMod r} {message : List UInt8}
    {rng rng' : R} {signature : Signature r}
    (h : sign S rand fuel parameters sk message rng = .ok (signature, rng')) :
    verify S parameters (mul parameters.generator sk) message signature = .ok true := by
  obtain ⟨⟨⟨randomScalar, verifierChallenge⟩, _⟩, hloop, h⟩ := Except.bind_eq_ok.mp h
  obtain ⟨rfl, -⟩ := Prod.mk.inj (Except.ok.inj h)
  obtain ⟨input, hinput, hchallenge⟩ := signLoop_eq_ok hloop
  rw [verify, mul_sub_add hG, hinput, Except.ok_bind, hchallenge]
  exact congrArg Except.ok (beq_self_eq_true verifierChallenge)

/-- The commitment that `verify` recomputes stays the same. -/
theorem verify_randomize (pk : C) (message : List UInt8) (signature : Signature r) (n : Nat) :
    verify S parameters (n • parameters.generator + pk) message
        ⟨signature.proverResponse - signature.verifierChallenge * (n : Nat), signature.verifierChallenge⟩ =
      verify S parameters pk message signature := by
  have hcommitment : mul parameters.generator
        (signature.proverResponse - signature.verifierChallenge * (n : ZMod r)) +
        mul (n • parameters.generator + pk) signature.verifierChallenge =
      mul parameters.generator signature.proverResponse + mul pk signature.verifierChallenge := by
    rw [show mul (n • parameters.generator + pk) signature.verifierChallenge =
        mul (n • parameters.generator) signature.verifierChallenge + mul pk signature.verifierChallenge from
      nsmul_add _ _ _, ← add_assoc, ← mul_natCast hG n, mul_sub_add hG]
  rw [verify, verify, hcommitment]

theorem verify_randomizeAll (pk : C) (message : List UInt8) (signature : Signature r)
    (randomness : List (List UInt8)) :
    ∃ pk' signature', randomness.foldlM (randomizePublicKey parameters) pk = .ok pk' ∧
      randomness.foldlM randomizeSignature signature = .ok signature' ∧
      verify S parameters pk' message signature' = verify S parameters pk message signature := by
  induction randomness generalizing pk signature with
  | nil => exact ⟨pk, signature, rfl, rfl, rfl⟩
  | cons bytes randomness ih =>
    obtain ⟨pk', signature', hpk, hsignature, hverify⟩ := ih
      (randomizer bytes • parameters.generator + pk)
      ⟨signature.proverResponse - signature.verifierChallenge * (randomizer bytes : Nat), signature.verifierChallenge⟩
    refine ⟨pk', signature', ?_, ?_, hverify.trans (verify_randomize hG pk message signature _)⟩
    · rw [List.foldlM_cons, randomizePublicKey_eq]
      exact hpk
    · rw [List.foldlM_cons, randomizeSignature_eq]
      exact hsignature

end

/-- Signatures are accepted, and stay accepted or rejected with keys and signatures that are
randomized alike. -/
theorem sign_randomize_verify {C : Type} [AddCommGroup C] {r : Nat} [Fact r.Prime] (S : Scheme C r)
    (parameters : Parameters C) (hG : addOrderOf parameters.generator = r) :
    (∀ (R : Type) (rand : R → ZMod r × R) (fuel : Nat) (sk : ZMod r) (message : List UInt8) (rng rng' : R)
      (signature : Signature r), sign S rand fuel parameters sk message rng = .ok (signature, rng') →
      verify S parameters (mul parameters.generator sk) message signature = .ok true) ∧
    ∀ (pk : C) (signature : Signature r) (message : List UInt8) (randomness : List (List UInt8)),
      ∃ pk' signature', randomness.foldlM (randomizePublicKey parameters) pk = .ok pk' ∧
        randomness.foldlM randomizeSignature signature = .ok signature' ∧
        verify S parameters pk' message signature' = verify S parameters pk message signature :=
  ⟨fun _ _ _ _ _ _ _ _ h => verify_sign hG h,
    fun pk signature message randomness => verify_randomizeAll hG pk message signature randomness⟩

/-- Points that are numbers of one digit, hashed to their sum with the message. -/
def smallScheme : Scheme (ZMod 7) 7 where
  serializeCompressed point := .ok [UInt8.ofNat point.val]
  digest bytes := [bytes.foldl (· + ·) 0]
  fromRandomBytes bytes := bytes.head?.map fun byte => (byte.toNat : ZMod 7)

theorem sign_randomize_verify_small :
    sign smallScheme (fun rng : Unit => (4, rng)) 1 ⟨1, [9]⟩ 3 [5] () = .ok (⟨3, 5⟩, ()) ∧
      verify smallScheme ⟨1, [9]⟩ (mul 1 (3 : ZMod 7)) [5] ⟨3, 5⟩ = .ok true ∧
      ∃ pk' signature', [[1], [255, 3]].foldlM (randomizePublicKey ⟨(1 : ZMod 7), [9]⟩) (mul 1 (3 : ZMod 7)) = .ok pk' ∧
        [[1], [255, 3]].foldlM randomizeSignature ⟨3, 5⟩ = .ok signature' ∧
        verify smallScheme ⟨1, [9]⟩ pk' [5] signature' = .ok true := by
  have hsign : sign smallScheme (fun rng : Unit => (4, rng)) 1 ⟨1, [9]⟩ 3 [5] () = .ok (⟨3, 5⟩, ()) := by decide
  have h7 : Fact (Nat.Prime 7) := ⟨by decide⟩
  obtain ⟨hverify, hrandomize⟩ := sign_randomize_verify smallScheme ⟨1, [9]⟩ (ZMod.addOrderOf_one 7)
  have hsigned := hverify Unit _ 1 3 [5] () () ⟨3, 5⟩ hsign
  obtain ⟨pk', signature', hpk, hsignature, hsame⟩ :=
    hrandomize (mul 1 (3 : ZMod 7)) ⟨3, 5⟩ [5] [[1], [255, 3]]
  exact ⟨hsign, hsigned, pk', signature', hpk, hsignature, hsame.trans hsigned⟩

end CryptoPrimitives.Schnorr
