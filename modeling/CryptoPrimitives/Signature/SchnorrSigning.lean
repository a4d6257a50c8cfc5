import CryptoPrimitives.Signature.Schnorr

/-!
# The signatures of a key

* `verify_iff_existsUnique_nonce`: the signatures that are accepted for a key of `keygen` are those that `sign`
  returns for it, each for one scalar drawn.
* `sign_randomizeAll`: to randomize what `sign` returns is to sign with the secret key of the randomized public key.
-/

namespace CryptoPrimitives.Schnorr

section

variable {C : Type} [AddCommGroup C] {r : Nat} {S : Scheme C r} {parameters : Parameters C}

/-- The loop of `sign`, where the first scalar that is drawn gives a challenge. -/
theorem signLoop_const_eq_ok {k : ZMod r} {message : List UInt8} {s : ZMod r × ZMod r} :
    signLoop S (fun rng : Unit => (k, rng)) parameters message 1 () = .ok (s, ()) ↔
      ∃ input, hashInput S parameters (mul parameters.generator k) message = .ok input ∧
        S.fromRandomBytes (S.digest input) = some s.2 ∧ s.1 = k := by
  rw [signLoop]
  dsimp only
  rw [Except.bind_eq_ok]
  refine exists_congr fun input => and_congr propagate_eq_ok ?_
  cases S.fromRandomBytes (S.digest input) with
  | none => exact ⟨fun h => absurd h raise_ne_ok, fun h => absurd h.1 (by simp)⟩
  | some challenge =>
    show (Except.ok ((k, challenge), ()) : Outcome _) = .ok (s, ()) ↔ _
    rw [Except.ok.injEq, Prod.mk.injEq, Prod.ext_iff, Option.some.injEq]
    exact ⟨fun h => ⟨h.1.2, h.1.1.symm⟩, fun h => ⟨⟨h.2.symm, h.1⟩, rfl⟩⟩

theorem sign_const_eq_ok {k sk : ZMod r} {message : List UInt8} {signature : Signature r} :
    sign S (fun rng : Unit => (k, rng)) 1 parameters sk message () = .ok (signature, ()) ↔
      ∃ input, hashInput S parameters (mul parameters.generator k) message = .ok input ∧
        S.fromRandomBytes (S.digest input) = some signature.verifierChallenge ∧
        signature.proverResponse = k - signature.verifierChallenge * sk := by
  rw [sign, Except.bind_eq_ok]
  constructor
  · rintro ⟨⟨s, _⟩, hloop, h⟩
    obtain ⟨input, hinput, he, hk⟩ := signLoop_const_eq_ok.mp hloop
    obtain ⟨rfl, -⟩ := Prod.mk.inj (Except.ok.inj h)
    exact ⟨input, hinput, he, by rw [← hk]⟩
  · rintro ⟨input, hinput, he, hs⟩
    refine ⟨((k, signature.verifierChallenge), ()), signLoop_const_eq_ok.mpr ⟨input, hinput, he, rfl⟩, ?_⟩
    simp only [← hs]
    rfl

/-- The challenge of an accepted signature is the hash of the commitment that `verify` recomputes. -/
theorem verify_eq_ok {pk : C} {message : List UInt8} {signature : Signature r} :
    verify S parameters pk message signature = .ok true ↔
      ∃ input, hashInput S parameters
          (mul parameters.generator signature.proverResponse + mul pk signature.verifierChallenge) message = .ok input ∧
        S.fromRandomBytes (S.digest input) = some signature.verifierChallenge := by
  rw [verify, Except.bind_eq_ok]
  refine exists_congr fun input => and_congr_right fun _ => ?_
  cases S.fromRandomBytes (S.digest input) with
  | none => exact ⟨fun h => absurd h (by simp), fun h => absurd h (by simp)⟩
  | some challenge =>
    show (Except.ok (signature.verifierChallenge == challenge) : Except Error Bool) = .ok true ↔ _
    rw [Except.ok.injEq, beq_iff_eq, Option.some.injEq, eq_comm]

theorem keygen_eq {R : Type} {rand : R → ZMod r × R} {rng rng' : R} {pk : C} {sk : ZMod r}
    (hkey : keygen rand parameters rng = ((pk, sk), rng')) : pk = mul parameters.generator sk := by
  obtain ⟨hpair, -⟩ := Prod.mk.inj hkey
  obtain ⟨rfl, rfl⟩ := Prod.mk.inj hpair
  rfl

variable [NeZero r] (hG : addOrderOf parameters.generator = r)
include hG

/-- For every key of `keygen`: a signature is accepted exactly when `sign` returns it for one scalar, which is then the
only one. -/
theorem verify_iff_existsUnique_nonce {R : Type} {rand : R → ZMod r × R} {rng rng' : R} {pk : C} {sk : ZMod r}
    (hkey : keygen rand parameters rng = ((pk, sk), rng')) (message : List UInt8) (signature : Signature r) :
    verify S parameters pk message signature = .ok true ↔
      ∃! k : ZMod r, sign S (fun rng : Unit => (k, rng)) 1 parameters sk message () = .ok (signature, ()) := by
  obtain ⟨s, e⟩ := signature
  have hcommitment : mul parameters.generator s + mul pk e = mul parameters.generator (s + e * sk) := by
    rw [keygen_eq hkey, ← mul_mul hG, ← mul_add hG]
  simp only [verify_eq_ok, sign_const_eq_ok, hcommitment]
  constructor
  · rintro ⟨input, hinput, he⟩
    exact ⟨s + e * sk, ⟨input, hinput, he, (add_sub_cancel_right s (e * sk)).symm⟩,
      fun k ⟨_, _, _, hk⟩ => by rw [hk, sub_add_cancel]⟩
  · rintro ⟨k, ⟨input, hinput, he, hs⟩, -⟩
    refine ⟨input, ?_, he⟩
    rw [hs, sub_add_cancel, hinput]

omit [AddCommGroup C] hG [NeZero r] in
/-- Several randomizations subtract the sum of their randomizers. -/
theorem randomizeSignature_foldlM (signature : Signature r) (randomness : List (List UInt8)) :
    randomness.foldlM randomizeSignature signature =
      .ok ⟨signature.proverResponse - signature.verifierChallenge * (randomness.map fun bytes =>
        (randomizer bytes : ZMod r)).sum, signature.verifierChallenge⟩ := by
  induction randomness generalizing signature with
  | nil => simp
  | cons bytes randomness ih =>
    rw [List.foldlM_cons, randomizeSignature_eq, Except.ok_bind, ih, List.map_cons, List.sum_cons, left_distrib,
      sub_add_eq_sub_sub]

theorem randomizePublicKey_foldlM (sk : ZMod r) (randomness : List (List UInt8)) :
    randomness.foldlM (randomizePublicKey parameters) (mul parameters.generator sk) =
      .ok (mul parameters.generator (sk + (randomness.map fun bytes => (randomizer bytes : ZMod r)).sum)) := by
  induction randomness generalizing sk with
  | nil => simp
  | cons bytes randomness ih =>
    rw [List.foldlM_cons, randomizePublicKey_eq, Except.ok_bind, ← mul_natCast hG, ← mul_add hG, ih, List.map_cons,
      List.sum_cons, add_left_comm, add_assoc, add_left_comm]

/-- For every run of `sign`: to randomize what it returns is to sign with the secret key to which the randomness has
been added, and that is the key of the randomized public key. -/
theorem sign_randomizeAll {R : Type} (rand : R → ZMod r × R) (fuel : Nat) (sk : ZMod r) (message : List UInt8) (rng : R)
    (randomness : List (List UInt8)) :
    let sk' := sk + (randomness.map fun bytes => (randomizer bytes : ZMod r)).sum
    randomness.foldlM (randomizePublicKey parameters) (mul parameters.generator sk) =
        .ok (mul parameters.generator sk') ∧
      sign S rand fuel parameters sk' message rng = sign S rand fuel parameters sk message rng >>= fun s =>
        (fun signature => (signature, s.2)) <$> propagate (randomness.foldlM randomizeSignature s.1) := by
  refine ⟨randomizePublicKey_foldlM hG sk randomness, ?_⟩
  simp only [sign, bind_assoc, randomizeSignature_foldlM]
  refine congrArg (_ >>= ·) (funext fun ⟨⟨k, e⟩, rng'⟩ => ?_)
  rw [left_distrib, sub_add_eq_sub_sub]
  rfl

end

/-- The signature (3, 5) is accepted for the public key of 3, and is that for the scalar 4. -/
theorem verify_iff_existsUnique_nonce_small : ∃! k : ZMod 7,
    sign smallScheme (fun rng : Unit => (k, rng)) 1 ⟨1, [9]⟩ 3 [5] () = .ok (⟨3, 5⟩, ()) := by
  have hkey : keygen (fun rng : Unit => ((3 : ZMod 7), rng)) ⟨(1 : ZMod 7), [9]⟩ () = ((mul 1 (3 : ZMod 7), 3), ()) := rfl
  have hverify : verify smallScheme ⟨1, [9]⟩ (mul 1 (3 : ZMod 7)) [5] ⟨3, 5⟩ = .ok true := by decide
  exact (verify_iff_existsUnique_nonce (ZMod.addOrderOf_one 7) hkey [5] ⟨3, 5⟩).mp hverify

/-- The secret key 3, randomized by 128 and by the number of two bytes. -/
theorem sign_randomizeAll_small :
    let sk' := (3 : ZMod 7) + ([[1], [255, 3]].map fun bytes => (randomizer bytes : ZMod 7)).sum
    [[1], [255, 3]].foldlM (randomizePublicKey ⟨(1 : ZMod 7), [9]⟩) (mul 1 (3 : ZMod 7)) = .ok (mul 1 sk') ∧
      sign smallScheme (fun rng : Unit => (4, rng)) 1 ⟨1, [9]⟩ sk' [5] () =
        sign smallScheme (fun rng : Unit => (4, rng)) 1 ⟨1, [9]⟩ 3 [5] () >>= fun s =>
          (fun signature => (signature, s.2)) <$> propagate ([[1], [255, 3]].foldlM randomizeSignature s.1) :=
  sign_randomizeAll (ZMod.addOrderOf_one 7) (fun rng : Unit => (4, rng)) 1 3 [5] () [[1], [255, 3]]

end CryptoPrimitives.Schnorr
