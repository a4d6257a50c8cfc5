import CryptoPrimitives.Framework.GroupScalars
import CryptoPrimitives.Signature.Schnorr

/-!
# ElGamal encryption

`encryption/elgamal/mod.rs`, over a commutative group `C` and the scalar field of `q` elements.

* `existsUnique_encrypt_iff`: the ciphertexts of a message are the pairs that decrypt to it and whose first component
  is a multiple of the generator, each with one randomness.
* `decrypt_encrypt_iff`: a secret key decrypts what is encrypted for it, and nothing else that has randomness.
* `encrypt_sum`: ciphertexts for one key add up to a ciphertext of the sum.
-/

namespace CryptoPrimitives.ElGamal

open GroupScalars
open Schnorr (mul)

/-- `Parameters`. -/
structure Parameters (C : Type) where
  generator : C

/-- `SecretKey`. -/
structure SecretKey (q : Nat) where
  scalar : ZMod q
deriving DecidableEq

/-- `Randomness`. -/
structure Randomness (q : Nat) where
  scalar : ZMod q
deriving DecidableEq

section

variable {C : Type} [AddCommGroup C] {q : Nat}

/-- `ElGamal::setup`, where `rand` draws a point. -/
def setup {R : Type} (rand : R → C × R) (rng : R) : Except Error (Parameters C × R) :=
  let (generator, rng) := rand rng
  pure (⟨generator⟩, rng)

/-- `ElGamal::keygen`, where `rand` draws a scalar. -/
def keygen {R : Type} (rand : R → ZMod q × R) (pp : Parameters C) (rng : R) :
    Except Error ((C × SecretKey q) × R) :=
  let (secretKey, rng) := rand rng
  let publicKey := mul pp.generator secretKey
  pure ((publicKey, ⟨secretKey⟩), rng)

/-- `ElGamal::encrypt`. -/
def encrypt (pp : Parameters C) (pk message : C) (r : Randomness q) : Except Error (C × C) :=
  let s := mul pk r.scalar
  let c1 := mul pp.generator r.scalar
  let c2 := message + s
  pure (c1, c2)

/-- `ElGamal::decrypt`. -/
def decrypt (_pp : Parameters C) (sk : SecretKey q) (ciphertext : C × C) : Except Error C :=
  let c1 := ciphertext.1
  let c2 := ciphertext.2
  let s := mul c1 sk.scalar
  let sInv := -s
  let m := c2 + sInv
  pure m

theorem keygen_eq_ok {R : Type} {rand : R → ZMod q × R} {pp : Parameters C} {rng rng' : R} {pk : C}
    {sk : SecretKey q} (h : keygen rand pp rng = .ok ((pk, sk), rng')) : pk = mul pp.generator sk.scalar := by
  obtain ⟨hpair, -⟩ := Prod.mk.inj (Except.ok.inj h)
  obtain ⟨rfl, rfl⟩ := Prod.mk.inj hpair
  rfl

theorem encrypt_eq_ok {pp : Parameters C} {pk m : C} {r : Randomness q} {c : C × C} :
    encrypt pp pk m r = .ok c ↔ c = (r.scalar.val • pp.generator, m + r.scalar.val • pk) := by
  rw [eq_comm, encrypt, Except.pure_eq_ok, Except.ok.injEq]
  rfl

theorem decrypt_eq_ok {pp : Parameters C} {sk : SecretKey q} {c : C × C} {m : C} :
    decrypt pp sk c = .ok m ↔ c.2 = m + sk.scalar.val • c.1 := by
  rw [decrypt, Except.pure_eq_ok, Except.ok.injEq, ← sub_eq_add_neg, sub_eq_iff_eq_add]
  rfl

/-! ## Decryption -/

variable {pp : Parameters C} {sk : SecretKey q}

/-- What decrypts to a message, for a first component that is a multiple of the generator. -/
theorem encrypt_iff_decrypt {c : C × C} {m : C} {r : Randomness q} (hc : r.scalar.val • pp.generator = c.1) :
    encrypt pp (mul pp.generator sk.scalar) m r = .ok c ↔ decrypt pp sk c = .ok m := by
  rw [encrypt_eq_ok, decrypt_eq_ok, Prod.ext_iff, hc, mul, nsmul_left_comm, hc]
  exact and_iff_right rfl

/-- The ciphertexts of a message under a public key of `keygen`. -/
theorem exists_encrypt_iff [NeZero q] (hG : addOrderOf pp.generator = q) {R : Type} {rand : R → ZMod q × R}
    {rng rng' : R} {pk : C} (hkey : keygen rand pp rng = .ok ((pk, sk), rng')) {m : C} {c : C × C} :
    (∃ r : Randomness q, encrypt pp pk m r = .ok c) ↔
      c.1 ∈ AddSubgroup.zmultiples pp.generator ∧ decrypt pp sk c = .ok m := by
  obtain rfl := keygen_eq_ok hkey
  rw [mem_zmultiples_iff hG]
  constructor
  · rintro ⟨r, hr⟩
    have hc : r.scalar.val • pp.generator = c.1 := (congrArg Prod.fst (encrypt_eq_ok.mp hr)).symm
    exact ⟨⟨r.scalar, hc⟩, (encrypt_iff_decrypt hc).mp hr⟩
  · rintro ⟨⟨k, hk⟩, hm⟩
    exact ⟨⟨k⟩, (encrypt_iff_decrypt hk).mpr hm⟩

/-- Every message has each of them with one randomness. -/
theorem existsUnique_encrypt_iff [NeZero q] (hG : addOrderOf pp.generator = q) {R : Type} {rand : R → ZMod q × R}
    {rng rng' : R} {pk : C} (hkey : keygen rand pp rng = .ok ((pk, sk), rng')) (m : C) (c : C × C) :
    (∃! r : Randomness q, encrypt pp pk m r = .ok c) ↔
      c.1 ∈ AddSubgroup.zmultiples pp.generator ∧ decrypt pp sk c = .ok m := by
  rw [← exists_encrypt_iff hG hkey]
  refine ⟨ExistsUnique.exists, fun ⟨r, hr⟩ => ⟨r, hr, fun r' hr' => ?_⟩⟩
  have hc : r'.scalar.val • pp.generator = r.scalar.val • pp.generator :=
    congrArg Prod.fst ((encrypt_eq_ok.mp hr').symm.trans (encrypt_eq_ok.mp hr))
  exact congrArg Randomness.mk ((val_nsmul_inj hG).mp hc)

/-- The ciphertexts of 2 under the public key of 4. -/
theorem existsUnique_encrypt_iff_seven : ∃! r : Randomness 7, encrypt ⟨1⟩ (4 : ZMod 7) 2 r = .ok (2, 3) := by
  have hkey : keygen (fun rng : Unit => ((4 : ZMod 7), rng)) ⟨(1 : ZMod 7)⟩ () = .ok ((4, ⟨4⟩), ()) := rfl
  exact (existsUnique_encrypt_iff (ZMod.addOrderOf_one 7) hkey 2 (2, 3)).mpr ⟨⟨2, rfl⟩, rfl⟩

/-- A key gets the message back exactly when it is the one that was encrypted for, or the randomness is 0. -/
theorem decrypt_encrypt_iff [Fact q.Prime] (hG : addOrderOf pp.generator = q) (sk' : SecretKey q) (m : C)
    (r : Randomness q) :
    (encrypt pp (mul pp.generator sk.scalar) m r >>= decrypt pp sk') = .ok m ↔ sk' = sk ∨ r.scalar = 0 := by
  obtain ⟨k⟩ := sk
  obtain ⟨k'⟩ := sk'
  obtain ⟨r⟩ := r
  have horder := nsmul_order hG
  rw [encrypt_eq_ok.mpr rfl, Except.ok_bind, decrypt_eq_ok, mul]
  simp only [add_right_inj, SecretKey.mk.injEq]
  rw [← val_mul_nsmul horder, ← val_mul_nsmul horder, val_nsmul_inj hG, mul_comm, mul_eq_mul_right_iff, eq_comm]

/-! ## Sums -/

/-- Ciphertexts for one key, componentwise. -/
theorem encrypt_add [NeZero q] (hG : q • pp.generator = 0) {pk m m' : C} (hpk : q • pk = 0) {r r' : Randomness q}
    {c c' : C × C} (h : encrypt pp pk m r = .ok c) (h' : encrypt pp pk m' r' = .ok c') :
    encrypt pp pk (m + m') ⟨r.scalar + r'.scalar⟩ = .ok (c + c') := by
  rw [encrypt_eq_ok] at h h' ⊢
  rw [h, h', val_add_nsmul hG, val_add_nsmul hpk, Prod.mk_add_mk, add_add_add_comm]

/-- A run of encryptions for one key adds up to a ciphertext of the sum of the messages, with the sum of the
randomness. -/
theorem encrypt_sum [NeZero q] (hG : addOrderOf pp.generator = q) {R : Type} {rand : R → ZMod q × R} {rng rng' : R}
    {pk : C} (hkey : keygen rand pp rng = .ok ((pk, sk), rng')) (calls : List (C × Randomness q)) {cs : List (C × C)}
    (h : calls.mapM (fun call => encrypt pp pk call.1 call.2) = .ok cs) :
    encrypt pp pk (calls.map Prod.fst).sum ⟨(calls.map fun call => call.2.scalar).sum⟩ = .ok cs.sum ∧
      decrypt pp sk cs.sum = .ok (calls.map Prod.fst).sum := by
  obtain rfl := keygen_eq_ok hkey
  have horder := nsmul_order hG
  have hsum : encrypt pp (mul pp.generator sk.scalar) (calls.map Prod.fst).sum
      ⟨(calls.map fun call => call.2.scalar).sum⟩ = .ok cs.sum := by
    replace h := Except.mapM_eq_ok.mp h
    induction h with
    | nil => simp [encrypt_eq_ok, Prod.ext_iff]
    | cons hc _ ih => exact encrypt_add horder (nsmul_nsmul_eq_zero horder _) hc ih
  exact ⟨hsum, (encrypt_iff_decrypt (congrArg Prod.fst (encrypt_eq_ok.mp hsum)).symm).mp hsum⟩

end

/-- Three encryptions under the public key of 4. -/
example : decrypt ⟨1⟩ (⟨4⟩ : SecretKey 7) [((2 : ZMod 7), (3 : ZMod 7)), (5, 0), (6, 0)].sum =
    .ok [2, 1, 4].sum := rfl

end CryptoPrimitives.ElGamal
