import CryptoPrimitives.Crh.Pedersen
import CryptoPrimitives.Rust.PrimeField

/-!
# The Pedersen commitment

`commitment/pedersen/mod.rs`, over a commutative group `C`, with randomness from the field of `q` elements.

* `commit_eq`: a commitment is the hash of the input, and the multiple of one point for the randomness.
* `commit_add`, `commit_zero`: so they add up, also where the sum of the randomness is reduced.
-/

namespace CryptoPrimitives.PedersenCommitment

open Pedersen (Window doublings selectedSum)
open PrimeField (modulusBitSize toBitsLe)

/-- `Parameters`. -/
structure Parameters (C : Type) where
  randomnessGenerator : List C
  generators : List (List C)

section

variable {C : Type} [AddCommGroup C] {q : Nat}

/-- `Commitment::setup`, where `rand` draws a point. -/
def Commitment.setup {R : Type} (q : Nat) (rand : R → C × R) (W : Window) (rng : R) : Outcome (Parameters C × R) :=
  let numPowers := modulusBitSize q
  let (randomnessGenerator, rng) := Pedersen.CRH.generatorPowers rand numPowers rng
  let (generators, rng) := Pedersen.CRH.createGenerators rand W.windowSize W.numWindows rng
  pure (⟨randomnessGenerator, generators⟩, rng)

/-- `Commitment::commit`. -/
def Commitment.commit (W : Window) (parameters : Parameters C) (input : List UInt8) (randomness : ZMod q) :
    Outcome C := do
  if input.length > W.windowSize * W.numWindows then
    raise (.panic (.explicit ("incorrect input length: " ++ toString input.length)))
  else
    let input := if input.length * 8 < W.windowSize * W.numWindows then
      resize input (W.windowSize * W.numWindows / 8) 0 else input
    assertEq parameters.generators.length W.numWindows
    let crhParameters := ⟨parameters.generators⟩
    let result ← Pedersen.CRH.evaluate W crhParameters input
    pure (((toBitsLe randomness).zip parameters.randomnessGenerator).foldl
      (fun result s => if s.1 then result + s.2 else result) result)

/-- The point whose multiples blind a commitment, and the generators of the hash. -/
structure Parameters.Matches (parameters : Parameters C) (q : Nat) (W : Window) (h : C) : Prop where
  randomnessGenerator_eq : parameters.randomnessGenerator = doublings (modulusBitSize q) h
  generators_matches : (Pedersen.Parameters.mk parameters.generators).Matches W

/-- The parameters of a setup have a point that was drawn. -/
theorem Commitment.setup_matches {R : Type} {rand : R → C × R} {W : Window} {rng rng' : R}
    {parameters : Parameters C} (hp : Commitment.setup q rand W rng = .ok (parameters, rng')) :
    parameters.Matches q W (rand rng).1 := by
  obtain ⟨rfl, -⟩ := Prod.mk.inj (Except.ok.inj hp)
  exact ⟨rfl, Pedersen.CRH.matches_createGenerators rand W _⟩

theorem Parameters.Matches.head?_eq {parameters : Parameters C} {W : Window} {h : C} (hp : parameters.Matches q W h) :
    parameters.randomnessGenerator.head? = some h := by
  rw [hp.randomnessGenerator_eq]
  rfl

/-- The bits of the randomness are as many as there are powers. -/
theorem selectedSum_toBitsLe [NeZero q] (randomness : ZMod q) (h : C) :
    selectedSum (toBitsLe randomness) (doublings (modulusBitSize q) h) = randomness.val • h := by
  rw [Pedersen.selectedSum_doublings, PrimeField.take_toBitsLe randomness le_rfl, Digits.ofBits_testBit,
    Nat.mod_eq_of_lt (PrimeField.val_lt_two_pow randomness)]

section

variable {W : Window} {parameters : Parameters C} {h : C} {input : List UInt8} (hp : parameters.Matches q W h)
  (hl : input.length * 8 ≤ W.inputSizeBits)
include hp hl

/-- The input is filled up twice, with the bytes that there is room for. -/
theorem Commitment.evaluate_resize :
    Pedersen.CRH.evaluate W ⟨parameters.generators⟩ (if input.length * 8 < W.windowSize * W.numWindows then
      resize input (W.windowSize * W.numWindows / 8) 0 else input) =
      Pedersen.CRH.evaluate W ⟨parameters.generators⟩ input := by
  split
  · rename_i hlt
    have hw : 0 < W.windowSize := Nat.pos_of_ne_zero fun hw => by
      rw [hw, Nat.zero_mul] at hlt
      exact Nat.not_lt_zero _ hlt
    have hroom : input.length ≤ W.inputSizeBits / 8 := by omega
    rw [← Window.inputSizeBits, resize_of_le hroom]
    exact Pedersen.CRH.evaluate_padded hp.generators_matches hw hroom
  · rfl

theorem Commitment.commit_eq [NeZero q] (randomness : ZMod q) :
    Commitment.commit W parameters input randomness =
      (· + randomness.val • h) <$> Pedersen.CRH.evaluate W ⟨parameters.generators⟩ input := by
  have hlt : ¬ input.length > W.windowSize * W.numWindows := by
    rw [Window.inputSizeBits] at hl
    omega
  have hassert : assertEq parameters.generators.length W.numWindows = (.ok () : Outcome Unit) :=
    assertEq_eq_ok.mpr hp.generators_matches.length_eq
  rw [commit, if_neg hlt]
  simp only [hassert, Except.ok_bind, evaluate_resize hp hl, Pedersen.foldl_select, hp.randomnessGenerator_eq,
    selectedSum_toBitsLe]
  rfl

theorem Commitment.exists_commit [NeZero q] (hw : 0 < W.windowSize) (randomness : ZMod q) :
    ∃ c, Commitment.commit W parameters input randomness = .ok c := by
  rw [commit_eq hp hl, Pedersen.CRH.evaluate_eq hp.generators_matches hw hl]
  exact ⟨_, rfl⟩

theorem Commitment.commit_of_windowSize_zero [NeZero q] (hw : W.windowSize = 0) (randomness : ZMod q) :
    ∃ p, Commitment.commit W parameters input randomness = .error (.panic p) := by
  obtain ⟨p, hpanic⟩ := Pedersen.CRH.evaluate_of_windowSize_zero hp.generators_matches hw input
  rw [commit_eq hp hl, hpanic]
  exact ⟨p, rfl⟩

/-- Randomness that is added up, modulo `q`, adds up its multiples of the point. -/
theorem Commitment.commit_add [NeZero q] (hq : q • h = 0) (r s : ZMod q) :
    Commitment.commit W parameters input (r + s) =
      (· + s.val • h) <$> Commitment.commit W parameters input r := by
  have hsum : (r + s).val • h = r.val • h + s.val • h := by
    rw [ZMod.val_add, ← nsmul_eq_mod_nsmul _ hq, add_nsmul]
  rw [commit_eq hp hl, commit_eq hp hl, ← comp_map, hsum]
  refine congrArg (· <$> _) (funext fun p => ?_)
  exact (add_assoc p _ _).symm

theorem Commitment.commit_zero [NeZero q] :
    Commitment.commit W parameters input (0 : ZMod q) = Pedersen.CRH.evaluate W ⟨parameters.generators⟩ input := by
  rw [commit_eq hp hl, ZMod.val_zero, zero_nsmul]
  simp only [add_zero, id_map']

end

end

end CryptoPrimitives.PedersenCommitment
