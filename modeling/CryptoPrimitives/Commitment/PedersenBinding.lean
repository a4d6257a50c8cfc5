import CryptoPrimitives.Commitment.Pedersen
import CryptoPrimitives.Crh.PedersenBinding
import CryptoPrimitives.Framework.GroupScalars

/-!
# What the Pedersen commitment binds and hides

A commitment combines the points of the windows, and the point of the randomness.

* `commit_relation_iff`: two openings of one commitment are a relation of these points, and any relation with small
  coefficients is that of two openings.
* `existsUnique_commit_iff`: over a group of prime order a commitment is one to each input, with one randomness.
-/

namespace CryptoPrimitives.PedersenCommitment

open Combination (Relation combine)
open GroupScalars
open Pedersen (FullInput Window doublings windowPoint)

section

variable {C : Type} [AddCommGroup C] {q : Nat} {W : Window} {parameters : Parameters C} {R : Type} {rand : R → C × R}
  {rng rng' : R}

/-- The points of a commitment: that of the randomness, and those of the windows. -/
def Parameters.points (parameters : Parameters C) : Option (Fin W.numWindows) → C
  | none => parameters.randomnessGenerator.headD 0
  | some i => windowPoint parameters.generators i

/-- What their coefficients are below. -/
def bounds (q : Nat) (W : Window) : Option (Fin W.numWindows) → Nat
  | none => q
  | some _ => 2 ^ W.windowSize

/-- The coefficients of an opening. -/
def coefficients (opening : FullInput W × ZMod q) : Option (Fin W.numWindows) → Nat
  | none => opening.2.val
  | some i => opening.1.windows i

theorem mem_range_coefficients [NeZero q] (h8 : 8 ∣ W.inputSizeBits) (x : Option (Fin W.numWindows) → Nat) :
    x ∈ Set.range (coefficients (W := W) (q := q)) ↔ ∀ i, x i < bounds q W i := by
  constructor
  · rintro ⟨opening, rfl⟩ (_ | i)
    · exact ZMod.val_lt opening.2
    · exact Digits.limb_lt _ _ _
  · intro hx
    obtain ⟨input, hinput⟩ := (FullInput.mem_range_windows h8 fun i => x (some i)).mpr fun i => hx (some i)
    refine ⟨(input, (x none : ZMod q)), funext fun i => ?_⟩
    cases i with
    | none => exact ZMod.val_natCast_of_lt (hx none)
    | some i => exact congrFun hinput i

theorem Commitment.commit_eq_combine [NeZero q] (hw : 0 < W.windowSize)
    (hsetup : Commitment.setup q rand W rng = .ok (parameters, rng')) (input : FullInput W) (r : ZMod q) :
    Commitment.commit W parameters input.val r =
      .ok (combine parameters.points fun i => coefficients (input, r) i) := by
  have hp := setup_matches hsetup
  have hpowers : Pedersen.Powers W parameters.generators := by
    obtain ⟨rfl, -⟩ := Prod.mk.inj (Except.ok.inj hsetup)
    exact Pedersen.CRH.powers_createGenerators rand W _
  have hpoint : parameters.points (W := W) none = (rand rng).1 := by
    rw [Parameters.points, List.headD_eq_head?_getD, hp.head?_eq, Option.getD_some]
  rw [commit_eq hp input.property.le, Pedersen.CRH.evaluate_eq_combine hw hp.generators_matches hpowers, combine,
    combine, Fintype.sum_option, add_comm, hpoint, coefficients, natCast_zsmul]
  rfl

/-- For every setup with windows of whole bytes: the relations of the points with small coefficients, with the one for
the randomness, are the differences of two openings of one commitment. -/
theorem Commitment.commit_relation_iff [NeZero q] (hw : 0 < W.windowSize) (h8 : 8 ∣ W.inputSizeBits)
    (hsetup : Commitment.setup q rand W rng = .ok (parameters, rng')) (d : Option (Fin W.numWindows) → Int) :
    Relation parameters.points (bounds q W) d ↔ ∃ (x y : FullInput W) (r s : ZMod q),
      Commitment.commit W parameters x.val r = Commitment.commit W parameters y.val s ∧
        ∀ i, (coefficients (x, r) i : Int) - coefficients (y, s) i = d i := by
  rw [Combination.relation_iff (Combination.differencesBelow_natCast (mem_range_coefficients h8))]
  constructor
  · rintro ⟨⟨x, r⟩, ⟨y, s⟩, heq, rfl⟩
    refine ⟨x, y, r, s, ?_, fun _ => rfl⟩
    rw [commit_eq_combine hw hsetup, commit_eq_combine hw hsetup, heq]
  · rintro ⟨x, y, r, s, heq, hd⟩
    rw [commit_eq_combine hw hsetup, commit_eq_combine hw hsetup] at heq
    exact ⟨(x, r), (y, s), Except.ok.inj heq, funext hd⟩

/-- Where points are drawn from a subgroup, a commitment is a point of it, and a multiple for the randomness. -/
theorem Commitment.exists_commit_eq_add [NeZero q] {H : AddSubgroup C} (hrand : ∀ rng, (rand rng).1 ∈ H)
    (hw : 0 < W.windowSize) (hsetup : Commitment.setup q rand W rng = .ok (parameters, rng')) {input : List UInt8}
    (hl : input.length * 8 ≤ W.inputSizeBits) :
    ∃ P ∈ H, ∀ r : ZMod q, Commitment.commit W parameters input r = .ok (P + r.val • (rand rng).1) := by
  have hp := setup_matches hsetup
  have hgenerators : ∀ generators ∈ parameters.generators, ∀ g ∈ generators, g ∈ H := by
    obtain ⟨rfl, -⟩ := Prod.mk.inj (Except.ok.inj hsetup)
    exact Pedersen.CRH.forall_mem_createGenerators
      (fun rng => Pedersen.doublings_mem (hrand rng) W.windowSize) W.numWindows _
  have hevaluate := Pedersen.CRH.evaluate_eq hp.generators_matches hw hl
  refine ⟨_, Pedersen.CRH.evaluate_mem hgenerators hevaluate, fun r => ?_⟩
  rw [commit_eq hp hl, hevaluate]
  rfl

/-- For every setup that draws points of a group of prime order, with a point other than 0 for the randomness: a
commitment to an input that fits may be any point of the group, for one randomness each. -/
theorem Commitment.existsUnique_commit_iff [Fact q.Prime] {H : AddSubgroup C} (hH : Nat.card H = q)
    (hrand : ∀ rng, (rand rng).1 ∈ H) (hne : (rand rng).1 ≠ 0) (hw : 0 < W.windowSize)
    (hsetup : Commitment.setup q rand W rng = .ok (parameters, rng')) {input : List UInt8}
    (hl : input.length * 8 ≤ W.inputSizeBits) (c : C) :
    (∃! r : ZMod q, Commitment.commit W parameters input r = .ok c) ↔ c ∈ H := by
  obtain ⟨P, hP, hcommit⟩ := Commitment.exists_commit_eq_add hrand hw hsetup hl
  obtain ⟨horder, hmultiples⟩ := order_of_prime_card hH (hrand rng) hne
  rw [← hmultiples] at hP ⊢
  rw [← add_mem_cancel_right (neg_mem hP), ← existsUnique_val_nsmul_iff horder]
  refine existsUnique_congr fun r => ?_
  rw [hcommit, eq_add_neg_iff_add_eq, add_comm, Except.ok.injEq]

end

/-- One point for the randomness and for each of two windows of 4 bits. -/
def parametersTwo : Parameters (ZMod 7) := ⟨doublings 3 1, [doublings 4 1, doublings 4 1]⟩

theorem setup_parametersTwo :
    Commitment.setup 7 (fun rng : Unit => ((1 : ZMod 7), rng)) ⟨4, 2⟩ () = .ok (parametersTwo, ()) := rfl

/-- The point of the first window is that of the randomness. -/
theorem Commitment.commit_relation_iff_two : ∃ (x y : FullInput ⟨4, 2⟩) (r s : ZMod 7),
    Commitment.commit ⟨4, 2⟩ parametersTwo x.val r = Commitment.commit ⟨4, 2⟩ parametersTwo y.val s ∧
      ∀ i, (coefficients (x, r) i : Int) - coefficients (y, s) i =
        if i = none then -1 else if i = some 0 then 1 else 0 := by
  refine (commit_relation_iff (by decide) (by decide) setup_parametersTwo _).mp ⟨by decide, ?_⟩
  rw [combine, Fintype.sum_option, Fin.sum_univ_two]
  rfl

/-- Every point is a commitment to the byte 3. -/
theorem Commitment.existsUnique_commit_iff_two :
    ∃! r : ZMod 7, Commitment.commit ⟨4, 2⟩ parametersTwo [3] r = .ok 5 := by
  have hone : (1 : ZMod 7) ≠ 0 := by decide
  have hcard : Nat.card (⊤ : AddSubgroup (ZMod 7)) = 7 := by simp
  have h7 : Fact (Nat.Prime 7) := ⟨by decide⟩
  exact (existsUnique_commit_iff hcard (fun _ => AddSubgroup.mem_top _) hone (by decide) setup_parametersTwo
    (by decide) 5).mpr (AddSubgroup.mem_top _)

end CryptoPrimitives.PedersenCommitment
