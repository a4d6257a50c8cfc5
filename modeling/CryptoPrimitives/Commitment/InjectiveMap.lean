import CryptoPrimitives.Commitment.PedersenBinding
import CryptoPrimitives.Commitment.PedersenGadget
import CryptoPrimitives.Crh.Compress

/-!
# The compressed Pedersen commitment

`commitment/injective_map`: a Pedersen commitment to points of a twisted Edwards curve, of which only the coordinate `x`
is returned. With points drawn from the subgroup of odd prime order:

* `commit_eq_iff`: compressed commitments are equal where the points are.
* `existsUnique_commit_compressed`: a compressed commitment to an input is the coordinate of any point of the subgroup,
  for one randomness each.
* `commit_compressed`: both, and the gadget returns the coordinate on all variables.
-/

namespace CryptoPrimitives.PedersenCommitment

open GroupScalars
open InjectiveMap
open Pedersen (Window MultiscalarVar LawfulMultiscalarVar doublings)
open Synthesis (Computes)
open TwistedEdwards (Curve)

section

variable {C Out : Type} [AddCommGroup C] {q : Nat}

/-- `PedersenCommCompressor::setup`. -/
def PedersenCommCompressor.setup {R : Type} (q : Nat) (rand : R → C × R) (W : Window) (rng : R) :
    Outcome (Parameters C × R) :=
  Commitment.setup q rand W rng

/-- `PedersenCommCompressor::commit`. -/
def PedersenCommCompressor.commit (injectiveMap : C → Outcome Out) (W : Window) (parameters : Parameters C)
    (input : List UInt8) (randomness : ZMod q) : Outcome Out := do
  injectiveMap (← Commitment.commit W parameters input randomness)

/-- `CommitmentCompressorGadget::commit`. -/
def CommitmentCompressorGadget.commit {GG V B : Type} [MultiscalarVar C GG] [ScalarMulVar C GG] [UInt8Var B]
    [UInt8BitsVar B] (mapGadget : GG → Gadget V) (W : Window) (parameters : Parameters C) (input : List B)
    (r : RandomnessVar B) : Gadget V := do
  mapGadget (← CommGadget.commit W parameters input r)

end

section

variable {p : Nat} [Fact p.Prime] {E : Curve (ZMod p)} {r : Nat}

/-- A point of the subgroup passes the check of a build with debug assertions. -/
theorem injectiveMap_of_mem {debugAssertions : Bool} {P : E.Point} (hP : P ∈ subgroup E r) :
    TECompressor.injectiveMap debugAssertions r P = .ok P.x :=
  TECompressor.injectiveMap_eq_ok.mpr ⟨fun _ => mem_subgroup.mp hP, rfl⟩

theorem x_inj_of_mem (hr : Odd r) {P Q : E.Point} (hP : P ∈ subgroup E r) (hQ : Q ∈ subgroup E r) :
    P.x = Q.x ↔ P = Q :=
  ⟨Curve.Point.eq_of_x_eq hr hP hQ, fun h => by rw [h]⟩

variable [Fact r.Prime] {R : Type} {rand : R → E.Point × R} {rng rng' : R} {W : Window} {parameters : Parameters E.Point}

section

variable (hr : Odd r) (hrand : ∀ rng, (rand rng).1 ∈ subgroup E r) (hw : 0 < W.windowSize)
  (hsetup : PedersenCommCompressor.setup r rand W rng = .ok (parameters, rng'))
include hr hrand hw hsetup

theorem PedersenCommCompressor.commit_eq_iff (debugAssertions : Bool) {input input' : List UInt8}
    (hl : input.length * 8 ≤ W.inputSizeBits) (hl' : input'.length * 8 ≤ W.inputSizeBits) (s s' : ZMod r) :
    commit (TECompressor.injectiveMap debugAssertions r) W parameters input s =
        commit (TECompressor.injectiveMap debugAssertions r) W parameters input' s' ↔
      Commitment.commit W parameters input s = Commitment.commit W parameters input' s' := by
  obtain ⟨P, hP, hcommit⟩ := Commitment.exists_commit_eq_add hrand hw hsetup hl
  obtain ⟨P', hP', hcommit'⟩ := Commitment.exists_commit_eq_add hrand hw hsetup hl'
  have hmem := add_mem hP (nsmul_mem (hrand rng) s.val)
  have hmem' := add_mem hP' (nsmul_mem (hrand rng) s'.val)
  rw [commit, commit, hcommit, hcommit', Except.ok_bind, Except.ok_bind, injectiveMap_of_mem hmem,
    injectiveMap_of_mem hmem', Except.ok.injEq, Except.ok.injEq, x_inj_of_mem hr hmem hmem']

theorem PedersenCommCompressor.existsUnique_commit_compressed (hcard : Nat.card (subgroup E r) = r)
    (hne : (rand rng).1 ≠ 0) (debugAssertions : Bool) {input : List UInt8} (hl : input.length * 8 ≤ W.inputSizeBits)
    (x : ZMod p) :
    (∃! s : ZMod r, commit (TECompressor.injectiveMap debugAssertions r) W parameters input s = .ok x) ↔
      ∃ P ∈ subgroup E r, P.x = x := by
  obtain ⟨P, hP, hcommit⟩ := Commitment.exists_commit_eq_add hrand hw hsetup hl
  obtain ⟨horder, hmultiples⟩ := order_of_prime_card hcard (hrand rng) hne
  have hmem (s : ZMod r) : P + s.val • (rand rng).1 ∈ subgroup E r := add_mem hP (nsmul_mem (hrand rng) s.val)
  have heq (s : ZMod r) : commit (TECompressor.injectiveMap debugAssertions r) W parameters input s = .ok x ↔
      (P + s.val • (rand rng).1).x = x := by
    rw [commit, hcommit, Except.ok_bind, injectiveMap_of_mem (hmem s), Except.ok.injEq]
  simp only [heq]
  constructor
  · rintro ⟨s, hs, -⟩
    exact ⟨_, hmem s, hs⟩
  · rintro ⟨Q, hQ, rfl⟩
    have hdifference : Q - P ∈ AddSubgroup.zmultiples (rand rng).1 := hmultiples ▸ sub_mem hQ hP
    refine (existsUnique_congr fun s => ?_).mp ((existsUnique_val_nsmul_iff horder).mpr hdifference)
    rw [x_inj_of_mem hr (hmem s) hQ, eq_sub_iff_add_eq, add_comm]

omit hr in
theorem CommitmentCompressorGadget.commit_computes {GG V B : Type} [FpVar p V] [MultiscalarVar E.Point GG]
    [LawfulMultiscalarVar E.Point GG] [ScalarMulVar E.Point GG] [LawfulScalarMulVar E.Point GG] [CoordinateVar V GG]
    [LawfulCoordinateVar E GG] [UInt8Var B] [UInt8BitsVar B] [LawfulUInt8BitsVar B] (debugAssertions : Bool)
    {input : List B} (hl : input.length * 8 ≤ W.inputSizeBits) {rVar : RandomnessVar B} {s : ZMod r}
    (hs : rVar.Represents s) :
    Computes (commit (TECompressorGadget.evaluate : GG → Gadget V) W parameters input rVar) fun v =>
      PedersenCommCompressor.commit (TECompressor.injectiveMap debugAssertions r) W parameters
        (input.map UInt8Var.value) s = .ok (FpVar.value v) := by
  have hl' : (input.map UInt8Var.value).length * 8 ≤ W.inputSizeBits := by rwa [List.length_map]
  obtain ⟨P, hP, hcommit⟩ := Commitment.exists_commit_eq_add hrand hw hsetup hl'
  have hp := Commitment.setup_matches hsetup
  refine (CommGadget.commit_computes hp hw hl hs).bind fun ge hge => .pure ?_
  rw [hcommit, Except.ok.injEq] at hge
  have hmem : MultiscalarVar.value ge ∈ subgroup E r := hge ▸ add_mem hP (nsmul_mem (hrand rng) s.val)
  rw [PedersenCommCompressor.commit, hcommit, Except.ok_bind, hge, injectiveMap_of_mem hmem,
    LawfulCoordinateVar.value_x (E := E)]

/-- For every setup that draws points of the subgroup of odd prime order, the first one other than 0, and every input that
fits: compressed commitments are equal to those of other openings where the points are, each coordinate of the subgroup
is one with one randomness, and the gadget returns it on all variables of the input and of the randomness. -/
theorem commit_compressed (GG : Type) {V B : Type} [FpVar p V] [MultiscalarVar E.Point GG] [LawfulMultiscalarVar E.Point GG]
    [ScalarMulVar E.Point GG] [LawfulScalarMulVar E.Point GG] [CoordinateVar V GG] [LawfulCoordinateVar E GG]
    [UInt8Var B] [UInt8BitsVar B] [LawfulUInt8BitsVar B] [UInt8VecVar B] [LawfulUInt8VecVar B]
    (hcard : Nat.card (subgroup E r) = r) (hne : (rand rng).1 ≠ 0) (debugAssertions : Bool) (input : List B)
    (hl : input.length * 8 ≤ W.inputSizeBits) :
    let compressed := PedersenCommCompressor.commit (q := r) (TECompressor.injectiveMap debugAssertions r) W parameters
    let bytes := input.map UInt8Var.value
    (∀ bytes' : List UInt8, bytes'.length * 8 ≤ W.inputSizeBits → ∀ s s' : ZMod r,
      compressed bytes s = compressed bytes' s' ↔
        Commitment.commit W parameters bytes s = Commitment.commit W parameters bytes' s') ∧
    (∀ x, (∃! s : ZMod r, compressed bytes s = .ok x) ↔ ∃ P ∈ subgroup E r, P.x = x) ∧
    ∀ (s : ZMod r) (mode : AllocationMode),
      Computes (RandomnessVar.newVariable (.ok s) mode >>=
        CommitmentCompressorGadget.commit (TECompressorGadget.evaluate : GG → Gadget V) W parameters input) fun v =>
          compressed bytes s = .ok (FpVar.value v) := by
  intro compressed bytes
  have hbytes : bytes.length * 8 ≤ W.inputSizeBits := by rwa [List.length_map]
  refine ⟨fun bytes' hl' s s' => ?_, fun x => ?_, fun s mode => ?_⟩
  · exact PedersenCommCompressor.commit_eq_iff hr hrand hw hsetup debugAssertions hbytes hl' s s'
  · exact PedersenCommCompressor.existsUnique_commit_compressed hr hrand hw hsetup hcard hne debugAssertions hbytes x
  · refine (RandomnessVar.newVariable_computes (.ok s) mode).bind fun rVar hs => ?_
    exact CommitmentCompressorGadget.commit_computes hrand hw hsetup debugAssertions hl hs

end

end

/-! The points that 3 takes to 0, on the curve over the field of 7 elements. -/

section

local instance prime_seven : Fact (Nat.Prime 7) := ⟨by decide⟩

local instance prime_three : Fact (Nat.Prime 3) := ⟨by decide⟩

theorem pointSeven_ne_zero : pointSeven ≠ 0 := fun h => absurd (congrArg Curve.Point.x h) (by decide)

/-- They are the multiples of one. -/
theorem subgroup_seven : subgroup curveSeven 3 = AddSubgroup.zmultiples pointSeven := by
  have hpoints : ∀ x y : ZMod 7, TwistedEdwards.OnCurve 1 5 x y → x * y + y * x = -x * (1 + 5 * x * x * y * y) →
      y * y - 1 * x * x = y * (1 - 5 * x * x * y * y) →
      x = 0 ∧ y = 1 ∨ x = 2 ∧ y = 4 ∨ x = -2 ∧ y = 4 := by decide
  refine le_antisymm (fun Q hQ => ?_) ?_
  · have hdouble : Q + Q = -Q := by
      rw [eq_neg_iff_add_eq_zero, ← two_nsmul, ← succ_nsmul]
      exact hQ
    obtain ⟨hne, hne'⟩ := curveSeven.complete Q.onCurve Q.onCurve
    have hx := congrArg Curve.Point.x hdouble
    have hy := congrArg Curve.Point.y hdouble
    rw [Curve.Point.add_x, div_eq_iff hne] at hx
    rw [Curve.Point.add_y, div_eq_iff hne'] at hy
    rcases hpoints Q.x Q.y Q.onCurve hx hy with ⟨h, h'⟩ | ⟨h, h'⟩ | ⟨h, h'⟩
    · have heq : Q = 0 := Curve.Point.ext h h'
      exact heq ▸ zero_mem _
    · have heq : Q = pointSeven := Curve.Point.ext h h'
      exact heq ▸ AddSubgroup.mem_zmultiples pointSeven
    · have heq : Q = -pointSeven := Curve.Point.ext h h'
      exact heq ▸ neg_mem (AddSubgroup.mem_zmultiples pointSeven)
  · rw [AddSubgroup.zmultiples_le]
    exact three_nsmul_pointSeven

theorem card_subgroup_seven : Nat.card (subgroup curveSeven 3) = 3 := by
  rw [subgroup_seven, Nat.card_zmultiples]
  exact addOrderOf_eq_prime three_nsmul_pointSeven pointSeven_ne_zero

/-- Two windows of 4 bits, and all points that are drawn one. -/
def compressedParameters : Parameters curveSeven.Point :=
  ⟨doublings 2 pointSeven, [doublings 4 pointSeven, doublings 4 pointSeven]⟩

/-- Compressed commitments to the byte 3 are the coordinates 0, 2 and 5. -/
theorem commit_compressed_seven :
    (∃! s : ZMod 3, PedersenCommCompressor.commit (TECompressor.injectiveMap true 3) ⟨4, 2⟩ compressedParameters [3] s =
      .ok 2) ∧
    Computes (RandomnessVar.newVariable (.ok (2 : ZMod 3)) .witness >>= CommitmentCompressorGadget.commit
        (TECompressorGadget.evaluate : Assigned curveSeven.Point → Gadget (Assigned (ZMod 7))) ⟨4, 2⟩
        compressedParameters [Assigned.var (3 : UInt8)]) (fun v =>
      PedersenCommCompressor.commit (TECompressor.injectiveMap true 3) ⟨4, 2⟩ compressedParameters [3] (2 : ZMod 3) =
        .ok v.value) := by
  have hsetup : PedersenCommCompressor.setup 3 (fun rng : Unit => (pointSeven, rng)) ⟨4, 2⟩ () =
      .ok (compressedParameters, ()) := rfl
  have hrand (rng : Unit) : (pointSeven, rng).1 ∈ subgroup curveSeven 3 := three_nsmul_pointSeven
  have h := commit_compressed (by decide) hrand (by decide) hsetup (Assigned curveSeven.Point) card_subgroup_seven
    pointSeven_ne_zero true [Assigned.var (3 : UInt8)] (by decide)
  exact ⟨(h.2.1 2).mpr ⟨pointSeven, three_nsmul_pointSeven, rfl⟩, h.2.2 2 .witness⟩

end

end CryptoPrimitives.PedersenCommitment
