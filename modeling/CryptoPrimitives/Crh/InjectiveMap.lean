import CryptoPrimitives.Crh.BoweHopwood
import CryptoPrimitives.Framework.TwistedEdwards

/-!
# Hashes compressed to one coordinate

`crh/injective_map/mod.rs`, on a twisted Edwards curve with a complete addition law. The subgroup that is checked for
is that of the points which the order `r` of the scalar field takes to zero.

* `TECompressor.injectiveMap_inj`: on it, as `r` is odd, the coordinate `x` determines the point.
* `setup_inSubgroup`, `boweHopwood_setup_inSubgroup`: generators drawn from it stay in it, as what the hashes add up
  does (`CRH.evaluate_mem`).
* `injectiveMap_collision`: so two inputs of one coordinate are two inputs of one point.
-/

namespace CryptoPrimitives.InjectiveMap

open Pedersen (Window Parameters)
open TwistedEdwards (Curve)

section

variable {C Out : Type} [AddCommGroup C]

/-- `PedersenCRHCompressor::setup`. -/
def PedersenCRHCompressor.setup {R : Type} (rand : R → C × R) (W : Window) (rng : R) : Outcome (Parameters C × R) :=
  Pedersen.CRH.setup rand W rng

/-- `PedersenCRHCompressor::evaluate`. -/
def PedersenCRHCompressor.evaluate (injectiveMap : C → Outcome Out) (W : Window) (parameters : Parameters C)
    (input : List UInt8) : Outcome Out := do
  injectiveMap (← Pedersen.CRH.evaluate W parameters input)

/-- `PedersenTwoToOneCRHCompressor::evaluate`, in a build without debug assertions. -/
def PedersenTwoToOneCRHCompressor.evaluate (injectiveMap : C → Outcome Out) (W : Window) (parameters : Parameters C)
    (leftInput rightInput : List UInt8) : Outcome Out := do
  injectiveMap (← Pedersen.TwoToOneCRH.evaluate W parameters leftInput rightInput)

end

section

variable {F : Type} [Field F] [DecidableEq F] {E : Curve F} {r : Nat}

/-- `is_in_correct_subgroup_assuming_on_curve`, where the scalar field has `r` elements. -/
def isInCorrectSubgroupAssumingOnCurve (r : Nat) (ge : E.Point) : Bool := decide (r • ge = 0)

/-- `TECompressor::injective_map`, in a build with debug assertions or without. -/
def TECompressor.injectiveMap (debugAssertions : Bool) (r : Nat) (ge : E.Point) : Outcome F := do
  if debugAssertions then
    assert (isInCorrectSubgroupAssumingOnCurve r ge)
      "assertion failed: ge.is_in_correct_subgroup_assuming_on_curve()"
  pure ge.x

/-- The generators pass the check. -/
def InSubgroup (r : Nat) (parameters : Parameters E.Point) : Prop :=
  ∀ generators ∈ parameters.generators, ∀ g ∈ generators, isInCorrectSubgroupAssumingOnCurve r g = true

/-- The points that pass the check. -/
def subgroup (E : Curve F) (r : Nat) : AddSubgroup E.Point := (nsmulAddMonoidHom r).ker

theorem mem_subgroup {ge : E.Point} : ge ∈ subgroup E r ↔ isInCorrectSubgroupAssumingOnCurve r ge = true :=
  (decide_eq_true_iff (p := r • ge = 0)).symm

theorem TECompressor.injectiveMap_eq_ok {debugAssertions : Bool} {ge : E.Point} {x : F} :
    injectiveMap debugAssertions r ge = .ok x ↔
      (debugAssertions = true → isInCorrectSubgroupAssumingOnCurve r ge = true) ∧ ge.x = x := by
  cases debugAssertions with
  | false => simp [injectiveMap]
  | true => simp [injectiveMap, Except.bind_eq_ok]

/-- Points of the subgroup are determined by what they are mapped to. -/
theorem TECompressor.injectiveMap_inj (hr : Odd r) {debugAssertions : Bool} {P Q : E.Point}
    (hP : isInCorrectSubgroupAssumingOnCurve r P = true) (hQ : isInCorrectSubgroupAssumingOnCurve r Q = true)
    (h : injectiveMap debugAssertions r P = injectiveMap debugAssertions r Q) : P = Q := by
  have hx : injectiveMap debugAssertions r P = .ok P.x := injectiveMap_eq_ok.mpr ⟨fun _ => hP, rfl⟩
  rw [h, injectiveMap_eq_ok] at hx
  exact Curve.Point.eq_of_x_eq hr (of_decide_eq_true hP) (of_decide_eq_true hQ) hx.2.symm

/-! ## Setup -/

theorem inSubgroup_iff {parameters : Parameters E.Point} :
    InSubgroup r parameters ↔ ∀ generators ∈ parameters.generators, ∀ g ∈ generators, g ∈ subgroup E r := by
  simp only [InSubgroup, mem_subgroup]

section

variable {R : Type} {rand : R → E.Point × R} (h : ∀ rng, isInCorrectSubgroupAssumingOnCurve r (rand rng).1 = true)
  {W : Window} {rng rng' : R} {parameters : Parameters E.Point}
include h

theorem setup_inSubgroup (hp : PedersenCRHCompressor.setup rand W rng = .ok (parameters, rng')) :
    InSubgroup r parameters :=
  inSubgroup_iff.mpr (Pedersen.CRH.setup_mem (fun rng => mem_subgroup.mpr (h rng)) hp)

theorem boweHopwood_setup_inSubgroup {fuel : Nat}
    (hp : BoweHopwood.CRH.setup r rand fuel W rng = .ok (parameters, rng')) : InSubgroup r parameters :=
  inSubgroup_iff.mpr (BoweHopwood.CRH.setup_mem (fun rng => mem_subgroup.mpr (h rng)) hp)

end

/-! ## Collisions -/

/-- Points are compressed to one `x` where they are equal, when they pass the check. -/
theorem TECompressor.collision (hr : Odd r) {debugAssertions : Bool} {native native' : Outcome E.Point} {x : F}
    (hp : debugAssertions = true ∨ ∀ P, native = .ok P ∨ native' = .ok P → P ∈ subgroup E r)
    (h : (native >>= injectiveMap debugAssertions r) = .ok x)
    (h' : (native' >>= injectiveMap debugAssertions r) = .ok x) : ∃ P, native = .ok P ∧ native' = .ok P := by
  obtain ⟨P, hP, hx⟩ := Except.bind_eq_ok.mp h
  obtain ⟨P', hP', hx'⟩ := Except.bind_eq_ok.mp h'
  have hin : isInCorrectSubgroupAssumingOnCurve r P = true ∧ isInCorrectSubgroupAssumingOnCurve r P' = true := by
    rcases hp with hdebug | hmem
    · exact ⟨(injectiveMap_eq_ok.mp hx).1 hdebug, (injectiveMap_eq_ok.mp hx').1 hdebug⟩
    · exact ⟨mem_subgroup.mp (hmem P (.inl hP)), mem_subgroup.mp (hmem P' (.inr hP'))⟩
  obtain rfl := injectiveMap_inj hr hin.1 hin.2 (hx.trans hx'.symm)
  exact ⟨P, hP, hP'⟩

theorem PedersenCRHCompressor.collision (hr : Odd r) {debugAssertions : Bool} {W : Window}
    {parameters : Parameters E.Point} (hp : debugAssertions = true ∨ InSubgroup r parameters) {input input' : List UInt8}
    {x : F}
    (h : PedersenCRHCompressor.evaluate (TECompressor.injectiveMap debugAssertions r) W parameters input = .ok x)
    (h' : PedersenCRHCompressor.evaluate (TECompressor.injectiveMap debugAssertions r) W parameters input' = .ok x) :
    ∃ P, Pedersen.CRH.evaluate W parameters input = .ok P ∧ Pedersen.CRH.evaluate W parameters input' = .ok P := by
  refine TECompressor.collision hr (hp.imp_right fun hgenerators P hP => ?_) h h'
  rw [inSubgroup_iff] at hgenerators
  exact hP.elim (Pedersen.CRH.evaluate_mem hgenerators) (Pedersen.CRH.evaluate_mem hgenerators)

theorem PedersenTwoToOneCRHCompressor.collision (hr : Odd r) {W : Window} {parameters : Parameters E.Point}
    (hp : InSubgroup r parameters) {left right left' right' : List UInt8} {x : F}
    (h : PedersenTwoToOneCRHCompressor.evaluate (TECompressor.injectiveMap false r) W parameters left right = .ok x)
    (h' : PedersenTwoToOneCRHCompressor.evaluate (TECompressor.injectiveMap false r) W parameters left' right' = .ok x) :
    ∃ P, Pedersen.TwoToOneCRH.evaluate W parameters left right = .ok P ∧
      Pedersen.TwoToOneCRH.evaluate W parameters left' right' = .ok P := by
  rw [inSubgroup_iff] at hp
  refine TECompressor.collision hr (.inr fun P hP => ?_) h h'
  exact hP.elim (Pedersen.TwoToOneCRH.evaluate_mem hp) (Pedersen.TwoToOneCRH.evaluate_mem hp)

theorem boweHopwood_collision (hr : Odd r) {W : Window} {parameters : Parameters E.Point} (hp : InSubgroup r parameters)
    {input input' : List UInt8} {x : F} (h : BoweHopwood.CRH.evaluate Curve.Point.x W parameters input = .ok x)
    (h' : BoweHopwood.CRH.evaluate Curve.Point.x W parameters input' = .ok x) :
    ∃ P, BoweHopwood.CRH.evaluate id W parameters input = .ok P ∧
      BoweHopwood.CRH.evaluate id W parameters input' = .ok P := by
  -- the coordinate is what the compressor returns when it does not check
  have hbind (native : Outcome E.Point) : Curve.Point.x <$> native = native >>= TECompressor.injectiveMap false r := by
    cases native <;> rfl
  rw [BoweHopwood.CRH.evaluate_map, hbind] at h h'
  rw [inSubgroup_iff] at hp
  refine TECompressor.collision hr (.inr fun P hP => ?_) h h'
  exact hP.elim (BoweHopwood.CRH.evaluate_mem hp) (BoweHopwood.CRH.evaluate_mem hp)

/-- On every complete curve and for every odd `r`: points that pass the check are determined by their `x`, and a
collision of either hash is one of the points before they are compressed. The check is made by a build with debug
assertions, and the generators pass it in any other. They do when `setup` draws them from points that pass it. -/
theorem injectiveMap_collision (hr : Odd r) (debugAssertions : Bool) :
    (∀ P Q : E.Point, isInCorrectSubgroupAssumingOnCurve r P = true → isInCorrectSubgroupAssumingOnCurve r Q = true →
      TECompressor.injectiveMap debugAssertions r P = TECompressor.injectiveMap debugAssertions r Q → P = Q) ∧
    (∀ (W : Window) (parameters : Parameters E.Point), debugAssertions = true ∨ InSubgroup r parameters →
      ∀ (input input' : List UInt8) (x : F),
        PedersenCRHCompressor.evaluate (TECompressor.injectiveMap debugAssertions r) W parameters input = .ok x →
        PedersenCRHCompressor.evaluate (TECompressor.injectiveMap debugAssertions r) W parameters input' = .ok x →
        ∃ P, Pedersen.CRH.evaluate W parameters input = .ok P ∧
          Pedersen.CRH.evaluate W parameters input' = .ok P) ∧
    (∀ (W : Window) (parameters : Parameters E.Point), InSubgroup r parameters →
      ∀ (input input' : List UInt8) (x : F),
        BoweHopwood.CRH.evaluate Curve.Point.x W parameters input = .ok x →
        BoweHopwood.CRH.evaluate Curve.Point.x W parameters input' = .ok x →
        ∃ P, BoweHopwood.CRH.evaluate id W parameters input = .ok P ∧
          BoweHopwood.CRH.evaluate id W parameters input' = .ok P) ∧
    ∀ {R : Type} (rand : R → E.Point × R), (∀ rng, isInCorrectSubgroupAssumingOnCurve r (rand rng).1 = true) →
      ∀ (W : Window) (parameters : Parameters E.Point) (rng rng' : R),
        (PedersenCRHCompressor.setup rand W rng = .ok (parameters, rng') → InSubgroup r parameters) ∧
        ∀ fuel, BoweHopwood.CRH.setup r rand fuel W rng = .ok (parameters, rng') → InSubgroup r parameters := by
  refine ⟨fun P Q hP hQ => TECompressor.injectiveMap_inj hr hP hQ, ?_, ?_, ?_⟩
  · exact fun W parameters hp input input' x h h' => PedersenCRHCompressor.collision hr hp h h'
  · exact fun W parameters hp input input' x h h' => boweHopwood_collision hr hp h h'
  · exact fun rand h W parameters rng rng' => ⟨setup_inSubgroup h, fun fuel => boweHopwood_setup_inSubgroup h⟩

end

/-! The curve `x ^ 2 + y ^ 2 = 1 + 5 * x ^ 2 * y ^ 2` has a point of order 3 in the field of 7 elements. -/

section

local instance prime_seven : Fact (Nat.Prime 7) := ⟨by decide⟩

theorem two_ne_zero_seven : (2 : ZMod 7) ≠ 0 := by decide

theorem complete_seven : TwistedEdwards.Complete (1 : ZMod 7) 5 := by
  have hd : ¬ ∃ s, (5 : ZMod 7) = s * s := by decide
  exact TwistedEdwards.complete_of_isSquare two_ne_zero_seven (by decide) IsSquare.one hd

def curveSeven : Curve (ZMod 7) := ⟨1, 5, two_ne_zero_seven, by decide, complete_seven⟩

def pointSeven : curveSeven.Point := ⟨(2 : Nat), (4 : Nat), by decide⟩

theorem three_nsmul_pointSeven : 3 • pointSeven = 0 := by
  have hdouble : pointSeven + pointSeven = -pointSeven := by
    ext
    · rw [Curve.Point.add_x, div_eq_iff (by decide)]
      decide
    · rw [Curve.Point.add_y, div_eq_iff (by decide)]
      decide
  rw [succ_nsmul, two_nsmul, hdouble, neg_add_cancel]

/-- The messages 0 and 3 collide, on the point 0. -/
theorem injectiveMap_collision_seven :
    ∃ P, Pedersen.CRH.evaluate ⟨8, 1⟩ ⟨[Pedersen.doublings 8 pointSeven]⟩ [0] = .ok P ∧
      Pedersen.CRH.evaluate ⟨8, 1⟩ ⟨[Pedersen.doublings 8 pointSeven]⟩ [3] = .ok P := by
  have hmatches : (Parameters.mk [Pedersen.doublings 8 pointSeven]).Matches ⟨8, 1⟩ :=
    ⟨rfl, List.forall_mem_singleton.mpr rfl⟩
  have heval {byte : UInt8} {k : Nat} (hbits : Digits.ofBits ((Pedersen.bytesToBits [byte]).take 8) = 3 * k) :
      PedersenCRHCompressor.evaluate (TECompressor.injectiveMap true 3) ⟨8, 1⟩
        ⟨[Pedersen.doublings 8 pointSeven]⟩ [byte] = .ok 0 := by
    have hl : [byte].length * 8 ≤ (Window.mk 8 1).inputSizeBits := Nat.le_refl 8
    rw [PedersenCRHCompressor.evaluate, Pedersen.CRH.evaluate_eq hmatches (by decide) hl, Except.ok_bind,
      List.flatten_singleton, Pedersen.selectedSum_doublings, hbits, mul_nsmul, three_nsmul_pointSeven, nsmul_zero]
    exact TECompressor.injectiveMap_eq_ok.mpr ⟨fun _ => decide_eq_true (nsmul_zero 3), rfl⟩
  exact (injectiveMap_collision (E := curveSeven) (r := 3) (by decide) true).2.1 ⟨8, 1⟩
    ⟨[Pedersen.doublings 8 pointSeven]⟩ (.inl rfl) [0] [3] 0 (heval (k := 0) (by decide)) (heval (k := 1) (by decide))

end

end CryptoPrimitives.InjectiveMap
