import CryptoPrimitives.Sponge.Reference
import CryptoPrimitives.Sponge.RescueSplit

/-!
# The loops of the sponges

`absorb_internal` and `squeeze_internal` use up `rate - rate_start_index` elements
in each iteration, which is some of them where the position stays in a rate that is
not 0. The constructors compare the tables with `rate + capacity` and not the rate
with 0. `staysWithinBounds_iff`: every run of calls over parameters that they accept
returns, with its position in the rate and its state of full width, exactly where
the rate is positive. `rateZero_diverges`: over two that they accept with the rate 0,
`absorb` of one element loops forever.
-/

namespace CryptoPrimitives.Sponge

open Except (bind_eq_ok)

variable {F : Type} {D : Duplex Outcome F}

/-! ## Runs -/

/-- After every finite sequence of calls from `new` the position is in the rate or at
its end and the state has full width, and every further call returns: no index is out of
range, and no loop is endless. -/
def StaysWithinBounds [Zero F] (D : Duplex Outcome F)
    (step : DuplexSponge F → Call F → Outcome (List F × DuplexSponge F)) : Prop :=
  ∀ calls : List (Call F), ∃ self,
    calls.foldlM (fun self call => Prod.snd <$> step self call) (DuplexSponge.new D) = .ok self ∧
    self.mode.index ≤ D.rate ∧ self.state.length = D.rate + D.capacity ∧
    ∀ call, ∃ r, step self call = .ok r

/-- It is enough that one call on a valid sponge returns a valid one. -/
theorem staysWithinBounds_of_step [Zero F] {step : DuplexSponge F → Call F → Outcome (List F × DuplexSponge F)}
    (h : ∀ self : DuplexSponge F, self.Valid D → ∀ call, ∃ r, step self call = .ok r ∧ r.2.Valid D) :
    StaysWithinBounds D step := by
  intro calls
  have hstep : ∀ self : DuplexSponge F, ∀ call ∈ calls, self.Valid D →
      ∃ self', Prod.snd <$> step self call = .ok self' ∧ self'.Valid D := by
    intro self call _ hs
    obtain ⟨r, hr, hvalid⟩ := h self hs call
    exact ⟨r.2, by rw [hr]; rfl, hvalid⟩
  obtain ⟨self, hrun, hs⟩ := Except.exists_foldlM hstep (new_valid D)
  refine ⟨self, hrun, hs.index_le, hs.length_state.trans (Nat.add_comm ..), fun call => ?_⟩
  obtain ⟨r, hr, -⟩ := h self hs call
  exact ⟨r, hr⟩

section

variable [Add F]

/-- What a call returns, and the sponge after it. -/
def PoseidonSponge.step (D : Duplex Outcome F) (self : DuplexSponge F) :
    Call F → Outcome (List F × DuplexSponge F)
  | .absorb input => do
    let self ← absorb D self input
    pure ([], self)
  | .squeeze numElements => squeezeNativeFieldElements D self numElements

/-- The same of the Rescue sponge. -/
def RescueSponge.step (D : Duplex Outcome F) (self : DuplexSponge F) :
    Call F → Outcome (List F × DuplexSponge F)
  | .absorb input => do
    let self ← absorb D self input
    pure ([], self)
  | .squeeze numElements => squeezeNativeFieldElements D self numElements

theorem PoseidonSponge.exists_step (hD : D.Total) (hr : 0 < D.rate) (self : DuplexSponge F) (hs : self.Valid D)
    (call : Call F) : ∃ r, step D self call = .ok r ∧ r.2.Valid D := by
  cases call with
  | absorb input =>
    obtain ⟨self', habsorb, hvalid⟩ := exists_absorb hD hr hs input
    exact ⟨([], self'), by rw [step, habsorb]; rfl, hvalid⟩
  | squeeze n =>
    obtain ⟨output, self', hsqueeze, -⟩ := exists_squeezeNativeFieldElements hD hr hs n
    exact ⟨(output, self'), hsqueeze, squeezeNativeFieldElements_valid hD.keepsWidth hr hs hsqueeze⟩

theorem RescueSponge.exists_step (hD : D.Total) (hr : 0 < D.rate) (self : DuplexSponge F) (hs : self.Valid D)
    (call : Call F) : ∃ r, step D self call = .ok r ∧ r.2.Valid D := by
  cases call with
  | absorb input =>
    obtain ⟨self', habsorb⟩ := exists_absorb hD hr hs input
    exact ⟨([], self'), by rw [step, habsorb]; rfl, absorb_valid hD.keepsWidth hr hs habsorb⟩
  | squeeze n =>
    obtain ⟨r, hsqueeze⟩ := exists_squeeze hD hr hs n
    exact ⟨r, hsqueeze, squeeze_valid hD.keepsWidth hr hs hsqueeze⟩

/-! ## The rate 0 -/

/-- With the rate 0 an iteration uses up no element. -/
theorem absorbLoop_rate_zero (h0 : D.rate = 0) {elements : List F} (hne : elements ≠ []) (fuel : Nat)
    (state : List F) :
    absorbLoop D (fuel + 1) 0 elements state = (D.permute state >>= fun state => absorbLoop D fuel 0 elements state) := by
  have hpos := List.length_pos_iff.mpr hne
  rw [absorbLoop, if_neg (by omega), h0]
  rfl

/-- So the loop never returns, after any number of iterations. -/
theorem absorbLoop_ne_ok (h0 : D.rate = 0) {elements : List F} (hne : elements ≠ []) (fuel : Nat) (state : List F)
    (self : DuplexSponge F) : absorbLoop D fuel 0 elements state ≠ .ok self := by
  induction fuel generalizing state with
  | zero => intro h; cases h
  | succ fuel ih =>
    intro h
    rw [absorbLoop_rate_zero h0 hne] at h
    obtain ⟨state', -, h⟩ := bind_eq_ok.mp h
    exact ih state' h

/-- Nor does it stop, where the permutation returns. -/
theorem absorbLoop_diverges (hD : D.Total) (h0 : D.rate = 0) {elements : List F} (hne : elements ≠ []) (fuel : Nat)
    {state : List F} (hs : state.length = D.capacity + D.rate) :
    absorbLoop D fuel 0 elements state = .error .diverge := by
  induction fuel generalizing state with
  | zero => rfl
  | succ fuel ih =>
    obtain ⟨state', hpermute, hs'⟩ := hD state hs
    rw [absorbLoop_rate_zero h0 hne, hpermute, Except.ok_bind]
    exact ih hs'

/-- The first call of `absorb` of the two sponges, which is the same code. -/
theorem absorb_new_rate_zero [Zero F] (h0 : D.rate = 0) (x : F) :
    PoseidonSponge.absorb D (.new D) [x] = (D.permute (List.replicate D.capacity 0) >>= absorbInternal D 0 [x]) ∧
      RescueSponge.absorb D (.new D) [x] = (D.permute (List.replicate D.capacity 0) >>= absorbInternal D 0 [x]) := by
  simp [PoseidonSponge.absorb, RescueSponge.absorb, DuplexSponge.new, h0]

end

theorem not_staysWithinBounds [Zero F] {step : DuplexSponge F → Call F → Outcome (List F × DuplexSponge F)}
    (call : Call F) (h : ∀ r, step (DuplexSponge.new D) call ≠ .ok r) : ¬ StaysWithinBounds D step := by
  intro hbounds
  obtain ⟨self, hrun, -, -, hcalls⟩ := hbounds []
  obtain ⟨r, hr⟩ := hcalls call
  rw [← Except.ok.inj hrun] at hr
  exact h r hr

section

variable [CommRing F]

theorem PoseidonConfig.staysWithinBounds {config : PoseidonConfig F} (h : config.Accepted) (hr : 0 < config.rate) :
    StaysWithinBounds config.duplex (PoseidonSponge.step config.duplex) :=
  staysWithinBounds_of_step (PoseidonSponge.exists_step (PoseidonConfig.duplex_total h hr) hr)

theorem RescueConfig.staysWithinBounds {config : RescueConfig F} (h : config.Accepted) (hr : 0 < config.rate) :
    StaysWithinBounds config.duplex (RescueSponge.step config.duplex) :=
  staysWithinBounds_of_step (RescueSponge.exists_step (RescueConfig.duplex_total h) hr)

/-- With the rate 0 the first `absorb` of an element does not return. -/
theorem not_staysWithinBounds_rate_zero {D : Duplex Outcome F} (h0 : D.rate = 0) :
    ¬ StaysWithinBounds D (PoseidonSponge.step D) ∧ ¬ StaysWithinBounds D (RescueSponge.step D) := by
  obtain ⟨hposeidon, hrescue⟩ := absorb_new_rate_zero h0 (0 : F)
  have hloop : ∀ self, (D.permute (List.replicate D.capacity 0) >>= absorbInternal D 0 [0]) ≠ .ok self := by
    intro self h
    obtain ⟨state, -, h⟩ := bind_eq_ok.mp h
    exact absorbLoop_ne_ok h0 (List.cons_ne_nil 0 []) _ state self h
  refine ⟨not_staysWithinBounds (.absorb [0]) fun r h => ?_, not_staysWithinBounds (.absorb [0]) fun r h => ?_⟩
  · obtain ⟨self, habsorb, -⟩ := bind_eq_ok.mp h
    exact hloop self (hposeidon.symm.trans habsorb)
  · obtain ⟨self, habsorb, -⟩ := bind_eq_ok.mp h
    exact hloop self (hrescue.symm.trans habsorb)

/-- Over parameters that the constructors accept, every run of calls returns and keeps the
bounds, exactly where the rate is positive. -/
theorem staysWithinBounds_iff :
    (∀ {fullRounds partialRounds alpha : Nat} {mds ark : List (List F)} {rate capacity : Nat}
      {config : PoseidonConfig F},
      PoseidonConfig.new fullRounds partialRounds alpha mds ark rate capacity = .ok config →
        (StaysWithinBounds config.duplex (PoseidonSponge.step config.duplex) ↔ 1 ≤ rate)) ∧
    ∀ {rounds alpha alphaInv : Nat} {mds arc : List (List F)} {rate capacity : Nat} {config : RescueConfig F},
      RescueConfig.new rounds alpha alphaInv mds arc rate capacity = .ok config →
        (StaysWithinBounds config.duplex (RescueSponge.step config.duplex) ↔ 1 ≤ rate) := by
  constructor
  · intro _ _ _ _ _ rate _ config h
    obtain ⟨rfl, haccepted⟩ := PoseidonConfig.new_eq_ok.mp h
    refine ⟨fun hbounds => ?_, PoseidonConfig.staysWithinBounds haccepted⟩
    by_contra hlt
    exact (not_staysWithinBounds_rate_zero (show rate = 0 by omega)).1 hbounds
  · intro _ _ _ _ _ rate _ config h
    obtain ⟨rfl, haccepted⟩ := RescueConfig.new_eq_ok.mp h
    refine ⟨fun hbounds => ?_, RescueConfig.staysWithinBounds haccepted⟩
    by_contra hlt
    exact (not_staysWithinBounds_rate_zero (show rate = 0 by omega)).2 hbounds

end

theorem staysWithinBounds_iff_two :
    (StaysWithinBounds smallConfig.duplex (PoseidonSponge.step smallConfig.duplex) ↔ 1 ≤ 2) ∧
      (StaysWithinBounds (RescueConfig.incrementing (ZMod 5) 2 1).duplex
        (RescueSponge.step (RescueConfig.incrementing (ZMod 5) 2 1).duplex) ↔ 1 ≤ 2) :=
  ⟨staysWithinBounds_iff.1 (new_smallConfigOf 5),
    staysWithinBounds_iff.2 (show RescueConfig.new 0 1 1 (RescueConfig.incrementing (ZMod 5) 2 1).mds
      (RescueConfig.incrementing (ZMod 5) 2 1).arc 2 1 = .ok (RescueConfig.incrementing (ZMod 5) 2 1) from rfl)⟩

/-- Parameters of a state that is all capacity. -/
def PoseidonConfig.rateZero : PoseidonConfig (ZMod 5) where
  fullRounds := 1
  partialRounds := 1
  alpha := 3
  ark := [[1], [0]]
  mds := [[1]]
  rate := 0
  capacity := 1

/-- Accepted parameters of rate 0: `absorb` of one element repeats its loop for ever. -/
theorem rateZero_diverges :
    (PoseidonConfig.new 1 1 3 [[1]] [[1], [0]] 0 1 = .ok PoseidonConfig.rateZero ∧
      (∀ fuel, (PoseidonConfig.rateZero.permute [0] >>= fun state =>
        absorbLoop PoseidonConfig.rateZero.duplex fuel 0 [1] state) = .error .diverge) ∧
      ¬ StaysWithinBounds PoseidonConfig.rateZero.duplex (PoseidonSponge.step PoseidonConfig.rateZero.duplex)) ∧
    (RescueConfig.new 0 1 1 [[0]] [[1]] 0 1 = .ok (RescueConfig.incrementing (ZMod 5) 0 1) ∧
      (∀ fuel, ((RescueConfig.incrementing (ZMod 5) 0 1).permute [0] >>= fun state =>
        absorbLoop (RescueConfig.incrementing (ZMod 5) 0 1).duplex fuel 0 [1] state) = .error .diverge) ∧
      ¬ StaysWithinBounds (RescueConfig.incrementing (ZMod 5) 0 1).duplex
        (RescueSponge.step (RescueConfig.incrementing (ZMod 5) 0 1).duplex)) := by
  have haccepted : PoseidonConfig.rateZero.Accepted := ⟨rfl, by decide, rfl, by decide⟩
  have hposeidon : PoseidonConfig.rateZero.duplex.Total := fun state hs => by
    obtain ⟨state', hpermute⟩ := PoseidonConfig.permute_total haccepted (by decide) hs
    exact ⟨state', hpermute, PoseidonConfig.rateZero.permute_keepsWidth _ _ hpermute hs⟩
  have hrescue : (RescueConfig.incrementing (ZMod 5) 0 1).duplex.Total := RescueConfig.incrementing_total
  refine ⟨⟨rfl, fun fuel => ?_, (not_staysWithinBounds_rate_zero rfl).1⟩,
    ⟨rfl, fun fuel => ?_, (not_staysWithinBounds_rate_zero rfl).2⟩⟩
  · obtain ⟨state, hpermute, hs⟩ := hposeidon [0] rfl
    rw [show PoseidonConfig.rateZero.permute [0] = .ok state from hpermute]
    exact absorbLoop_diverges hposeidon rfl (List.cons_ne_nil 1 []) fuel hs
  · obtain ⟨state, hpermute, hs⟩ := hrescue [0] rfl
    rw [show (RescueConfig.incrementing (ZMod 5) 0 1).permute [0] = .ok state from hpermute]
    exact absorbLoop_diverges hrescue rfl (List.cons_ne_nil 1 []) fuel hs

end CryptoPrimitives.Sponge
