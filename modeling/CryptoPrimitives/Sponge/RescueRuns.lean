import CryptoPrimitives.Framework.CircuitRun
import CryptoPrimitives.Sponge.Constraints
import CryptoPrimitives.Sponge.RescueConstraints
import CryptoPrimitives.Sponge.RescueSplit

/-!
# Runs of the gadget of the Rescue sponge

`absorb` and `squeeze_field_elements` of `rescue/constraints.rs` are the code of the native
sponge, run on variables.

* `absorb_realizes`, `squeezeFieldElements_realizes`: over a permutation of variables that
  realizes one of values, they realize the native calls.
* `RescueSpongeVar.run_sound_complete`: what satisfies the constraints of a run of calls gives the
  native run, and the values assigned on the way satisfy them.
-/

namespace CryptoPrimitives.Sponge

open Circuit (Builds Extends Fixed Realizes Satisfies fixed_list)
open CircuitFpVar (eval)

section

variable {p : Nat} {V : Type} [CircuitFpVar p V]

/-- `RescueSpongeVar::absorb` of an input with these variables, which is the code of
`RescueSponge::absorb`. -/
def RescueSpongeVar.absorb (G : Duplex (CircuitGadget p) V) (self : DuplexSponge V) (input : List V) :
    CircuitGadget p (DuplexSponge V) := RescueSponge.absorb G self input

/-- `RescueSpongeVar::squeeze_field_elements`, which is the code of
`squeeze_native_field_elements`. -/
def RescueSpongeVar.squeezeFieldElements (G : Duplex (CircuitGadget p) V) (self : DuplexSponge V)
    (numElements : Nat) : CircuitGadget p (List V × DuplexSponge V) :=
  RescueSponge.squeezeNativeFieldElements G self numElements

/-- The gadget `G` permutes as `D` does. -/
structure DuplexRealizes (D : Duplex Outcome (ZMod p)) (G : Duplex (CircuitGadget p) V) : Prop where
  rate_eq : G.rate = D.rate
  capacity_eq : G.capacity = D.capacity
  permute {w : List (ZMod p)} {state : List V} (hs : Fixed w fun ρ => state.map (eval ρ)) :
    Realizes w (G.permute state) (fun ρ => D.permute (state.map (eval ρ))) fun ρ s => s.map (eval ρ)

/-- What a call returns under an assignment, and the sponge after it. -/
def outputValues (ρ : Nat → ZMod p) (r : List V × DuplexSponge V) : List (ZMod p) × DuplexSponge (ZMod p) :=
  (r.1.map (eval ρ), r.2.map (eval ρ))

section

variable {D : Duplex Outcome (ZMod p)} {G : Duplex (CircuitGadget p) V}

theorem fixed_sponge {w : List (ZMod p)} {state : List V} (hs : Fixed w fun ρ => state.map (eval ρ))
    (mode : DuplexSpongeMode) : Fixed w fun ρ => (DuplexSponge.mk state mode).map (eval ρ) :=
  hs.map fun values => DuplexSponge.mk values mode

theorem fixed_outputValues {w : List (ZMod p)} {output : List V} {self : DuplexSponge V}
    (ho : Fixed w fun ρ => output.map (eval ρ)) (hs : Fixed w fun ρ => self.map (eval ρ)) :
    Fixed w fun ρ => outputValues ρ (output, self) := ho.map₂ hs Prod.mk

/-- The permutation of the gadget, with accepted parameters. -/
theorem RescueSpongeVar.duplex_realizes [Fact p.Prime] [LawfulCircuitFpVar p V]
    {predicates : String → Option (ZMod p → ZMod p → Prop)} {parameters : RescueConfig (ZMod p)}
    (hi : Inverse predicates parameters) (h : parameters.Accepted) :
    DuplexRealizes parameters.duplex (duplex predicates parameters : Duplex (CircuitGadget p) V) :=
  ⟨rfl, rfl, permute_realizes hi (by rw [h.length_arc, Nat.mul_comm])⟩

/-! ## Absorbing -/

theorem addElements_realizes [LawfulCircuitFpVar p V] {w : List (ZMod p)} {state elements : List V} (position : Nat)
    (hs : Fixed w fun ρ => state.map (eval ρ)) (he : Fixed w fun ρ => elements.map (eval ρ)) :
    Realizes w (addElements state position elements : CircuitGadget p (List V))
      (fun ρ => (addElements (state.map (eval ρ)) position (elements.map (eval ρ)) : Outcome _))
      fun ρ s => s.map (eval ρ) := by
  induction elements generalizing w state position with
  | nil => exact .pure hs fun _ => rfl
  | cons element elements ih =>
    obtain ⟨helement, he⟩ := List.forall_mem_cons.mp (fixed_list.mp he)
    have hindex : Realizes w (liftM (index state position : Outcome V) : CircuitGadget p V)
        (fun ρ => (index (state.map (eval ρ)) position : Outcome _)) fun ρ v => eval ρ v :=
      realizes_liftM (fun ρ => index_map (eval ρ) state position) fun entry h =>
        fixed_list.mp hs entry (List.mem_of_getElem? (index_eq_ok.mp h))
    simp only [addElements, List.map_cons]
    refine hindex.bind (h := fun ρ entry => addElements ((state.map (eval ρ)).set position (entry + eval ρ element))
      (position + 1) (elements.map (eval ρ))) fun entry w' hw hentry => ?_
    have hsum : Fixed w' fun ρ => eval ρ (entry + element) := by
      simp only [LawfulCircuitFpVar.eval_add]
      exact hentry.map₂ (helement.mono hw) (· + ·)
    have hset : Fixed w' fun ρ => (state.set position (entry + element)).map (eval ρ) := by
      simp only [List.map_set]
      exact (hs.mono hw).map₂ hsum fun s x => s.set position x
    refine (ih (position + 1) hset ((fixed_list.mpr he).mono hw)).congr fun ρ => ?_
    rw [List.map_set, LawfulCircuitFpVar.eval_add]

variable (hDG : DuplexRealizes D G)

include hDG

theorem absorbLoop_realizes [LawfulCircuitFpVar p V] {w : List (ZMod p)} {state elements : List V}
    (fuel rateStartIndex : Nat) (hs : Fixed w fun ρ => state.map (eval ρ))
    (he : Fixed w fun ρ => elements.map (eval ρ)) :
    Realizes w (absorbLoop G fuel rateStartIndex elements state)
      (fun ρ => absorbLoop D fuel rateStartIndex (elements.map (eval ρ)) (state.map (eval ρ)))
      fun ρ s => s.map (eval ρ) := by
  induction fuel generalizing w rateStartIndex elements state with
  | zero => exact realizes_liftM (fun ρ => rfl) nofun
  | succ fuel ih =>
    simp only [absorbLoop, hDG.rate_eq, hDG.capacity_eq, List.length_map]
    split
    · refine (addElements_realizes _ hs he).bind fun state w₁ _ hs => ?_
      exact .pure (fixed_sponge hs _) fun _ => rfl
    · refine (realizes_self w _).bind fun n w₁ hw₁ _ => ?_
      simp only [← List.map_take, ← List.map_drop]
      have he := fixed_list.mp (he.mono hw₁)
      have htake : Fixed w₁ fun ρ => (elements.take n).map (eval ρ) :=
        fixed_list.mpr fun v hv => he v (List.mem_of_mem_take hv)
      have hdrop : Fixed w₁ fun ρ => (elements.drop n).map (eval ρ) :=
        fixed_list.mpr fun v hv => he v (List.mem_of_mem_drop hv)
      refine (addElements_realizes _ (hs.mono hw₁) htake).bind fun state w₂ hw₂ hs => ?_
      refine (hDG.permute hs).bind fun state w₃ hw₃ hs => ?_
      exact ih 0 hs (hdrop.mono (hw₂.trans hw₃))

/-- `absorb` on variables realizes `absorb` on their values. -/
theorem absorb_realizes [LawfulCircuitFpVar p V] {w : List (ZMod p)} {self : DuplexSponge V} {elements : List V}
    (hs : Fixed w fun ρ => self.map (eval ρ)) (he : Fixed w fun ρ => elements.map (eval ρ)) :
    Realizes w (RescueSpongeVar.absorb G self elements)
      (fun ρ => RescueSponge.absorb D (self.map (eval ρ)) (elements.map (eval ρ))) fun ρ s => s.map (eval ρ) := by
  obtain ⟨state, mode⟩ := self
  have hstate : Fixed w fun ρ => state.map (eval ρ) := hs.map DuplexSponge.state
  have hinternal {w : List (ZMod p)} {state : List V} (i : Nat) (hs : Fixed w fun ρ => state.map (eval ρ))
      (he : Fixed w fun ρ => elements.map (eval ρ)) : Realizes w (absorbInternal G i elements state)
        (fun ρ => absorbInternal D i (elements.map (eval ρ)) (state.map (eval ρ))) fun ρ s => s.map (eval ρ) := by
    simp only [absorbInternal, List.length_map]
    exact absorbLoop_realizes hDG _ i hs he
  have hturned : Realizes w (G.permute state >>= absorbInternal G 0 elements)
      (fun ρ => D.permute (state.map (eval ρ)) >>= absorbInternal D 0 (elements.map (eval ρ)))
      fun ρ s => s.map (eval ρ) :=
    (hDG.permute hstate).bind fun state w₁ hw₁ hs => hinternal 0 hs (he.mono hw₁)
  simp only [RescueSpongeVar.absorb, RescueSponge.absorb, List.isEmpty_map, DuplexSponge.map, hDG.rate_eq]
  split
  · exact .pure hs fun _ => rfl
  cases mode with
  | absorbing i =>
    simp only
    split
    · exact hturned
    · exact hinternal i hstate he
  | squeezing i => exact hturned

/-! ## Squeezing -/

theorem squeezeLoop_realizes {w : List (ZMod p)} {state : List V} (fuel rateStartIndex outputRemaining : Nat)
    (hs : Fixed w fun ρ => state.map (eval ρ)) :
    Realizes w (RescueSponge.squeezeLoop G fuel rateStartIndex outputRemaining state)
      (fun ρ => RescueSponge.squeezeLoop D fuel rateStartIndex outputRemaining (state.map (eval ρ)))
      outputValues := by
  induction fuel generalizing w rateStartIndex outputRemaining state with
  | zero => exact realizes_liftM (fun ρ => rfl) nofun
  | succ fuel ih =>
    simp only [RescueSponge.squeezeLoop, hDG.rate_eq, hDG.capacity_eq]
    split
    · refine (slice_realizes hs _ _).bind fun output w₁ hw₁ ho => ?_
      exact .pure (fixed_outputValues ho (fixed_sponge (hs.mono hw₁) _)) fun _ => rfl
    · refine (realizes_self w _).bind fun n w₁ hw₁ _ => ?_
      refine (slice_realizes (hs.mono hw₁) _ _).bind fun output w₂ hw₂ ho => ?_
      have hrest {w : List (ZMod p)} {state : List V} (hs : Fixed w fun ρ => state.map (eval ρ))
          (ho : Fixed w fun ρ => output.map (eval ρ)) : Realizes w
          (RescueSponge.squeezeLoop G fuel 0 (outputRemaining - n) state >>= fun rest =>
            pure (output ++ rest.1, rest.2))
          (fun ρ => RescueSponge.squeezeLoop D fuel 0 (outputRemaining - n) (state.map (eval ρ)) >>= fun rest =>
            pure (output.map (eval ρ) ++ rest.1, rest.2)) outputValues := by
        refine (ih 0 (outputRemaining - n) hs).bind fun rest w₃ hw₃ hrest => ?_
        have happend (ρ : Nat → ZMod p) : outputValues ρ (output ++ rest.1, rest.2) =
            (output.map (eval ρ) ++ (outputValues ρ rest).1, (outputValues ρ rest).2) := by
          rw [outputValues, List.map_append]
          rfl
        refine .pure ?_ fun ρ => by rw [happend]; rfl
        simp only [happend]
        exact (ho.mono hw₃).map₂ hrest fun output r => (output ++ r.1, r.2)
      split
      · refine (hDG.permute (hs.mono (hw₁.trans hw₂))).bind fun state w₃ hw₃ hs => ?_
        exact hrest hs (ho.mono hw₃)
      · exact hrest (hs.mono (hw₁.trans hw₂)) ho

/-- `squeeze_field_elements` on variables realizes `squeeze_native_field_elements` on their
values. -/
theorem squeezeFieldElements_realizes {w : List (ZMod p)} {self : DuplexSponge V}
    (hs : Fixed w fun ρ => self.map (eval ρ)) (n : Nat) :
    Realizes w (RescueSpongeVar.squeezeFieldElements G self n)
      (fun ρ => RescueSponge.squeezeNativeFieldElements D (self.map (eval ρ)) n) outputValues := by
  obtain ⟨state, mode⟩ := self
  have hstate : Fixed w fun ρ => state.map (eval ρ) := hs.map DuplexSponge.state
  have hturned : Realizes w (G.permute state >>= RescueSponge.squeezeInternal G 0 n)
      (fun ρ => D.permute (state.map (eval ρ)) >>= RescueSponge.squeezeInternal D 0 n) outputValues :=
    (hDG.permute hstate).bind fun state w₁ _ hs => squeezeLoop_realizes hDG _ 0 n hs
  cases mode with
  | absorbing i => exact hturned
  | squeezing i =>
    simp only [RescueSpongeVar.squeezeFieldElements, RescueSponge.squeezeNativeFieldElements, DuplexSponge.map,
      hDG.rate_eq]
    split
    · exact hturned
    · exact squeezeLoop_realizes hDG _ i n hstate

end

/-! ## Calls -/

/-- A call of a sponge on entries of `V`. -/
inductive RescueCall (V : Type) where
  | absorb (input : List V)
  | squeezeFieldElements (numElements : Nat)

namespace RescueCall

/-- The call on the values of its variables. -/
def values (ρ : Nat → ZMod p) : RescueCall V → RescueCall (ZMod p)
  | absorb input => .absorb (input.map (eval ρ))
  | squeezeFieldElements numElements => .squeezeFieldElements numElements

/-- What the call reads has values assigned. -/
def Allocated (w : List (ZMod p)) : RescueCall V → Prop
  | absorb input => Fixed w fun ρ => input.map (eval ρ)
  | squeezeFieldElements _ => True

theorem Allocated.mono {w w' : List (ZMod p)} (hw : w <+: w') {c : RescueCall V} (h : c.Allocated w) :
    c.Allocated w' := by
  cases c with
  | absorb input => exact Fixed.mono hw h
  | squeezeFieldElements n => trivial

end RescueCall

/-- What a call returns, and the sponge after it. -/
def RescueSponge.call (D : Duplex Outcome (ZMod p)) (self : DuplexSponge (ZMod p)) :
    RescueCall (ZMod p) → Outcome (List (ZMod p) × DuplexSponge (ZMod p))
  | .absorb input => do
    let self ← absorb D self input
    pure ([], self)
  | .squeezeFieldElements numElements => squeezeNativeFieldElements D self numElements

/-- The call in a circuit. -/
def RescueSpongeVar.call (G : Duplex (CircuitGadget p) V) (self : DuplexSponge V) :
    RescueCall V → CircuitGadget p (List V × DuplexSponge V)
  | .absorb input => do
    let self ← absorb G self input
    pure ([], self)
  | .squeezeFieldElements numElements => squeezeFieldElements G self numElements

/-- A sponge of full width whose entries, constant or allocated, have values assigned. -/
structure DuplexSponge.Ready (D : Duplex Outcome (ZMod p)) (w : List (ZMod p)) (sponge : DuplexSponge V) : Prop where
  length_state : sponge.state.length = D.capacity + D.rate
  index_le : sponge.mode.index ≤ D.rate
  fixed : Fixed w fun ρ => sponge.map (eval ρ)

section

variable {D : Duplex Outcome (ZMod p)} {G : Duplex (CircuitGadget p) V} {w : List (ZMod p)} {self : DuplexSponge V}

theorem DuplexSponge.Ready.mono {w' : List (ZMod p)} (hw : w <+: w') (h : self.Ready D w) : self.Ready D w' :=
  ⟨h.length_state, h.index_le, h.fixed.mono hw⟩

theorem DuplexSponge.Ready.valid (h : self.Ready D w) (ρ : Nat → ZMod p) : (self.map (eval ρ)).Valid D :=
  ⟨(List.length_map _).trans h.length_state, h.index_le⟩

theorem DuplexSponge.Ready.of_valid {ρ : Nat → ZMod p} (h : (self.map (eval ρ)).Valid D)
    (hs : Fixed w fun ρ => self.map (eval ρ)) : self.Ready D w :=
  ⟨(List.length_map (eval ρ)).symm.trans h.length_state, h.index_le, hs⟩

theorem RescueSponge.exists_call (hD : D.Total) (hr : 0 < D.rate) {self : DuplexSponge (ZMod p)} (hs : self.Valid D)
    (c : RescueCall (ZMod p)) : ∃ r, call D self c = .ok r := by
  cases c with
  | absorb input =>
    obtain ⟨self', h⟩ := exists_absorb hD hr hs input
    exact ⟨([], self'), by rw [call, h]; rfl⟩
  | squeezeFieldElements n => exact exists_squeeze hD hr hs n

theorem RescueSponge.call_valid (hD : D.KeepsWidth) (hr : 0 < D.rate) {self : DuplexSponge (ZMod p)}
    (hs : self.Valid D) {c : RescueCall (ZMod p)} {r : List (ZMod p) × DuplexSponge (ZMod p)}
    (h : call D self c = .ok r) : r.2.Valid D := by
  cases c with
  | absorb input =>
    obtain ⟨self', h, hr'⟩ := Except.bind_eq_ok.mp h
    rw [← Except.ok.inj hr']
    exact absorb_valid hD hr hs h
  | squeezeFieldElements n => exact squeeze_valid hD hr hs h

theorem RescueSpongeVar.call_realizes [LawfulCircuitFpVar p V] (hDG : DuplexRealizes D G)
    (hs : Fixed w fun ρ => self.map (eval ρ)) {c : RescueCall V} (hc : c.Allocated w) :
    Realizes w (call G self c) (fun ρ => RescueSponge.call D (self.map (eval ρ)) (c.values ρ)) outputValues := by
  cases c with
  | absorb input =>
    refine (absorb_realizes hDG hs hc).bind (h := fun ρ self => pure ([], self)) fun self w₁ _ hs => ?_
    exact .pure (fixed_outputValues (Circuit.fixed_const w₁ []) hs) fun _ => rfl
  | squeezeFieldElements n => exact squeezeFieldElements_realizes hDG hs n

/-- From a sponge that is ready a call returns, leaves one that is, and means the native
call. -/
theorem RescueSpongeVar.call_builds [LawfulCircuitFpVar p V] (hD : D.Total) (hr : 0 < D.rate)
    (hDG : DuplexRealizes D G) (hs : self.Ready D w) {c : RescueCall V} (hc : c.Allocated w) :
    Builds w (call G self c) (fun w' r => r.2.Ready D w') fun ρ r =>
      RescueSponge.call D (self.map (eval ρ)) (c.values ρ) = .ok (outputValues ρ r) := by
  have hok (ρ : Nat → ZMod p) := RescueSponge.exists_call hD hr (hs.valid ρ) (c.values ρ)
  refine (call_realizes hDG hs.fixed hc fun ρ _ => hok ρ).mono (fun w' r hw hS hfixed => ?_) fun _ _ h => h
  have hcall := hS _ (Circuit.extends_getD w')
  exact .of_valid (RescueSponge.call_valid hD.keepsWidth hr (hs.valid _) hcall) (hfixed.map Prod.snd)

end

/-! ## Runs -/

/-- The runs of a sponge in a circuit, from the values assigned and the sponge before the calls. -/
abbrev RescueSpongeVar.Run (G : Duplex (CircuitGadget p) V) : List (ZMod p) → DuplexSponge V → List (RescueCall V) →
    List (Constraint (ZMod p)) → List (List V × DuplexSponge V) → List (ZMod p) → DuplexSponge V → Prop :=
  Circuit.Run (call G) RescueCall.Allocated

section

variable [LawfulCircuitFpVar p V] {D : Duplex Outcome (ZMod p)} {G : Duplex (CircuitGadget p) V}
  {w w' : List (ZMod p)} {self self' : DuplexSponge V} {calls : List (RescueCall V)}
  {emitted : List (Constraint (ZMod p))} {results : List (List V × DuplexSponge V)}

namespace RescueSpongeVar

/-- The calls keep sponges ready, and mean the native calls. -/
theorem call_means (hD : D.Total) (hr : 0 < D.rate) (hDG : DuplexRealizes D G) :
    Circuit.Means (call G) RescueCall.Allocated (DuplexSponge.Ready D) (RescueSponge.call D)
      (fun ρ self => self.map (eval ρ)) RescueCall.values fun ρ output => output.map (eval ρ) where
  admissible_mono := fun hw h => h.mono hw
  ready_mono := fun hw h => h.mono hw
  builds := fun hs hc => call_builds hD hr hDG hs hc

/-- Accepted parameters with inverse exponents, and a predicate that means the power 5
where one is registered: from any sponge with constant and allocated entries, whatever
satisfies the constraints of a run gives the outputs and the sponges of the native run, and
the values assigned on the way satisfy them. The run can go on with any calls whose input
is allocated. -/
theorem run_sound_complete [Fact p.Prime] {predicates : String → Option (ZMod p → ZMod p → Prop)}
    {rounds alpha alphaInv : Nat} {mds arc : List (List (ZMod p))} {rate capacity : Nat}
    {config : RescueConfig (ZMod p)}
    (h : RescueConfig.new rounds alpha alphaInv mds arc rate capacity = .ok config) (hr : 1 ≤ rate)
    (hinv : InverseExponents p alpha alphaInv)
    (hpredicate : ∀ holds, predicates RESCUE_PREDICATE = some holds → ∀ x y, holds x y ↔ y = x ^ 5)
    (hl : self.state.length = rate + capacity) (hi : self.mode.index ≤ rate)
    (hs : Fixed w fun ρ => self.map (eval ρ))
    (hrun : Run (duplex predicates config) w self calls emitted results w' self') :
    (∀ ρ, Satisfies ρ emitted →
      trace (RescueSponge.call config.duplex) (self.map (eval ρ)) (calls.map (RescueCall.values ρ)) =
        .ok (results.map (outputValues ρ))) ∧
      (∀ ρ, Extends w' ρ → Satisfies ρ emitted) ∧
      ∀ further : List (RescueCall V), (∀ c ∈ further, c.Allocated w') →
        ∃ emitted' results' w'' self'',
          Run (duplex predicates config) w' self' further emitted' results' w'' self'' := by
  obtain ⟨rfl, haccepted⟩ := RescueConfig.new_eq_ok.mp h
  have hmeans := call_means (RescueConfig.duplex_total haccepted) hr
    (duplex_realizes (V := V) ⟨hinv, hpredicate⟩ haccepted)
  obtain ⟨-, hready, hhonest, hsound⟩ := hrun.spec hmeans ⟨hl.trans (Nat.add_comm rate capacity), hi, hs⟩
  exact ⟨hsound, hhonest, fun further hfurther => Circuit.Run.exists_of_ready hmeans hready hfurther⟩

end RescueSpongeVar

end

end

/-- Parameters over a field where `alphaInv` is the inverse exponent of 5. -/
def degree5ConfigOf (p alphaInv : Nat) : RescueConfig (ZMod p) where
  rounds := 1
  alpha := 5
  alphaInv := alphaInv
  arc := [[1, -1], [0, 1], [-1, 1]]
  mds := [[1, 1], [0, 1]]
  rate := 1
  capacity := 1

theorem new_degree5ConfigOf (p alphaInv : Nat) :
    RescueConfig.new 1 5 alphaInv (degree5ConfigOf p alphaInv).mds (degree5ConfigOf p alphaInv).arc 1 1 =
      .ok (degree5ConfigOf p alphaInv) := rfl

theorem degree5ConfigOf_accepted (p alphaInv : Nat) : (degree5ConfigOf p alphaInv).Accepted :=
  (RescueConfig.new_eq_ok.mp (new_degree5ConfigOf p alphaInv)).2

/-- In the field of seven elements 5 is its own inverse exponent. -/
abbrev degree5Config : RescueConfig (ZMod 7) := degree5ConfigOf 7 5

/-- The predicate, and no other. -/
def degree5 {p : Nat} : String → Option (ZMod p → ZMod p → Prop) := fun name =>
  if name = RESCUE_PREDICATE then some fun x y => y = x ^ 5 else none

theorem degree5_holds {p : Nat} {holds : ZMod p → ZMod p → Prop} (h : degree5 RESCUE_PREDICATE = some holds)
    (x y : ZMod p) : holds x y ↔ y = x ^ 5 := by
  obtain rfl := Option.some.inj ((if_pos rfl).symm.trans h)
  exact Iff.rfl

/-- A sponge with a constant and an allocated entry. -/
def mixedSponge {p : Nat} : DuplexSponge (LinearVar p) := ⟨[.constant 1, .var 0 [(1, 0)]], .squeezing 1⟩

/-- Its calls: a variable and a constant are absorbed. -/
def mixedCalls : List (RescueCall (LinearVar 7)) :=
  [.absorb [.var 1 [(-1, 0)], .constant (-1)], .squeezeFieldElements 2]

theorem eq_of_extends_singleton {p : Nat} {ρ ρ' : Nat → ZMod p} {x : ZMod p} (hρ : Extends [x] ρ)
    (hρ' : Extends [x] ρ') : ρ 0 = ρ' 0 := (hρ 0 x rfl).trans (hρ' 0 x rfl).symm

theorem mixedSponge_fixed {p : Nat} (x : ZMod p) : Fixed [x] fun ρ => mixedSponge.map (eval ρ) := fun ρ ρ' hρ hρ' => by
  simp only [mixedSponge, DuplexSponge.map, List.map_cons, List.map_nil, eval, LinearVar.eval,
    eq_of_extends_singleton hρ hρ']

open RescueSpongeVar in
theorem run_sound_complete_degree5 : ∃ emitted results w' self',
    Run (duplex degree5 degree5Config) [-1] mixedSponge mixedCalls emitted results w' self' ∧
      (∀ ρ, Satisfies ρ emitted →
        trace (RescueSponge.call degree5Config.duplex) (mixedSponge.map (LinearVar.eval ρ))
          (mixedCalls.map (RescueCall.values ρ)) = .ok (results.map (outputValues ρ))) ∧
      ∀ ρ, Extends w' ρ → Satisfies ρ emitted := by
  have hnew := new_degree5ConfigOf 7 5
  have hinv : InverseExponents 7 5 5 := ⟨4, rfl⟩
  have hs := mixedSponge_fixed (-1 : ZMod 7)
  have hcalls : ∀ c ∈ mixedCalls, c.Allocated [-1] := by
    refine List.forall_mem_cons.mpr ⟨fun ρ ρ' hρ hρ' => ?_, List.forall_mem_singleton.mpr trivial⟩
    simp only [List.map_cons, List.map_nil, eval, LinearVar.eval, eq_of_extends_singleton hρ hρ']
  have : Fact (Nat.Prime 7) := ⟨by decide⟩
  obtain ⟨-, -, hgo⟩ := run_sound_complete hnew le_rfl hinv (fun _ => degree5_holds) rfl le_rfl hs .done
  obtain ⟨emitted, results, w', self', hrun⟩ := hgo mixedCalls hcalls
  obtain ⟨hsound, hhonest, -⟩ := run_sound_complete hnew le_rfl hinv (fun _ => degree5_holds) rfl le_rfl hs hrun
  exact ⟨emitted, results, w', self', hrun, hsound, hhonest⟩

end CryptoPrimitives.Sponge
