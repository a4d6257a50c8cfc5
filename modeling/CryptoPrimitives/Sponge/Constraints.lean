import CryptoPrimitives.Gadget.Field
import CryptoPrimitives.Sponge.FieldElements

/-!
# The gadget of the Poseidon sponge

`poseidon/constraints.rs`, over variables `V` with the operations of `FpVar<F>`. It
runs the loops of the sponge on variables. `squeezeFieldElements_mirrors`,
`squeezeBits_mirrors`: where the sponge returns a value, so does the gadget, and the
variables have the values of the elements.
-/

namespace CryptoPrimitives.Sponge

open PrimeField (modulusBitSize toBitsLe)
open Synthesis (Computes Mirrors)

/-- A sponge of the values of variables. -/
def DuplexSponge.map {V W : Type} (f : V → W) (self : DuplexSponge V) : DuplexSponge W :=
  ⟨self.state.map f, self.mode⟩

variable {p : Nat} {V : Type} [FpVar p V]

/-- The values of the elements of a sponge. -/
def DuplexSponge.value (self : DuplexSponge V) : DuplexSponge (ZMod p) := self.map FpVar.value

namespace PoseidonSpongeVar

/-- `apply_s_box`. -/
def applySBox (parameters : PoseidonConfig (ZMod p)) (state : List V) (isFullRound : Bool) :
    Gadget (List V) :=
  if isFullRound then state.mapM fun stateItem => FpVar.powByConstant stateItem parameters.alpha
  else do
    let first ← liftM (index state 0 : Outcome V)
    let first ← FpVar.powByConstant first parameters.alpha
    pure (state.set 0 first)

/-- `apply_ark`. -/
def applyArk (parameters : PoseidonConfig (ZMod p)) (state : List V) (roundNumber : Nat) :
    Gadget (List V) :=
  state.zipIdx.mapM fun entry => do
    let keys ← liftM (index parameters.ark roundNumber : Outcome (List (ZMod p)))
    let key ← liftM (index keys entry.2 : Outcome (ZMod p))
    pure (FpVar.addConstant entry.1 key)

/-- `apply_mds`. -/
def applyMds (parameters : PoseidonConfig (ZMod p)) (state : List V) : Gadget (List V) :=
  (List.range state.length).mapM fun i =>
    state.zipIdx.foldlM (fun cur entry => do
      let row ← liftM (index parameters.mds i : Outcome (List (ZMod p)))
      let coefficient ← liftM (index row entry.2 : Outcome (ZMod p))
      pure (cur + FpVar.mulConstant entry.1 coefficient)) 0

/-- One round of `permute`. -/
def round (parameters : PoseidonConfig (ZMod p)) (isFullRound : Bool) (state : List V) (i : Nat) :
    Gadget (List V) := do
  let state ← applyArk parameters state i
  let state ← applySBox parameters state isFullRound
  applyMds parameters state

/-- `PoseidonSpongeVar::permute`. -/
def permute (parameters : PoseidonConfig (ZMod p)) (state : List V) : Gadget (List V) := do
  let fullRoundsOver2 := parameters.fullRounds / 2
  let state ← (List.range' 0 fullRoundsOver2).foldlM (round parameters true) state
  let state ← (List.range' fullRoundsOver2 parameters.partialRounds).foldlM (round parameters false) state
  (List.range' (fullRoundsOver2 + parameters.partialRounds)
    (parameters.partialRounds + parameters.fullRounds - (fullRoundsOver2 + parameters.partialRounds))).foldlM
    (round parameters true) state

/-- The permutation the gadget of these parameters is over. -/
def duplex (parameters : PoseidonConfig (ZMod p)) : Duplex Gadget V :=
  ⟨parameters.rate, parameters.capacity, permute parameters⟩

/-- `PoseidonSpongeVar::squeeze_field_elements`, which is the code of
`squeeze_native_field_elements`. -/
def squeezeFieldElements (D : Duplex Gadget V) (self : DuplexSponge V) (numElements : Nat) :
    Gadget (List V × DuplexSponge V) :=
  PoseidonSponge.squeezeNativeFieldElements D self numElements

/-- `PoseidonSpongeVar::squeeze_bits`. -/
def squeezeBits (D : Duplex Gadget V) (self : DuplexSponge V) (numBits : Nat) :
    Gadget (List Boolean × DuplexSponge V) := do
  let usableBits := modulusBitSize p - 1
  let numElements := (numBits + usableBits - 1) / usableBits
  let (srcElements, self) ← squeezeFieldElements D self numElements
  let bits ← srcElements.mapM fun elem => do
    let bits ← FpVar.toBitsLe elem
    liftM (slice bits 0 usableBits : Outcome (List Boolean))
  pure (bits.flatten.take numBits, self)

/-! ## The permutation -/

section

variable [LawfulFpVar p V]

theorem applyArk_mirrors (parameters : PoseidonConfig (ZMod p)) (state : List V) (i : Nat) :
    Mirrors (parameters.applyArk (state.map FpVar.value) i) (applyArk parameters state i)
      fun s vs => vs.map FpVar.value = s := by
  rw [PoseidonConfig.applyArk, addRow, List.zipIdx_map]
  refine Mirrors.mapM (fun entry => ?_) _
  refine mirrors_self_bind fun keys => ?_
  refine mirrors_self_bind fun key => ?_
  exact .pure (LawfulFpVar.value_addConstant _ _)

theorem applySBox_mirrors (parameters : PoseidonConfig (ZMod p)) (state : List V) (isFullRound : Bool) :
    Mirrors (parameters.applySBox (state.map FpVar.value) isFullRound) (applySBox parameters state isFullRound)
      fun s vs => vs.map FpVar.value = s := by
  have hpow (v : V) : Mirrors (.ok (FpVar.value v ^ parameters.alpha) : Outcome _)
      (FpVar.powByConstant v parameters.alpha) fun x w => FpVar.value w = x := fun x hx => by
    rw [← Except.ok.inj hx]
    exact LawfulFpVar.powByConstant_computes v parameters.alpha
  cases isFullRound with
  | true =>
    have h := Mirrors.mapM (f := fun x => .ok (x ^ parameters.alpha)) hpow state
    rwa [Except.mapM_eq_map fun x _ => rfl] at h
  | false =>
    refine (index_mirrors FpVar.value state 0).bind_eq fun v => ?_
    exact (hpow v).bind fun x w hw => .pure (by rw [List.map_set, hw])

theorem applyMds_mirrors (parameters : PoseidonConfig (ZMod p)) (state : List V) :
    Mirrors (parameters.applyMds (state.map FpVar.value)) (applyMds parameters state)
      fun s vs => vs.map FpVar.value = s := by
  rw [PoseidonConfig.applyMds, mulMatrix, List.zipIdx_map, List.length_map]
  refine Mirrors.mapM_same (fun i => Mirrors.foldlM ?_ _ LawfulFpVar.value_zero) _
  rintro _ cur rfl entry
  refine mirrors_self_bind fun row => ?_
  refine mirrors_self_bind fun coefficient => ?_
  exact .pure (by rw [LawfulFpVar.value_add, LawfulFpVar.value_mulConstant]; rfl)

theorem round_mirrors (parameters : PoseidonConfig (ZMod p)) (isFullRound : Bool) (state : List V) (i : Nat) :
    Mirrors (parameters.round isFullRound (state.map FpVar.value) i) (round parameters isFullRound state i)
      fun s vs => vs.map FpVar.value = s := by
  refine (applyArk_mirrors parameters state i).bind_eq fun state => ?_
  refine (applySBox_mirrors parameters state isFullRound).bind_eq fun state => ?_
  exact applyMds_mirrors parameters state

theorem permute_mirrors (parameters : PoseidonConfig (ZMod p)) (state : List V) :
    Mirrors (parameters.permute (state.map FpVar.value)) (permute parameters state)
      fun s vs => vs.map FpVar.value = s := by
  have hrounds (isFullRound : Bool) (rounds : List Nat) (state : List V) :
      Mirrors (rounds.foldlM (parameters.round isFullRound) (state.map FpVar.value))
        (rounds.foldlM (round parameters isFullRound) state) fun s vs => vs.map FpVar.value = s := by
    refine Mirrors.foldlM_same (fun s vs hs i => ?_) rounds rfl
    rw [← hs]
    exact round_mirrors parameters isFullRound vs i
  refine (hrounds true _ state).bind_eq fun state => ?_
  refine (hrounds false _ state).bind_eq fun state => ?_
  exact hrounds true _ state

end

end PoseidonSpongeVar

/-! ## Squeezing -/

/-- The gadget `G` permutes as `D` does. -/
structure DuplexMirrors (D : Duplex Outcome (ZMod p)) (G : Duplex Gadget V) : Prop where
  rate_eq : G.rate = D.rate
  capacity_eq : G.capacity = D.capacity
  permute (state : List V) :
    Mirrors (D.permute (state.map FpVar.value)) (G.permute state) fun s vs => vs.map FpVar.value = s

theorem PoseidonSpongeVar.duplex_mirrors [LawfulFpVar p V] (parameters : PoseidonConfig (ZMod p)) :
    DuplexMirrors parameters.duplex (duplex parameters : Duplex Gadget V) :=
  ⟨rfl, rfl, permute_mirrors parameters⟩

variable {D : Duplex Outcome (ZMod p)} {G : Duplex Gadget V}

theorem squeezeLoop_mirrors (hDG : DuplexMirrors D G) (fuel rateStartIndex outputRemaining : Nat)
    (state : List V) :
    Mirrors (squeezeLoop D fuel rateStartIndex outputRemaining (state.map FpVar.value))
      (squeezeLoop G fuel rateStartIndex outputRemaining state)
      fun r vr => (vr.1.map FpVar.value, vr.2.value) = r := by
  induction fuel generalizing rateStartIndex outputRemaining state with
  | zero => exact fun r hr => absurd hr raise_ne_ok
  | succ fuel ih =>
    rw [squeezeLoop, squeezeLoop, hDG.rate_eq, hDG.capacity_eq]
    split
    · refine (slice_mirrors FpVar.value state _ _).bind_eq fun output => ?_
      exact .pure rfl
    · refine mirrors_self_bind fun n => ?_
      refine (slice_mirrors FpVar.value state _ _).bind_eq fun output => ?_
      have hrest (state : List V) : Mirrors
          (squeezeLoop D fuel 0 (outputRemaining - n) (state.map FpVar.value) >>= fun rest =>
            pure (output.map FpVar.value ++ rest.1, rest.2))
          (squeezeLoop G fuel 0 (outputRemaining - n) state >>= fun rest => pure (output ++ rest.1, rest.2))
          fun r vr => (vr.1.map FpVar.value, vr.2.value) = r := by
        refine (ih 0 (outputRemaining - n) state).bind_eq fun rest => ?_
        exact .pure (by rw [List.map_append])
      dsimp only
      split
      · refine (hDG.permute state).bind_eq fun state => ?_
        exact hrest state
      · exact hrest state

theorem squeezeInternal_mirrors (hDG : DuplexMirrors D G) (rateStartIndex output : Nat) (state : List V) :
    Mirrors (squeezeInternal D rateStartIndex output (state.map FpVar.value))
      (squeezeInternal G rateStartIndex output state) fun r vr => (vr.1.map FpVar.value, vr.2.value) = r :=
  squeezeLoop_mirrors hDG _ _ _ _

namespace PoseidonSpongeVar

theorem squeezeFieldElements_mirrors (hDG : DuplexMirrors D G) (self : DuplexSponge V) (n : Nat) :
    Mirrors (PoseidonSponge.squeezeNativeFieldElements D self.value n) (squeezeFieldElements G self n)
      fun r vr => (vr.1.map FpVar.value, vr.2.value) = r := by
  obtain ⟨state, mode⟩ := self
  have hturned : Mirrors (D.permute (state.map FpVar.value) >>= fun state => squeezeInternal D 0 n state)
      (G.permute state >>= fun state => squeezeInternal G 0 n state)
      fun r vr => (vr.1.map FpVar.value, vr.2.value) = r := by
    refine (hDG.permute state).bind_eq fun state => ?_
    exact squeezeInternal_mirrors hDG 0 n state
  cases mode with
  | absorbing i => exact hturned
  | squeezing i =>
    simp only [squeezeFieldElements, PoseidonSponge.squeezeNativeFieldElements, DuplexSponge.value,
      DuplexSponge.map, hDG.rate_eq]
    split
    · exact hturned
    · exact squeezeInternal_mirrors hDG i n state

theorem squeezeBits_mirrors [LawfulFpVar p V] (hDG : DuplexMirrors D G) (self : DuplexSponge V) (n : Nat) :
    Mirrors (PoseidonSponge.squeezeBits D self.value n) (squeezeBits G self n)
      fun r vr => (vr.1.map Boolean.value, vr.2.value) = r := by
  have hbits (elem : V) : Mirrors (slice (toBitsLe (FpVar.value elem)) 0 (modulusBitSize p - 1) : Outcome _)
      (do
        let bits ← FpVar.toBitsLe elem
        liftM (slice bits 0 (modulusBitSize p - 1) : Outcome (List Boolean)))
      fun bs vs => vs.map Boolean.value = bs := fun bs hbs => by
    refine (LawfulFpVar.toBitsLe_computes elem).bind fun bits hbits => ?_
    have hlen : bits.length = modulusBitSize p := by
      rw [← List.length_map Boolean.value, hbits, List.length_map, List.length_range]
    rw [PoseidonSponge.slice_toBitsLe, Except.ok.injEq] at hbs
    rw [slice_of_le (Nat.zero_le _) (by omega), ← hbs]
    refine Computes.pure ?_
    show ((bits.drop 0).take _).map Boolean.value = _
    rw [List.drop_zero, Nat.sub_zero, List.map_take, hbits, ← List.map_take, List.take_range,
      Nat.min_eq_left (Nat.sub_le _ 1)]
    rfl
  rw [PoseidonSponge.squeezeBits, squeezeBits]
  refine (squeezeFieldElements_mirrors hDG self _).bind ?_
  rintro _ ⟨elements, self⟩ rfl
  refine (Mirrors.mapM hbits elements).bind_eq fun bits => ?_
  exact .pure (by rw [List.map_take, List.map_flatten])

end PoseidonSpongeVar

end CryptoPrimitives.Sponge
