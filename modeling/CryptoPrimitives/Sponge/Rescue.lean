import CryptoPrimitives.Sponge.Duplex

/-!
# The Rescue sponge

`rescue/mod.rs`. Its `squeeze_internal` decides from the number of outputs asked
for, not of those left, whether to permute: `squeezeInternal_eq` says when that is
right, and `squeezeInternal_rate` that a request of `rate` elements from inside a
block repeats the block instead.
-/

namespace CryptoPrimitives.Sponge

open Duplex (Cursor)
open Except (bind_eq_ok)

/-- `RescueConfig`. -/
structure RescueConfig (F : Type) where
  rounds : Nat
  alpha : Nat
  alphaInv : Nat
  arc : List (List F)
  mds : List (List F)
  rate : Nat
  capacity : Nat

namespace RescueConfig

variable {F : Type}

/-- `RescueConfig::new`. -/
def new (rounds alpha alphaInv : Nat) (mds arc : List (List F)) (rate capacity : Nat) :
    Outcome (RescueConfig F) := do
  assertEq arc.length (2 * rounds + 1)
  arc.forM fun item => assertEq item.length (rate + capacity)
  assertEq mds.length (rate + capacity)
  mds.forM fun item => assertEq item.length (rate + capacity)
  pure { rounds, alpha, alphaInv, arc, mds, rate, capacity }

/-- What `RescueConfig::new` asserts. -/
structure Accepted (config : RescueConfig F) : Prop where
  length_arc : config.arc.length = 2 * config.rounds + 1
  width_arc : ∀ item ∈ config.arc, item.length = config.rate + config.capacity
  length_mds : config.mds.length = config.rate + config.capacity
  width_mds : ∀ item ∈ config.mds, item.length = config.rate + config.capacity

theorem new_eq_ok {rounds alpha alphaInv : Nat} {mds arc : List (List F)} {rate capacity : Nat}
    {self : RescueConfig F} :
    new rounds alpha alphaInv mds arc rate capacity = .ok self ↔
      self = { rounds, alpha, alphaInv, arc, mds, rate, capacity } ∧ self.Accepted := by
  simp only [new, bind_eq_ok, assertEq_eq_ok, Except.forM_eq_ok, Except.pure_eq_ok, Except.ok.injEq, exists_const]
  constructor
  · rintro ⟨harc, hitems, hmds, hrows, rfl⟩
    exact ⟨rfl, harc, hitems, hmds, hrows⟩
  · rintro ⟨rfl, harc, hitems, hmds, hrows⟩
    exact ⟨harc, hitems, hmds, hrows, rfl⟩

variable [CommRing F]

/-- `apply_s_box`. -/
def applySBox (self : RescueConfig F) (state : List F) (round : Nat) : List F :=
  if round % 2 = 0 then state.map (· ^ self.alphaInv) else state.map (· ^ self.alpha)

/-- `apply_arc`. -/
def applyArc (self : RescueConfig F) (state : List F) (roundNumber : Nat) : Outcome (List F) :=
  addRow self.arc state roundNumber

/-- `apply_mds`. -/
def applyMds (self : RescueConfig F) (state : List F) : Outcome (List F) := mulMatrix self.mds state

/-- One round of `permute`. -/
def round (self : RescueConfig F) (state : List F) (round : Nat) : Outcome (List F) := do
  let state := self.applySBox state round
  let state ← self.applyMds state
  self.applyArc state (round + 1)

/-- `RescueSponge::permute`. -/
def permute (self : RescueConfig F) (state : List F) : Outcome (List F) := do
  assertEq (self.rounds * 2 + 1) self.arc.length
  let state ← self.applyArc state 0
  (List.range (self.arc.length - 1)).foldlM self.round state

/-- The permutation the sponge of these parameters is over. -/
def duplex (self : RescueConfig F) : Duplex Outcome F := ⟨self.rate, self.capacity, self.permute⟩

theorem length_round {self : RescueConfig F} {state state' : List F} {i : Nat}
    (h : self.round state i = .ok state') : state'.length = state.length := by
  obtain ⟨state₁, h₁, h₂⟩ := bind_eq_ok.mp h
  rw [length_addRow h₂, length_mulMatrix h₁, applySBox]
  split
  · exact List.length_map _
  · exact List.length_map _

theorem permute_keepsWidth (self : RescueConfig F) : self.duplex.KeepsWidth := by
  intro state state' h hw
  simp only [duplex, permute, bind_eq_ok] at h
  obtain ⟨-, -, state₁, h₁, h₂⟩ := h
  have hl := Except.foldlM_induction (P := fun s : List F => s.length = state.length)
    (fun s i _ s' hs hr => (length_round hr).trans hs) (length_addRow h₁) h₂
  rw [hl, hw]

/-- With accepted parameters, the permutation takes a state of full width to one. -/
theorem duplex_total {self : RescueConfig F} (h : self.Accepted) : self.duplex.Total := by
  intro state hs
  change state.length = self.capacity + self.rate at hs
  have harc {s : List F} {i : Nat} (hi : i < self.arc.length) (hs : s.length = self.capacity + self.rate) :
      ∃ s', self.applyArc s i = .ok s' :=
    exists_addRow hi fun keys hkeys => by rw [h.width_arc keys hkeys, hs, Nat.add_comm]
  have hround (s : List F) (i : Nat) (hi : i ∈ List.range (self.arc.length - 1))
      (hs : s.length = self.capacity + self.rate) :
      ∃ s', self.round s i = .ok s' ∧ s'.length = self.capacity + self.rate := by
    have hbox : (self.applySBox s i).length = self.rate + self.capacity := by
      rw [applySBox, apply_ite List.length, List.length_map, List.length_map, ite_self, hs, Nat.add_comm]
    obtain ⟨s₁, h₁⟩ := exists_mulMatrix (h.length_mds.trans hbox.symm) fun row hrow =>
      (h.width_mds row hrow).trans hbox.symm
    have hl₁ := length_mulMatrix h₁
    obtain ⟨s₂, h₂⟩ := harc (s := s₁) (i := i + 1) (by have := List.mem_range.mp hi; omega) (by omega)
    have hok : self.round s i = .ok s₂ := by
      simp only [round, applyMds, h₁, Except.ok_bind, h₂]
    exact ⟨s₂, hok, (length_round hok).trans hs⟩
  obtain ⟨s₁, h₁⟩ := harc (i := 0) (by rw [h.length_arc]; omega) hs
  have hl₁ : s₁.length = self.capacity + self.rate := (length_addRow h₁).trans hs
  obtain ⟨s₂, h₂, hl₂⟩ := Except.exists_foldlM hround hl₁
  refine ⟨s₂, ?_, hl₂⟩
  show self.permute state = .ok s₂
  rw [permute, (assertEq_eq_ok (u := ())).mpr (by rw [h.length_arc, Nat.mul_comm]), Except.ok_bind, h₁, Except.ok_bind,
    h₂]

end RescueConfig

/-! ## The sponge -/

namespace RescueSponge

section

variable {m : Type → Type} [Monad m] [MonadLiftT Outcome m] {V : Type}

/-- `RescueSponge::absorb` of an input with these field elements. -/
def absorb [Add V] (D : Duplex m V) (self : DuplexSponge V) (elems : List V) : m (DuplexSponge V) :=
  if elems.isEmpty then pure self
  else
    match self.mode with
    | .absorbing nextAbsorbIndex =>
      if nextAbsorbIndex = D.rate then do
        let state ← D.permute self.state
        absorbInternal D 0 elems state
      else absorbInternal D nextAbsorbIndex elems self.state
    | .squeezing _ => do
      let state ← D.permute self.state
      absorbInternal D 0 elems state

/-- The loop of `squeeze_internal`, with fuel for each block. It permutes unless
`rate` outputs were left before it copied this block's. -/
def squeezeLoop (D : Duplex m V) : Nat → Nat → Nat → List V → m (List V × DuplexSponge V)
  | 0, _, _, _ => liftM (raise .diverge : Outcome (List V × DuplexSponge V))
  | fuel + 1, rateStartIndex, outputRemaining, state =>
    if rateStartIndex + outputRemaining ≤ D.rate then do
      let output ← liftM (slice state (D.capacity + rateStartIndex)
        (D.capacity + outputRemaining + rateStartIndex) : Outcome (List V))
      pure (output, ⟨state, .squeezing (rateStartIndex + outputRemaining)⟩)
    else do
      let numElementsSqueezed ← liftM (usizeSub D.rate rateStartIndex : Outcome Nat)
      let output ← liftM (slice state (D.capacity + rateStartIndex)
        (D.capacity + numElementsSqueezed + rateStartIndex) : Outcome (List V))
      let state ← if outputRemaining ≠ D.rate then D.permute state else pure state
      let rest ← squeezeLoop D fuel 0 (outputRemaining - numElementsSqueezed) state
      pure (output ++ rest.1, rest.2)

/-- `RescueSponge::squeeze_internal`. -/
def squeezeInternal (D : Duplex m V) (rateStartIndex output : Nat) (state : List V) :
    m (List V × DuplexSponge V) :=
  squeezeLoop D (output + 2) rateStartIndex output state

/-- `RescueSponge::squeeze_native_field_elements`. -/
def squeezeNativeFieldElements (D : Duplex m V) (self : DuplexSponge V) (numElements : Nat) :
    m (List V × DuplexSponge V) :=
  match self.mode with
  | .absorbing _ => do
    let state ← D.permute self.state
    squeezeInternal D 0 numElements state
  | .squeezing nextSqueezeIndex =>
    if nextSqueezeIndex = D.rate then do
      let state ← D.permute self.state
      squeezeInternal D 0 numElements state
    else squeezeInternal D nextSqueezeIndex numElements self.state

end

variable {V : Type} {D : Duplex Outcome V}

/-! ## One call -/

/-- Where absorbing goes on: a sponge that squeezes permutes first. -/
def absorbCursor (D : Duplex Outcome V) (self : DuplexSponge V) : Cursor V :=
  match self.mode with
  | .absorbing nextAbsorbIndex => ⟨self.state, nextAbsorbIndex⟩
  | .squeezing _ => ⟨self.state, D.rate⟩

theorem absorb_eq [Add V] (hD : D.KeepsWidth) (hr : 0 < D.rate) {self : DuplexSponge V} (hs : self.Valid D)
    {elems : List V} (h : elems ≠ []) :
    absorb D self elems = absorbed <$> D.absorbAll (absorbCursor D self) elems := by
  obtain ⟨state, mode⟩ := self
  have hl : state.length = D.capacity + D.rate := hs.length_state
  have hempty : elems.isEmpty ≠ true := fun hnil => h (List.isEmpty_iff.mp hnil)
  have hturned := permute_absorbInternal hD hr hl h
  rw [absorb, if_neg hempty]
  cases mode with
  | absorbing i =>
    by_cases hi : i = D.rate
    · simp only [hi, if_pos, absorbCursor]
      exact hturned
    · simp only [hi, if_false]
      exact absorbInternal_eq hD hr (c := ⟨state, i⟩) ⟨hl, hs.index_le⟩ elems
  | squeezing i => exact hturned

theorem squeezeLoop_eq (hD : D.KeepsWidth) (hr : 0 < D.rate) {fuel : Nat} {c : Cursor V}
    (hc : c.Valid D) (hlt : c.index < D.rate) {n : Nat} (hn : c.index = 0 ∨ n ≠ D.rate) (hf : n + 1 ≤ fuel) :
    squeezeLoop D fuel c.index n c.block = squeezed <$> D.squeezeMany n c := by
  induction fuel generalizing c n with
  | zero => omega
  | succ fuel ih =>
    have hle := hc.index_le
    rw [squeezeLoop]
    split
    · rename_i h
      rw [liftM_outcome, slice_block hc h, Except.ok_bind, Duplex.squeezeMany_block h]
      rfl
    · rename_i h
      simp only [liftM_outcome, usizeSub_of_le hle, Except.ok_bind]
      rw [slice_block hc (by omega), Except.ok_bind, if_pos (by omega)]
      refine squeezeBlock_eq hD hr hc (by omega) fun block hw => ?_
      exact ih (c := ⟨block, 0⟩) ⟨hw, Nat.zero_le _⟩ hr (.inl rfl) (by omega)

/-- `squeeze_internal` reads the outputs one by one, unless it is asked for `rate`
of them from inside a block. -/
theorem squeezeInternal_eq (hD : D.KeepsWidth) (hr : 0 < D.rate) {c : Cursor V} (hc : c.Valid D)
    (hlt : c.index < D.rate) {n : Nat} (hn : c.index = 0 ∨ n ≠ D.rate) :
    squeezeInternal D c.index n c.block = squeezed <$> D.squeezeMany n c :=
  squeezeLoop_eq hD hr hc hlt hn (by omega)

/-- The rest of a block, and then its start again. -/
def repeated (D : Duplex Outcome V) (c : Cursor V) : List V :=
  (c.block.drop (D.capacity + c.index)).take (D.rate - c.index) ++ (c.block.drop D.capacity).take c.index

theorem length_repeated {c : Cursor V} (hc : c.Valid D) : (repeated D c).length = D.rate := by
  have hl := hc.length_block
  have hle := hc.index_le
  rw [repeated, List.length_append, List.length_take_of_le (by rw [List.length_drop]; omega),
    List.length_take_of_le (by rw [List.length_drop]; omega), Nat.sub_add_cancel hle]

/-- Asked for `rate` outputs from inside a block, it does not permute. -/
theorem squeezeInternal_rate {c : Cursor V} (hc : c.Valid D) (h0 : c.index ≠ 0) :
    squeezeInternal D c.index D.rate c.block = .ok (squeezed (repeated D c, c)) := by
  have hle := hc.index_le
  have hstart : (slice c.block (D.capacity + 0) (D.capacity + c.index + 0) : Outcome (List V)) =
      .ok ((c.block.drop D.capacity).take c.index) :=
    slice_block (c := ⟨c.block, 0⟩) ⟨hc.length_block, Nat.zero_le _⟩ (by simpa using hle)
  rw [squeezeInternal, squeezeLoop, if_neg (by omega)]
  simp only [liftM_outcome, usizeSub_of_le hle, Except.ok_bind]
  rw [slice_block hc (by omega), Except.ok_bind, if_neg (not_not.mpr rfl), pure_bind,
    show D.rate - (D.rate - c.index) = c.index by omega, squeezeLoop, if_pos (by omega), liftM_outcome, hstart,
    Except.ok_bind, Nat.zero_add]
  rfl

end RescueSponge

end CryptoPrimitives.Sponge
