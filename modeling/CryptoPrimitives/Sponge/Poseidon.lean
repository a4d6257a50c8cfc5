import CryptoPrimitives.Sponge.Duplex
import Mathlib.Algebra.Field.ZMod

/-!
# The Poseidon sponge

`poseidon/mod.rs`: the parameters and their permutation, and the sponge over any
permutation. `permute_total`: with accepted parameters the permutation takes every
state of full width to one. `absorb_eq`, `squeezeNativeFieldElements_eq`: the
sponge walks through its blocks entry by entry.
-/

namespace CryptoPrimitives.Sponge

open Duplex (Cursor)

/-- `PoseidonConfig`. -/
structure PoseidonConfig (F : Type) where
  fullRounds : Nat
  partialRounds : Nat
  alpha : Nat
  ark : List (List F)
  mds : List (List F)
  rate : Nat
  capacity : Nat

namespace PoseidonConfig

variable {F : Type}

/-- `PoseidonConfig::new`. -/
def new (fullRounds partialRounds alpha : Nat) (mds ark : List (List F)) (rate capacity : Nat) :
    Outcome (PoseidonConfig F) := do
  assertEq ark.length (fullRounds + partialRounds)
  ark.forM fun item => assertEq item.length (rate + capacity)
  assertEq mds.length (rate + capacity)
  mds.forM fun item => assertEq item.length (rate + capacity)
  pure { fullRounds, partialRounds, alpha, mds, ark, rate, capacity }

/-- What `PoseidonConfig::new` asserts. -/
structure Accepted (config : PoseidonConfig F) : Prop where
  length_ark : config.ark.length = config.fullRounds + config.partialRounds
  width_ark : ∀ item ∈ config.ark, item.length = config.rate + config.capacity
  length_mds : config.mds.length = config.rate + config.capacity
  width_mds : ∀ item ∈ config.mds, item.length = config.rate + config.capacity

theorem new_eq_ok {fullRounds partialRounds alpha : Nat} {mds ark : List (List F)} {rate capacity : Nat}
    {self : PoseidonConfig F} :
    new fullRounds partialRounds alpha mds ark rate capacity = .ok self ↔
      self = { fullRounds, partialRounds, alpha, mds, ark, rate, capacity } ∧ self.Accepted := by
  simp only [new, Except.bind_eq_ok, assertEq_eq_ok, Except.forM_eq_ok, Except.pure_eq_ok, Except.ok.injEq,
    exists_const]
  constructor
  · rintro ⟨hark, hitems, hmds, hrows, rfl⟩
    exact ⟨rfl, hark, hitems, hmds, hrows⟩
  · rintro ⟨rfl, hark, hitems, hmds, hrows⟩
    exact ⟨hark, hitems, hmds, hrows, rfl⟩

variable [CommRing F]

/-- `apply_s_box`. -/
def applySBox (self : PoseidonConfig F) (state : List F) (isFullRound : Bool) : Outcome (List F) :=
  if isFullRound then pure (state.map (· ^ self.alpha))
  else do
    let first ← index state 0
    pure (state.set 0 (first ^ self.alpha))

/-- `apply_ark`. -/
def applyArk (self : PoseidonConfig F) (state : List F) (roundNumber : Nat) : Outcome (List F) :=
  addRow self.ark state roundNumber

/-- `apply_mds`. -/
def applyMds (self : PoseidonConfig F) (state : List F) : Outcome (List F) := mulMatrix self.mds state

/-- One round of `permute`. -/
def round (self : PoseidonConfig F) (isFullRound : Bool) (state : List F) (i : Nat) :
    Outcome (List F) := do
  let state ← self.applyArk state i
  let state ← self.applySBox state isFullRound
  self.applyMds state

/-- `PoseidonSponge::permute`. -/
def permute (self : PoseidonConfig F) (state : List F) : Outcome (List F) := do
  let fullRoundsOver2 := self.fullRounds / 2
  let state ← (List.range' 0 fullRoundsOver2).foldlM (self.round true) state
  let state ← (List.range' fullRoundsOver2 self.partialRounds).foldlM (self.round false) state
  (List.range' (fullRoundsOver2 + self.partialRounds)
    (self.partialRounds + self.fullRounds - (fullRoundsOver2 + self.partialRounds))).foldlM
    (self.round true) state

/-- The permutation the sponge of these parameters is over. -/
def duplex (self : PoseidonConfig F) : Duplex Outcome F := ⟨self.rate, self.capacity, self.permute⟩

theorem length_round {self : PoseidonConfig F} {isFullRound : Bool} {state state' : List F} {i : Nat}
    (h : self.round isFullRound state i = .ok state') : state'.length = state.length := by
  simp only [round, Except.bind_eq_ok] at h
  obtain ⟨state₁, h₁, state₂, h₂, h₃⟩ := h
  have hbox : state₂.length = state₁.length := by
    cases isFullRound with
    | true => rw [← Except.ok.inj h₂, List.length_map]
    | false =>
      obtain ⟨first, -, h₂⟩ := Except.bind_eq_ok.mp h₂
      rw [← Except.ok.inj h₂, List.length_set]
  rw [length_mulMatrix h₃, hbox, length_addRow h₁]

theorem permute_keepsWidth (self : PoseidonConfig F) : self.duplex.KeepsWidth := by
  intro state state' h hw
  simp only [duplex, permute, Except.bind_eq_ok] at h
  obtain ⟨state₁, h₁, state₂, h₂, h₃⟩ := h
  have hfold : ∀ {isFullRound : Bool} {rounds : List Nat} {s s' : List F},
      rounds.foldlM (self.round isFullRound) s = .ok s' → s.length = state.length →
      s'.length = state.length := fun h hs =>
    Except.foldlM_induction (fun s i _ s' hs hr => (length_round hr).trans hs) hs h
  rw [hfold h₃ (hfold h₂ (hfold h₁ rfl)), hw]

/-- With accepted parameters, the permutation takes a state of full width to a state. -/
theorem permute_total {self : PoseidonConfig F} (h : self.Accepted) (hw : 0 < self.rate + self.capacity)
    {state : List F} (hs : state.length = self.capacity + self.rate) :
    ∃ state', self.permute state = .ok state' := by
  have hround : ∀ isFullRound s, ∀ i < self.fullRounds + self.partialRounds,
      s.length = self.capacity + self.rate →
      ∃ s', self.round isFullRound s i = .ok s' ∧ s'.length = self.capacity + self.rate := by
    intro isFullRound s i hi hs
    have hwidth : self.rate + self.capacity = s.length := by rw [hs, Nat.add_comm]
    obtain ⟨s₁, h₁⟩ := exists_addRow (h.length_ark ▸ hi) fun keys hkeys => (h.width_ark keys hkeys).trans hwidth
    have hl₁ := length_addRow h₁
    obtain ⟨s₂, h₂, hl₂⟩ : ∃ s₂, self.applySBox s₁ isFullRound = .ok s₂ ∧ s₂.length = s₁.length := by
      cases isFullRound with
      | true => exact ⟨_, rfl, List.length_map _⟩
      | false =>
        have hpos : 0 < s₁.length := by omega
        refine ⟨s₁.set 0 (s₁[0] ^ self.alpha), ?_, List.length_set⟩
        rw [applySBox, if_neg Bool.false_ne_true, index_of_lt hpos]
        rfl
    obtain ⟨s₃, h₃⟩ := exists_mulMatrix (h.length_mds.trans (hwidth.trans (hl₂.trans hl₁).symm))
      fun row hrow => (h.width_mds row hrow).trans (hwidth.trans (hl₂.trans hl₁).symm)
    have hok : self.round isFullRound s i = .ok s₃ := by
      simp only [round, applyArk, h₁, Except.ok_bind, h₂]
      exact h₃
    exact ⟨s₃, hok, (length_round hok).trans hs⟩
  have hfold : ∀ isFullRound start n s, start + n ≤ self.fullRounds + self.partialRounds →
      s.length = self.capacity + self.rate →
      ∃ s', (List.range' start n).foldlM (self.round isFullRound) s = .ok s' ∧
        s'.length = self.capacity + self.rate := fun isFullRound start n s hn hs =>
    Except.exists_foldlM (P := fun s : List F => s.length = self.capacity + self.rate)
      (fun s i hi => hround isFullRound s i (by
        have := List.mem_range'_1.mp hi
        omega)) hs
  obtain ⟨s₁, h₁, hs₁⟩ := hfold true 0 (self.fullRounds / 2) state (by omega) hs
  obtain ⟨s₂, h₂, hs₂⟩ := hfold false (self.fullRounds / 2) self.partialRounds s₁ (by omega) hs₁
  obtain ⟨s₃, h₃, -⟩ := hfold true (self.fullRounds / 2 + self.partialRounds)
    (self.partialRounds + self.fullRounds - (self.fullRounds / 2 + self.partialRounds)) s₂ (by omega) hs₂
  exact ⟨s₃, by simp only [permute, h₁, Except.ok_bind, h₂, h₃]⟩

theorem duplex_total {self : PoseidonConfig F} (h : self.Accepted) (hr : 0 < self.rate) :
    self.duplex.Total := fun state hs => by
  obtain ⟨state', hp⟩ := permute_total h (Nat.add_pos_left hr _) hs
  exact ⟨state', hp, self.permute_keepsWidth _ _ hp hs⟩

end PoseidonConfig

/-- Parameters of two rounds on three entries. -/
def smallConfigOf (p : Nat) : PoseidonConfig (ZMod p) where
  fullRounds := 1
  partialRounds := 1
  alpha := 3
  ark := [[1, 2, 3], [4, 0, 1]]
  mds := [[2, 1, 1], [1, 2, 1], [1, 1, 2]]
  rate := 2
  capacity := 1

theorem new_smallConfigOf (p : Nat) :
    PoseidonConfig.new 1 1 3 (smallConfigOf p).mds (smallConfigOf p).ark 2 1 = .ok (smallConfigOf p) := rfl

theorem smallConfigOf_accepted (p : Nat) : (smallConfigOf p).Accepted :=
  (PoseidonConfig.new_eq_ok.mp (new_smallConfigOf p)).2

/-- Over a field of five elements. -/
abbrev smallConfig : PoseidonConfig (ZMod 5) := smallConfigOf 5

/-! ## The sponge -/

namespace PoseidonSponge

section

variable {m : Type → Type} [Monad m] [MonadLiftT Outcome m] {V : Type}

/-- `PoseidonSponge::absorb` of an input with these field elements. -/
def absorb [Add V] (D : Duplex m V) (self : DuplexSponge V) (elems : List V) : m (DuplexSponge V) :=
  if elems.isEmpty then pure self
  else
    match self.mode with
    | .absorbing nextAbsorbIndex =>
      if nextAbsorbIndex = D.rate then do
        let state ← D.permute self.state
        absorbInternal D 0 elems state
      else absorbInternal D nextAbsorbIndex elems self.state
    | .squeezing _ => absorbInternal D 0 elems self.state

/-- `PoseidonSponge::squeeze_native_field_elements`. -/
def squeezeNativeFieldElements (D : Duplex m V) (self : DuplexSponge V) (numElements : Nat) :
    m (List V × DuplexSponge V) :=
  match self.mode with
  | .absorbing _ => do
    let state ← D.permute self.state
    squeezeInternal D 0 numElements state
  | .squeezing nextSqueezeIndex =>
    if nextSqueezeIndex = D.rate then do
      let state ← D.permute self.state
      squeezeInternal D 0 numElements state
    else squeezeInternal D nextSqueezeIndex numElements self.state

end

variable {V : Type} {D : Duplex Outcome V}

/-- Where absorbing goes on: a sponge that squeezes starts over. -/
def absorbCursor (self : DuplexSponge V) : Cursor V :=
  match self.mode with
  | .absorbing nextAbsorbIndex => ⟨self.state, nextAbsorbIndex⟩
  | .squeezing _ => ⟨self.state, 0⟩

theorem absorbCursor_valid {self : DuplexSponge V} (hs : self.Valid D) : (absorbCursor self).Valid D := by
  obtain ⟨state, mode⟩ := self
  cases mode with
  | absorbing i => exact ⟨hs.length_state, hs.index_le⟩
  | squeezing i => exact ⟨hs.length_state, Nat.zero_le _⟩

theorem absorb_eq [Add V] (hD : D.KeepsWidth) (hr : 0 < D.rate) {self : DuplexSponge V} (hs : self.Valid D)
    {elems : List V} (h : elems ≠ []) :
    absorb D self elems = absorbed <$> D.absorbAll (absorbCursor self) elems := by
  obtain ⟨state, mode⟩ := self
  have hl : state.length = D.capacity + D.rate := hs.length_state
  have hempty : elems.isEmpty ≠ true := fun hnil => h (List.isEmpty_iff.mp hnil)
  rw [absorb, if_neg hempty]
  cases mode with
  | absorbing i =>
    by_cases hi : i = D.rate
    · simp only [hi, if_pos, absorbCursor]
      exact permute_absorbInternal hD hr hl h
    · simp only [hi, if_false]
      exact absorbInternal_eq hD hr (c := ⟨state, i⟩) ⟨hl, hs.index_le⟩ elems
  | squeezing i => exact absorbInternal_eq hD hr (c := ⟨state, 0⟩) ⟨hl, Nat.zero_le _⟩ elems

theorem squeezeNativeFieldElements_eq (hD : D.KeepsWidth) (hr : 0 < D.rate) {self : DuplexSponge V}
    (hs : self.Valid D) (n : Nat) :
    squeezeNativeFieldElements D self n =
      D.turn (self.squeezeCursor D) >>= fun c => squeezed <$> D.squeezeMany n c := by
  obtain ⟨state, mode⟩ := self
  have hl : state.length = D.capacity + D.rate := hs.length_state
  have hturned : (D.permute state >>= fun state => squeezeInternal D 0 n state) =
      D.turn ⟨state, D.rate⟩ >>= fun c => squeezed <$> D.squeezeMany n c := by
    rw [Duplex.turn_rate]
    cases hp : D.permute state with
    | error e => rfl
    | ok block => exact squeezeInternal_eq hD hr (c := ⟨block, 0⟩) ⟨hD _ _ hp hl, Nat.zero_le _⟩ n
  cases mode with
  | absorbing i => exact hturned
  | squeezing i =>
    by_cases hi : i = D.rate
    · simp only [squeezeNativeFieldElements, hi, if_pos, DuplexSponge.squeezeCursor]
      exact hturned
    · simp only [squeezeNativeFieldElements, hi, if_false, DuplexSponge.squeezeCursor]
      rw [Duplex.turn_of_ne hi]
      exact squeezeInternal_eq hD hr (c := ⟨state, i⟩) ⟨hl, hs.index_le⟩ n

/-- Absorbing returns, and keeps the sponge valid. -/
theorem exists_absorb [Add V] (hD : D.Total) (hr : 0 < D.rate) {self : DuplexSponge V} (hs : self.Valid D)
    (elems : List V) : ∃ self', absorb D self elems = .ok self' ∧ self'.Valid D := by
  by_cases hne : elems = []
  · exact ⟨self, by rw [hne]; rfl, hs⟩
  obtain ⟨c, habsorb, hc⟩ := Duplex.exists_absorbAll hD hr (absorbCursor_valid hs) elems
  exact ⟨absorbed c, by rw [absorb_eq hD.keepsWidth hr hs hne, habsorb]; rfl, hc.length_block, hc.index_le⟩

theorem squeezeNativeFieldElements_valid (hD : D.KeepsWidth) (hr : 0 < D.rate) {self self' : DuplexSponge V}
    (hs : self.Valid D) {n : Nat} {output : List V}
    (h : squeezeNativeFieldElements D self n = .ok (output, self')) : self'.Valid D := by
  rw [squeezeNativeFieldElements_eq hD hr hs, Except.bind_eq_ok] at h
  obtain ⟨c, hturn, h⟩ := h
  obtain ⟨⟨xs, c'⟩, hmany, h⟩ := Except.map_eq_ok.mp h
  obtain ⟨hl, hlt, -⟩ := Duplex.turn_valid hD hr hs.squeezeCursor hturn
  obtain ⟨hvalid, -, -⟩ := Duplex.squeezeMany_valid hD hr ⟨hl, hlt.le⟩ hmany
  obtain ⟨-, rfl⟩ := Prod.mk.inj h
  exact ⟨hvalid.length_block, hvalid.index_le⟩

theorem exists_squeezeNativeFieldElements (hD : D.Total) (hr : 0 < D.rate) {self : DuplexSponge V}
    (hs : self.Valid D) (n : Nat) :
    ∃ output self', squeezeNativeFieldElements D self n = .ok (output, self') ∧ output.length = n := by
  obtain ⟨c, hturn⟩ := Duplex.exists_turn hD hs.squeezeCursor
  obtain ⟨hl, hlt, -⟩ := Duplex.turn_valid hD.keepsWidth hr hs.squeezeCursor hturn
  obtain ⟨⟨output, c'⟩, hmany⟩ := Duplex.exists_squeezeMany hD hr ⟨hl, hlt.le⟩ n
  obtain ⟨-, hlen, -⟩ := Duplex.squeezeMany_valid hD.keepsWidth hr ⟨hl, hlt.le⟩ hmany
  refine ⟨output, (squeezed (output, c')).2, ?_, hlen⟩
  rw [squeezeNativeFieldElements_eq hD.keepsWidth hr hs, hturn, Except.ok_bind, hmany]
  rfl

end PoseidonSponge

end CryptoPrimitives.Sponge
