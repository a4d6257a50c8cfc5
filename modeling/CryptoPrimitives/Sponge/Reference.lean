import CryptoPrimitives.Sponge.Poseidon
import CryptoPrimitives.Rust.Collections
import Mathlib.Algebra.Field.ZMod

/-!
# The reference sponge of the Poseidon tests

`run_cross_test` compares the sponge with one that queues what it absorbs. The
sponge permutes late and the reference in blocks: `Refines` says where they stand
to each other, `absorb_refines` and `squeeze_refines` that a call keeps it and
returns the same elements, and `run_eq_reference` that every run does.
-/

namespace CryptoPrimitives.Sponge

open Duplex (Cursor addAt)

variable {F : Type} {D : Duplex Outcome F}

/-- `Reference`: the state without the queued elements, and the number of outputs
since it turned to squeezing. -/
structure Reference (F : Type) where
  state : List F
  absorbing : List F
  squeezeCount : Option Nat

/-- `SpongeMode` of the reference. -/
inductive SpongeMode where
  | absorbing
  | squeezing
deriving DecidableEq, Repr

namespace Reference

/-- `Reference::new`. -/
def new [Zero F] (D : Duplex Outcome F) : Reference F :=
  ⟨List.replicate (D.rate + D.capacity) 0, [], none⟩

/-- `Reference::mode`. -/
def mode (self : Reference F) : Outcome SpongeMode :=
  match self.squeezeCount with
  | some _ => do
    assert self.absorbing.isEmpty "assertion failed: self.absorbing.is_empty()"
    pure .squeezing
  | none => pure .absorbing

/-- `Reference::absorb`. -/
def absorb (self : Reference F) (input : List F) : Outcome (Reference F) :=
  if input.isEmpty then pure self
  else do
    match ← self.mode with
    | .absorbing => pure { self with absorbing := self.absorbing ++ input }
    | .squeezing => pure { self with absorbing := self.absorbing ++ input, squeezeCount := none }

/-- `+=` of the entries of a chunk, as far as both go. -/
def addZip [Add F] : List F → List F → List F
  | s :: state, c :: chunk => (s + c) :: addZip state chunk
  | state, [] => state
  | [], _ => []

/-- One chunk of the absorbing line. -/
def absorbChunk [Add F] (D : Duplex Outcome F) (state chunk : List F) : Outcome (List F) :=
  D.permute (state.take D.capacity ++ addZip (state.drop D.capacity) chunk)

/-- `Reference::_absorb`. -/
def flush [Add F] (D : Duplex Outcome F) (self : Reference F) : Outcome (Reference F) := do
  let state ← (chunks D.rate self.absorbing).foldlM (absorbChunk D) self.state
  let state ← if self.absorbing.isEmpty then D.permute state else pure state
  let flushed : Reference F := { self with state, absorbing := [] }
  let mode ← flushed.mode
  assertEq mode .absorbing
  pure { flushed with squeezeCount := some 0 }

/-- One output of `Reference::squeeze`. -/
def squeezeOutput (D : Duplex Outcome F) (self : Reference F) : Outcome (F × Reference F) := do
  let squeezeCount ← unwrapOption self.squeezeCount
  let outIndex := squeezeCount % D.rate
  let state ← if outIndex = 0 ∧ squeezeCount ≠ 0 then D.permute self.state else pure self.state
  let output ← index state (outIndex + D.capacity)
  pure (output, { self with state, squeezeCount := some (squeezeCount + 1) })

/-- The loop of `Reference::squeeze`. -/
def squeezeOutputs (D : Duplex Outcome F) : Nat → Reference F → Outcome (List F × Reference F)
  | 0, self => pure ([], self)
  | n + 1, self => do
    let (output, self) ← self.squeezeOutput D
    let (outputs, self) ← squeezeOutputs D n self
    pure (output :: outputs, self)

/-- `Reference::squeeze`. -/
def squeeze [Add F] (D : Duplex Outcome F) (self : Reference F) (n : Nat) : Outcome (List F × Reference F) := do
  let self ← match ← self.mode with
    | .absorbing => self.flush D
    | .squeezing => do
      assert self.absorbing.isEmpty "assertion failed: self.absorbing.is_empty()"
      assert self.squeezeCount.isSome "assertion failed: self.squeeze_count.is_some()"
      if n = 0 then do
        let squeezeCount ← unwrapOption self.squeezeCount
        let outIndex := squeezeCount % D.rate
        if outIndex = 0 ∧ squeezeCount ≠ 0 then do
          let state ← D.permute self.state
          pure { self with state, squeezeCount := some 0 }
        else pure self
      else pure self
  squeezeOutputs D n self

end Reference

/-! ## Runs -/

/-- A call of `absorb` or of `squeeze_native_field_elements`. -/
inductive Call (F : Type) where
  | absorb (input : List F)
  | squeeze (numElements : Nat)

/-- The outputs of the squeezes of a run of the sponge, and the sponge it leaves. -/
def PoseidonSponge.run [Add F] (D : Duplex Outcome F) (self : DuplexSponge F) :
    List (Call F) → Outcome (List (List F) × DuplexSponge F)
  | [] => pure ([], self)
  | .absorb input :: calls => do
    let self ← absorb D self input
    run D self calls
  | .squeeze numElements :: calls => do
    let (output, self) ← squeezeNativeFieldElements D self numElements
    let (outputs, self) ← run D self calls
    pure (output :: outputs, self)

/-- The same of the reference. -/
def Reference.run [Add F] (D : Duplex Outcome F) (self : Reference F) :
    List (Call F) → Outcome (List (List F) × Reference F)
  | [] => pure ([], self)
  | .absorb input :: calls => do
    let self ← self.absorb input
    run D self calls
  | .squeeze numElements :: calls => do
    let (output, self) ← self.squeeze D numElements
    let (outputs, self) ← run D self calls
    pure (output :: outputs, self)

/-! ## Simulation -/

/-- The entries of the block that `count` outputs have used. -/
def usedEntries (rate count : Nat) : Nat := if count = 0 then 0 else (count - 1) % rate + 1

theorem usedEntries_succ (rate count : Nat) : usedEntries rate (count + 1) = count % rate + 1 := rfl

/-- The block is used up when the reference permutes. -/
theorem usedEntries_eq {rate : Nat} (hr : 0 < rate) (count : Nat) :
    usedEntries rate count = if count % rate = 0 ∧ count ≠ 0 then rate else count % rate := by
  rcases count with _ | k
  · simp [usedEntries]
  · have hk := Nat.mod_lt k hr
    rw [usedEntries_succ]
    by_cases hlast : k % rate + 1 = rate
    · rw [if_pos ⟨by rw [← Nat.mod_add_mod, hlast, Nat.mod_self], Nat.succ_ne_zero k⟩, hlast]
    · have hmod : (k + 1) % rate = k % rate + 1 := by
        rw [← Nat.mod_add_mod, Nat.mod_eq_of_lt (show k % rate + 1 < rate by omega)]
      rw [if_neg fun h => Nat.succ_ne_zero _ (hmod.symm.trans h.1), hmod]

theorem usedEntries_le {rate : Nat} (hr : 0 < rate) (count : Nat) : usedEntries rate count ≤ rate := by
  rw [usedEntries_eq hr]
  split
  · exact le_rfl
  · exact (Nat.mod_lt _ hr).le

/-- Where the sponge and the reference stand to each other: the sponge has walked
through the queued elements, or through the outputs. -/
inductive Refines [Add F] (D : Duplex Outcome F) : DuplexSponge F → Reference F → Prop where
  | absorbing {state queue : List F} {c : Cursor F} : state.length = D.capacity + D.rate →
      D.absorbAll ⟨state, 0⟩ queue = .ok c → Refines D (absorbed c) ⟨state, queue, none⟩
  | squeezing {state : List F} {count : Nat} : state.length = D.capacity + D.rate →
      Refines D ⟨state, .squeezing (usedEntries D.rate count)⟩ ⟨state, [], some count⟩

theorem Refines.valid [Add F] (hD : D.Total) (hr : 0 < D.rate) {s : DuplexSponge F} {r : Reference F}
    (h : Refines D s r) : s.Valid D := by
  cases h with
  | absorbing hl hc =>
    obtain ⟨hl, hle⟩ := Duplex.absorbAll_valid hD.keepsWidth hr ⟨hl, Nat.zero_le _⟩ hc
    exact ⟨hl, hle⟩
  | squeezing hl => exact ⟨hl, usedEntries_le hr _⟩

theorem absorb_refines [Add F] (hD : D.Total) (hr : 0 < D.rate) {s : DuplexSponge F} {r : Reference F}
    (h : Refines D s r) (input : List F) :
    ∃ s' r', PoseidonSponge.absorb D s input = .ok s' ∧ r.absorb input = .ok r' ∧ Refines D s' r' := by
  by_cases hne : input = []
  · exact ⟨s, r, by rw [hne]; rfl, by rw [hne]; rfl, h⟩
  have hempty : input.isEmpty ≠ true := fun hnil => hne (List.isEmpty_iff.mp hnil)
  have habsorb := PoseidonSponge.absorb_eq hD.keepsWidth hr (h.valid hD hr) hne
  cases h with
  | @absorbing state queue c hl hc =>
    obtain ⟨hcl, hci⟩ := Duplex.absorbAll_valid hD.keepsWidth hr ⟨hl, Nat.zero_le _⟩ hc
    obtain ⟨c', hc', -⟩ := Duplex.exists_absorbAll hD hr (c := c) ⟨hcl, hci⟩ input
    refine ⟨absorbed c', ⟨state, queue ++ input, none⟩, ?_, ?_, .absorbing hl ?_⟩
    · rw [habsorb]
      exact congrArg (absorbed <$> ·) hc'
    · rw [Reference.absorb, if_neg hempty]
      rfl
    · rw [Duplex.absorbAll_append, hc]
      exact hc'
  | @squeezing state count hl =>
    obtain ⟨c', hc', -⟩ := Duplex.exists_absorbAll hD hr (c := ⟨state, 0⟩) ⟨hl, Nat.zero_le _⟩ input
    refine ⟨absorbed c', ⟨state, input, none⟩, ?_, ?_, .absorbing hl hc'⟩
    · rw [habsorb]
      exact congrArg (absorbed <$> ·) hc'
    · rw [Reference.absorb, if_neg hempty]
      rfl

theorem addAt_eq [Add F] {k : Nat} {xs block : List F} (h : k + xs.length ≤ block.length) :
    addAt k xs block = block.take k ++ Reference.addZip (block.drop k) xs := by
  induction xs generalizing k block with
  | nil => rw [addAt, show Reference.addZip (block.drop k) [] = block.drop k by cases block.drop k <;> rfl,
      List.take_append_drop]
  | cons x xs ih =>
    rw [List.length_cons] at h
    have hk : k < block.length := by omega
    have hlen : (block.take k).length = k := List.length_take_of_le hk.le
    rw [addAt, ih (by rw [List.length_modify]; omega), List.drop_eq_getElem_cons hk, Reference.addZip,
      List.modify_eq_take_cons_drop hk, List.take_append, List.drop_append, hlen,
      List.take_of_length_le (show (block.take k).length ≤ k + 1 by omega),
      List.drop_of_length_le (show (block.take k).length ≤ k + 1 by omega), show k + 1 - k = 1 by omega]
    simp only [List.take_succ_cons, List.take_zero, List.drop_succ_cons, List.drop_zero, List.nil_append,
      List.append_assoc, List.cons_append]

/-- The reference's blocks are what the sponge walks through, with the permutation
that the sponge still owes. -/
theorem absorbChunks_eq [Add F] (hD : D.Total) (hr : 0 < D.rate) {queue state : List F}
    (hl : state.length = D.capacity + D.rate) (hne : queue ≠ []) :
    (chunks D.rate queue).foldlM (Reference.absorbChunk D) state =
      D.absorbAll ⟨state, 0⟩ queue >>= fun c => D.permute c.block := by
  induction queue using chunks_induction hr generalizing state with
  | nil => exact absurd rfl hne
  | cons queue _ ih =>
    have hchunk : Reference.absorbChunk D state (queue.take D.rate) =
        D.permute (addAt D.capacity (queue.take D.rate) state) := by
      rw [addAt_eq (by rw [hl, List.length_take]; omega), Reference.absorbChunk]
    rw [chunks_eq hr hne, List.foldlM_cons, hchunk]
    by_cases hle : queue.length ≤ D.rate
    · rw [List.take_of_length_le hle, List.drop_of_length_le hle, chunks_nil,
        Duplex.absorbAll_block (by simpa using hle)]
      exact bind_pure _
    · rw [Duplex.absorbAll_next hr (Nat.zero_le _) (by simp only; omega), bind_assoc]
      cases hp : D.permute (addAt D.capacity (queue.take D.rate) state) with
      | error e => rfl
      | ok block =>
        obtain ⟨block', hp', hbl⟩ := hD (addAt D.capacity (queue.take D.rate) state)
          (by rw [Duplex.length_addAt, hl])
        obtain rfl := Except.ok.inj (hp.symm.trans hp')
        have hdrop : queue.drop D.rate ≠ [] := by
          rw [Ne, List.drop_eq_nil_iff]
          exact hle
        exact ih hbl hdrop

/-- One turn and output of both. -/
theorem exists_squeezeOutput [Add F] (hD : D.Total) (hr : 0 < D.rate) {state : List F}
    (hl : state.length = D.capacity + D.rate) (count : Nat) :
    ∃ block x, D.turn ⟨state, usedEntries D.rate count⟩ = .ok ⟨block, count % D.rate⟩ ∧
      block.length = D.capacity + D.rate ∧ (block.drop (D.capacity + count % D.rate)).take 1 = [x] ∧
      Reference.squeezeOutput D ⟨state, [], some count⟩ = .ok (x, ⟨block, [], some (count + 1)⟩) := by
  have hmod := Nat.mod_lt count hr
  obtain ⟨block, hturn, hpermute, hbl⟩ : ∃ block,
      D.turn ⟨state, usedEntries D.rate count⟩ = .ok ⟨block, count % D.rate⟩ ∧
      (if count % D.rate = 0 ∧ count ≠ 0 then D.permute state else pure state) = .ok block ∧
      block.length = D.capacity + D.rate := by
    rw [usedEntries_eq hr]
    by_cases h : count % D.rate = 0 ∧ count ≠ 0
    · obtain ⟨block, hp, hbl⟩ := hD state hl
      refine ⟨block, ?_, ?_, hbl⟩
      · rw [if_pos h, Duplex.turn_rate, hp, h.1]
        rfl
      · rw [if_pos h, hp]
    · refine ⟨state, ?_, if_neg h, hl⟩
      rw [if_neg h, Duplex.turn_of_ne hmod.ne]
      rfl
  have hlt : D.capacity + count % D.rate < block.length := by omega
  refine ⟨block, block[D.capacity + count % D.rate], hturn, hbl, ?_, ?_⟩
  · rw [List.drop_eq_getElem_cons hlt]
    rfl
  · simp only [Reference.squeezeOutput, unwrapOption, Except.ok_bind, Nat.add_comm (count % D.rate)]
    split at hpermute
    · rename_i h
      rw [if_pos h, hpermute, Except.ok_bind, index_of_lt hlt]
      rfl
    · rename_i h
      obtain rfl := Except.ok.inj hpermute
      rw [if_neg h, pure_bind, index_of_lt hlt]
      rfl

/-- The outputs of the reference are the entries the sponge walks through. -/
theorem exists_squeezeOutputs [Add F] (hD : D.Total) (hr : 0 < D.rate) {state : List F}
    (hl : state.length = D.capacity + D.rate) (count n : Nat) :
    ∃ outputs block, D.squeezeMany n ⟨state, usedEntries D.rate count⟩ =
        .ok (outputs, ⟨block, usedEntries D.rate (count + n)⟩) ∧
      Reference.squeezeOutputs D n ⟨state, [], some count⟩ = .ok (outputs, ⟨block, [], some (count + n)⟩) ∧
      block.length = D.capacity + D.rate := by
  induction n generalizing state count with
  | zero => exact ⟨[], state, rfl, rfl, hl⟩
  | succ n ih =>
    obtain ⟨block, x, hturn, hbl, hx, hout⟩ := exists_squeezeOutput hD hr hl count
    obtain ⟨outputs, block', hmany, houts, hbl'⟩ := ih hbl (count + 1)
    rw [show count + 1 + n = count + (n + 1) by omega] at hmany houts
    refine ⟨x :: outputs, block', Duplex.squeezeMany_succ_eq_ok.mpr ⟨_, hturn, outputs, hmany, ?_⟩, ?_, hbl'⟩
    · rw [hx]
      rfl
    · rw [Reference.squeezeOutputs, hout, Except.ok_bind]
      simp only [houts, Except.ok_bind]
      rfl

/-- The reference turns to squeezing with the block the sponge permutes. -/
theorem exists_flush [Add F] (hD : D.Total) (hr : 0 < D.rate) {state queue : List F}
    (hl : state.length = D.capacity + D.rate) {c : Cursor F} (hc : D.absorbAll ⟨state, 0⟩ queue = .ok c) :
    ∃ block, D.permute c.block = .ok block ∧ block.length = D.capacity + D.rate ∧
      Reference.flush D ⟨state, queue, none⟩ = .ok ⟨block, [], some 0⟩ := by
  obtain ⟨hcl, -⟩ := Duplex.absorbAll_valid hD.keepsWidth hr ⟨hl, Nat.zero_le _⟩ hc
  obtain ⟨block, hp, hbl⟩ := hD c.block hcl
  refine ⟨block, hp, hbl, ?_⟩
  by_cases hne : queue = []
  · obtain rfl : c = ⟨state, 0⟩ := by
      rw [hne] at hc
      exact (Except.ok.inj hc).symm
    rw [Reference.flush, hne]
    simp only [chunks_nil, List.foldlM_nil, pure_bind, List.isEmpty_nil, if_true, hp, Except.ok_bind]
    rfl
  · have hempty : queue.isEmpty ≠ true := fun hnil => hne (List.isEmpty_iff.mp hnil)
    rw [Reference.flush, absorbChunks_eq hD hr hl hne, hc, Except.ok_bind, hp, Except.ok_bind, if_neg hempty,
      pure_bind]
    rfl

theorem squeeze_refines [Add F] (hD : D.Total) (hr : 0 < D.rate) {s : DuplexSponge F} {r : Reference F}
    (h : Refines D s r) (n : Nat) :
    ∃ output s' r', PoseidonSponge.squeezeNativeFieldElements D s n = .ok (output, s') ∧
      r.squeeze D n = .ok (output, r') ∧ Refines D s' r' := by
  have hsqueeze := PoseidonSponge.squeezeNativeFieldElements_eq hD.keepsWidth hr (h.valid hD hr) n
  cases h with
  | @absorbing state queue c hl hc =>
    obtain ⟨block, hp, hbl, hflush⟩ := exists_flush hD hr hl hc
    obtain ⟨outputs, block', hmany, houts, hbl'⟩ := exists_squeezeOutputs hD hr hbl 0 n
    refine ⟨outputs, _, _, ?_, ?_, @Refines.squeezing _ _ _ _ (0 + n) hbl'⟩
    · rw [hsqueeze, DuplexSponge.squeezeCursor, absorbed, Duplex.turn_rate, hp]
      exact congrArg (squeezed <$> ·) hmany
    · rw [Reference.squeeze, show Reference.mode ⟨state, queue, none⟩ = .ok .absorbing from rfl, Except.ok_bind]
      simp only [hflush, Except.ok_bind]
      exact houts
  | @squeezing state count hl =>
    have hmode : Reference.mode ⟨state, [], some count⟩ = .ok .squeezing := rfl
    by_cases hn : n = 0
    · subst hn
      obtain ⟨block, count', hturn, href, hbl⟩ : ∃ block count',
          D.turn ⟨state, usedEntries D.rate count⟩ = .ok ⟨block, usedEntries D.rate count'⟩ ∧
          Reference.squeeze D ⟨state, [], some count⟩ 0 = .ok ([], ⟨block, [], some count'⟩) ∧
          block.length = D.capacity + D.rate := by
        simp only [Reference.squeeze, hmode, Except.ok_bind, unwrapOption, if_true]
        by_cases h : count % D.rate = 0 ∧ count ≠ 0
        · obtain ⟨block, hp, hbl⟩ := hD state hl
          refine ⟨block, 0, ?_, ?_, hbl⟩
          · rw [usedEntries_eq hr, if_pos h, Duplex.turn_rate, hp]
            rfl
          · rw [if_pos h, hp]
            rfl
        · refine ⟨state, count, ?_, by rw [if_neg h]; rfl, hl⟩
          rw [Duplex.turn_of_ne (by rw [usedEntries_eq hr, if_neg h]; exact (Nat.mod_lt _ hr).ne)]
          rfl
      exact ⟨[], _, _, by rw [hsqueeze, DuplexSponge.squeezeCursor, hturn]; rfl, href, .squeezing hbl⟩
    · obtain ⟨outputs, block, hmany, houts, hbl⟩ := exists_squeezeOutputs hD hr hl count n
      refine ⟨outputs, _, _, ?_, ?_, @Refines.squeezing _ _ _ _ (count + n) hbl⟩
      · rw [Duplex.squeezeMany_turn hr _ (Nat.pos_of_ne_zero hn)] at hmany
        rw [hsqueeze, DuplexSponge.squeezeCursor, ← map_bind]
        exact congrArg (squeezed <$> ·) hmany
      · simp only [Reference.squeeze, hmode, Except.ok_bind, hn, if_false]
        exact houts

theorem run_refines [Add F] (hD : D.Total) (hr : 0 < D.rate) {s : DuplexSponge F} {r : Reference F}
    (h : Refines D s r) (calls : List (Call F)) :
    ∃ outputs s' r', PoseidonSponge.run D s calls = .ok (outputs, s') ∧ r.run D calls = .ok (outputs, r') ∧
      Refines D s' r' := by
  induction calls generalizing s r with
  | nil => exact ⟨[], s, r, rfl, rfl, h⟩
  | cons call calls ih =>
    cases call with
    | absorb input =>
      obtain ⟨s₁, r₁, hs₁, hr₁, h₁⟩ := absorb_refines hD hr h input
      obtain ⟨outputs, s', r', hs', hr', h'⟩ := ih h₁
      refine ⟨outputs, s', r', ?_, ?_, h'⟩
      · rw [PoseidonSponge.run, hs₁, Except.ok_bind, hs']
      · rw [Reference.run, hr₁, Except.ok_bind, hr']
    | squeeze numElements =>
      obtain ⟨output, s₁, r₁, hs₁, hr₁, h₁⟩ := squeeze_refines hD hr h numElements
      obtain ⟨outputs, s', r', hs', hr', h'⟩ := ih h₁
      refine ⟨output :: outputs, s', r', ?_, ?_, h'⟩
      · rw [PoseidonSponge.run, hs₁, Except.ok_bind]
        simp only [hs', Except.ok_bind]
        rfl
      · rw [Reference.run, hr₁, Except.ok_bind]
        simp only [hr', Except.ok_bind]
        rfl

theorem new_refines [AddMonoid F] (D : Duplex Outcome F) : Refines D (DuplexSponge.new D) (Reference.new D) :=
  .absorbing (c := ⟨List.replicate (D.rate + D.capacity) 0, 0⟩)
    (by rw [List.length_replicate, Nat.add_comm]) rfl

namespace PoseidonSponge

/-- Two inputs in a row are absorbed as one. -/
theorem absorb_append [Add F] (hD : D.KeepsWidth) (hr : 0 < D.rate) {self : DuplexSponge F}
    (hs : self.Valid D) (a b : List F) :
    (absorb D self a >>= fun self => absorb D self b) = absorb D self (a ++ b) :=
  absorb_append_of_cursor hD hr (fun _ => rfl) (fun _ => rfl) (fun _ => absorbCursor_valid)
    (fun _ hs _ hne => absorb_eq hD hr hs hne) hs a b

end PoseidonSponge

/-- With accepted parameters and any permutation of the states, their own among
them, the sponge returns what the reference returns on every run, and two inputs
absorbed in a row are one. -/
theorem run_eq_reference [CommRing F] {fullRounds partialRounds alpha : Nat} {mds ark : List (List F)}
    {rate capacity : Nat} {config : PoseidonConfig F}
    (h : PoseidonConfig.new fullRounds partialRounds alpha mds ark rate capacity = .ok config)
    (hr : 1 ≤ rate) :
    config.duplex.Total ∧
      ∀ D : Duplex Outcome F, D.rate = config.rate → D.capacity = config.capacity → D.Total →
        (∀ calls, ∃ outputs s r, PoseidonSponge.run D (.new D) calls = .ok (outputs, s) ∧
          (Reference.new D).run D calls = .ok (outputs, r)) ∧
        ∀ calls outputs s, PoseidonSponge.run D (.new D) calls = .ok (outputs, s) →
          ∀ a b, (PoseidonSponge.absorb D s a >>= fun s => PoseidonSponge.absorb D s b) =
            PoseidonSponge.absorb D s (a ++ b) := by
  obtain ⟨rfl, haccepted⟩ := PoseidonConfig.new_eq_ok.mp h
  refine ⟨PoseidonConfig.duplex_total haccepted hr, fun D hrate _ hD => ?_⟩
  have hr : 0 < D.rate := by
    rw [hrate]
    exact hr
  refine ⟨fun calls => ?_, fun calls outputs s hs a b => ?_⟩
  · obtain ⟨outputs, s, r, hs, hr, -⟩ := run_refines hD hr (new_refines D) calls
    exact ⟨outputs, s, r, hs, hr⟩
  · obtain ⟨outputs', s', r, hs', -, hrefines⟩ := run_refines hD hr (new_refines D) calls
    obtain ⟨-, rfl⟩ := Prod.ext_iff.mp (Except.ok.inj (hs.symm.trans hs'))
    exact PoseidonSponge.absorb_append hD.keepsWidth hr (hrefines.valid hD hr) a b

theorem run_eq_reference_smallConfig :
    smallConfig.duplex.Total ∧
      ∀ D : Duplex Outcome (ZMod 5), D.rate = smallConfig.rate → D.capacity = smallConfig.capacity → D.Total →
        (∀ calls, ∃ outputs s r, PoseidonSponge.run D (.new D) calls = .ok (outputs, s) ∧
          (Reference.new D).run D calls = .ok (outputs, r)) ∧
        ∀ calls outputs s, PoseidonSponge.run D (.new D) calls = .ok (outputs, s) →
          ∀ a b, (PoseidonSponge.absorb D s a >>= fun s => PoseidonSponge.absorb D s b) =
            PoseidonSponge.absorb D s (a ++ b) :=
  run_eq_reference (new_smallConfigOf 5) (by decide)

end CryptoPrimitives.Sponge
