import CryptoPrimitives.Framework.Duplex
import CryptoPrimitives.Rust.Outcome
import Mathlib.Algebra.Ring.Defs

/-!
# Duplex sponges

What `sponge/mod.rs`, `poseidon/mod.rs` and `rescue/mod.rs` share: the mode, the
state, and the loops over blocks, for any permutation. They are stated for any
monad, since the gadgets run the same code on variables.

* `absorbInternal_eq`: `absorb_internal` adds the elements one by one, and
  permutes a used up block when the next element comes.
* `squeezeInternal_eq`: so does `squeeze_internal` of Poseidon with its outputs.
-/

namespace CryptoPrimitives.Sponge

open Duplex (Cursor addAt)

/-- `DuplexSpongeMode`. -/
inductive DuplexSpongeMode where
  | absorbing (nextAbsorbIndex : Nat)
  | squeezing (nextSqueezeIndex : Nat)
deriving DecidableEq, Repr

/-- The next position of the state to use. -/
def DuplexSpongeMode.index : DuplexSpongeMode → Nat
  | absorbing nextAbsorbIndex => nextAbsorbIndex
  | squeezing nextSqueezeIndex => nextSqueezeIndex

/-- The fields of a sponge besides its parameters. -/
@[ext]
structure DuplexSponge (V : Type) where
  state : List V
  mode : DuplexSpongeMode
deriving DecidableEq

section

variable {m : Type → Type} [Monad m] [MonadLiftT Outcome m] {V : Type}

/-- `new` of a sponge. -/
def DuplexSponge.new [Zero V] (D : Duplex m V) : DuplexSponge V :=
  ⟨List.replicate (D.rate + D.capacity) 0, .absorbing 0⟩

/-- `state[position + i] += element` for each element. -/
def addElements [Add V] (state : List V) (position : Nat) : List V → m (List V)
  | [] => pure state
  | element :: elements => do
    let entry ← liftM (index state position : Outcome V)
    addElements (state.set position (entry + element)) (position + 1) elements

/-- The loop of `absorb_internal`, with fuel for each block. -/
def absorbLoop [Add V] (D : Duplex m V) : Nat → Nat → List V → List V → m (DuplexSponge V)
  | 0, _, _, _ => liftM (raise .diverge : Outcome (DuplexSponge V))
  | fuel + 1, rateStartIndex, remainingElements, state =>
    if rateStartIndex + remainingElements.length ≤ D.rate then do
      let state ← addElements state (D.capacity + rateStartIndex) remainingElements
      pure ⟨state, .absorbing (rateStartIndex + remainingElements.length)⟩
    else do
      let numElementsAbsorbed ← liftM (usizeSub D.rate rateStartIndex : Outcome Nat)
      let state ← addElements state (D.capacity + rateStartIndex)
        (remainingElements.take numElementsAbsorbed)
      let state ← D.permute state
      absorbLoop D fuel 0 (remainingElements.drop numElementsAbsorbed) state

/-- `absorb_internal`. A rate of 0 makes it loop. -/
def absorbInternal [Add V] (D : Duplex m V) (rateStartIndex : Nat) (elements state : List V) :
    m (DuplexSponge V) :=
  absorbLoop D (elements.length + 2) rateStartIndex elements state

/-- The loop of Poseidon's `squeeze_internal`, with fuel for each block. -/
def squeezeLoop (D : Duplex m V) : Nat → Nat → Nat → List V → m (List V × DuplexSponge V)
  | 0, _, _, _ => liftM (raise .diverge : Outcome (List V × DuplexSponge V))
  | fuel + 1, rateStartIndex, outputRemaining, state =>
    if rateStartIndex + outputRemaining ≤ D.rate then do
      let output ← liftM (slice state (D.capacity + rateStartIndex)
        (D.capacity + outputRemaining + rateStartIndex) : Outcome (List V))
      pure (output, ⟨state, .squeezing (rateStartIndex + outputRemaining)⟩)
    else do
      let numElementsSqueezed ← liftM (usizeSub D.rate rateStartIndex : Outcome Nat)
      let output ← liftM (slice state (D.capacity + rateStartIndex)
        (D.capacity + numElementsSqueezed + rateStartIndex) : Outcome (List V))
      let outputRemaining := outputRemaining - numElementsSqueezed
      let state ← if outputRemaining ≠ 0 then D.permute state else pure state
      let rest ← squeezeLoop D fuel 0 outputRemaining state
      pure (output ++ rest.1, rest.2)

/-- Poseidon's `squeeze_internal`. -/
def squeezeInternal (D : Duplex m V) (rateStartIndex output : Nat) (state : List V) :
    m (List V × DuplexSponge V) :=
  squeezeLoop D (output + 2) rateStartIndex output state

end

/-- A state of full width, and a position in the rate or at its end. -/
structure DuplexSponge.Valid {V : Type} (D : Duplex Outcome V) (sponge : DuplexSponge V) : Prop where
  length_state : sponge.state.length = D.capacity + D.rate
  index_le : sponge.mode.index ≤ D.rate

/-- Where squeezing goes on: a sponge that absorbs permutes first. -/
def DuplexSponge.squeezeCursor {m : Type → Type} {V : Type} (D : Duplex m V) (self : DuplexSponge V) :
    Cursor V :=
  match self.mode with
  | .absorbing _ => ⟨self.state, D.rate⟩
  | .squeezing nextSqueezeIndex => ⟨self.state, nextSqueezeIndex⟩

/-- A cursor as a sponge that has squeezed up to it. -/
def squeezed {V : Type} (r : List V × Cursor V) : List V × DuplexSponge V :=
  (r.1, ⟨r.2.block, .squeezing r.2.index⟩)

/-- A cursor as a sponge that has absorbed up to it. -/
def absorbed {V : Type} (c : Cursor V) : DuplexSponge V := ⟨c.block, .absorbing c.index⟩

theorem DuplexSponge.Valid.squeezeCursor {V : Type} {D : Duplex Outcome V} {self : DuplexSponge V}
    (h : self.Valid D) : (self.squeezeCursor D).Valid D := by
  obtain ⟨state, mode⟩ := self
  cases mode with
  | absorbing i => exact ⟨h.length_state, le_refl D.rate⟩
  | squeezing i => exact ⟨h.length_state, h.index_le⟩

theorem new_valid {V : Type} [Zero V] (D : Duplex Outcome V) : (DuplexSponge.new D).Valid D :=
  ⟨by rw [DuplexSponge.new, List.length_replicate, Nat.add_comm], Nat.zero_le _⟩

/-! ## Rounds of a permutation -/

section

variable {F : Type} [CommRing F]

/-- `state[i] += table[row][i]` for each entry: the round constants. -/
def addRow (table : List (List F)) (state : List F) (row : Nat) : Outcome (List F) :=
  state.zipIdx.mapM fun entry => do
    let keys ← index table row
    let key ← index keys entry.2
    pure (entry.1 + key)

/-- The product of a matrix and the state. -/
def mulMatrix (matrix : List (List F)) (state : List F) : Outcome (List F) :=
  (List.range state.length).mapM fun i =>
    state.zipIdx.foldlM (fun cur entry => do
      let row ← index matrix i
      let coefficient ← index row entry.2
      pure (cur + entry.1 * coefficient)) 0

theorem length_addRow {table : List (List F)} {state state' : List F} {row : Nat}
    (h : addRow table state row = .ok state') : state'.length = state.length := by
  rw [Except.length_mapM h, List.length_zipIdx]

theorem length_mulMatrix {matrix : List (List F)} {state state' : List F}
    (h : mulMatrix matrix state = .ok state') : state'.length = state.length := by
  rw [Except.length_mapM h, List.length_range]

theorem lt_of_mem_zipIdx {α : Type} {xs : List α} {entry : α × Nat} (h : entry ∈ xs.zipIdx) :
    entry.2 < xs.length :=
  (List.getElem?_eq_some_iff.mp (List.mem_zipIdx_iff_getElem?.mp h)).1

theorem zipIdx_mapM_index {α β γ : Type} {table : List (List β)} {row : Nat} {keys : List β}
    (hrow : table[row]? = some keys) (f : α → β → γ) {xs : List α} (hl : keys.length = xs.length) :
    (xs.zipIdx.mapM fun entry => do
      let keys ← index table row
      let key ← index keys entry.2
      pure (f entry.1 key) : Outcome (List γ)) = .ok (List.zipWith f xs keys) := by
  rw [Except.mapM_eq_ok, List.forall₂_iff_get]
  refine ⟨by rw [List.length_zipIdx, List.length_zipWith, hl, Nat.min_self], fun i hi _ => ?_⟩
  rw [List.length_zipIdx] at hi
  rw [index_eq_ok.mpr hrow, Except.ok_bind]
  simp only [List.get_eq_getElem, List.getElem_zipIdx, List.getElem_zipWith, Nat.zero_add]
  rw [index_of_lt (hl ▸ hi)]
  rfl

/-- A table of the state's width has a key for each entry. -/
theorem exists_addRow {table : List (List F)} {state : List F} {row : Nat} (hr : row < table.length)
    (hw : ∀ keys ∈ table, keys.length = state.length) : ∃ state', addRow table state row = .ok state' := by
  refine Except.exists_mapM fun entry hentry => ?_
  have hlt : entry.2 < table[row].length := by
    rw [hw _ (List.getElem_mem hr)]
    exact lt_of_mem_zipIdx hentry
  exact ⟨_, by rw [index_of_lt hr, Except.ok_bind, index_of_lt hlt]; rfl⟩

/-- A square matrix of the state's width can be multiplied with it. -/
theorem exists_mulMatrix {matrix : List (List F)} {state : List F} (hl : matrix.length = state.length)
    (hw : ∀ row ∈ matrix, row.length = state.length) : ∃ state', mulMatrix matrix state = .ok state' := by
  refine Except.exists_mapM fun i hi => ?_
  have hi : i < matrix.length := hl ▸ List.mem_range.mp hi
  refine (Except.exists_foldlM (P := fun _ => True) (fun cur entry hentry _ => ?_) trivial).imp fun _ h => h.1
  have hlt : entry.2 < matrix[i].length := by
    rw [hw _ (List.getElem_mem hi)]
    exact lt_of_mem_zipIdx hentry
  exact ⟨_, by rw [index_of_lt hi, Except.ok_bind, index_of_lt hlt]; rfl, trivial⟩

end

/-! ## Blocks -/

section

variable {V : Type} {D : Duplex Outcome V}

/-- The native code runs in the monad its panics are raised in. -/
theorem liftM_outcome {α : Type} (x : Outcome α) : (liftM x : Outcome α) = x := rfl

theorem addElements_eq [Add V] {state : List V} {position : Nat} {elements : List V}
    (h : position + elements.length ≤ state.length) :
    (addElements state position elements : Outcome (List V)) = .ok (addAt position elements state) := by
  induction elements generalizing state position with
  | nil => rfl
  | cons element elements ih =>
    rw [List.length_cons] at h
    have hlt : position < state.length := by omega
    have hset : state.modify position (· + element) = state.set position (state[position] + element) := by
      rw [List.modify_eq_set_getElem?, List.getElem?_eq_getElem hlt]
      rfl
    rw [addElements, liftM_outcome, index_of_lt hlt, Except.ok_bind, ih (by rw [List.length_set]; omega),
      addAt, hset]

theorem absorbLoop_eq [Add V] (hD : D.KeepsWidth) (hr : 0 < D.rate) {fuel : Nat} {c : Cursor V}
    (hc : c.Valid D) {elements : List V}
    (hf : elements.length + (if c.index = D.rate then 2 else 1) ≤ fuel) :
    absorbLoop D fuel c.index elements c.block = absorbed <$> D.absorbAll c elements := by
  induction fuel generalizing c elements with
  | zero => split at hf <;> omega
  | succ fuel ih =>
    have hl := hc.length_block
    have hle := hc.index_le
    rw [absorbLoop]
    split
    · rename_i h
      rw [addElements_eq (by omega), Except.ok_bind, Duplex.absorbAll_block h]
      rfl
    · rename_i h
      have hlen : (elements.take (D.rate - c.index)).length = D.rate - c.index :=
        List.length_take_of_le (by omega)
      rw [liftM_outcome, usizeSub_of_le hle, Except.ok_bind, addElements_eq (by omega), Except.ok_bind,
        Duplex.absorbAll_next hr hle (by omega), map_bind]
      cases hp : D.permute (addAt (D.capacity + c.index) (elements.take (D.rate - c.index)) c.block) with
      | error e => rfl
      | ok block =>
        have hw := hD _ _ hp (by rw [Duplex.length_addAt, hl])
        refine ih (c := ⟨block, 0⟩) ⟨hw, Nat.zero_le _⟩ ?_
        rw [if_neg (show (0 : Nat) ≠ D.rate by omega), List.length_drop]
        split at hf <;> omega

/-- `absorb_internal` adds the elements one by one. -/
theorem absorbInternal_eq [Add V] (hD : D.KeepsWidth) (hr : 0 < D.rate) {c : Cursor V} (hc : c.Valid D)
    (elements : List V) :
    absorbInternal D c.index elements c.block = absorbed <$> D.absorbAll c elements :=
  absorbLoop_eq hD hr hc (by split <;> omega)

/-- A used up block is permuted before the first element. -/
theorem permute_absorbInternal [Add V] (hD : D.KeepsWidth) (hr : 0 < D.rate) {state : List V}
    (hl : state.length = D.capacity + D.rate) {elements : List V} (h : elements ≠ []) :
    (D.permute state >>= fun state => absorbInternal D 0 elements state) =
      absorbed <$> D.absorbAll ⟨state, D.rate⟩ elements := by
  rw [Duplex.absorbAll_turn hr _ h, Duplex.turn_rate]
  cases hp : D.permute state with
  | error e => rfl
  | ok block => exact absorbInternal_eq hD hr (c := ⟨block, 0⟩) ⟨hD _ _ hp hl, Nat.zero_le _⟩ elements

/-- A sponge that absorbs from a cursor on, and leaves one that goes on from where it
stopped, absorbs two inputs in a row as one. -/
theorem absorb_append_of_cursor [Add V] (hD : D.KeepsWidth) (hr : 0 < D.rate)
    {absorb : DuplexSponge V → List V → Outcome (DuplexSponge V)} {cursor : DuplexSponge V → Cursor V}
    (hnil : ∀ self, absorb self [] = .ok self) (habsorbed : ∀ c, cursor (absorbed c) = c)
    (hcursor : ∀ self : DuplexSponge V, self.Valid D → (cursor self).Valid D)
    (habsorb : ∀ self : DuplexSponge V, self.Valid D → ∀ elems ≠ [],
      absorb self elems = absorbed <$> D.absorbAll (cursor self) elems)
    {self : DuplexSponge V} (hs : self.Valid D) (a b : List V) :
    (absorb self a >>= fun self => absorb self b) = absorb self (a ++ b) := by
  by_cases ha : a = []
  · rw [ha, hnil, Except.ok_bind, List.nil_append]
  by_cases hb : b = []
  · simp only [hb, hnil, List.append_nil]
    exact bind_pure _
  rw [habsorb self hs a ha, habsorb self hs _ (List.append_ne_nil_of_left_ne_nil ha b), Duplex.absorbAll_append]
  cases hc : D.absorbAll (cursor self) a with
  | error e => rfl
  | ok c =>
    obtain ⟨hl, hle⟩ := Duplex.absorbAll_valid hD hr (hcursor self hs) hc
    have hrest := habsorb (absorbed c) ⟨hl, hle⟩ b hb
    rw [habsorbed] at hrest
    exact hrest

/-- The slice a block of outputs is copied from. -/
theorem slice_block {c : Cursor V} (hc : c.Valid D) {n : Nat} (h : c.index + n ≤ D.rate) :
    (slice c.block (D.capacity + c.index) (D.capacity + n + c.index) : Outcome (List V)) =
      .ok ((c.block.drop (D.capacity + c.index)).take n) := by
  have hl := hc.length_block
  rw [slice_of_le (by omega) (by omega), show D.capacity + n + c.index - (D.capacity + c.index) = n by omega]

/-- Outputs that end in another block: those of this block, and the others after a permutation. -/
theorem squeezeBlock_eq (hD : D.KeepsWidth) (hr : 0 < D.rate) {c : Cursor V} (hc : c.Valid D) {n : Nat}
    (h : D.rate < c.index + n) {squeezeRest : List V → Outcome (List V × DuplexSponge V)}
    (hrest : ∀ block : List V, block.length = D.capacity + D.rate →
      squeezeRest block = squeezed <$> D.squeezeMany (n - (D.rate - c.index)) ⟨block, 0⟩) :
    (D.permute c.block >>= fun block => squeezeRest block >>= fun rest =>
        pure ((c.block.drop (D.capacity + c.index)).take (D.rate - c.index) ++ rest.1, rest.2)) =
      squeezed <$> D.squeezeMany n c := by
  rw [Duplex.squeezeMany_next hr hc.index_le h, map_bind]
  cases hp : D.permute c.block with
  | error e => rfl
  | ok block =>
    simp only [Except.ok_bind, hrest block (hD _ _ hp hc.length_block), bind_map_left, map_bind]
    rfl

theorem squeezeLoop_eq (hD : D.KeepsWidth) (hr : 0 < D.rate) {fuel : Nat} {c : Cursor V}
    (hc : c.Valid D) {n : Nat} (hf : n + (if c.index = D.rate then 2 else 1) ≤ fuel) :
    squeezeLoop D fuel c.index n c.block = squeezed <$> D.squeezeMany n c := by
  induction fuel generalizing c n with
  | zero => split at hf <;> omega
  | succ fuel ih =>
    have hle := hc.index_le
    rw [squeezeLoop]
    split
    · rename_i h
      rw [liftM_outcome, slice_block hc h, Except.ok_bind, Duplex.squeezeMany_block h]
      rfl
    · rename_i h
      simp only [liftM_outcome, usizeSub_of_le hle, Except.ok_bind]
      rw [slice_block hc (by omega), Except.ok_bind, if_pos (by omega)]
      refine squeezeBlock_eq hD hr hc (by omega) fun block hw => ?_
      refine ih (c := ⟨block, 0⟩) ⟨hw, Nat.zero_le _⟩ ?_
      rw [if_neg (show (0 : Nat) ≠ D.rate by omega)]
      split at hf <;> omega

/-- Poseidon's `squeeze_internal` reads the outputs one by one. -/
theorem squeezeInternal_eq (hD : D.KeepsWidth) (hr : 0 < D.rate) {c : Cursor V} (hc : c.Valid D) (n : Nat) :
    squeezeInternal D c.index n c.block = squeezed <$> D.squeezeMany n c :=
  squeezeLoop_eq hD hr hc (by split <;> omega)

end

end CryptoPrimitives.Sponge
