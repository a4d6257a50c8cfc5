import CryptoPrimitives.Framework.Except
import Mathlib.Order.Basic
import Mathlib.Algebra.Ring.Nat

/-!
# Duplex blocks

A block holds `capacity` entries that stay hidden and then `rate` entries that are
added to and read one after the other. The block is permuted when they are used
up and another one is needed, not before: `turn`. A `Cursor` is a block and the
number of its entries used so far.

* `absorbAll_append`, `squeezeMany_add`: adding and reading go on where they
  stopped, however the entries are divided into calls.
* `absorbAll_block`, `squeezeMany_block`: within a block.
* `absorbAll_next`, `squeezeMany_next`: past the end of a block.
-/

/-- A permutation of blocks with `rate` entries to use. -/
structure Duplex (m : Type → Type) (V : Type) where
  rate : Nat
  capacity : Nat
  permute : List V → m (List V)

namespace Duplex

/-- A block and the number of its entries used so far. -/
@[ext]
structure Cursor (V : Type) where
  block : List V
  index : Nat

/-- `xs` added to the entries of a block from position `k` on. -/
def addAt {V : Type} [Add V] : Nat → List V → List V → List V
  | _, [], block => block
  | k, x :: xs, block => addAt (k + 1) xs (block.modify k (· + x))

section

variable {m : Type → Type} [Monad m] {V : Type} (D : Duplex m V)

/-- A block with an entry to use. -/
def turn (c : Cursor V) : m (Cursor V) :=
  if c.index = D.rate then do
    let block ← D.permute c.block
    pure ⟨block, 0⟩
  else pure c

/-- Add to one entry. -/
def absorbOne [Add V] (c : Cursor V) (x : V) : m (Cursor V) := do
  let c ← D.turn c
  pure ⟨c.block.modify (D.capacity + c.index) (· + x), c.index + 1⟩

/-- Add to the entries one by one. -/
def absorbAll [Add V] (c : Cursor V) (xs : List V) : m (Cursor V) := xs.foldlM D.absorbOne c

/-- Read one entry. -/
def squeezeOne (c : Cursor V) : m (List V × Cursor V) := do
  let c ← D.turn c
  pure ((c.block.drop (D.capacity + c.index)).take 1, ⟨c.block, c.index + 1⟩)

/-- Read entries one by one. -/
def squeezeMany : Nat → Cursor V → m (List V × Cursor V)
  | 0, c => pure ([], c)
  | n + 1, c => do
    let one ← D.squeezeOne c
    let rest ← squeezeMany n one.2
    pure (one.1 ++ rest.1, rest.2)

variable {D}

theorem turn_of_ne {c : Cursor V} (h : c.index ≠ D.rate) : D.turn c = pure c := if_neg h

theorem turn_rate (block : List V) :
    D.turn ⟨block, D.rate⟩ = (do
      let block ← D.permute block
      pure ⟨block, 0⟩) := if_pos rfl

theorem absorbAll_cons [Add V] (c : Cursor V) (x : V) (xs : List V) :
    D.absorbAll c (x :: xs) = D.absorbOne c x >>= (D.absorbAll · xs) := List.foldlM_cons

variable [LawfulMonad m]

/-- A turned block is not turned again. -/
theorem turn_turn {α : Type} (hr : 0 < D.rate) (c : Cursor V) (f : Cursor V → m α) :
    (D.turn c >>= fun c => D.turn c >>= f) = D.turn c >>= f := by
  unfold turn
  split
  · simp only [bind_assoc, pure_bind]
    refine congrArg (_ >>= ·) (funext fun block => ?_)
    rw [if_neg (show (0 : Nat) ≠ D.rate by omega), pure_bind]
  · rename_i h
    rw [pure_bind, if_neg h]

section Absorb

variable [Add V]

theorem absorbAll_append (c : Cursor V) (xs ys : List V) :
    D.absorbAll c (xs ++ ys) = D.absorbAll c xs >>= (D.absorbAll · ys) := List.foldlM_append

theorem absorbAll_turn (hr : 0 < D.rate) (c : Cursor V) {xs : List V} (h : xs ≠ []) :
    D.absorbAll c xs = D.turn c >>= (D.absorbAll · xs) := by
  cases xs with
  | nil => exact absurd rfl h
  | cons x xs =>
    simp only [absorbAll_cons, absorbOne, bind_assoc, turn_turn hr]

/-- Entries that fit in the block. -/
theorem absorbAll_block {c : Cursor V} {xs : List V} (h : c.index + xs.length ≤ D.rate) :
    D.absorbAll c xs = pure ⟨addAt (D.capacity + c.index) xs c.block, c.index + xs.length⟩ := by
  induction xs generalizing c with
  | nil => rfl
  | cons x xs ih =>
    rw [List.length_cons] at h
    rw [absorbAll_cons, absorbOne, turn_of_ne (by omega), pure_bind, pure_bind, ih (by simp only; omega)]
    simp only [addAt, List.length_cons, Nat.add_assoc, Nat.add_comm 1]

/-- Entries that do not fit fill the block, which is then permuted. -/
theorem absorbAll_next (hr : 0 < D.rate) {c : Cursor V} (hc : c.index ≤ D.rate) {xs : List V}
    (h : D.rate < c.index + xs.length) :
    D.absorbAll c xs = (do
      let block ← D.permute (addAt (D.capacity + c.index) (xs.take (D.rate - c.index)) c.block)
      D.absorbAll ⟨block, 0⟩ (xs.drop (D.rate - c.index))) := by
  have hlen : (xs.take (D.rate - c.index)).length = D.rate - c.index :=
    List.length_take_of_le (by omega)
  have hne : xs.drop (D.rate - c.index) ≠ [] := by
    rw [Ne, List.drop_eq_nil_iff]
    omega
  conv_lhs => rw [← List.take_append_drop (D.rate - c.index) xs]
  rw [absorbAll_append, absorbAll_block (by omega), pure_bind, hlen,
    show c.index + (D.rate - c.index) = D.rate by omega, absorbAll_turn hr _ hne, turn_rate, bind_assoc]
  simp only [pure_bind]

end Absorb

theorem squeezeMany_add (n k : Nat) (c : Cursor V) :
    D.squeezeMany (n + k) c = (do
      let first ← D.squeezeMany n c
      let second ← D.squeezeMany k first.2
      pure (first.1 ++ second.1, second.2)) := by
  induction n generalizing c with
  | zero => simp [squeezeMany]
  | succ n ih =>
    rw [Nat.succ_add]
    simp only [squeezeMany, ih, bind_assoc, pure_bind, List.append_assoc]

theorem squeezeMany_turn (hr : 0 < D.rate) (c : Cursor V) {n : Nat} (h : 0 < n) :
    D.squeezeMany n c = D.turn c >>= D.squeezeMany n := by
  obtain ⟨n, rfl⟩ : ∃ k, n = k + 1 := ⟨n - 1, by omega⟩
  simp only [squeezeMany, squeezeOne, bind_assoc, turn_turn hr]

/-- Entries read within a block. -/
theorem squeezeMany_block {c : Cursor V} {n : Nat} (h : c.index + n ≤ D.rate) :
    D.squeezeMany n c =
      pure ((c.block.drop (D.capacity + c.index)).take n, ⟨c.block, c.index + n⟩) := by
  induction n generalizing c with
  | zero => rfl
  | succ n ih =>
    rw [squeezeMany, squeezeOne, turn_of_ne (by omega), pure_bind, pure_bind, ih (by simp only; omega),
      pure_bind]
    simp only [Nat.add_comm n 1, List.take_add, List.drop_drop, Nat.add_assoc]

/-- Entries read past the end of the block. -/
theorem squeezeMany_next (hr : 0 < D.rate) {c : Cursor V} (hc : c.index ≤ D.rate) {n : Nat}
    (h : D.rate < c.index + n) :
    D.squeezeMany n c = (do
      let block ← D.permute c.block
      let rest ← D.squeezeMany (n - (D.rate - c.index)) ⟨block, 0⟩
      pure ((c.block.drop (D.capacity + c.index)).take (D.rate - c.index) ++ rest.1, rest.2)) := by
  obtain ⟨k, hk, rfl⟩ : ∃ k, 0 < k ∧ n = (D.rate - c.index) + k := ⟨n - (D.rate - c.index), by omega, by omega⟩
  rw [squeezeMany_add, squeezeMany_block (by omega), pure_bind,
    show c.index + (D.rate - c.index) = D.rate by omega, squeezeMany_turn hr _ hk, turn_rate,
    Nat.add_sub_cancel_left]
  simp only [bind_assoc, pure_bind]

end

/-! ## Permutations that may fail -/

section

variable {ε V : Type} {D : Duplex (Except ε) V}

/-- The permutation keeps the width of the block. -/
def KeepsWidth (D : Duplex (Except ε) V) : Prop :=
  ∀ block block', D.permute block = .ok block' → block.length = D.capacity + D.rate →
    block'.length = D.capacity + D.rate

/-- The permutation takes every block of full width to one. -/
def Total (D : Duplex (Except ε) V) : Prop :=
  ∀ block, block.length = D.capacity + D.rate →
    ∃ block', D.permute block = .ok block' ∧ block'.length = D.capacity + D.rate

theorem Total.keepsWidth (h : D.Total) : D.KeepsWidth := by
  intro block block' hp hl
  obtain ⟨block₁, h₁, hl₁⟩ := h block hl
  rwa [← Except.ok.inj (h₁.symm.trans hp)]

/-- A block of full width with some of its entries used. -/
structure Cursor.Valid (D : Duplex (Except ε) V) (c : Cursor V) : Prop where
  length_block : c.block.length = D.capacity + D.rate
  index_le : c.index ≤ D.rate

theorem length_addAt [Add V] (k : Nat) (xs block : List V) : (addAt k xs block).length = block.length := by
  induction xs generalizing k block with
  | nil => rfl
  | cons x xs ih => rw [addAt, ih, List.length_modify]

/-- A turned block has an entry to use, at the index modulo the rate. -/
theorem turn_valid (hD : D.KeepsWidth) (hr : 0 < D.rate) {c c' : Cursor V} (hc : c.Valid D)
    (h : D.turn c = .ok c') :
    c'.block.length = D.capacity + D.rate ∧ c'.index < D.rate ∧ c'.index = c.index % D.rate := by
  by_cases hi : c.index = D.rate
  · rw [turn, if_pos hi, Except.bind_eq_ok] at h
    obtain ⟨block, hblock, h⟩ := h
    obtain rfl := Except.ok.inj h
    exact ⟨hD _ _ hblock hc.length_block, hr, by rw [hi, Nat.mod_self]⟩
  · rw [turn_of_ne hi, Except.pure_eq_ok, Except.ok.injEq] at h
    have hlt : c.index < D.rate := lt_of_le_of_ne hc.index_le hi
    rw [← h, Nat.mod_eq_of_lt hlt]
    exact ⟨hc.length_block, hlt, rfl⟩

theorem absorbOne_valid [Add V] (hD : D.KeepsWidth) (hr : 0 < D.rate) {c c' : Cursor V} {x : V}
    (hc : c.Valid D) (h : D.absorbOne c x = .ok c') : c'.Valid D := by
  rw [absorbOne, Except.bind_eq_ok] at h
  obtain ⟨c₁, h₁, h⟩ := h
  obtain ⟨hl, hlt, -⟩ := turn_valid hD hr hc h₁
  obtain rfl := Except.ok.inj h
  exact ⟨by rw [List.length_modify, hl], hlt⟩

theorem absorbAll_valid [Add V] (hD : D.KeepsWidth) (hr : 0 < D.rate) {c c' : Cursor V} {xs : List V}
    (hc : c.Valid D) (h : D.absorbAll c xs = .ok c') : c'.Valid D :=
  Except.foldlM_induction (fun _ _ _ _ hs hstep => absorbOne_valid hD hr hs hstep) hc h

theorem squeezeMany_succ_eq_ok {n : Nat} {c c' : Cursor V} {xs : List V} :
    D.squeezeMany (n + 1) c = .ok (xs, c') ↔ ∃ c₁, D.turn c = .ok c₁ ∧
      ∃ ys, D.squeezeMany n ⟨c₁.block, c₁.index + 1⟩ = .ok (ys, c') ∧
        (c₁.block.drop (D.capacity + c₁.index)).take 1 ++ ys = xs := by
  simp only [squeezeMany, squeezeOne, bind_assoc, Except.bind_eq_ok, Except.pure_eq_ok, Except.ok_bind,
    Except.ok.injEq, Prod.mk.injEq, Prod.exists]
  refine exists_congr fun c₁ => and_congr_right fun _ => ⟨?_, ?_⟩
  · rintro ⟨ys, c₂, h, hxs, rfl⟩
    exact ⟨ys, h, hxs⟩
  · rintro ⟨ys, h, hxs⟩
    exact ⟨ys, c', h, hxs, rfl⟩

/-- Nothing fails where the permutation does not. -/
theorem exists_turn (hD : D.Total) {c : Cursor V} (hc : c.Valid D) : ∃ c', D.turn c = .ok c' := by
  by_cases hi : c.index = D.rate
  · obtain ⟨block, hblock, -⟩ := hD c.block hc.length_block
    exact ⟨⟨block, 0⟩, by rw [turn, if_pos hi, hblock]; rfl⟩
  · exact ⟨c, turn_of_ne hi⟩

theorem exists_absorbAll [Add V] (hD : D.Total) (hr : 0 < D.rate) {c : Cursor V} (hc : c.Valid D)
    (xs : List V) : ∃ c', D.absorbAll c xs = .ok c' ∧ c'.Valid D := by
  refine Except.exists_foldlM (P := Cursor.Valid D) (fun c x _ hc => ?_) hc
  obtain ⟨c₁, h₁⟩ := exists_turn hD hc
  have h : D.absorbOne c x = .ok ⟨c₁.block.modify (D.capacity + c₁.index) (· + x), c₁.index + 1⟩ := by
    rw [absorbOne, h₁]
    rfl
  exact ⟨_, h, absorbOne_valid hD.keepsWidth hr hc h⟩

theorem exists_squeezeMany (hD : D.Total) (hr : 0 < D.rate) {c : Cursor V} (hc : c.Valid D) (n : Nat) :
    ∃ r, D.squeezeMany n c = .ok r := by
  induction n generalizing c with
  | zero => exact ⟨_, rfl⟩
  | succ n ih =>
    obtain ⟨c₁, h₁⟩ := exists_turn hD hc
    obtain ⟨hl, hlt, -⟩ := turn_valid hD.keepsWidth hr hc h₁
    obtain ⟨r, h⟩ := ih (c := ⟨c₁.block, c₁.index + 1⟩) ⟨hl, hlt⟩
    exact ⟨_, squeezeMany_succ_eq_ok.mpr ⟨c₁, h₁, r.1, h, rfl⟩⟩

/-- After `n` entries the block has its width, and `n` more of its entries are used,
up to whole blocks. -/
theorem squeezeMany_valid (hD : D.KeepsWidth) (hr : 0 < D.rate) {n : Nat} {c c' : Cursor V} {xs : List V}
    (hc : c.Valid D) (h : D.squeezeMany n c = .ok (xs, c')) :
    c'.Valid D ∧ xs.length = n ∧ c'.index % D.rate = (c.index + n) % D.rate := by
  induction n generalizing c xs with
  | zero =>
    rw [squeezeMany, Except.pure_eq_ok, Except.ok.injEq, Prod.mk.injEq] at h
    obtain ⟨rfl, rfl⟩ := h
    exact ⟨hc, rfl, rfl⟩
  | succ n ih =>
    obtain ⟨c₁, h₁, ys, hys, rfl⟩ := squeezeMany_succ_eq_ok.mp h
    obtain ⟨hl, hlt, hi⟩ := turn_valid hD hr hc h₁
    obtain ⟨hvalid, hlen, hmod⟩ := ih (c := ⟨c₁.block, c₁.index + 1⟩) ⟨hl, hlt⟩ hys
    refine ⟨hvalid, ?_, ?_⟩
    · rw [List.length_append, hlen, List.length_take_of_le (by rw [List.length_drop, hl]; omega),
        Nat.add_comm]
    · rw [hmod, hi, Nat.add_assoc, Nat.mod_add_mod, Nat.add_comm 1]

theorem forall_turn {P : V → Prop}
    (hP : ∀ block block', D.permute block = .ok block' → (∀ x ∈ block, P x) → ∀ x ∈ block', P x)
    {c c' : Cursor V} (hc : ∀ x ∈ c.block, P x) (h : D.turn c = .ok c') : ∀ x ∈ c'.block, P x := by
  rw [turn] at h
  split at h
  · obtain ⟨block, hblock, h⟩ := Except.bind_eq_ok.mp h
    rw [← Except.ok.inj h]
    exact hP _ _ hblock hc
  · rw [← Except.ok.inj h]
    exact hc

/-- What the permutation keeps of the entries of a block, all entries read have. -/
theorem forall_squeezeMany {P : V → Prop}
    (hP : ∀ block block', D.permute block = .ok block' → (∀ x ∈ block, P x) → ∀ x ∈ block', P x)
    {n : Nat} {c c' : Cursor V} {xs : List V} (hc : ∀ x ∈ c.block, P x)
    (h : D.squeezeMany n c = .ok (xs, c')) : ∀ x ∈ xs, P x := by
  induction n generalizing c xs with
  | zero =>
    rw [squeezeMany, Except.pure_eq_ok, Except.ok.injEq, Prod.mk.injEq] at h
    rw [← h.1]
    exact nofun
  | succ n ih =>
    obtain ⟨c₁, h₁, ys, hys, rfl⟩ := squeezeMany_succ_eq_ok.mp h
    have hc₁ := forall_turn hP hc h₁
    intro x hx
    rcases List.mem_append.mp hx with hx | hx
    · exact hc₁ x (List.mem_of_mem_drop (List.mem_of_mem_take hx))
    · exact ih (c := ⟨c₁.block, c₁.index + 1⟩) hc₁ hys x hx

end

end Duplex
