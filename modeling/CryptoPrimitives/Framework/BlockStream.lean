import Mathlib.Data.List.Basic

/-!
# Streams of blocks

A state that takes in a list block by block. `absorb` takes in the full blocks of a
list and keeps the rest.

* `absorb_append`: a list can be taken in piece by piece, each one after the rest of
  those before.
* `absorb_snd`: which entries are the rest.
-/

namespace BlockStream

variable {σ α : Type} (size : Nat) (compress : σ → List α → σ)

/-- `absorb` with fuel for each block. -/
def absorbFuel : Nat → σ → List α → σ × List α
  | 0, s, xs => (s, xs)
  | fuel + 1, s, xs =>
    if size ≤ xs.length then absorbFuel fuel (compress s (xs.take size)) (xs.drop size) else (s, xs)

/-- The state after the full blocks of `xs`, and the entries after them. -/
def absorb (s : σ) (xs : List α) : σ × List α := absorbFuel size compress xs.length s xs

variable {size compress}

theorem absorbFuel_eq (h : 0 < size) {fuel fuel' : Nat} {xs : List α} (hf : xs.length ≤ fuel)
    (hf' : xs.length ≤ fuel') (s : σ) :
    absorbFuel size compress fuel s xs = absorbFuel size compress fuel' s xs := by
  have hshort (fuel : Nat) {xs : List α} (hlt : xs.length < size) (s : σ) :
      absorbFuel size compress fuel s xs = (s, xs) := by
    cases fuel with
    | zero => rfl
    | succ fuel => rw [absorbFuel, if_neg (by omega)]
  induction fuel generalizing fuel' xs s with
  | zero => rw [hshort _ (by omega), hshort _ (by omega)]
  | succ fuel ih =>
    by_cases hle : size ≤ xs.length
    · obtain ⟨fuel', rfl⟩ : ∃ n, fuel' = n + 1 := ⟨fuel' - 1, by omega⟩
      rw [absorbFuel, absorbFuel, if_pos hle, if_pos hle]
      exact ih (by rw [List.length_drop]; omega) (by rw [List.length_drop]; omega) _
    · rw [hshort _ (by omega), hshort _ (by omega)]

theorem absorb_of_lt {xs : List α} (h : xs.length < size) (s : σ) : absorb size compress s xs = (s, xs) := by
  rw [absorb]
  cases xs.length with
  | zero => rfl
  | succ n => rw [absorbFuel, if_neg (by omega)]

theorem absorb_of_le (h : 0 < size) {xs : List α} (hle : size ≤ xs.length) (s : σ) :
    absorb size compress s xs = absorb size compress (compress s (xs.take size)) (xs.drop size) := by
  obtain ⟨n, hn⟩ : ∃ n, xs.length = n + 1 := ⟨xs.length - 1, by omega⟩
  rw [absorb, hn, absorbFuel, if_pos hle, absorb]
  exact absorbFuel_eq h (by rw [List.length_drop]; omega) (Nat.le_refl _) _

variable (compress) in
/-- An induction that takes in one block at a time. -/
theorem absorb_induction (h : 0 < size) {P : σ → List α → Prop}
    (short : ∀ s xs, xs.length < size → P s xs)
    (block : ∀ s xs, size ≤ xs.length → P (compress s (xs.take size)) (xs.drop size) → P s xs)
    (s : σ) (xs : List α) : P s xs := by
  induction hn : xs.length using Nat.strongRecOn generalizing s xs with
  | _ n ih =>
    by_cases hle : size ≤ xs.length
    · exact block s xs hle (ih _ (by rw [List.length_drop]; omega) _ _ rfl)
    · exact short s xs (by omega)

/-- The rest of a list. -/
theorem absorb_snd (h : 0 < size) (s : σ) (xs : List α) :
    (absorb size compress s xs).2 = xs.drop (size * (xs.length / size)) := by
  induction s, xs using absorb_induction compress h with
  | short s xs hlt => rw [absorb_of_lt hlt, Nat.div_eq_of_lt hlt, Nat.mul_zero, List.drop_zero]
  | block s xs hle ih =>
    rw [absorb_of_le h hle, ih, List.drop_drop, List.length_drop]
    congr 1
    rw [Nat.div_eq_sub_div h hle, Nat.mul_succ, Nat.add_comm]

/-- Taking in a list piece by piece. -/
theorem absorb_append (h : 0 < size) (s : σ) (xs ys : List α) :
    absorb size compress s (xs ++ ys) =
      absorb size compress (absorb size compress s xs).1 ((absorb size compress s xs).2 ++ ys) := by
  induction s, xs using absorb_induction compress h with
  | short s xs hlt => rw [absorb_of_lt hlt]
  | block s xs hle ih =>
    have hle' : size ≤ (xs ++ ys).length := by
      rw [List.length_append]
      omega
    rw [absorb_of_le h hle', absorb_of_le h hle, List.take_append_of_le_length hle,
      List.drop_append_of_le_length hle, ih]

end BlockStream
