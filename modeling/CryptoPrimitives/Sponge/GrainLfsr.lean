import CryptoPrimitives.Framework.LinearRecurrence
import CryptoPrimitives.Framework.Synthesis
import CryptoPrimitives.Rust.Outcome
import Mathlib.Data.Nat.Nth
import Mathlib.Data.ZMod.Basic
import Mathlib.Algebra.Field.ZMod
import Mathlib.Tactic.ReduceModChar

/-!
# The Grain register

`sponge/poseidon/grain_lfsr.rs`: a register of 80 bits in a ring, whose head is its oldest bit, and
the bits that `get_bits` takes from it two at a time.

* `Holds.update`: the bits of the ring are those of the recurrence that the taps make.
* `getBits_returns`: the register is never all zero, and of 80 first bits one is true, so that
  `get_bits` returns.
* `getBits_selfShrinks`: it returns the entries of the self-shrunk sequence one after the other,
  however they are asked for.
-/

namespace CryptoPrimitives

open LinearRecurrence (IsSolution)
open Polynomial (X derivative)

/-- `PoseidonGrainLFSR`. -/
structure PoseidonGrainLFSR where
  primeNumBits : Nat
  state : Vector Bool 80
  head : Fin 80
deriving DecidableEq

namespace PoseidonGrainLFSR

/-- A loop of `new` that writes the low bits of a number to `state[first..=last]`, the lowest one last. -/
def writeBits (state : Vector Bool 80) (first last cur : Nat) : Vector Bool 80 :=
  ((List.range' first (last + 1 - first)).reverse.foldl
    (fun (s : Vector Bool 80 × Nat) i => (s.1.setIfInBounds i (s.2 &&& 1 == 1), s.2 >>> 1)) (state, cur)).1

/-- The bits that `new` starts the register from. -/
def seed (isSboxAnInverse : Bool) (primeNumBits stateLen numFullRounds numPartialRounds : Nat) : Vector Bool 80 :=
  let state := Vector.replicate 80 false
  let state := state.set 1 true
  let state := if isSboxAnInverse then state.set 5 true else state.set 5 false
  let state := writeBits state 6 17 primeNumBits
  let state := writeBits state 18 29 stateLen
  let state := writeBits state 30 39 numFullRounds
  let state := writeBits state 40 49 numPartialRounds
  (List.range' 50 30).foldl (fun state i => state.setIfInBounds i true) state

/-- `PoseidonGrainLFSR::update`. -/
def update (self : PoseidonGrainLFSR) : Bool × PoseidonGrainLFSR :=
  let newBit := self.state[self.head + 62] ^^ self.state[self.head + 51] ^^ self.state[self.head + 38] ^^
    self.state[self.head + 23] ^^ self.state[self.head + 13] ^^ self.state[self.head]
  (newBit, { self with state := self.state.set self.head newBit, head := self.head + 1 })

/-- The register after `update`. -/
def next (self : PoseidonGrainLFSR) : PoseidonGrainLFSR := self.update.2

/-- `PoseidonGrainLFSR::init`. -/
def init (self : PoseidonGrainLFSR) : PoseidonGrainLFSR := next^[160] self

/-- The register that `new` makes, before its `init`. -/
def seeded (isSboxAnInverse : Bool) (primeNumBits stateLen numFullRounds numPartialRounds : Nat) :
    PoseidonGrainLFSR where
  primeNumBits := primeNumBits
  state := seed isSboxAnInverse primeNumBits stateLen numFullRounds numPartialRounds
  head := 0

/-- `PoseidonGrainLFSR::new`. -/
def new (isSboxAnInverse : Bool) (primeNumBits stateLen numFullRounds numPartialRounds : Nat) :
    PoseidonGrainLFSR :=
  (seeded isSboxAnInverse primeNumBits stateLen numFullRounds numPartialRounds).init

/-- The loop of `get_bits`, which drops the pairs whose first bit is false. The fuel is the number of its
iterations. -/
def skipPairs : Nat → Bool → PoseidonGrainLFSR → Outcome PoseidonGrainLFSR
  | _, true, self => .ok self
  | 0, false, _ => raise .diverge
  | fuel + 1, false, self =>
    let (_, self) := self.update
    let (newBit, self) := self.update
    skipPairs fuel newBit self

/-- One bit of `get_bits`. -/
def getBit (fuel : Nat) (self : PoseidonGrainLFSR) : Outcome (Bool × PoseidonGrainLFSR) := do
  let (newBit, self) := self.update
  let self ← skipPairs fuel newBit self
  pure self.update

/-- A loop that pushes what it draws from the register. -/
def draws {α : Type} (draw : PoseidonGrainLFSR → Outcome (α × PoseidonGrainLFSR)) :
    Nat → PoseidonGrainLFSR → Outcome (List α × PoseidonGrainLFSR)
  | 0, self => pure ([], self)
  | n + 1, self => do
    let (x, self) ← draw self
    let (res, self) ← draws draw n self
    pure (x :: res, self)

/-- `PoseidonGrainLFSR::get_bits`. -/
def getBits (fuel : Nat) (self : PoseidonGrainLFSR) (numBits : Nat) : Outcome (List Bool × PoseidonGrainLFSR) :=
  draws (getBit fuel) numBits self

/-! ## The recurrence -/

/-- The taps of the register. -/
def taps : Finset (Fin 80) := {62, 51, 38, 23, 13, 0}

/-- `b(i+80) = b(i+62) + b(i+51) + b(i+38) + b(i+23) + b(i+13) + b(i)`. -/
def grainRecurrence : LinearRecurrence (ZMod 2) where
  order := 80
  coeffs i := if i ∈ taps then 1 else 0

theorem sum_taps {M : Type} [AddCommMonoid M] (g : Fin 80 → M) :
    ∑ i ∈ taps, g i = g 62 + (g 51 + (g 38 + (g 23 + (g 13 + g 0)))) := by
  have h62 : (62 : Fin 80) ∉ ({51, 38, 23, 13, 0} : Finset (Fin 80)) := by decide
  have h51 : (51 : Fin 80) ∉ ({38, 23, 13, 0} : Finset (Fin 80)) := by decide
  have h38 : (38 : Fin 80) ∉ ({23, 13, 0} : Finset (Fin 80)) := by decide
  have h23 : (23 : Fin 80) ∉ ({13, 0} : Finset (Fin 80)) := by decide
  have h13 : (13 : Fin 80) ∉ ({0} : Finset (Fin 80)) := by decide
  rw [taps, Finset.sum_insert h62, Finset.sum_insert h51, Finset.sum_insert h38, Finset.sum_insert h23,
    Finset.sum_insert h13, Finset.sum_singleton]

theorem isSolution_iff {u : Nat → ZMod 2} : grainRecurrence.IsSolution u ↔
    ∀ n, u (n + 80) = u (n + 62) + (u (n + 51) + (u (n + 38) + (u (n + 23) + (u (n + 13) + u n)))) := by
  refine forall_congr' fun n => ?_
  have hsum : ∑ i : Fin 80, (if i ∈ taps then (1 : ZMod 2) else 0) * u (n + i) =
      u (n + 62) + (u (n + 51) + (u (n + 38) + (u (n + 23) + (u (n + 13) + u n)))) := by
    simp only [ite_mul, one_mul, zero_mul, Finset.sum_ite_mem, Finset.univ_inter]
    exact sum_taps fun i : Fin 80 => u (n + i)
  exact Eq.congr_right hsum

theorem charPoly_eq : grainRecurrence.charPoly = X ^ 80 - (X ^ 62 + (X ^ 51 + (X ^ 38 + (X ^ 23 + (X ^ 13 + 1))))) := by
  have hsum : ∑ i : Fin 80, Polynomial.monomial (i : Nat) (if i ∈ taps then (1 : ZMod 2) else 0) =
      X ^ 62 + (X ^ 51 + (X ^ 38 + (X ^ 23 + (X ^ 13 + 1)))) := by
    simp only [apply_ite (Polynomial.monomial _), map_zero, Finset.sum_ite_mem, Finset.univ_inter]
    exact (sum_taps _).trans (by simp only [← Polynomial.X_pow_eq_monomial]; rfl)
  exact congrArg₂ _ (Polynomial.X_pow_eq_monomial 80).symm hsum

/-- A step of Euclid's algorithm. -/
theorem isCoprime_of_eq {R : Type} [CommRing R] {a b q r : R} (h : a = b * q + r) (hr : IsCoprime b r) :
    IsCoprime a b := by
  rw [h, add_comm]
  exact hr.symm.add_mul_left_left q

theorem isCoprime_X : IsCoprime grainRecurrence.charPoly X := by
  rw [charPoly_eq]
  refine isCoprime_of_eq (q := X ^ 79 - (X ^ 61 + (X ^ 50 + (X ^ 37 + (X ^ 22 + X ^ 12))))) (r := -1) (by ring) ?_
  exact isCoprime_one_right.neg_right

theorem derivative_charPoly :
    derivative grainRecurrence.charPoly = X ^ 12 * (X ^ 19 + X ^ 5 + 1) ^ 2 := by
  rw [charPoly_eq]
  simp only [Polynomial.derivative_sub, Polynomial.derivative_add, Polynomial.derivative_X_pow,
    Polynomial.derivative_one, Polynomial.C_eq_natCast]
  ring_nf
  reduce_mod_char

/-- Euclid's algorithm on the even and the odd taps: the recurrence has no repeated root. -/
theorem isCoprime_derivative : IsCoprime grainRecurrence.charPoly (derivative grainRecurrence.charPoly) := by
  rw [derivative_charPoly]
  refine isCoprime_X.pow_right.mul_right (IsCoprime.pow_right ?_)
  have heven : grainRecurrence.charPoly =
      (X ^ 19 + X ^ 5 + 1) * (X ^ 13 * (X ^ 19 + X ^ 5 + 1)) + (X ^ 40 + X ^ 31 + X ^ 19 + 1) ^ 2 := by
    rw [charPoly_eq]
    ring_nf
    reduce_mod_char
  refine isCoprime_of_eq heven (IsCoprime.pow_right (IsCoprime.symm ?_))
  refine isCoprime_of_eq (q := X ^ 21 + X ^ 12 + X ^ 7 + X ^ 2 + 1) (r := X ^ 17 + X ^ 5 + X ^ 2)
    (by ring_nf; reduce_mod_char) ?_
  refine isCoprime_of_eq (q := X ^ 2) (r := X ^ 7 + X ^ 5 + X ^ 4 + 1) (by ring_nf; reduce_mod_char) ?_
  refine isCoprime_of_eq (q := X ^ 10 + X ^ 8 + X ^ 7 + X ^ 6 + X + 1) (r := X ^ 5 + X ^ 4 + X ^ 2 + X + 1)
    (by ring_nf; reduce_mod_char) ?_
  refine isCoprime_of_eq (q := X ^ 2 + X) (r := X + 1) (by ring_nf; reduce_mod_char) ?_
  exact isCoprime_of_eq (q := X ^ 4 + X) (r := 1) (by ring) isCoprime_one_right

/-! ## The ring -/

/-- A bit as an element of the field of two elements. -/
def bit (b : Bool) : ZMod 2 := if b then 1 else 0

theorem bit_xor (a b : Bool) : bit (a ^^ b) = bit a + bit b := by
  revert a b
  decide

theorem bit_eq_one {b : Bool} : bit b = 1 ↔ b = true := by
  revert b
  decide

theorem get_set (state : Vector Bool 80) (i j : Fin 80) (b : Bool) :
    (state.set i b).get j = if i = j then b else state.get j := by
  show (state.set i b)[j.val] = if i = j then b else state[j.val]
  rw [Vector.getElem_set]
  simp only [Fin.ext_iff]

/-- The ring holds 80 entries of a sequence, from its head on. -/
def Holds (self : PoseidonGrainLFSR) (u : Nat → ZMod 2) (n : Nat) : Prop :=
  ∀ i : Fin 80, bit (self.state.get (self.head + i)) = u (n + i)

/-- `update` returns the next entry, and writes it over the oldest. -/
theorem Holds.update {self : PoseidonGrainLFSR} {u : Nat → ZMod 2} {n : Nat} (h : self.Holds u n)
    (hu : grainRecurrence.IsSolution u) : bit self.update.1 = u (n + 80) ∧ self.next.Holds u (n + 1) := by
  have hnew : bit self.update.1 = u (n + 80) := by
    have h0 := h 0
    rw [add_zero] at h0
    show bit (self.state.get (self.head + 62) ^^ self.state.get (self.head + 51) ^^ self.state.get (self.head + 38) ^^
      self.state.get (self.head + 23) ^^ self.state.get (self.head + 13) ^^ self.state.get self.head) = u (n + 80)
    rw [isSolution_iff.mp hu n]
    simp only [bit_xor, h 62, h 51, h 38, h 23, h 13, h0, add_assoc]
    rfl
  refine ⟨hnew, fun i => ?_⟩
  show bit ((self.state.set self.head self.update.1).get (self.head + 1 + i)) = u (n + 1 + i)
  rw [get_set]
  rcases Nat.lt_or_ge i 79 with hi | hi
  · -- the entry was one place further from the head
    have hslot : self.head + 1 + i = self.head + ⟨i + 1, by omega⟩ := by
      have hsucc : 1 + i = ⟨i + 1, by omega⟩ := Fin.ext (by
        rw [Fin.val_add, Fin.val_one, Nat.mod_eq_of_lt (by omega)]
        exact Nat.add_comm ..)
      rw [add_assoc, hsucc]
    have hne : self.head ≠ self.head + ⟨i + 1, by omega⟩ := fun heq => by
      have hzero := congrArg Fin.val (left_eq_add.mp heq)
      exact Nat.succ_ne_zero _ hzero
    rw [hslot, if_neg hne, h, Nat.add_right_comm, Nat.add_assoc]
  · have hslot : self.head + 1 + i = self.head := by
      rw [add_assoc, show 1 + i = 0 from Fin.ext (by rw [Fin.val_add, Fin.val_one, Fin.val_zero]; omega),
        add_zero]
    rw [if_pos hslot.symm, hnew]
    congr 1
    omega

section

variable {self : PoseidonGrainLFSR} {u : Nat → ZMod 2} {n : Nat}

theorem Holds.iterate (h : self.Holds u n) (hu : grainRecurrence.IsSolution u) (k : Nat) :
    (next^[k] self).Holds u (n + k) := by
  induction k with
  | zero => exact h
  | succ k ih =>
    rw [Function.iterate_succ_apply']
    exact (ih.update hu).2

/-- The ring of a sequence that is not zero is never all zero. -/
theorem Holds.exists_set (h : self.Holds u n) (hu : grainRecurrence.IsSolution u) (hne : u ≠ 0) :
    ∃ i : Fin 80, self.state.get i = true := by
  obtain ⟨i, hi, hui⟩ := hu.exists_ne_zero isCoprime_X hne n
  refine ⟨self.head + ⟨i, hi⟩, Bool.of_not_eq_false fun hfalse => hui ?_⟩
  rw [← h ⟨i, hi⟩, hfalse]
  rfl

/-- Of 80 bits at every second update one is set. -/
theorem Holds.exists_update (h : self.Holds u n) (hu : grainRecurrence.IsSolution u) (hne : u ≠ 0) (k : Nat) :
    ∃ j < 80, (next^[k + 2 * j] self).update.1 = true := by
  have hcoeffs : ∀ i, grainRecurrence.coeffs i ^ 2 = grainRecurrence.coeffs i := fun (i : Fin 80) => by
    show (if i ∈ taps then (1 : ZMod 2) else 0) ^ 2 = if i ∈ taps then 1 else 0
    split <;> rfl
  obtain ⟨j, hj, huj⟩ := hu.exists_sample isCoprime_X isCoprime_derivative hcoeffs hne (n + 80 + k)
  refine ⟨j, hj, Bool.of_not_eq_false fun hfalse => huj ?_⟩
  rw [show n + 80 + k + 2 * j = n + (k + 2 * j) + 80 by omega, ← ((h.iterate hu _).update hu).1, hfalse]
  rfl

end

/-! ## The bits that `get_bits` takes -/

section

variable {self : PoseidonGrainLFSR} {fuel : Nat}

theorem skipPairs_false (fuel : Nat) (self : PoseidonGrainLFSR) :
    skipPairs (fuel + 1) false self = skipPairs fuel self.next.update.1 self.next.next := rfl

theorem getBit_eq (fuel : Nat) (self : PoseidonGrainLFSR) :
    self.getBit fuel = (skipPairs fuel self.update.1 self.next >>= fun self => pure self.update) := rfl

/-- The pairs whose first bit is false are dropped, `k` of them. -/
theorem skipPairs_eq {k : Nat} (hk : k ≤ fuel) {n : Nat} (hfalse : ∀ j < k, (next^[n + 2 * j] self).update.1 = false)
    (htrue : (next^[n + 2 * k] self).update.1 = true) :
    skipPairs fuel (next^[n] self).update.1 (next^[n + 1] self) = .ok (next^[n + 2 * k + 1] self) := by
  induction k generalizing fuel n with
  | zero => rw [show (next^[n] self).update.1 = true from htrue, skipPairs, Nat.mul_zero, Nat.add_zero]
  | succ k ih =>
    obtain ⟨fuel, rfl⟩ : ∃ f, fuel = f + 1 := ⟨fuel - 1, by omega⟩
    have hadd (j : Nat) : n + 2 + 2 * j = n + 2 * (j + 1) := by omega
    have hrest : skipPairs fuel (next^[n + 2] self).update.1 (next^[n + 2 + 1] self) =
        .ok (next^[n + 2 + 2 * k + 1] self) :=
      ih (by omega) (fun j hj => by rw [hadd]; exact hfalse (j + 1) (by omega)) (by rw [hadd]; exact htrue)
    rw [show (next^[n] self).update.1 = false from hfalse 0 (Nat.succ_pos k), skipPairs_false,
      ← Function.iterate_succ_apply' next, ← Function.iterate_succ_apply' next, hrest, hadd]

/-- The first bits of the pairs that are read from the register on. -/
def firstBit (self : PoseidonGrainLFSR) (j : Nat) : Prop := (next^[2 * j] self).update.1 = true

instance : DecidablePred (firstBit self) := fun _ => inferInstanceAs (Decidable (_ = _))

/-- The self-shrinking rule: entry `i` is the second bit of the `i`-th pair whose first bit is set. -/
noncomputable def shrunk (self : PoseidonGrainLFSR) (i : Nat) : Bool :=
  (next^[2 * Nat.nth (firstBit self) i + 1] self).update.1

/-- The register from which `i` bits have been taken. -/
def Taken (self : PoseidonGrainLFSR) (i : Nat) (lfsr : PoseidonGrainLFSR) : Prop :=
  ∃ j, lfsr = next^[2 * j] self ∧ Nat.count (firstBit self) j = i

/-- One bit more. -/
theorem Taken.getBit (hfirst : ∀ k, ∃ j < 80, (next^[k + 2 * j] self).update.1 = true) (hfuel : 80 ≤ fuel) {i : Nat}
    {lfsr : PoseidonGrainLFSR} (h : Taken self i lfsr) :
    ∃ lfsr', lfsr.getBit fuel = .ok (shrunk self i, lfsr') ∧ Taken self (i + 1) lfsr' := by
  obtain ⟨m, rfl, hcount⟩ := h
  obtain ⟨j, hj, hset⟩ := hfirst (2 * m)
  have hex : ∃ k, firstBit self (m + k) := ⟨j, by rwa [firstBit, Nat.mul_add]⟩
  -- the first pair from here on whose first bit is set
  obtain ⟨k, hk, hmin⟩ : ∃ k, firstBit self (m + k) ∧ ∀ j < k, ¬ firstBit self (m + j) :=
    ⟨Nat.find hex, Nat.find_spec hex, fun j hj => Nat.find_min hex hj⟩
  have hlt : k ≤ j := Nat.le_of_not_lt fun hjk => hmin j hjk (by rwa [firstBit, Nat.mul_add])
  have hcount' : Nat.count (firstBit self) (m + k) = i := by
    rw [Nat.count_add, hcount, Nat.count_iff_forall_not.mpr fun j hj => hmin j hj, Nat.add_zero]
  have hnth : Nat.nth (firstBit self) i = m + k := by rw [← hcount', Nat.nth_count hk]
  have hskip : skipPairs fuel (next^[2 * m] self).update.1 (next^[2 * m + 1] self) =
      .ok (next^[2 * m + 2 * k + 1] self) :=
    skipPairs_eq (by omega) (fun j hj => by rw [← Nat.mul_add]; exact Bool.of_not_eq_true (hmin j hj))
      (by rw [← Nat.mul_add]; exact hk)
  refine ⟨next^[2 * (m + k + 1)] self, ?_, m + k + 1, rfl, by rw [Nat.count_succ, hcount', if_pos hk]⟩
  rw [getBit_eq, ← Function.iterate_succ_apply' next, hskip, Except.ok_bind, shrunk, hnth, Nat.mul_succ,
    Function.iterate_succ_apply' next (2 * (m + k) + 1), Nat.mul_add]
  rfl

/-- `get_bits` returns as many bits as it is asked for, the next ones. -/
theorem Taken.getBits (hfirst : ∀ k, ∃ j < 80, (next^[k + 2 * j] self).update.1 = true) (hfuel : 80 ≤ fuel)
    {i : Nat} {lfsr : PoseidonGrainLFSR} (h : Taken self i lfsr) (numBits : Nat) :
    ∃ lfsr', lfsr.getBits fuel numBits = .ok ((List.range' i numBits).map (shrunk self), lfsr') ∧
      Taken self (i + numBits) lfsr' := by
  induction numBits generalizing i lfsr with
  | zero => exact ⟨lfsr, rfl, h⟩
  | succ numBits ih =>
    obtain ⟨lfsr₁, hbit, h₁⟩ := h.getBit hfirst hfuel
    obtain ⟨lfsr₂, hbits, h₂⟩ := ih h₁
    refine ⟨lfsr₂, ?_, by rwa [Nat.add_assoc, Nat.add_comm 1] at h₂⟩
    rw [PoseidonGrainLFSR.getBits, draws, hbit, Except.ok_bind]
    show (lfsr₁.getBits fuel numBits >>= _) = _
    rw [hbits]
    rfl

/-- So do calls one after the other. -/
theorem Taken.calls (hfirst : ∀ k, ∃ j < 80, (next^[k + 2 * j] self).update.1 = true) (hfuel : 80 ≤ fuel)
    {i : Nat} {lfsr : PoseidonGrainLFSR} (h : Taken self i lfsr) (requests : List Nat) :
    ∃ rs, trace (fun lfsr => lfsr.getBits fuel) lfsr requests = (.ok rs : Outcome _) ∧
      rs.map (·.1.length) = requests ∧
      (rs.map (·.1)).flatten = (List.range' i requests.sum).map (shrunk self) ∧
      ∀ r ∈ rs, ∃ j, r.2 = next^[2 * j] self := by
  induction requests generalizing i lfsr with
  | nil => exact ⟨[], rfl, rfl, rfl, fun r hr => nomatch hr⟩
  | cons numBits requests ih =>
    obtain ⟨lfsr₁, hbits, h₁⟩ := h.getBits hfirst hfuel numBits
    obtain ⟨rs, hrs, hlength, hflat, hstates⟩ := ih h₁
    obtain ⟨j, hj, -⟩ := h₁
    refine ⟨((List.range' i numBits).map (shrunk self), lfsr₁) :: rs, ?_, ?_, ?_, ?_⟩
    · rw [trace, hbits, Except.ok_bind, hrs]
      rfl
    · rw [List.map_cons, List.length_map, List.length_range', hlength]
    · rw [List.map_cons, List.flatten_cons, hflat, List.sum_cons, ← List.range'_append_1, List.map_append]
    · rintro r (_ | ⟨_, hr⟩)
      · exact ⟨j, hj⟩
      · exact hstates r hr

end

section

variable (isSboxAnInverse : Bool) (primeNumBits stateLen numFullRounds numPartialRounds : Nat)

/-- The bits of the recurrence started from the seed. -/
noncomputable def grainBits (seed : Vector Bool 80) : Nat → ZMod 2 :=
  grainRecurrence.mkSol fun i : Fin 80 => bit (seed.get i)

/-- Read pairs of bits, and emit the second one when the first is 1. -/
noncomputable def selfShrink (s : Nat → ZMod 2) (i : Nat) : ZMod 2 := s (2 * Nat.nth (fun j => s (2 * j) = 1) i + 1)

theorem isSolution_grainBits (seed : Vector Bool 80) : grainRecurrence.IsSolution (grainBits seed) :=
  grainRecurrence.is_sol_mkSol _

theorem grainBits_eq_seed (seed : Vector Bool 80) (i : Fin 80) : grainBits seed i = bit (seed.get i) :=
  grainRecurrence.mkSol_eq_init _ i

theorem holds_seeded : (seeded isSboxAnInverse primeNumBits stateLen numFullRounds numPartialRounds).Holds
    (grainBits (seed isSboxAnInverse primeNumBits stateLen numFullRounds numPartialRounds)) 0 := fun i => by
  show bit (Vector.get _ (0 + i)) = _
  rw [zero_add, Nat.zero_add, grainBits_eq_seed]
  rfl

/-- The last bit of the seed is set. -/
theorem grainBits_ne_zero :
    grainBits (seed isSboxAnInverse primeNumBits stateLen numFullRounds numPartialRounds) ≠ 0 := by
  intro hzero
  have hlast := grainBits_eq_seed (seed isSboxAnInverse primeNumBits stateLen numFullRounds numPartialRounds) 79
  have hset : (seed isSboxAnInverse primeNumBits stateLen numFullRounds numPartialRounds).get 79 = true := by
    rw [seed, show List.range' 50 30 = List.range' 50 29 ++ [79] from rfl, List.foldl_append]
    exact Vector.getElem_setIfInBounds_self _
  rw [hzero, hset] at hlast
  exact absurd hlast (by decide)

theorem holds_new : (new isSboxAnInverse primeNumBits stateLen numFullRounds numPartialRounds).Holds
    (grainBits (seed isSboxAnInverse primeNumBits stateLen numFullRounds numPartialRounds)) 160 := by
  have h := (holds_seeded isSboxAnInverse primeNumBits stateLen numFullRounds numPartialRounds).iterate
    (isSolution_grainBits _) 160
  rwa [Nat.zero_add] at h

/-- For all arguments of `new`: after any number of updates the register is not all zero, and of 80 first bits
one is true. So `get_bits` ends, with at most 80 iterations of its loop for each bit, and returns as many bits
as it is asked for, in any sequence of calls. -/
theorem getBits_returns :
    (∀ k, ∃ i : Fin 80, (next^[k] (seeded isSboxAnInverse primeNumBits stateLen numFullRounds
      numPartialRounds)).state[i] = true) ∧
    ∀ fuel, 80 ≤ fuel → ∀ requests : List Nat, ∃ rs, trace (fun lfsr => lfsr.getBits fuel)
      (new isSboxAnInverse primeNumBits stateLen numFullRounds numPartialRounds) requests = (.ok rs : Outcome _) ∧
      rs.map (·.1.length) = requests ∧
      ∀ r ∈ rs, ∃ k, r.2 = next^[k] (seeded isSboxAnInverse primeNumBits stateLen numFullRounds numPartialRounds) := by
  have hsol := isSolution_grainBits (seed isSboxAnInverse primeNumBits stateLen numFullRounds numPartialRounds)
  have hne := grainBits_ne_zero isSboxAnInverse primeNumBits stateLen numFullRounds numPartialRounds
  have hstart := holds_seeded isSboxAnInverse primeNumBits stateLen numFullRounds numPartialRounds
  have hnew := holds_new isSboxAnInverse primeNumBits stateLen numFullRounds numPartialRounds
  refine ⟨fun k => ?_, fun fuel hfuel requests => ?_⟩
  · exact (hstart.iterate hsol k).exists_set hsol hne
  · obtain ⟨rs, hrs, hlength, -, hstates⟩ := Taken.calls (hnew.exists_update hsol hne) hfuel
      ⟨0, rfl, Nat.count_zero _⟩ requests
    refine ⟨rs, hrs, hlength, fun r hr => ?_⟩
    obtain ⟨j, hj⟩ := hstates r hr
    exact ⟨2 * j + 160, hj.trans (Function.iterate_add_apply ..).symm⟩

/-- The second bits of the pairs are those of the self-shrunk recurrence, from its bit 240 on. -/
theorem bit_shrunk_new (i : Nat) :
    bit ((new isSboxAnInverse primeNumBits stateLen numFullRounds numPartialRounds).shrunk i) =
      selfShrink (fun n => grainBits (seed isSboxAnInverse primeNumBits stateLen numFullRounds numPartialRounds)
        (240 + n)) i := by
  have hsol := isSolution_grainBits (seed isSboxAnInverse primeNumBits stateLen numFullRounds numPartialRounds)
  have hnew := holds_new isSboxAnInverse primeNumBits stateLen numFullRounds numPartialRounds
  have hbit (n : Nat) : bit (next^[n] (new isSboxAnInverse primeNumBits stateLen numFullRounds
      numPartialRounds)).update.1 =
      grainBits (seed isSboxAnInverse primeNumBits stateLen numFullRounds numPartialRounds) (240 + n) := by
    rw [((hnew.iterate hsol n).update hsol).1]
    congr 1
    omega
  have hfirst : firstBit (new isSboxAnInverse primeNumBits stateLen numFullRounds numPartialRounds) =
      fun j => grainBits (seed isSboxAnInverse primeNumBits stateLen numFullRounds numPartialRounds)
        (240 + 2 * j) = 1 :=
    funext fun j => propext (by rw [firstBit, ← hbit, bit_eq_one])
  rw [shrunk, hbit, hfirst, selfShrink]

/-- For all arguments of `new`: counted from construction, `update` returns the bits of the recurrence from the
80-th on. `new` ends after the first 160, and any sequence of `get_bits` calls returns, one after the other,
the bits that the self-shrinking rule emits on those after it. -/
theorem getBits_selfShrinks :
    new isSboxAnInverse primeNumBits stateLen numFullRounds numPartialRounds =
      next^[160] (seeded isSboxAnInverse primeNumBits stateLen numFullRounds numPartialRounds) ∧
    let b := grainBits (seed isSboxAnInverse primeNumBits stateLen numFullRounds numPartialRounds)
    let start := seeded isSboxAnInverse primeNumBits stateLen numFullRounds numPartialRounds
    let lfsr := new isSboxAnInverse primeNumBits stateLen numFullRounds numPartialRounds
    (∀ i : Fin 80, b i = bit start.state[i]) ∧
    (∀ i, b (i + 80) = b (i + 62) + (b (i + 51) + (b (i + 38) + (b (i + 23) + (b (i + 13) + b i))))) ∧
    (∀ k, bit (next^[k] start).update.1 = b (80 + k)) ∧
    ∀ fuel, 80 ≤ fuel → ∀ requests : List Nat,
      ∃ rs, trace (fun lfsr => lfsr.getBits fuel) lfsr requests = (.ok rs : Outcome _) ∧
      rs.map (·.1.length) = requests ∧
      (rs.map (·.1)).flatten.map bit = (List.range requests.sum).map (selfShrink fun n => b (80 + 160 + n)) := by
  have hsol := isSolution_grainBits (seed isSboxAnInverse primeNumBits stateLen numFullRounds numPartialRounds)
  have hne := grainBits_ne_zero isSboxAnInverse primeNumBits stateLen numFullRounds numPartialRounds
  have hstart := holds_seeded isSboxAnInverse primeNumBits stateLen numFullRounds numPartialRounds
  have hnew := holds_new isSboxAnInverse primeNumBits stateLen numFullRounds numPartialRounds
  refine ⟨rfl, fun i => grainBits_eq_seed _ i, isSolution_iff.mp hsol, fun k => ?_, fun fuel hfuel requests => ?_⟩
  · rw [((hstart.iterate hsol k).update hsol).1]
    congr 1
    omega
  · obtain ⟨rs, hrs, hlength, hflat, -⟩ := Taken.calls (hnew.exists_update hsol hne) hfuel
      ⟨0, rfl, Nat.count_zero _⟩ requests
    refine ⟨rs, hrs, hlength, ?_⟩
    rw [hflat, List.map_map, ← List.range_eq_range']
    exact List.map_congr_left fun i _ => bit_shrunk_new ..

end

end PoseidonGrainLFSR

end CryptoPrimitives
