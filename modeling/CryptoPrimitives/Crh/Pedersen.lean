import CryptoPrimitives.Framework.Digits
import CryptoPrimitives.Rust.Collections
import CryptoPrimitives.Rust.Outcome
import Mathlib.Algebra.BigOperators.Group.List.Basic
import Mathlib.Algebra.Group.Subgroup.Basic
import Mathlib.Algebra.Group.Submonoid.BigOperators

/-!
# The Pedersen hash

`crh/pedersen/mod.rs`, over a commutative group `C`. The two-to-one hash writes both inputs
into a buffer of a fixed size, without its debug assertion.

* `sum_windows`: the sum over windows of bits is one sum over all bits.
* `evaluate_eq`: so `CRH::evaluate` returns the sum of the generators at the bits set.
* `evaluate_mem`: it stays in the subgroup that the generators are from (`setup_mem`).
* `selectedSum_doublings`: the powers of one generator, at the bits of a number, add up to that multiple
  of it.
-/

namespace CryptoPrimitives

/-- `xs.chunks(size)`, of any size. -/
def checkedChunks {ε α : Type} [Faults ε] (size : Nat) (xs : List α) : Except ε (List (List α)) :=
  if size = 0 then raise (.panic (.explicit "chunk size must be non-zero")) else .ok (chunks size xs)

/-- `xs.resize(length, x)`. -/
def resize {α : Type} (xs : List α) (length : Nat) (x : α) : List α :=
  xs.take length ++ List.replicate (length - xs.length) x

theorem resize_of_le {α : Type} {xs : List α} {length : Nat} (h : xs.length ≤ length) (x : α) :
    resize xs length x = xs ++ List.replicate (length - xs.length) x := by
  rw [resize, List.take_of_length_le h]

namespace Pedersen

/-- `Window`. -/
structure Window where
  windowSize : Nat
  numWindows : Nat

/-- `CRH::INPUT_SIZE_BITS`. -/
def Window.inputSizeBits (W : Window) : Nat := W.windowSize * W.numWindows

/-- `TwoToOneCRH::HALF_INPUT_SIZE_BITS`. -/
def Window.halfInputSizeBits (W : Window) : Nat := W.inputSizeBits / 2

/-- `Parameters`. -/
structure Parameters (C : Type) where
  generators : List (List C)

/-- `bytes_to_bits`. -/
def bytesToBits (bytes : List UInt8) : List Bool :=
  bytes.flatMap fun byte => (List.range 8).map fun i => byte >>> UInt8.ofNat i &&& 1 == 1

section

variable {C : Type} [AddCommGroup C]

/-- The loop of `generator_powers`: `base`, and the points after each doubling. -/
def doublings : Nat → C → List C
  | 0, _ => []
  | n + 1, base => base :: doublings n (base + base)

/-- `CRH::generator_powers`, where `rand` draws a point. -/
def CRH.generatorPowers {R : Type} (rand : R → C × R) (numPowers : Nat) (rng : R) : List C × R :=
  let (base, rng) := rand rng
  (doublings numPowers base, rng)

/-- `CRH::create_generators`, for so many windows. -/
def CRH.createGenerators {R : Type} (rand : R → C × R) (windowSize : Nat) : Nat → R → List (List C) × R
  | 0, rng => ([], rng)
  | n + 1, rng =>
    let (powers, rng) := CRH.generatorPowers rand windowSize rng
    let (generators, rng) := CRH.createGenerators rand windowSize n rng
    (powers :: generators, rng)

/-- `CRH::setup`. -/
def CRH.setup {R : Type} (rand : R → C × R) (W : Window) (rng : R) : Outcome (Parameters C × R) :=
  let (generators, rng) := CRH.createGenerators rand W.windowSize W.numWindows rng
  pure (⟨generators⟩, rng)

/-- The sum of the generators at the bits that are set. -/
def encodeWindow (bits : List Bool) (generatorPowers : List C) : C :=
  (bits.zip generatorPowers).foldl (fun encoded s => if s.1 then encoded + s.2 else encoded) 0

/-- `CRH::evaluate`. -/
def CRH.evaluate (W : Window) (parameters : Parameters C) (input : List UInt8) : Outcome C := do
  if input.length * 8 > W.windowSize * W.numWindows then
    raise (.panic (.explicit ("incorrect input length " ++ toString input.length ++ " for window params " ++
      toString W.windowSize ++ "✕" ++ toString W.numWindows)))
  else
    let input := if input.length * 8 < W.windowSize * W.numWindows then
      resize input (W.windowSize * W.numWindows / 8) 0 else input
    if parameters.generators.length ≠ W.numWindows then
      let first ← index parameters.generators 0
      raise (.panic (.assertion ("Incorrect pp of size " ++ toString first.length ++ "✕" ++
        toString parameters.generators.length ++ " for window params " ++ toString W.windowSize ++ "✕" ++
        toString W.numWindows)))
    else
      let windows ← checkedChunks W.windowSize (bytesToBits input)
      pure ((windows.zip parameters.generators).map fun s => encodeWindow s.1 s.2).sum

/-- `buffer.iter_mut().zip(left.iter().chain(right)).for_each(|(b, l_b)| *b = *l_b)`: what
does not fit into the buffer is left out. -/
def fillBuffer (buffer left right : List UInt8) : List UInt8 :=
  (left ++ right).take buffer.length ++ buffer.drop (left ++ right).length

/-- `TwoToOneCRH::evaluate`, in a build without debug assertions. -/
def TwoToOneCRH.evaluate (W : Window) (parameters : Parameters C) (leftInput rightInput : List UInt8) :
    Outcome C := do
  assert (decide (leftInput.length = rightInput.length)) "left and right input should be of equal length"
  let buffer := List.replicate ((W.halfInputSizeBits + W.halfInputSizeBits) / 8) 0
  CRH.evaluate W parameters (fillBuffer buffer leftInput rightInput)

/-! ## Sums over bits -/

/-- The sum of the points at the bits that are set. -/
def selectedSum (bits : List Bool) (points : List C) : C :=
  (List.zipWith (fun bit point => if bit then point else 0) bits points).sum

theorem selectedSum_cons (bit : Bool) (bits : List Bool) (point : C) (points : List C) :
    selectedSum (bit :: bits) (point :: points) = (if bit then point else 0) + selectedSum bits points := by
  rw [selectedSum, List.zipWith_cons_cons, List.sum_cons]
  rfl

@[simp] theorem selectedSum_nil (points : List C) : selectedSum [] points = 0 := rfl

/-- The points at the bits that are set, added one by one. -/
theorem foldl_select (bits : List Bool) (points : List C) (result : C) :
    (bits.zip points).foldl (fun result s => if s.1 then result + s.2 else result) result =
      result + selectedSum bits points := by
  induction bits generalizing points result with
  | nil => exact (add_zero result).symm
  | cons bit bits ih =>
    cases points with
    | nil => exact (add_zero result).symm
    | cons point points =>
      rw [List.zip_cons_cons, List.foldl_cons, ih, selectedSum_cons, ← add_assoc]
      cases bit with
      | false => rw [if_neg Bool.false_ne_true, if_neg Bool.false_ne_true, add_zero]
      | true => rw [if_pos rfl, if_pos rfl]

theorem encodeWindow_eq (bits : List Bool) (generatorPowers : List C) :
    encodeWindow bits generatorPowers = selectedSum bits generatorPowers := by
  rw [encodeWindow, foldl_select, zero_add]

theorem selectedSum_append (bits : List Bool) (points rest : List C) :
    selectedSum bits (points ++ rest) =
      selectedSum (bits.take points.length) points + selectedSum (bits.drop points.length) rest := by
  induction points generalizing bits with
  | nil => simp [selectedSum]
  | cons point points ih =>
    cases bits with
    | nil => simp
    | cons bit bits =>
      rw [List.cons_append, selectedSum_cons, ih, List.length_cons, List.take_succ_cons, List.drop_succ_cons,
        selectedSum_cons, add_assoc]

/-- Bits that are not set add nothing. -/
theorem selectedSum_append_false (bits : List Bool) (n : Nat) (points : List C) :
    selectedSum (bits ++ List.replicate n false) points = selectedSum bits points := by
  induction bits generalizing points with
  | nil =>
    rw [List.nil_append, selectedSum_nil]
    refine List.sum_eq_zero fun x hx => ?_
    obtain ⟨i, hi, rfl⟩ := List.mem_iff_getElem.mp hx
    simp
  | cons bit bits ih =>
    cases points with
    | nil => simp [selectedSum]
    | cons point points => rw [List.cons_append, selectedSum_cons, selectedSum_cons, ih]

theorem length_doublings (n : Nat) (base : C) : (doublings n base).length = n := by
  induction n generalizing base with
  | zero => rfl
  | succ n ih => rw [doublings, List.length_cons, ih]

/-- As many bits of a number as there are doublings. -/
theorem selectedSum_doublings (bits : List Bool) (n : Nat) (base : C) :
    selectedSum bits (doublings n base) = Digits.ofBits (bits.take n) • base := by
  induction n generalizing bits base with
  | zero => rw [doublings, List.take_zero, Digits.ofBits_nil, zero_nsmul, selectedSum, List.zipWith_nil_right, List.sum_nil]
  | succ n ih =>
    cases bits with
    | nil => rw [List.take_nil, Digits.ofBits_nil, zero_nsmul, selectedSum_nil]
    | cons bit bits =>
      rw [doublings, selectedSum_cons, ih, List.take_succ_cons, Digits.ofBits_cons, add_nsmul, mul_nsmul, two_nsmul]
      cases bit with
      | false => rw [if_neg Bool.false_ne_true, Bool.toNat_false, zero_nsmul]
      | true => rw [if_pos rfl, Bool.toNat_true, one_nsmul]

/-- The sum over windows of `bases`, each with its bits. -/
def multiscalar (bases : List (List C)) (scalars : List (List Bool)) : C :=
  ((scalars.zip bases).map fun s => selectedSum s.1 s.2).sum

/-- The windows of a list of bits are summed as its bits. -/
theorem multiscalar_chunks {size : Nat} (hs : 0 < size) (bits : List Bool) {bases : List (List C)}
    (h : ∀ base ∈ bases, base.length = size) :
    multiscalar bases (chunks size bits) = selectedSum bits bases.flatten := by
  induction bases generalizing bits with
  | nil => simp [multiscalar, selectedSum]
  | cons base bases ih =>
    obtain ⟨hbase, hbases⟩ := List.forall_mem_cons.mp h
    rw [List.flatten_cons, selectedSum_append, hbase, ← ih (bits.drop size) hbases]
    by_cases hnil : bits = []
    · subst hnil
      simp [multiscalar]
    · rw [chunks_eq hs hnil, multiscalar, List.zip_cons_cons, List.map_cons, List.sum_cons]
      rfl

/-! ## Evaluation -/

/-- The parameters have as many generators as the windows have bits. -/
structure Parameters.Matches (parameters : Parameters C) (W : Window) : Prop where
  length_eq : parameters.generators.length = W.numWindows
  length_of_mem : ∀ generators ∈ parameters.generators, generators.length = W.windowSize

omit [AddCommGroup C] in
/-- The generators pass the check of their numbers. -/
theorem Parameters.Matches.forM_assertEq {W : Window} {parameters : Parameters C} (hp : parameters.Matches W) :
    (parameters.generators.forM fun generators => assertEq generators.length W.windowSize) =
      (Except.ok () : Outcome Unit) :=
  Except.forM_eq_ok.mpr fun generators h => assertEq_eq_ok.mpr (hp.length_of_mem generators h)

theorem bytesToBits_append_zeros (bytes : List UInt8) (n : Nat) :
    bytesToBits (bytes ++ List.replicate n 0) = bytesToBits bytes ++ List.replicate (8 * n) false := by
  have hzeros : bytesToBits (List.replicate n 0) = List.replicate (8 * n) false := by
    induction n with
    | zero => rfl
    | succ n ih =>
      have hbyte : bytesToBits [0] = List.replicate 8 false := by decide
      rw [List.replicate_succ, ← List.singleton_append, bytesToBits, List.flatMap_append]
      refine (congrArg₂ (· ++ ·) hbyte ih).trans ?_
      rw [List.replicate_append_replicate, Nat.mul_succ, Nat.add_comm]
  rw [← hzeros]
  exact List.flatMap_append

theorem CRH.evaluate_eq {W : Window} {parameters : Parameters C} (hp : parameters.Matches W) (hw : 0 < W.windowSize)
    {input : List UInt8} (hl : input.length * 8 ≤ W.inputSizeBits) :
    CRH.evaluate W parameters input = .ok (selectedSum (bytesToBits input) parameters.generators.flatten) := by
  -- the bytes the input is filled up with have no bit set
  have hpad : ∃ n, (if input.length * 8 < W.windowSize * W.numWindows then
      resize input (W.windowSize * W.numWindows / 8) 0 else input) = input ++ List.replicate n 0 := by
    split
    · exact ⟨_, resize_of_le (by omega) 0⟩
    · exact ⟨0, (List.append_nil input).symm⟩
  obtain ⟨n, hn⟩ := hpad
  have hlt : ¬ input.length * 8 > W.windowSize * W.numWindows := Nat.not_lt.mpr hl
  rw [evaluate, if_neg hlt]
  simp only [hn, hp.length_eq, ne_eq, not_true, if_false, checkedChunks, if_neg hw.ne', Except.ok_bind, encodeWindow_eq]
  refine congrArg Except.ok ?_
  rw [bytesToBits_append_zeros, ← multiscalar, multiscalar_chunks hw _ hp.length_of_mem, selectedSum_append_false]

/-- Windows of no bits are no windows. -/
theorem CRH.evaluate_of_windowSize_zero {W : Window} {parameters : Parameters C} (hp : parameters.Matches W)
    (hw : W.windowSize = 0) (input : List UInt8) : ∃ p, CRH.evaluate W parameters input = .error (.panic p) := by
  simp only [evaluate, hp.length_eq, ne_eq, not_true, if_false, checkedChunks, if_pos hw]
  split <;> exact ⟨_, rfl⟩

/-! ## Setup -/

/-- What holds of the powers of every point that may be drawn. -/
theorem CRH.forall_mem_createGenerators {R : Type} {rand : R → C × R} {windowSize : Nat} {P : List C → Prop}
    (h : ∀ rng, P (doublings windowSize (rand rng).1)) (n : Nat) (rng : R) :
    ∀ generators ∈ (CRH.createGenerators rand windowSize n rng).1, P generators := by
  induction n generalizing rng with
  | zero => exact nofun
  | succ n ih => exact List.forall_mem_cons.mpr ⟨h rng, ih _⟩

/-- The parameters of a setup match its window. -/
theorem CRH.matches_createGenerators {R : Type} (rand : R → C × R) (W : Window) (rng : R) :
    (Parameters.mk (CRH.createGenerators rand W.windowSize W.numWindows rng).1).Matches W := by
  refine ⟨?_, forall_mem_createGenerators (fun rng => length_doublings W.windowSize _) W.numWindows rng⟩
  show (CRH.createGenerators rand W.windowSize W.numWindows rng).1.length = W.numWindows
  induction W.numWindows generalizing rng with
  | zero => rfl
  | succ n ih => exact congrArg (· + 1) (ih _)

/-! ## Generators in a subgroup -/

section

variable {H : AddSubgroup C}

theorem selectedSum_mem {bits : List Bool} {points : List C} (h : ∀ point ∈ points, point ∈ H) :
    selectedSum bits points ∈ H := by
  induction bits generalizing points with
  | nil => exact H.zero_mem
  | cons bit bits ih =>
    cases points with
    | nil => exact H.zero_mem
    | cons point points =>
      obtain ⟨hpoint, hpoints⟩ := List.forall_mem_cons.mp h
      rw [selectedSum_cons]
      refine H.add_mem ?_ (ih hpoints)
      cases bit with
      | false => exact H.zero_mem
      | true => exact hpoint

/-- What is returned is a sum of generators. -/
theorem CRH.evaluate_mem {W : Window} {parameters : Parameters C}
    (h : ∀ generators ∈ parameters.generators, ∀ g ∈ generators, g ∈ H) {input : List UInt8} {p : C}
    (hp : CRH.evaluate W parameters input = .ok p) : p ∈ H := by
  rw [evaluate] at hp
  split at hp
  · exact absurd hp raise_ne_ok
  · simp only at hp
    split at hp
    · obtain ⟨_, -, hpanic⟩ := Except.bind_eq_ok.mp hp
      exact absurd hpanic raise_ne_ok
    · obtain ⟨windows, -, hsum⟩ := Except.bind_eq_ok.mp hp
      obtain rfl := Except.ok.inj hsum
      refine AddSubmonoid.list_sum_mem H.toAddSubmonoid fun point hpoint => ?_
      obtain ⟨s, hs, rfl⟩ := List.mem_map.mp hpoint
      rw [encodeWindow_eq]
      exact selectedSum_mem (h s.2 (List.of_mem_zip hs).2)

theorem TwoToOneCRH.evaluate_mem {W : Window} {parameters : Parameters C}
    (h : ∀ generators ∈ parameters.generators, ∀ g ∈ generators, g ∈ H) {left right : List UInt8} {p : C}
    (hp : TwoToOneCRH.evaluate W parameters left right = .ok p) : p ∈ H := by
  obtain ⟨_, -, hcrh⟩ := Except.bind_eq_ok.mp hp
  exact CRH.evaluate_mem h hcrh

theorem doublings_mem {base : C} (h : base ∈ H) (n : Nat) : ∀ g ∈ doublings n base, g ∈ H := by
  induction n generalizing base with
  | zero => exact nofun
  | succ n ih => exact List.forall_mem_cons.mpr ⟨h, ih (H.add_mem h h)⟩

theorem CRH.setup_mem {R : Type} {rand : R → C × R} (h : ∀ rng, (rand rng).1 ∈ H) {W : Window} {rng rng' : R}
    {parameters : Parameters C} (hp : CRH.setup rand W rng = .ok (parameters, rng')) :
    ∀ generators ∈ parameters.generators, ∀ g ∈ generators, g ∈ H := by
  obtain ⟨rfl, -⟩ := Prod.mk.inj (Except.ok.inj hp)
  exact forall_mem_createGenerators (fun rng => doublings_mem (h rng) W.windowSize) W.numWindows rng

end

/-! ## Two inputs -/

/-- Bytes filled up to `capacity` with zeros. -/
def padded (capacity : Nat) (bytes : List UInt8) : List UInt8 :=
  bytes ++ List.replicate (capacity - bytes.length) 0

theorem length_padded {capacity : Nat} {bytes : List UInt8} (h : bytes.length ≤ capacity) :
    (padded capacity bytes).length = capacity := by
  rw [padded, List.length_append, List.length_replicate]
  omega

/-- The hash is that of the bytes filled up. -/
theorem CRH.evaluate_padded {W : Window} {parameters : Parameters C} (hp : parameters.Matches W)
    (hw : 0 < W.windowSize) {bytes : List UInt8} (h : bytes.length ≤ W.inputSizeBits / 8) :
    CRH.evaluate W parameters (padded (W.inputSizeBits / 8) bytes) = CRH.evaluate W parameters bytes := by
  rw [evaluate_eq hp hw (by rw [length_padded h]; omega), evaluate_eq hp hw (by omega), padded,
    bytesToBits_append_zeros, selectedSum_append_false]

theorem fillBuffer_eq {capacity : Nat} {left right : List UInt8} (h : left.length + right.length ≤ capacity) :
    fillBuffer (List.replicate capacity 0) left right = padded capacity (left ++ right) := by
  rw [fillBuffer, padded, List.length_replicate, List.drop_replicate, List.take_of_length_le]
  rwa [List.length_append]

theorem length_fillBuffer (buffer left right : List UInt8) : (fillBuffer buffer left right).length = buffer.length := by
  rw [fillBuffer, List.length_append, List.length_take, List.length_drop]
  omega

/-- Both halves of an odd number of bits make up as many bytes. -/
theorem capacity_eq (W : Window) : (W.halfInputSizeBits + W.halfInputSizeBits) / 8 = W.inputSizeBits / 8 := by
  rw [Window.halfInputSizeBits]
  omega

theorem TwoToOneCRH.evaluate_eq_crh (W : Window) (parameters : Parameters C) {left right : List UInt8}
    (h : left.length = right.length) :
    TwoToOneCRH.evaluate W parameters left right =
      CRH.evaluate W parameters (fillBuffer (List.replicate (W.inputSizeBits / 8) 0) left right) := by
  rw [evaluate, decide_eq_true h, capacity_eq]
  rfl

end

end Pedersen

end CryptoPrimitives
