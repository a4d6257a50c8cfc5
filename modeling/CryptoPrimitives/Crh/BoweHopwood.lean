import CryptoPrimitives.Crh.Pedersen
import CryptoPrimitives.Framework.SignedDigits
import CryptoPrimitives.Rust.PrimeField
import Mathlib.NumberTheory.LucasPrimality
import Mathlib.Tactic.NormNum.Prime
import Mathlib.Tactic.ReduceModChar

/-!
# The Bowe-Hopwood-Pedersen hash

`crh/bowe_hopwood/mod.rs`, over the points `C` of a curve, whose scalar field has `p` elements.
A chunk of 3 bits stands for a digit from -4 to 4, other than 0, in base 16 (`Chunk.digit`), and
the chunks of a segment for a number (`encode`).

* `encodeSegment_eq`: a segment is hashed to that multiple of its base point.
* `encode_inj`, `natAbs_encode_le`: different chunks stand for different numbers.
* `injective_iff`, `bounded_iff`: they are different modulo `p`, and up to `(p - 1) / 2`, when 4
  in every place is.
* `bounded_of_lt`: so they are with less chunks than `setup` accepts at most.
* `setup_separates_iff`: but `setup` also accepts as many chunks as have only the power below the
  highest one within the limit.
* `segmentLoopEnds_iff_le`: its loop ends for the fields that leave two bits of their limbs free. For the
  others the power is shifted out before it reaches the limit.
* `evaluate_map`, `evaluate_mem`: the hash is a coordinate of a sum of generators.
-/

namespace CryptoPrimitives.BoweHopwood

open Finset (range)
open Pedersen (Window Parameters bytesToBits)
open PrimeField (bigIntBytes)
open SignedDigits (ofSigned)

/-- `CHUNK_SIZE`. -/
def CHUNK_SIZE : Nat := 3

section

variable {C : Type} [AddCommGroup C]

/-- The generators of one segment: `base`, and the points after each four doublings. -/
def segmentGenerators : Nat → C → List C
  | 0, _ => []
  | n + 1, base => base :: segmentGenerators n ((fun base => base + base)^[4] base)

/-- `CRH::create_generators`, for so many segments, where `rand` draws a point. -/
def createGenerators {R : Type} (rand : R → C × R) (windowSize : Nat) : Nat → R → List (List C) × R
  | 0, rng => ([], rng)
  | n + 1, rng =>
    let (base, rng) := rand rng
    let (generators, rng) := createGenerators rand windowSize n rng
    (segmentGenerators windowSize base :: generators, rng)

/-- The loop of `calculate_num_chunks_in_segment`. A `BigInt` drops the bits shifted out of it. -/
def numChunksLoop (p : Nat) : Nat → Nat → Nat → Outcome Nat
  | 0, _, _ => raise .diverge
  | fuel + 1, range, c =>
    if range < (p - 1) / 2 then numChunksLoop p fuel ((range <<< 4) % 2 ^ (8 * bigIntBytes p)) (c + 1) else .ok c

/-- `calculate_num_chunks_in_segment`. -/
def calculateNumChunksInSegment (p fuel : Nat) : Outcome Nat := numChunksLoop p fuel 2 0

/-- `CRH::setup`. -/
def CRH.setup {R : Type} (p : Nat) (rand : R → C × R) (fuel : Nat) (W : Window) (rng : R) :
    Outcome (Parameters C × R) := do
  let maximum ← calculateNumChunksInSegment p fuel
  if W.windowSize > maximum then
    raise (.panic (.explicit ("Bowe-Hopwood-PedersenCRH hash must have a window size resulting in scalars < (p-1)/2, " ++
      "maximum segment size is " ++ toString maximum)))
  else
    let (generators, rng) := createGenerators rand W.windowSize W.numWindows rng
    pure (⟨generators⟩, rng)

/-- The point of one chunk. -/
def encodeChunk (generator : C) (chunkBits : List Bool) : Outcome C := do
  let bit0 ← index chunkBits 0
  let encoded := if bit0 then generator + generator else generator
  let bit1 ← index chunkBits 1
  let encoded := if bit1 then encoded + (generator + generator) else encoded
  let bit2 ← index chunkBits 2
  pure (if bit2 then -encoded else encoded)

/-- The sum of the points of the chunks of one segment. -/
def encodeSegment (segmentBits : List Bool) (segmentGenerators : List C) : Outcome C := do
  let chunks ← checkedChunks CHUNK_SIZE segmentBits
  let points ← (chunks.zip segmentGenerators).mapM fun s => encodeChunk s.2 s.1
  pure points.sum

/-- Pad the bits to a whole number of chunks. -/
def padToChunks {α : Type} (zero : α) (input : List α) : List α :=
  if input.length % CHUNK_SIZE ≠ 0 then input ++ List.replicate (CHUNK_SIZE - input.length % CHUNK_SIZE) zero
  else input

/-- `CRH::evaluate`, where `x` is the coordinate of the affine point. -/
def CRH.evaluate {F : Type} (x : C → F) (W : Window) (parameters : Parameters C) (input : List UInt8) :
    Outcome F := do
  if input.length * 8 > W.windowSize * W.numWindows * CHUNK_SIZE then
    raise (.panic (.explicit ("incorrect input bitlength " ++ toString (input.length * 8) ++ " for window params " ++
      toString W.windowSize ++ "x" ++ toString W.numWindows ++ "x" ++ toString CHUNK_SIZE)))
  else
    let paddedInput := padToChunks false (bytesToBits input)
    assertEq (paddedInput.length % CHUNK_SIZE) 0
    assert (decide (parameters.generators.length = W.numWindows)) ("Incorrect pp of size " ++
      toString parameters.generators.length ++ " for window params " ++ toString W.windowSize ++ "x" ++
      toString W.numWindows ++ "x" ++ toString CHUNK_SIZE)
    parameters.generators.forM fun generators => assertEq generators.length W.windowSize
    let segments ← checkedChunks (W.windowSize * CHUNK_SIZE) paddedInput
    let points ← (segments.zip parameters.generators).mapM fun s => encodeSegment s.1 s.2
    pure (x points.sum)

/-- `TwoToOneCRH::evaluate`, in a build without debug assertions. -/
def TwoToOneCRH.evaluate {F : Type} (x : C → F) (W : Window) (parameters : Parameters C)
    (leftInput rightInput : List UInt8) : Outcome F := do
  assert (decide (leftInput.length = rightInput.length)) "left and right input should be of equal length"
  let buffer := List.replicate (W.inputSizeBits / 8) 0
  CRH.evaluate x W parameters (Pedersen.fillBuffer buffer leftInput rightInput)

end

/-! ## Chunks as digits -/

/-- The bits of a chunk. -/
structure Chunk where
  bit0 : Bool
  bit1 : Bool
  bit2 : Bool
deriving DecidableEq

namespace Chunk

def bits (c : Chunk) : List Bool := [c.bit0, c.bit1, c.bit2]

/-- `(1-2*c_2)*(1+c_0+2*c_1)`. -/
def digit (c : Chunk) : Int := (1 - 2 * c.bit2.toInt) * (1 + c.bit0.toInt + 2 * c.bit1.toInt)

theorem digit_bounds (c : Chunk) : c.digit ≠ 0 ∧ c.digit.natAbs ≤ 4 := by
  rcases c with ⟨_ | _, _ | _, _ | _⟩ <;> decide

theorem digit_inj {c c' : Chunk} (h : c.digit = c'.digit) : c = c' := by
  rcases c with ⟨_ | _, _ | _, _ | _⟩ <;> rcases c' with ⟨_ | _, _ | _, _ | _⟩ <;> revert h <;> decide

/-- Every digit from -8 to 8 is the difference of those of two chunks. -/
theorem exists_digit_sub {d : Int} (h : d.natAbs ≤ 8) : ∃ c c' : Chunk, c.digit - c'.digit = d := by
  have hall : ∀ n : Fin 17, ∃ b0 b1 b2 b0' b1' b2' : Bool,
      (Chunk.mk b0 b1 b2).digit - (Chunk.mk b0' b1' b2').digit = (n.val : Int) - 8 := by decide
  obtain ⟨b0, b1, b2, b0', b1', b2', heq⟩ := hall ⟨(d + 8).toNat, by omega⟩
  exact ⟨⟨b0, b1, b2⟩, ⟨b0', b1', b2'⟩, heq.trans (show ((d + 8).toNat : Int) - 8 = d by omega)⟩

/-- The point of a chunk is the multiple of the generator for its digit. -/
theorem encodeChunk_bits {C : Type} [AddCommGroup C] (generator : C) (c : Chunk) :
    encodeChunk generator c.bits = .ok (c.digit • generator) := by
  obtain ⟨bit0, bit1, bit2⟩ := c
  have h0 : (if bit0 then generator + generator else generator) = (1 + bit0.toInt) • generator := by
    cases bit0 with
    | false => exact (one_zsmul generator).symm
    | true => exact (two_zsmul generator).symm
  have h1 (encoded : C) : (if bit1 then encoded + (generator + generator) else encoded) =
      encoded + (2 * bit1.toInt) • generator := by
    cases bit1 with
    | false => exact (add_eq_left.mpr (zero_zsmul generator)).symm
    | true => exact congrArg (encoded + ·) (two_zsmul generator).symm
  have h2 (encoded : C) : (if bit2 then -encoded else encoded) = (1 - 2 * bit2.toInt) • encoded := by
    cases bit2 with
    | false => exact (one_zsmul encoded).symm
    | true => exact (neg_one_zsmul encoded).symm
  have heval : encodeChunk generator (bits ⟨bit0, bit1, bit2⟩) = .ok (if bit2 then
      -(if bit1 then (if bit0 then generator + generator else generator) + (generator + generator)
        else if bit0 then generator + generator else generator)
      else if bit1 then (if bit0 then generator + generator else generator) + (generator + generator)
        else if bit0 then generator + generator else generator) := rfl
  rw [heval, h0, h1, h2, ← add_zsmul, ← mul_zsmul]
  rfl

end Chunk

/-- The number that the chunks of a segment stand for. -/
def encode (chunks : List Chunk) : Int := ofSigned 16 (chunks.map Chunk.digit)

theorem encode_inj {cs cs' : List Chunk} (h : encode cs = encode cs') : cs = cs' := by
  have hdigits (cs : List Chunk) : ∀ d ∈ cs.map Chunk.digit, d ≠ 0 ∧ d.natAbs ≤ 4 :=
    List.forall_mem_map.mpr fun c _ => c.digit_bounds
  exact List.map_injective_iff.mpr (fun c c' => Chunk.digit_inj)
    (SignedDigits.ofSigned_inj (by decide) (hdigits cs) (hdigits cs') h)

theorem natAbs_encode_le {windowSize : Nat} {cs : List Chunk} (h : cs.length ≤ windowSize) :
    (encode cs).natAbs ≤ 4 * ∑ j ∈ range windowSize, 16 ^ j := by
  have hle := SignedDigits.natAbs_ofSigned_le (b := 16) (m := 4)
    (List.forall_mem_map.mpr fun (c : Chunk) (_ : c ∈ cs) => c.digit_bounds.2)
  rw [List.length_map] at hle
  have hmono := Finset.sum_le_sum_of_subset (f := fun j => 16 ^ j) (Finset.range_mono h)
  exact hle.trans (Nat.mul_le_mul_left 4 hmono)

/-- The largest digit in every place. -/
theorem encode_replicate (n : Nat) :
    encode (List.replicate n ⟨true, true, false⟩) = (4 * ∑ j ∈ range n, 16 ^ j : Nat) := by
  rw [encode, List.map_replicate]
  exact SignedDigits.ofSigned_replicate n

/-- Every number up to twice the bound is the difference of those of two lists of chunks. -/
theorem exists_encode_sub {windowSize x : Nat} (h : x ≤ 8 * ∑ j ∈ range windowSize, 16 ^ j) :
    ∃ cs cs' : List Chunk, cs.length = windowSize ∧ cs'.length = windowSize ∧ encode cs - encode cs' = x := by
  obtain ⟨ds, hlen, hds, hval⟩ := SignedDigits.exists_ofSigned (by decide) (by decide) h
  suffices hsub : ∃ cs cs' : List Chunk, cs.length = ds.length ∧ cs'.length = ds.length ∧
      encode cs - encode cs' = ofSigned 16 ds by
    rwa [hlen, hval] at hsub
  clear hlen hval h
  induction ds with
  | nil => exact ⟨[], [], rfl, rfl, rfl⟩
  | cons d ds ih =>
    obtain ⟨c, c', hd⟩ := Chunk.exists_digit_sub (hds d List.mem_cons_self)
    obtain ⟨cs, cs', hlen, hlen', hval⟩ := ih fun e he => hds e (List.mem_cons_of_mem _ he)
    refine ⟨c :: cs, c' :: cs', congrArg (· + 1) hlen, congrArg (· + 1) hlen', ?_⟩
    simp only [encode, List.map_cons, ofSigned] at hval ⊢
    rw [← hval, ← hd]
    ring

/-! ## Segments -/

section

variable {C : Type} [AddCommGroup C]

theorem segmentGenerators_cons (n : Nat) (base : C) :
    segmentGenerators (n + 1) base = base :: segmentGenerators n ((16 : Int) • base) := by
  have hdouble : (fun base : C => base + base)^[4] base = (16 : Int) • base := by
    simp only [Function.iterate_succ, Function.iterate_zero, Function.comp_apply, id_eq, ← two_zsmul, ← mul_zsmul]
    rfl
  rw [segmentGenerators, hdouble]

/-- A segment is hashed to the multiple of its base point that its chunks stand for. -/
theorem encodeSegment_eq {windowSize : Nat} {cs : List Chunk} (h : cs.length ≤ windowSize) (base : C) :
    encodeSegment (cs.flatMap Chunk.bits) (segmentGenerators windowSize base) = .ok (encode cs • base) := by
  have hlength : ∀ bits ∈ cs.map Chunk.bits, bits.length = CHUNK_SIZE := List.forall_mem_map.mpr fun _ _ => rfl
  have hchunks : chunks CHUNK_SIZE (cs.flatMap Chunk.bits) = cs.map Chunk.bits := by
    rw [List.flatMap_def, chunks_flatten (by decide) hlength]
  rw [encodeSegment, checkedChunks, if_neg (by decide), Except.ok_bind, hchunks, Except.bind_eq_ok]
  clear hchunks hlength
  induction cs generalizing windowSize base with
  | nil => exact ⟨[], rfl, congrArg Except.ok (zero_zsmul base).symm⟩
  | cons c cs ih =>
    obtain ⟨n, rfl⟩ : ∃ n, windowSize = n + 1 := ⟨windowSize - 1, by rw [List.length_cons] at h; omega⟩
    obtain ⟨points, hpoints, hsum⟩ := ih (Nat.le_of_succ_le_succ h) ((16 : Int) • base)
    refine ⟨c.digit • base :: points, ?_, ?_⟩
    · rw [segmentGenerators_cons, List.map_cons, List.zip_cons_cons, List.mapM_cons, Chunk.encodeChunk_bits,
        Except.ok_bind, hpoints]
      rfl
    · rw [List.sum_cons, Except.ok.inj hsum, ← mul_zsmul, ← add_zsmul, mul_comm]
      rfl

end

/-! ## Evaluation -/

/-- The chunk of a list of 3 bits. -/
def Chunk.ofBits (bits : List Bool) : Chunk := ⟨bits.getD 0 false, bits.getD 1 false, bits.getD 2 false⟩

/-- The sum over segments of `bases`, each with its chunks as signed digits. -/
def signedSum {C : Type} [AddCommGroup C] (bases : List (List C)) (scalars : List (List (List Bool))) : C :=
  ((scalars.zip bases).map fun s => ((s.1.zip s.2).map fun t => (Chunk.ofBits t.1).digit • t.2).sum).sum

/-- The chunks of the segments of bits. -/
def segmentChunks {α : Type} (W : Window) (bits : List α) : List (List (List α)) :=
  (chunks (W.windowSize * CHUNK_SIZE) bits).map (chunks CHUNK_SIZE)

theorem dvd_length_padToChunks {α : Type} (zero : α) (bits : List α) :
    CHUNK_SIZE ∣ (padToChunks zero bits).length := by
  unfold padToChunks
  split
  · rw [List.length_append, List.length_replicate]
    simp only [CHUNK_SIZE] at *
    omega
  · rename_i h
    exact Nat.dvd_of_mod_eq_zero (not_not.mp h)

theorem map_padToChunks {α β : Type} (f : α → β) (zero : α) (bits : List α) :
    (padToChunks zero bits).map f = padToChunks (f zero) (bits.map f) := by
  rw [padToChunks, padToChunks, List.length_map, apply_ite (List.map f), List.map_append, List.map_replicate]

theorem map_segmentChunks {α β : Type} (f : α → β) {W : Window} (hw : 0 < W.windowSize) (bits : List α) :
    (segmentChunks W bits).map (·.map (·.map f)) = segmentChunks W (bits.map f) := by
  rw [segmentChunks, segmentChunks, chunks_map (Nat.mul_pos hw (by decide)), List.map_map, List.map_map]
  exact List.map_congr_left fun segment _ => (chunks_map (by decide) f segment).symm

theorem length_of_mem_segmentChunks {α : Type} {W : Window} (hw : 0 < W.windowSize) {bits : List α}
    (h : CHUNK_SIZE ∣ bits.length) {segment : List (List α)} (hs : segment ∈ segmentChunks W bits) {chunk : List α}
    (hc : chunk ∈ segment) : chunk.length = CHUNK_SIZE := by
  obtain ⟨xs, hxs, rfl⟩ := List.mem_map.mp hs
  obtain ⟨n, hn⟩ := dvd_length_of_mem_chunks (Nat.mul_pos hw (by decide)) (Nat.dvd_mul_left _ _) h hxs
  exact (chunks_of_length (by decide) hn).2 chunk hc

section

variable {C F : Type} [AddCommGroup C]

theorem encodeChunk_eq (generator : C) {chunkBits : List Bool} (h : chunkBits.length = CHUNK_SIZE) :
    encodeChunk generator chunkBits = .ok ((Chunk.ofBits chunkBits).digit • generator) := by
  obtain ⟨bit0, bit1, bit2, rfl⟩ := List.length_eq_three.mp h
  exact Chunk.encodeChunk_bits generator ⟨bit0, bit1, bit2⟩

theorem CRH.evaluate_eq (x : C → F) {W : Window} {parameters : Parameters C} (hp : parameters.Matches W)
    (hw : 0 < W.windowSize) {input : List UInt8} (hl : input.length * 8 ≤ W.inputSizeBits * CHUNK_SIZE) :
    CRH.evaluate x W parameters input =
      .ok (x (signedSum parameters.generators (segmentChunks W (padToChunks false (bytesToBits input))))) := by
  have hlt : ¬ input.length * 8 > W.windowSize * W.numWindows * CHUNK_SIZE := Nat.not_lt.mpr hl
  have hdvd := dvd_length_padToChunks false (bytesToBits input)
  have hgenerators := hp.forM_assertEq
  have hsize : W.windowSize * CHUNK_SIZE ≠ 0 := (Nat.mul_pos hw (by decide)).ne'
  have hsegments : ((chunks (W.windowSize * CHUNK_SIZE) (padToChunks false (bytesToBits input))).zip
      parameters.generators).mapM (fun s => encodeSegment s.1 s.2) =
      .ok (((segmentChunks W (padToChunks false (bytesToBits input))).zip parameters.generators).map fun s =>
        ((s.1.zip s.2).map fun t => (Chunk.ofBits t.1).digit • t.2).sum) := by
    rw [segmentChunks, List.zip_map_left, List.map_map]
    refine Except.mapM_eq_map fun s hs => ?_
    have hmem := List.mem_map_of_mem (f := chunks CHUNK_SIZE) (List.of_mem_zip hs).1
    have hpoints : ((chunks CHUNK_SIZE s.1).zip s.2).mapM (fun t => encodeChunk t.2 t.1) =
        .ok (((chunks CHUNK_SIZE s.1).zip s.2).map fun t => (Chunk.ofBits t.1).digit • t.2) :=
      Except.mapM_eq_map fun t ht =>
        encodeChunk_eq t.2 (length_of_mem_segmentChunks hw hdvd hmem (List.of_mem_zip ht).1)
    rw [encodeSegment, checkedChunks, if_neg (by decide), Except.ok_bind, hpoints]
    rfl
  rw [evaluate, if_neg hlt]
  simp only [assertEq, Nat.mod_eq_zero_of_dvd hdvd, decide_true, assert, if_true, Except.ok_bind, hp.length_eq,
    checkedChunks, if_neg hsize, hsegments] at hgenerators ⊢
  rw [hgenerators]
  rfl

/-- Segments of no chunks are no segments. -/
theorem CRH.evaluate_of_windowSize_zero (x : C → F) {W : Window} {parameters : Parameters C}
    (hp : parameters.Matches W) (hw : W.windowSize = 0) (input : List UInt8) :
    ∃ p, CRH.evaluate x W parameters input = .error (.panic p) := by
  have hdvd := dvd_length_padToChunks false (bytesToBits input)
  have hsize : W.windowSize * CHUNK_SIZE = 0 := by rw [hw, Nat.zero_mul]
  have hgenerators := hp.forM_assertEq
  rw [evaluate]
  split
  · exact ⟨_, rfl⟩
  · simp only [assertEq, Nat.mod_eq_zero_of_dvd hdvd, decide_true, assert, if_true, Except.ok_bind, hp.length_eq,
      checkedChunks, if_pos hsize] at hgenerators ⊢
    rw [hgenerators]
    exact ⟨_, rfl⟩

theorem TwoToOneCRH.evaluate_eq_crh (x : C → F) (W : Window) (parameters : Parameters C) {left right : List UInt8}
    (h : left.length = right.length) :
    TwoToOneCRH.evaluate x W parameters left right = CRH.evaluate x W parameters
      (Pedersen.fillBuffer (List.replicate (W.inputSizeBits / 8) 0) left right) := by
  rw [evaluate, decide_eq_true h]
  rfl

end

/-! ## The point whose coordinate is returned -/

section

variable {C F : Type} [AddCommGroup C]

theorem CRH.evaluate_map (x : C → F) (W : Window) (parameters : Parameters C) (input : List UInt8) :
    CRH.evaluate x W parameters input = x <$> CRH.evaluate id W parameters input := by
  rw [evaluate, evaluate]
  split
  · rfl
  · simp only [map_bind]
    rfl

variable {H : AddSubgroup C}

theorem encodeChunk_mem {generator : C} (h : generator ∈ H) {chunkBits : List Bool} {p : C}
    (hp : encodeChunk generator chunkBits = .ok p) : p ∈ H := by
  have hadd (bit : Bool) {q r : C} (hq : q ∈ H) (hr : r ∈ H) : (if bit then q + r else q) ∈ H := by
    cases bit with
    | false => exact hq
    | true => exact H.add_mem hq hr
  rw [encodeChunk] at hp
  obtain ⟨bit0, -, hp⟩ := Except.bind_eq_ok.mp hp
  obtain ⟨bit1, -, hp⟩ := Except.bind_eq_ok.mp hp
  obtain ⟨bit2, -, hp⟩ := Except.bind_eq_ok.mp hp
  obtain rfl := Except.ok.inj hp
  have hencoded := hadd bit1 (hadd bit0 h h) (H.add_mem h h)
  cases bit2 with
  | false => exact hencoded
  | true => exact H.neg_mem hencoded

theorem encodeSegment_mem {segmentBits : List Bool} {segmentGenerators : List C}
    (h : ∀ g ∈ segmentGenerators, g ∈ H) {p : C} (hp : encodeSegment segmentBits segmentGenerators = .ok p) :
    p ∈ H := by
  rw [encodeSegment] at hp
  obtain ⟨chunks, -, hp⟩ := Except.bind_eq_ok.mp hp
  obtain ⟨points, hpoints, hsum⟩ := Except.bind_eq_ok.mp hp
  obtain rfl := Except.ok.inj hsum
  refine AddSubmonoid.list_sum_mem H.toAddSubmonoid (Except.forall_of_mapM (fun s hs point hpoint => ?_) hpoints)
  exact encodeChunk_mem (h s.2 (List.of_mem_zip hs).2) hpoint

/-- The point is a sum of generators, of either sign. -/
theorem CRH.evaluate_mem {W : Window} {parameters : Parameters C}
    (h : ∀ generators ∈ parameters.generators, ∀ g ∈ generators, g ∈ H) {input : List UInt8} {p : C}
    (hp : CRH.evaluate id W parameters input = .ok p) : p ∈ H := by
  rw [evaluate] at hp
  split at hp
  · exact absurd hp raise_ne_ok
  obtain ⟨_, -, hp⟩ := Except.bind_eq_ok.mp hp
  obtain ⟨_, -, hp⟩ := Except.bind_eq_ok.mp hp
  obtain ⟨_, -, hp⟩ := Except.bind_eq_ok.mp hp
  obtain ⟨segments, -, hp⟩ := Except.bind_eq_ok.mp hp
  obtain ⟨points, hpoints, hsum⟩ := Except.bind_eq_ok.mp hp
  obtain rfl := Except.ok.inj hsum
  refine AddSubmonoid.list_sum_mem H.toAddSubmonoid (Except.forall_of_mapM (fun s hs point hpoint => ?_) hpoints)
  exact encodeSegment_mem (h s.2 (List.of_mem_zip hs).2) hpoint

theorem segmentGenerators_mem {base : C} (h : base ∈ H) (windowSize : Nat) :
    ∀ g ∈ segmentGenerators windowSize base, g ∈ H := by
  induction windowSize generalizing base with
  | zero => exact nofun
  | succ n ih =>
    rw [segmentGenerators_cons]
    exact List.forall_mem_cons.mpr ⟨h, ih (H.zsmul_mem h 16)⟩

theorem createGenerators_mem {R : Type} {rand : R → C × R} (h : ∀ rng, (rand rng).1 ∈ H) (windowSize n : Nat)
    (rng : R) : ∀ generators ∈ (createGenerators rand windowSize n rng).1, ∀ g ∈ generators, g ∈ H := by
  induction n generalizing rng with
  | zero => exact nofun
  | succ n ih => exact List.forall_mem_cons.mpr ⟨segmentGenerators_mem (h rng) windowSize, ih _⟩

theorem CRH.setup_mem {p : Nat} {R : Type} {rand : R → C × R} (h : ∀ rng, (rand rng).1 ∈ H) {fuel : Nat}
    {W : Window} {rng rng' : R} {parameters : Parameters C}
    (hp : CRH.setup p rand fuel W rng = .ok (parameters, rng')) :
    ∀ generators ∈ parameters.generators, ∀ g ∈ generators, g ∈ H := by
  obtain ⟨maximum, -, hp⟩ := Except.bind_eq_ok.mp hp
  simp only at hp
  split at hp
  · exact absurd hp raise_ne_ok
  · obtain ⟨rfl, -⟩ := Prod.mk.inj (Except.ok.inj hp)
    exact createGenerators_mem h W.windowSize W.numWindows rng

end

/-! ## Numbers of chunks -/

/-- Different chunks, up to so many, stand for different scalars. -/
def Injective (p windowSize : Nat) : Prop :=
  ∀ cs cs' : List Chunk, cs.length ≤ windowSize → cs'.length ≤ windowSize → cs ≠ cs' →
    (encode cs : ZMod p) ≠ encode cs'

/-- Chunks, up to so many, stand for numbers up to half of `p - 1`, of either sign. -/
def Bounded (p windowSize : Nat) : Prop :=
  ∀ cs : List Chunk, cs.length ≤ windowSize → (encode cs).natAbs ≤ (p - 1) / 2

theorem bounded_iff {p windowSize : Nat} :
    Bounded p windowSize ↔ 4 * ∑ j ∈ range windowSize, 16 ^ j ≤ (p - 1) / 2 := by
  refine ⟨fun h => ?_, fun h cs hcs => (natAbs_encode_le hcs).trans h⟩
  have hmax := h (List.replicate windowSize ⟨true, true, false⟩) (by rw [List.length_replicate])
  rwa [encode_replicate, Int.natAbs_natCast] at hmax

/-- Two numbers up to the bound are less than `p` apart, or `p` is one of the differences. -/
theorem injective_iff {p windowSize : Nat} (hp : 0 < p) :
    Injective p windowSize ↔ 4 * ∑ j ∈ range windowSize, 16 ^ j ≤ (p - 1) / 2 := by
  constructor
  · intro h
    by_contra hlt
    have hp' : p ≤ 8 * ∑ j ∈ range windowSize, 16 ^ j := by omega
    obtain ⟨cs, cs', hlen, hlen', hsub⟩ := exists_encode_sub hp'
    have hne : cs ≠ cs' := fun heq => by
      rw [heq, sub_self] at hsub
      omega
    refine h cs cs' hlen.le hlen'.le hne (eq_of_sub_eq_zero ?_)
    rw [← Int.cast_sub, hsub, Int.cast_natCast, ZMod.natCast_self]
  · intro h cs cs' hcs hcs' hne heq
    have hdvd : (p : Int) ∣ encode cs' - encode cs := (ZMod.intCast_eq_intCast_iff_dvd_sub _ _ p).mp heq
    have hle := natAbs_encode_le hcs
    have hle' := natAbs_encode_le hcs'
    have hzero := Int.eq_zero_of_dvd_of_natAbs_lt_natAbs hdvd (by omega)
    exact hne (encode_inj (by omega))

/-! ## Windows that `setup` accepts -/

theorem numChunksLoop_zero {p : Nat} (hp : 0 < (p - 1) / 2) (fuel c c' : Nat) : numChunksLoop p fuel 0 c ≠ .ok c' := by
  induction fuel generalizing c with
  | zero => exact raise_ne_ok
  | succ fuel ih =>
    rw [numChunksLoop, if_pos hp, Nat.zero_shiftLeft, Nat.zero_mod]
    exact ih (c + 1)

/-- The loop ends at the first power that reaches the limit. A range that is shifted out never does. -/
theorem numChunksLoop_spec {p fuel c c' : Nat} (h : numChunksLoop p fuel (2 * 16 ^ c) c = .ok c') :
    (p - 1) / 2 ≤ 2 * 16 ^ c' ∧ ∀ j, c ≤ j → j < c' → 2 * 16 ^ j < (p - 1) / 2 := by
  induction fuel generalizing c with
  | zero => exact absurd h raise_ne_ok
  | succ fuel ih =>
    rw [numChunksLoop] at h
    split at h
    · rename_i hlt
      have hshift : (2 * 16 ^ c) <<< 4 = 2 ^ (4 * c + 5) := by
        rw [Nat.shiftLeft_eq, show 16 = 2 ^ 4 from rfl, ← pow_mul]
        ring
      rw [hshift] at h
      rcases Nat.lt_or_ge (4 * c + 5) (8 * bigIntBytes p) with hbits | hbits
      · have hnext : 2 ^ (4 * c + 5) = 2 * 16 ^ (c + 1) := by
          rw [show 16 = 2 ^ 4 from rfl, ← pow_mul]
          ring
        rw [Nat.mod_eq_of_lt (Nat.pow_lt_pow_right (by decide) hbits), hnext] at h
        obtain ⟨hle, hrest⟩ := ih h
        refine ⟨hle, fun j hj hj' => ?_⟩
        rcases Nat.eq_or_lt_of_le hj with rfl | hj
        · exact hlt
        · exact hrest j hj hj'
      · rw [Nat.mod_eq_zero_of_dvd (pow_dvd_pow 2 hbits)] at h
        exact absurd h (numChunksLoop_zero (by omega) fuel (c + 1) c')
    · rename_i hle
      obtain rfl := Except.ok.inj h
      exact ⟨Nat.not_lt.mp hle, fun j hj hj' => absurd hj (Nat.not_le.mpr hj')⟩

/-- With less chunks than the largest window that is accepted, the numbers are below the limit. -/
theorem bounded_of_lt {p fuel maximum windowSize : Nat} (h : calculateNumChunksInSegment p fuel = .ok maximum)
    (hlt : windowSize < maximum) : Bounded p windowSize := by
  have hlimit := (numChunksLoop_spec (c := 0) h).2 windowSize (Nat.zero_le _) hlt
  have hsum (n : Nat) : 4 * ∑ j ∈ range n, 16 ^ j ≤ 2 * 16 ^ n := by
    induction n with
    | zero => decide
    | succ n ih =>
      rw [Finset.sum_range_succ, pow_succ]
      omega
  exact bounded_iff.mpr ((hsum windowSize).trans hlimit.le)

section

variable {C R : Type} [AddCommGroup C] {rand : R → C × R} {windowSize : Nat}

theorem mem_createGenerators {numWindows : Nat} {rng : R} {generators : List C}
    (h : generators ∈ (createGenerators rand windowSize numWindows rng).1) :
    ∃ base, generators = segmentGenerators windowSize base := by
  induction numWindows generalizing rng with
  | zero => exact nomatch h
  | succ n ih =>
    rcases List.mem_cons.mp h with rfl | h
    · exact ⟨_, rfl⟩
    · exact ih h

theorem setup_eq_ok {p fuel : Nat} {W : Window} {rng rng' : R} {parameters : Parameters C}
    (h : CRH.setup p rand fuel W rng = .ok (parameters, rng')) :
    (∃ maximum, calculateNumChunksInSegment p fuel = .ok maximum ∧ W.windowSize ≤ maximum) ∧
      parameters.generators = (createGenerators rand W.windowSize W.numWindows rng).1 := by
  rw [CRH.setup, Except.bind_eq_ok] at h
  obtain ⟨maximum, hmax, h⟩ := h
  split at h
  · exact absurd h raise_ne_ok
  · rename_i hle
    obtain ⟨rfl, -⟩ := Prod.mk.inj (Except.ok.inj h)
    exact ⟨⟨maximum, hmax, Nat.not_lt.mp hle⟩, rfl⟩

/-- For every prime order and every window that `setup` accepts: each segment is hashed to a multiple of its
base point, and the multiples are different for different chunks, or below the limit, exactly when 4 in every
place is. -/
theorem setup_separates_iff {p fuel : Nat} [hp : Fact p.Prime] {W : Window} {rng rng' : R} {parameters : Parameters C}
    (h : CRH.setup p rand fuel W rng = .ok (parameters, rng')) :
    (∀ generators ∈ parameters.generators, ∃ base, ∀ cs : List Chunk, cs.length ≤ W.windowSize →
      encodeSegment (cs.flatMap Chunk.bits) generators = .ok (encode cs • base)) ∧
    (Injective p W.windowSize ↔ 4 * ∑ j ∈ range W.windowSize, 16 ^ j ≤ (p - 1) / 2) ∧
    (Bounded p W.windowSize ↔ 4 * ∑ j ∈ range W.windowSize, 16 ^ j ≤ (p - 1) / 2) := by
  refine ⟨fun generators hmem => ?_, injective_iff hp.out.pos, bounded_iff⟩
  rw [(setup_eq_ok h).2] at hmem
  obtain ⟨base, rfl⟩ := mem_createGenerators hmem
  exact ⟨base, fun cs hcs => encodeSegment_eq hcs base⟩

end

theorem setup_separates_iff_eleven :
    (∀ generators ∈ [[(1 : ZMod 11)]], ∃ base, ∀ cs : List Chunk, cs.length ≤ 1 →
      encodeSegment (cs.flatMap Chunk.bits) generators = .ok (encode cs • base)) ∧
    (Injective 11 1 ↔ 4 * ∑ j ∈ range 1, 16 ^ j ≤ (11 - 1) / 2) ∧
    (Bounded 11 1 ↔ 4 * ∑ j ∈ range 1, 16 ^ j ≤ (11 - 1) / 2) := by
  have hsetup : CRH.setup 11 (fun rng : Unit => ((1 : ZMod 11), rng)) 2 ⟨1, 1⟩ () = .ok (⟨[[1]]⟩, ()) := rfl
  have : Fact (Nat.Prime 11) := ⟨by decide⟩
  exact setup_separates_iff hsetup

/-- A window of one chunk is accepted for the field of 7 elements, in which the digits 4 and -3 are the same. -/
theorem setup_not_injective :
    CRH.setup 7 (fun rng : Unit => ((1 : ZMod 7), rng)) 2 ⟨1, 1⟩ () = .ok (⟨[[1]]⟩, ()) ∧ Nat.Prime 7 ∧
      ¬ Injective 7 1 ∧ ¬ Bounded 7 1 ∧
      encodeSegment [true, true, false] [(1 : ZMod 7)] = encodeSegment [false, true, true] [1] := by
  refine ⟨rfl, by decide, fun h => ?_, fun h => ?_, by decide⟩
  · exact h [⟨true, true, false⟩] [⟨false, true, true⟩] le_rfl le_rfl (by decide) (by decide)
  · exact absurd (h [⟨true, true, false⟩] le_rfl) (by decide)

/-! ## The end of the loop -/

/-- `range <<= 4` on a `BigInt` of so many limbs. -/
def shiftRange (limbs range : Nat) : Nat := (range <<< 4) % 2 ^ (64 * limbs)

/-- The loop of `calculate_num_chunks_in_segment` ends, for a field of `r` elements whose `BigInt` has so many
limbs. -/
def SegmentLoopEnds (limbs r : Nat) : Prop := ∃ c, (r - 1) / 2 ≤ (shiftRange limbs)^[c] 2

/-- After `c` shifts: the power of two, if there is room for it. -/
theorem iterate_shiftRange {limbs : Nat} (h : 0 < limbs) (c : Nat) :
    (shiftRange limbs)^[c] 2 = 2 ^ (4 * c + 1) % 2 ^ (64 * limbs) := by
  induction c with
  | zero =>
    have hroom : 2 ^ 1 < 2 ^ (64 * limbs) := Nat.pow_lt_pow_right (by decide) (by omega)
    exact (Nat.mod_eq_of_lt hroom).symm
  | succ c ih =>
    rw [Function.iterate_succ_apply', ih, shiftRange, Nat.shiftLeft_eq, Nat.mod_mul_mod, ← pow_add]
    rfl

/-- The loop ends where the highest power that there is room for reaches the limit. -/
theorem segmentLoopEnds_iff {limbs r : Nat} (h : 3 ≤ r) (hlt : r < 2 ^ (64 * limbs)) :
    SegmentLoopEnds limbs r ↔ (r - 1) / 2 ≤ 2 ^ (64 * limbs - 3) := by
  have hlimbs : 0 < limbs := by
    rcases Nat.eq_zero_or_pos limbs with rfl | hpos
    · rw [Nat.mul_zero, pow_zero] at hlt
      omega
    · exact hpos
  unfold SegmentLoopEnds
  simp only [iterate_shiftRange hlimbs]
  constructor
  · rintro ⟨c, hc⟩
    rcases Nat.lt_or_ge (4 * c + 1) (64 * limbs) with hroom | hroom
    · rw [Nat.mod_eq_of_lt (Nat.pow_lt_pow_right (by decide) hroom)] at hc
      exact hc.trans (Nat.pow_le_pow_right Nat.two_pos (by omega))
    · rw [Nat.mod_eq_zero_of_dvd (pow_dvd_pow 2 hroom)] at hc
      omega
  · intro hle
    refine ⟨16 * limbs - 1, ?_⟩
    rw [show 4 * (16 * limbs - 1) + 1 = 64 * limbs - 3 by omega,
      Nat.mod_eq_of_lt (Nat.pow_lt_pow_right (by decide) (by omega))]
    exact hle

/-- The loop of the model is this one, with the limbs that the field needs. -/
theorem exists_numChunksLoop_iff {p : Nat} (range c : Nat) :
    (∃ fuel maximum, numChunksLoop p fuel range c = .ok maximum) ↔
      ∃ n, (p - 1) / 2 ≤ (shiftRange (bigIntBytes p / 8))^[n] range := by
  have hshift (range : Nat) : (range <<< 4) % 2 ^ (8 * bigIntBytes p) = shiftRange (bigIntBytes p / 8) range := by
    rw [shiftRange, show 64 * (bigIntBytes p / 8) = 8 * bigIntBytes p by rw [bigIntBytes]; omega]
  constructor
  · rintro ⟨fuel, maximum, h⟩
    induction fuel generalizing range c with
    | zero => exact absurd h raise_ne_ok
    | succ fuel ih =>
      rw [numChunksLoop] at h
      split at h
      · rw [hshift] at h
        obtain ⟨n, hn⟩ := ih _ _ h
        exact ⟨n + 1, hn⟩
      · rename_i hle
        exact ⟨0, Nat.not_lt.mp hle⟩
  · rintro ⟨n, h⟩
    induction n generalizing range c with
    | zero => exact ⟨1, c, if_neg (Nat.not_lt.mpr h)⟩
    | succ n ih =>
      by_cases hlt : range < (p - 1) / 2
      · obtain ⟨fuel, maximum, hloop⟩ := ih (shiftRange (bigIntBytes p / 8) range) (c + 1) h
        exact ⟨fuel + 1, maximum, by rw [numChunksLoop, if_pos hlt, hshift, hloop]⟩
      · exact ⟨1, c, if_neg hlt⟩

/-- For every number of limbs and every odd prime with room in them, the loop ends exactly when the prime leaves
two bits free; so does the loop of `setup`, whose `BigInt` has the limbs that the prime needs. -/
theorem segmentLoopEnds_iff_le {limbs r : Nat} (hr : r.Prime) (hodd : r ≠ 2) (hlt : r < 2 ^ (64 * limbs)) :
    (SegmentLoopEnds limbs r ↔ r ≤ 2 ^ (64 * limbs - 2) + 1) ∧
      ((∃ fuel maximum, calculateNumChunksInSegment r fuel = .ok maximum) ↔
        r ≤ 2 ^ (64 * (bigIntBytes r / 8) - 2) + 1) := by
  have h3 : 3 ≤ r := by
    have := hr.two_le
    omega
  have hparity : r % 2 = 1 := (hr.eq_two_or_odd).resolve_left hodd
  have hends {limbs : Nat} (hlt : r < 2 ^ (64 * limbs)) : SegmentLoopEnds limbs r ↔ r ≤ 2 ^ (64 * limbs - 2) + 1 := by
    rw [segmentLoopEnds_iff h3 hlt]
    rcases Nat.eq_zero_or_pos limbs with rfl | hpos
    · rw [Nat.mul_zero, pow_zero] at hlt
      omega
    · rw [show 64 * limbs - 2 = 64 * limbs - 3 + 1 by omega, pow_succ]
      omega
  have hroom : r < 2 ^ (64 * (bigIntBytes r / 8)) := by
    refine PrimeField.lt_two_pow_modulusBitSize.trans_le (Nat.pow_le_pow_right Nat.two_pos ?_)
    rw [bigIntBytes]
    omega
  exact ⟨hends hlt, (exists_numChunksLoop_iff 2 0).trans (hends hroom)⟩

theorem segmentLoopEnds_iff_le_seven :
    (SegmentLoopEnds 1 7 ↔ 7 ≤ 2 ^ (64 * 1 - 2) + 1) ∧
      ((∃ fuel maximum, calculateNumChunksInSegment 7 fuel = .ok maximum) ↔
        7 ≤ 2 ^ (64 * (bigIntBytes 7 / 8) - 2) + 1) :=
  segmentLoopEnds_iff_le (by decide) (by decide) (by decide)

/-- `2 ^ 64 - 2 ^ 32 + 1` is a prime: 7 is a primitive root. -/
theorem prime_goldilocks : Nat.Prime 18446744069414584321 := by
  refine lucas_primality _ (7 : ZMod 18446744069414584321) ?_ fun q hq hdvd => ?_
  · norm_num only
    reduce_mod_char
  · have hfactors : 18446744069414584321 - 1 = 2 ^ 32 * (3 * (5 * (17 * (257 * 65537)))) := by norm_num
    have hprime {f : Nat} (hf : f.Prime) (h : q ∣ f) : q = f := (Nat.prime_dvd_prime_iff_eq hq hf).mp h
    have hfactor : q = 2 ∨ q = 3 ∨ q = 5 ∨ q = 17 ∨ q = 257 ∨ q = 65537 := by
      rw [hfactors] at hdvd
      simp only [hq.dvd_mul] at hdvd
      rcases hdvd with h | h | h | h | h | h
      · exact .inl (hprime Nat.prime_two (hq.dvd_of_dvd_pow h))
      · exact .inr (.inl (hprime Nat.prime_three h))
      · exact .inr (.inr (.inl (hprime Nat.prime_five h)))
      · exact .inr (.inr (.inr (.inl (hprime (by norm_num) h))))
      · exact .inr (.inr (.inr (.inr (.inl (hprime (by norm_num) h)))))
      · exact .inr (.inr (.inr (.inr (.inr (hprime (by norm_num) h)))))
    rcases hfactor with rfl | rfl | rfl | rfl | rfl | rfl <;> norm_num only <;> reduce_mod_char <;> decide +kernel

/-- For the field of `2 ^ 64 - 2 ^ 32 + 1` elements the highest power of one limb is `2 ^ 61`, below the limit,
and the next one is shifted out. -/
theorem numChunksLoop_diverges :
    Nat.Prime 18446744069414584321 ∧ 18446744069414584321 < 2 ^ (64 * 1) ∧
      ¬ SegmentLoopEnds 1 18446744069414584321 ∧
      ∀ fuel maximum, calculateNumChunksInSegment 18446744069414584321 fuel ≠ .ok maximum := by
  have hends : ¬ SegmentLoopEnds 1 18446744069414584321 := fun h =>
    absurd ((segmentLoopEnds_iff (by decide) (by decide)).mp h) (by decide)
  have hlimbs : bigIntBytes 18446744069414584321 / 8 = 1 := by decide +kernel
  refine ⟨prime_goldilocks, by decide, hends, fun fuel maximum h => hends ?_⟩
  have hiter := (exists_numChunksLoop_iff 2 0).mp ⟨fuel, maximum, h⟩
  rwa [hlimbs] at hiter

end CryptoPrimitives.BoweHopwood
