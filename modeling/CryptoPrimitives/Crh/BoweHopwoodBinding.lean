import CryptoPrimitives.Crh.BoweHopwood
import CryptoPrimitives.Crh.PedersenBinding

/-!
# What the Bowe-Hopwood-Pedersen hash binds

The segments of an input are lists of chunks, each list of which stands for a number (`encode`), with one point for
each segment: the hash is a coordinate of the combination of these points (`evaluate_eq_combine`). The differences of
two numbers are all those up to 8 in every place, so it has no collision among inputs of full length exactly when the
points have no relation with such coefficients (`evaluate_injective_iff_digits`).
-/

namespace CryptoPrimitives.BoweHopwood

open Combination (DifferencesBelow Independent combine)
open Finset (range)
open Pedersen (Window Parameters bytesToBits windowPoint)

/-! ## Inputs as chunks -/

/-- The inputs that fill all segments. -/
abbrev FullInput (W : Window) : Type := {input : List UInt8 // input.length * 8 = W.inputSizeBits * CHUNK_SIZE}

/-- The chunks of the segments of an input. -/
def FullInput.segments {W : Window} (input : FullInput W) : List (List Chunk) :=
  (segmentChunks W (bytesToBits input.val)).map (·.map Chunk.ofBits)

theorem Chunk.bits_ofBits {bits : List Bool} (h : bits.length = CHUNK_SIZE) : (Chunk.ofBits bits).bits = bits := by
  obtain ⟨bit0, bit1, bit2, rfl⟩ := List.length_eq_three.mp h
  rfl

/-- The bits of a whole number of bytes. -/
theorem exists_bytesToBits {bits : List Bool} {count : Nat} (h : bits.length = 8 * count) :
    ∃ bytes : List UInt8, bytes.length = count ∧ bytesToBits bytes = bits := by
  have hlt := Digits.ofBits_lt bits
  rw [h, pow_mul] at hlt
  refine ⟨toLeBytes count (Digits.ofBits bits), length_toLeBytes _ _, Digits.ofBits_inj ?_ ?_⟩
  · rw [Pedersen.length_bytesToBits, length_toLeBytes, h]
  · rw [Pedersen.bytesToBits_eq, ofBits_flatten_byteBits, leNumber_toLeBytes]
    exact Nat.mod_eq_of_lt hlt

theorem bytesToBits_injective {bytes bytes' : List UInt8} (h : bytesToBits bytes = bytesToBits bytes') :
    bytes = bytes' := by
  have hlength : bytes.length = bytes'.length := by
    have := congrArg List.length h
    rw [Pedersen.length_bytesToBits, Pedersen.length_bytesToBits] at this
    omega
  have hnumber : leNumber bytes = leNumber bytes' := by
    rw [← ofBits_flatten_byteBits, ← ofBits_flatten_byteBits, ← Pedersen.bytesToBits_eq, ← Pedersen.bytesToBits_eq, h]
  have hbytes (bytes : List UInt8) : toLeBytes bytes.length (leNumber bytes) = bytes := by
    rw [toLeBytes_leNumber le_rfl, Nat.sub_self, List.replicate_zero, List.append_nil]
  rw [← hbytes bytes, ← hbytes bytes', hlength, hnumber]

section

variable {W : Window}

theorem FullInput.length_bits (input : FullInput W) :
    (bytesToBits input.val).length = W.windowSize * CHUNK_SIZE * W.numWindows := by
  rw [Pedersen.length_bytesToBits, Nat.mul_comm 8, input.property, Window.inputSizeBits, Nat.mul_right_comm]

variable (hw : 0 < W.windowSize)
include hw

theorem FullInput.length_segments (input : FullInput W) :
    input.segments.length = W.numWindows ∧ ∀ cs ∈ input.segments, cs.length = W.windowSize := by
  obtain ⟨hlen, hall⟩ := chunks_of_length (Nat.mul_pos hw (by decide)) input.length_bits
  refine ⟨by rw [segments, List.length_map, segmentChunks, List.length_map, hlen], fun cs hcs => ?_⟩
  obtain ⟨segment, hsegment, rfl⟩ := List.mem_map.mp hcs
  obtain ⟨bits, hbits, rfl⟩ := List.mem_map.mp hsegment
  rw [List.length_map]
  exact (chunks_of_length (by decide) ((hall bits hbits).trans (Nat.mul_comm _ _))).1

/-- An input is made of the bits of its chunks. -/
theorem FullInput.bits_segments (input : FullInput W) :
    input.segments.flatten.flatMap Chunk.bits = bytesToBits input.val := by
  have hdvd : CHUNK_SIZE ∣ (bytesToBits input.val).length := by
    rw [input.length_bits, Nat.mul_right_comm]
    exact Nat.dvd_mul_left _ _
  have hsegments : (input.segments).map (·.map Chunk.bits) = segmentChunks W (bytesToBits input.val) := by
    rw [segments, List.map_map]
    refine (List.map_congr_left fun segment hsegment => ?_).trans (List.map_id _)
    rw [Function.comp_apply, List.map_map]
    exact (List.map_congr_left fun chunk hchunk =>
      Chunk.bits_ofBits (length_of_mem_segmentChunks hw hdvd hsegment hchunk)).trans (List.map_id segment)
  have hsize : 0 < W.windowSize * CHUNK_SIZE := Nat.mul_pos hw (by decide)
  rw [List.flatMap_def, List.map_flatten, hsegments, List.flatten_flatten, segmentChunks, List.map_map]
  refine Eq.trans (congrArg List.flatten ?_) (flatten_chunks hsize _)
  exact (List.map_congr_left fun bits _ => flatten_chunks (show 0 < CHUNK_SIZE by decide) bits).trans (List.map_id _)

omit hw in
theorem length_flatMap_bits (cs : List Chunk) : (cs.flatMap Chunk.bits).length = cs.length * CHUNK_SIZE := by
  induction cs with
  | nil => rfl
  | cons c cs ih =>
    rw [List.flatMap_cons, List.length_append, ih, List.length_cons, Nat.succ_mul, Nat.add_comm]
    rfl

/-- Any chunks in segments of full length are those of an input. -/
theorem FullInput.exists_segments (h8 : 8 ∣ W.inputSizeBits * CHUNK_SIZE) {css : List (List Chunk)}
    (hlen : css.length = W.numWindows) (hall : ∀ cs ∈ css, cs.length = W.windowSize) :
    ∃ input : FullInput W, input.segments = css := by
  have hsegment : ∀ bits ∈ css.map (·.flatMap Chunk.bits), bits.length = W.windowSize * CHUNK_SIZE :=
    List.forall_mem_map.mpr fun cs hcs => by rw [length_flatMap_bits, hall cs hcs]
  have hlength : (css.map (·.flatMap Chunk.bits)).flatten.length = W.inputSizeBits * CHUNK_SIZE := by
    have hreplicate := List.eq_replicate_of_mem (List.forall_mem_map.mpr hsegment)
    rw [List.length_flatten, hreplicate, List.sum_replicate, List.length_map, List.length_map, hlen, smul_eq_mul,
      Window.inputSizeBits, Nat.mul_left_comm, Nat.mul_assoc]
  obtain ⟨count, hcount⟩ := h8
  obtain ⟨bytes, hbytes, heq⟩ := exists_bytesToBits (hlength.trans hcount)
  refine ⟨⟨bytes, by rw [hbytes, hcount, Nat.mul_comm]⟩, ?_⟩
  rw [FullInput.segments, heq, segmentChunks, chunks_flatten (Nat.mul_pos hw (by decide)) hsegment, List.map_map,
    List.map_map]
  refine (List.map_congr_left fun cs _ => ?_).trans (List.map_id _)
  have hchunk : ∀ bits ∈ cs.map Chunk.bits, bits.length = CHUNK_SIZE := List.forall_mem_map.mpr fun _ _ => rfl
  simp only [Function.comp_apply]
  rw [List.flatMap_def, chunks_flatten (by decide) hchunk, List.map_map]
  exact List.map_id cs

/-- The numbers that the segments of an input stand for. -/
def FullInput.numbers (input : FullInput W) (i : Fin W.numWindows) : Int := encode (input.segments.getD i [])

theorem FullInput.numbers_injective : Function.Injective (FullInput.numbers (W := W)) := by
  intro x y h
  obtain ⟨hx, -⟩ := x.length_segments hw
  obtain ⟨hy, -⟩ := y.length_segments hw
  have hsegments : x.segments = y.segments := List.ext_getElem (hx.trans hy.symm) fun i hi hi' => by
    have hi := encode_inj (congrFun h ⟨i, hx ▸ hi⟩)
    rwa [List.getD_eq_getElem, List.getD_eq_getElem] at hi
  refine Subtype.ext (bytesToBits_injective ?_)
  rw [← x.bits_segments hw, ← y.bits_segments hw, hsegments]

omit hw in
/-- The difference of the numbers of two segments of full length. -/
theorem exists_encode_sub_iff {n : Nat} {d : Int} :
    (∃ cs cs' : List Chunk, cs.length = n ∧ cs'.length = n ∧ encode cs - encode cs' = d) ↔
      d.natAbs < 8 * ∑ j ∈ range n, 16 ^ j + 1 := by
  constructor
  · rintro ⟨cs, cs', hlen, hlen', rfl⟩
    have hle := natAbs_encode_le hlen.le
    have hle' := natAbs_encode_le hlen'.le
    omega
  · intro h
    obtain ⟨cs, cs', hlen, hlen', hsub⟩ := exists_encode_sub (Nat.le_of_lt_succ h)
    rcases Int.natAbs_eq d with hd | hd
    · exact ⟨cs, cs', hlen, hlen', by rw [hsub, ← hd]⟩
    · exact ⟨cs', cs, hlen', hlen, by rw [hd, ← hsub, neg_sub]⟩

theorem FullInput.differencesBelow (h8 : 8 ∣ W.inputSizeBits * CHUNK_SIZE) :
    DifferencesBelow (fun _ => 8 * ∑ j ∈ range W.windowSize, 16 ^ j + 1) (FullInput.numbers (W := W)) := by
  intro d
  constructor
  · rintro ⟨a, b, rfl⟩ i
    have hlen (input : FullInput W) : (input.segments.getD i []).length = W.windowSize := by
      obtain ⟨hlen, hall⟩ := input.length_segments hw
      rw [List.getD_eq_getElem _ _ (by rw [hlen]; exact i.isLt)]
      exact hall _ (List.getElem_mem _)
    exact exists_encode_sub_iff.mp ⟨_, _, hlen a, hlen b, rfl⟩
  · intro hd
    choose cs cs' hcs hcs' hsub using fun i => exists_encode_sub_iff.mpr (hd i)
    have hinput {cs : Fin W.numWindows → List Chunk} (hcs : ∀ i, (cs i).length = W.windowSize) :
        ∃ input : FullInput W, ∀ i, input.numbers i = encode (cs i) := by
      obtain ⟨input, hinput⟩ := exists_segments hw h8 (List.length_ofFn (f := cs)) (List.forall_mem_ofFn_iff.mpr hcs)
      refine ⟨input, fun i => ?_⟩
      rw [numbers, hinput, List.getD_eq_getElem _ _ (by rw [List.length_ofFn]; exact i.isLt), List.getElem_ofFn]
    obtain ⟨a, ha⟩ := hinput hcs
    obtain ⟨b, hb⟩ := hinput hcs'
    exact ⟨a, b, funext fun i => by rw [Pi.sub_apply, ha, hb, hsub]⟩

end

/-! ## The hash -/

section

variable {C F : Type} [AddCommGroup C] {W : Window}

/-- The points of the chunks of a segment add up to the multiple of its point that they stand for. -/
theorem sum_zip_segmentGenerators {n : Nat} {segment : List (List Bool)} (h : segment.length ≤ n) (base : C) :
    ((segment.zip (segmentGenerators n base)).map fun t => (Chunk.ofBits t.1).digit • t.2).sum =
      encode (segment.map Chunk.ofBits) • base := by
  induction segment generalizing n base with
  | nil => exact (zero_zsmul base).symm
  | cons chunk segment ih =>
    obtain ⟨n, rfl⟩ : ∃ k, n = k + 1 := ⟨n - 1, by rw [List.length_cons] at h; omega⟩
    rw [segmentGenerators_cons, List.zip_cons_cons, List.map_cons, List.sum_cons, ih (Nat.le_of_succ_le_succ h),
      ← mul_zsmul, ← add_zsmul, mul_comm]
    rfl

/-- The segments are combined with the numbers that they stand for. -/
theorem signedSum_eq_sum (hw : 0 < W.windowSize) {bases : List (List C)} {segments : List (List (List Bool))}
    (hbases : ∀ generators ∈ bases, ∃ base, generators = segmentGenerators W.windowSize base)
    (hsegments : ∀ segment ∈ segments, segment.length ≤ W.windowSize) (hlen : segments.length = bases.length) :
    signedSum bases segments = ∑ i : Fin bases.length,
      encode ((segments.map (·.map Chunk.ofBits)).getD i []) • windowPoint bases i := by
  induction bases generalizing segments with
  | nil => simp [signedSum]
  | cons generators bases ih =>
    obtain ⟨segment, segments, rfl⟩ := List.exists_cons_of_length_eq_add_one hlen
    obtain ⟨⟨base, rfl⟩, hbases'⟩ := List.forall_mem_cons.mp hbases
    obtain ⟨hsegment, hsegments'⟩ := List.forall_mem_cons.mp hsegments
    have hbase : windowPoint (segmentGenerators W.windowSize base :: bases) 0 = base := by
      obtain ⟨n, hn⟩ : ∃ n, W.windowSize = n + 1 := ⟨W.windowSize - 1, by omega⟩
      rw [windowPoint, List.getD_cons_zero, hn]
      rfl
    refine Eq.trans ?_ (Fin.sum_univ_succ _).symm
    refine congrArg₂ (· + ·) ?_ (ih hbases' hsegments' (Nat.succ.inj hlen))
    rw [Fin.val_zero, hbase]
    exact sum_zip_segmentGenerators hsegment base

theorem length_segmentGenerators (n : Nat) (base : C) : (segmentGenerators n base).length = n := by
  induction n generalizing base with
  | zero => rfl
  | succ n ih => rw [segmentGenerators, List.length_cons, ih]

section

variable {R : Type} (rand : R → C × R)

theorem matches_createGenerators (W : Window) (rng : R) :
    (Parameters.mk (createGenerators rand W.windowSize W.numWindows rng).1).Matches W where
  length_eq := by
    show (createGenerators rand W.windowSize W.numWindows rng).1.length = W.numWindows
    induction W.numWindows generalizing rng with
    | zero => rfl
    | succ n ih => exact congrArg (· + 1) (ih _)
  length_of_mem generators h := by
    obtain ⟨base, rfl⟩ := mem_createGenerators h
    exact length_segmentGenerators W.windowSize base

/-- The hash is a coordinate of the combination of the points of the segments. -/
theorem CRH.evaluate_eq_combine (x : C → F) (hw : 0 < W.windowSize) (rng : R) (input : FullInput W) :
    let generators := (createGenerators rand W.windowSize W.numWindows rng).1
    CRH.evaluate x W ⟨generators⟩ input.val =
      .ok (x (combine (fun i : Fin W.numWindows => windowPoint generators i) input.numbers)) := by
  intro generators
  have hm : (Parameters.mk generators).Matches W := matches_createGenerators rand W rng
  obtain ⟨hlen, hall⟩ := input.length_segments hw
  have hpad : padToChunks false (bytesToBits input.val) = bytesToBits input.val := by
    rw [padToChunks, input.length_bits, Nat.mul_right_comm, Nat.mul_mod_left, if_neg (not_not.mpr rfl)]
  rw [FullInput.segments, List.length_map] at hlen
  have hsegments : ∀ segment ∈ segmentChunks W (bytesToBits input.val), segment.length ≤ W.windowSize :=
    fun segment h => by
      have := hall _ (List.mem_map_of_mem h)
      rw [List.length_map] at this
      exact this.le
  rw [evaluate_eq x hm hw input.property.le, hpad,
    signedSum_eq_sum hw (fun _ => mem_createGenerators) hsegments (hlen.trans hm.length_eq.symm)]
  refine congrArg (fun point => Except.ok (x point)) ?_
  simp only [combine, FullInput.numbers, FullInput.segments]
  rw [Fin.sum_univ_eq_sum_range fun i => encode (((segmentChunks W (bytesToBits input.val)).map
      (·.map Chunk.ofBits)).getD i []) • windowPoint generators i,
    Fin.sum_univ_eq_sum_range fun i => encode (((segmentChunks W (bytesToBits input.val)).map
      (·.map Chunk.ofBits)).getD i []) • windowPoint generators i, hm.length_eq]

end

/-- For every setup that draws points of a subgroup on which the coordinate is injective, with segments of whole bytes:
no two full inputs have the same hash exactly when the points have no relation with coefficients up to 8 in every
place. -/
theorem CRH.evaluate_injective_iff_digits {x : C → F} {H : AddSubgroup C} (hx : Set.InjOn x H) {p fuel : Nat}
    (hw : 0 < W.windowSize) (h8 : 8 ∣ W.inputSizeBits * CHUNK_SIZE) {R : Type} {rand : R → C × R}
    (hrand : ∀ rng, (rand rng).1 ∈ H) {rng rng' : R} {parameters : Parameters C}
    (hsetup : CRH.setup p rand fuel W rng = .ok (parameters, rng')) :
    (∀ a b : FullInput W, CRH.evaluate x W parameters a.val = CRH.evaluate x W parameters b.val → a = b) ↔
      Independent (fun i : Fin W.numWindows => windowPoint parameters.generators i)
        fun _ => 8 * ∑ j ∈ range W.windowSize, 16 ^ j + 1 := by
  obtain ⟨generators⟩ := parameters
  obtain rfl : generators = _ := (setup_eq_ok hsetup).2
  rw [← Combination.injective_iff (FullInput.differencesBelow hw h8) (FullInput.numbers_injective hw)]
  refine forall₂_congr fun a b => imp_congr_left ?_
  rw [evaluate_eq_combine rand x hw rng a, evaluate_eq_combine rand x hw rng b, Except.ok.injEq]
  have hmem := Combination.combine_mem fun i : Fin W.numWindows =>
    Pedersen.windowPoint_mem (createGenerators_mem hrand W.windowSize W.numWindows rng) i
  exact hx.eq_iff (hmem a.numbers) (hmem b.numbers)

end

/-- Eight segments of one chunk, all with the same point of the integers modulo 11. -/
theorem CRH.evaluate_injective_iff_digits_eleven : ¬∀ a b : FullInput ⟨1, 8⟩,
    CRH.evaluate id ⟨1, 8⟩ ⟨List.replicate 8 [(1 : ZMod 11)]⟩ a.val =
      CRH.evaluate id ⟨1, 8⟩ ⟨List.replicate 8 [(1 : ZMod 11)]⟩ b.val → a = b := by
  have hsetup : CRH.setup 11 (fun rng : Unit => ((1 : ZMod 11), rng)) 2 ⟨1, 8⟩ () =
      .ok (⟨List.replicate 8 [1]⟩, ()) := rfl
  have hinj : Set.InjOn (id : ZMod 11 → ZMod 11) (⊤ : AddSubgroup (ZMod 11)) := Function.injective_id.injOn
  intro h
  have hindep := (evaluate_injective_iff_digits hinj (by decide) (by decide) (fun _ => AddSubgroup.mem_top _) hsetup).mp h
  have hzero := hindep (fun i => if i = 0 then 1 else if i = 1 then -1 else 0) ⟨by decide, by decide⟩
  exact absurd (congrFun hzero 0) (by decide)

end CryptoPrimitives.BoweHopwood
