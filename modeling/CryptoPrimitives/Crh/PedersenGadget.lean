import CryptoPrimitives.Crh.BoweHopwood
import CryptoPrimitives.Gadget.Uint

/-!
# The gadgets of the Pedersen hashes

`crh/pedersen/constraints.rs` and `crh/bowe_hopwood/constraints.rs`, over variables with the
multi-scalar multiplications of `ark-r1cs-std`.

* `Pedersen.crhGadget_computes`, `BoweHopwood.crhGadget_computes`: on one input they compute
  the hash.
* `twoToOne_agrees_iff`: on two inputs the native code leaves out what does not fit into its buffer, where
  the gadget panics.
-/

namespace CryptoPrimitives

open Synthesis (Computes Rejects)

/-! ## Pedersen -/

namespace Pedersen

/-- The operations of `CurveVar` that the gadget uses. -/
class MultiscalarVar (C : outParam Type) (GG : Type) where
  /-- The value assigned to a variable. -/
  value : GG → C
  precomputedBaseMultiscalarMulLe : List (List C) → List (List Boolean) → Gadget GG

/-- The multiplication computes the sum of the bases at the bits that are set. -/
class LawfulMultiscalarVar (C : outParam Type) (GG : Type) [AddCommGroup C] [MultiscalarVar C GG] : Prop where
  multiscalar_computes (bases : List (List C)) (scalars : List (List Boolean)) :
    Computes (MultiscalarVar.precomputedBaseMultiscalarMulLe bases scalars : Gadget GG) fun v =>
      MultiscalarVar.value v = multiscalar bases (scalars.map (·.map Boolean.value))

instance {C : Type} [AddCommGroup C] : MultiscalarVar C (Assigned C) where
  value := Assigned.value
  precomputedBaseMultiscalarMulLe bases scalars :=
    pure (.var (multiscalar bases (scalars.map (·.map Boolean.value))))

instance {C : Type} [AddCommGroup C] : LawfulMultiscalarVar C (Assigned C) where
  multiscalar_computes _ _ := .pure rfl

section

variable {C GG B : Type} [AddCommGroup C] [MultiscalarVar C GG] [UInt8Var B] [UInt8BitsVar B]

/-- `CRHGadget::evaluate`. -/
def CRHGadget.evaluate (W : Window) (parameters : Parameters C) (input : List B) : Gadget GG := do
  liftM (assert (decide (input.length * 8 ≤ W.windowSize * W.numWindows))
    "assertion failed: (input.len() * 8) <= (W::WINDOW_SIZE * W::NUM_WINDOWS)" : Outcome Unit)
  let bits ← input.mapM UInt8BitsVar.toBitsLe
  let inputInBits := bits.flatten
  let paddingSize := W.windowSize * W.numWindows - inputInBits.length
  let inputInBits := inputInBits ++ List.replicate paddingSize (Boolean.constant false)
  liftM (assertEq inputInBits.length (W.windowSize * W.numWindows) : Outcome Unit)
  liftM (assertEq parameters.generators.length W.numWindows : Outcome Unit)
  let inputInBits ← liftM (checkedChunks W.windowSize inputInBits : Outcome (List (List Boolean)))
  MultiscalarVar.precomputedBaseMultiscalarMulLe parameters.generators inputInBits

/-- `TwoToOneCRHGadget::evaluate`. -/
def TwoToOneCRHGadget.evaluate (W : Window) (parameters : Parameters C) (leftInput rightInput : List B) :
    Gadget GG := do
  liftM (assertEq leftInput.length rightInput.length : Outcome Unit)
  CRHGadget.evaluate W parameters (leftInput ++ rightInput)

end

theorem bytesToBits_eq (bytes : List UInt8) : bytesToBits bytes = (bytes.map byteBits).flatten := by
  rw [bytesToBits, List.flatMap]
  congr 1
  refine List.map_congr_left fun byte _ => List.map_congr_left fun i hi => ?_
  exact shiftRight_and_one byte (List.mem_range.mp hi)

section

variable {C GG B : Type} [AddCommGroup C] [MultiscalarVar C GG] [LawfulMultiscalarVar C GG] [UInt8Var B]
  [UInt8BitsVar B] [LawfulUInt8BitsVar B]

/-- The bits of the bytes, one after the other. -/
theorem computes_toBitsLe (input : List B) : Computes (input.mapM UInt8BitsVar.toBitsLe) fun bits =>
    bits.flatten.map Boolean.value = bytesToBits (input.map UInt8Var.value) := by
  refine (Computes.mapM_map fun byte _ => LawfulUInt8BitsVar.toBitsLe_computes byte).mono fun bits hbits => ?_
  rw [List.map_flatten, hbits, bytesToBits_eq, List.map_map]
  rfl

theorem length_bytesToBits (bytes : List UInt8) : (bytesToBits bytes).length = 8 * bytes.length := by
  rw [bytesToBits_eq, ← List.flatMap_def, length_flatMap_byteBits]

theorem crhGadget_computes {W : Window} {parameters : Parameters C} (hp : parameters.Matches W)
    (hw : 0 < W.windowSize) {input : List B} (hl : input.length * 8 ≤ W.inputSizeBits) :
    Computes (CRHGadget.evaluate W parameters input : Gadget GG) fun v =>
      CRH.evaluate W parameters (input.map UInt8Var.value) = .ok (MultiscalarVar.value v) := by
  rw [CRH.evaluate_eq hp hw (by rwa [List.length_map])]
  refine computes_assert_bind (decide_eq_true hl) ?_
  refine (computes_toBitsLe input).bind fun bits hbits => ?_
  have hlength : bits.flatten.length = 8 * input.length := by
    rw [← List.length_map Boolean.value, hbits, length_bytesToBits, List.length_map]
  have hpadded : (bits.flatten ++ List.replicate (W.windowSize * W.numWindows - bits.flatten.length)
      (Boolean.constant false)).length = W.windowSize * W.numWindows := by
    rw [List.length_append, List.length_replicate, hlength]
    rw [Window.inputSizeBits] at hl
    omega
  refine computes_assertEq_bind hpadded (computes_assertEq_bind hp.length_eq ?_)
  refine computes_liftM_bind (if_neg hw.ne') ?_
  refine (LawfulMultiscalarVar.multiscalar_computes _ _).mono fun v hv => ?_
  rw [hv, ← chunks_map hw, List.map_append, List.map_replicate, hbits, multiscalar_chunks hw _ hp.length_of_mem]
  exact congrArg Except.ok (selectedSum_append_false _ _ _).symm

omit [AddCommGroup C] [LawfulMultiscalarVar C GG] in
theorem crhGadget_rejects (W : Window) (parameters : Parameters C) {input : List B}
    (h : W.inputSizeBits < input.length * 8 ∨ W.windowSize = 0) :
    Rejects (CRHGadget.evaluate W parameters input : Gadget GG) := by
  refine rejects_liftM_bind fun _ hassert => ?_
  have hl := of_decide_eq_true (assert_eq_ok.mp hassert)
  have hw : W.windowSize = 0 := h.resolve_left (Nat.not_lt.mpr hl)
  refine (computes_toBitsLe input).bind_rejects fun bits _ => ?_
  refine rejects_liftM_bind fun _ _ => rejects_liftM_bind fun _ _ => rejects_liftM_bind fun windows hwindows => ?_
  rw [checkedChunks, if_pos hw] at hwindows
  exact absurd hwindows raise_ne_ok

end

end Pedersen

/-! ## Bowe-Hopwood-Pedersen -/

namespace BoweHopwood

open Pedersen (Window Parameters bytesToBits computes_toBitsLe length_bytesToBits)

/-- The operations of `AffineVar` that the gadget uses, with coordinates `V`. -/
class AffineVar (C F V : outParam Type) (A : Type) where
  /-- The value assigned to a variable. -/
  value : A → C
  /-- The value assigned to a coordinate. -/
  coordinate : V → F
  /-- `.x` -/
  x : A → V
  precomputedBase3BitSignedDigitScalarMul : List (List C) → List (List (List Boolean)) → Gadget A

/-- The multiplication computes the sum of the bases with chunks of 3 bits as signed digits, and `x` has the
value of the coordinate `x`. -/
class LawfulAffineVar {C F V : Type} [AddCommGroup C] (x : C → F) (A : Type) [AffineVar C F V A] : Prop where
  coordinate_x (a : A) : AffineVar.coordinate A (AffineVar.x a) = x (AffineVar.value a)
  signedDigits_computes (bases : List (List C)) (scalars : List (List (List Boolean)))
    (h : ∀ segment ∈ scalars, ∀ chunk ∈ segment, chunk.length = CHUNK_SIZE) :
    Computes (AffineVar.precomputedBase3BitSignedDigitScalarMul bases scalars : Gadget A) fun a =>
      AffineVar.value a = signedSum bases (scalars.map (·.map (·.map Boolean.value)))

instance {C : Type} [AddCommGroup C] : AffineVar C C (Assigned C) (Assigned C) where
  value := Assigned.value
  coordinate := Assigned.value
  x := id
  precomputedBase3BitSignedDigitScalarMul bases scalars :=
    pure (.var (signedSum bases (scalars.map (·.map (·.map Boolean.value)))))

instance {C : Type} [AddCommGroup C] : LawfulAffineVar (id : C → C) (Assigned C) where
  coordinate_x _ := rfl
  signedDigits_computes _ _ _ := .pure rfl

section

variable {C F V B : Type} [UInt8Var B] [UInt8BitsVar B]

/-- `CRHGadget::evaluate`. -/
def CRHGadget.evaluate (A : Type) [AffineVar C F V A] (W : Window) (parameters : Parameters C) (input : List B) :
    Gadget V := do
  liftM (if input.length * 8 > W.windowSize * W.numWindows * CHUNK_SIZE then
      raise (.panic (.explicit ("incorrect input bitlength " ++ toString (input.length * 8) ++ " for window params " ++
        toString W.windowSize ++ "x" ++ toString W.numWindows ++ "x" ++ toString CHUNK_SIZE)))
    else .ok () : Outcome Unit)
  let bits ← input.mapM UInt8BitsVar.toBitsLe
  let inputInBits := padToChunks (Boolean.constant false) bits.flatten
  liftM (assert (inputInBits.length % CHUNK_SIZE == 0)
    "assertion failed: input_in_bits.len() % CHUNK_SIZE == 0" : Outcome Unit)
  liftM (assertEq parameters.generators.length W.numWindows : Outcome Unit)
  liftM (parameters.generators.forM fun generators => assertEq generators.length W.windowSize : Outcome Unit)
  let segments ← liftM (checkedChunks (W.windowSize * CHUNK_SIZE) inputInBits : Outcome (List (List Boolean)))
  let result : A ← AffineVar.precomputedBase3BitSignedDigitScalarMul parameters.generators
    (segments.map (chunks CHUNK_SIZE))
  pure (AffineVar.x result)

/-- `TwoToOneCRHGadget::evaluate`. -/
def TwoToOneCRHGadget.evaluate (A : Type) [AffineVar C F V A] (W : Window) (parameters : Parameters C)
    (leftInput rightInput : List B) : Gadget V := do
  let inputSizeBytes := W.inputSizeBits / 8
  liftM (assertEq leftInput.length rightInput.length : Outcome Unit)
  liftM (assert (decide (leftInput.length + rightInput.length ≤ inputSizeBytes))
    "assertion failed: left_input.len() + right_input.len() <= input_size_bytes" : Outcome Unit)
  let numTrailingZeros := inputSizeBytes - (leftInput.length + rightInput.length)
  CRHGadget.evaluate A W parameters
    (leftInput ++ rightInput ++ List.replicate numTrailingZeros (UInt8Var.constant 0))

end

section

variable {C F V A B : Type} [AffineVar C F V A] [UInt8Var B] [UInt8BitsVar B] [LawfulUInt8BitsVar B]

theorem crhGadget_computes [AddCommGroup C] (x : C → F) [LawfulAffineVar x A] {W : Window}
    {parameters : Parameters C} (hp : parameters.Matches W) (hw : 0 < W.windowSize) {input : List B}
    (hl : input.length * 8 ≤ W.inputSizeBits * CHUNK_SIZE) :
    Computes (CRHGadget.evaluate A W parameters input) fun v =>
      CRH.evaluate x W parameters (input.map UInt8Var.value) = .ok (AffineVar.coordinate A v) := by
  rw [CRH.evaluate_eq x hp hw (by rwa [List.length_map])]
  have hlt : ¬ input.length * 8 > W.windowSize * W.numWindows * CHUNK_SIZE := Nat.not_lt.mpr hl
  refine computes_liftM_bind (if_neg hlt) ?_
  refine (computes_toBitsLe input).bind fun bits hbits => ?_
  have hdvd := dvd_length_padToChunks (Boolean.constant false) bits.flatten
  refine computes_assert_bind (beq_iff_eq.mpr (Nat.mod_eq_zero_of_dvd hdvd)) ?_
  refine computes_assertEq_bind hp.length_eq ?_
  refine computes_liftM_bind hp.forM_assertEq ?_
  refine computes_liftM_bind (if_neg (Nat.mul_pos hw (by decide)).ne') ?_
  have hchunks : ∀ segment ∈ segmentChunks W (padToChunks (Boolean.constant false) bits.flatten),
      ∀ chunk ∈ segment, chunk.length = CHUNK_SIZE := fun segment hs chunk hc =>
    length_of_mem_segmentChunks hw hdvd hs hc
  refine (LawfulAffineVar.signedDigits_computes x _ _ hchunks).bind fun a ha => .pure ?_
  have hx : AffineVar.coordinate A (AffineVar.x a) = x (AffineVar.value a) := LawfulAffineVar.coordinate_x a
  rw [hx, ha, map_segmentChunks _ hw, map_padToChunks, hbits]
  rfl

theorem crhGadget_rejects {W : Window} (hw : W.windowSize = 0) (parameters : Parameters C) (input : List B) :
    Rejects (CRHGadget.evaluate A W parameters input) := by
  refine rejects_liftM_bind fun _ _ => ?_
  refine (computes_toBitsLe input).bind_rejects fun bits _ => ?_
  refine rejects_liftM_bind fun _ _ => rejects_liftM_bind fun _ _ => rejects_liftM_bind fun _ _ => ?_
  refine rejects_liftM_bind fun segments hsegments => ?_
  rw [checkedChunks, hw, Nat.zero_mul, if_pos rfl] at hsegments
  exact absurd hsegments raise_ne_ok

end

end BoweHopwood

/-! ## Two inputs -/

open Pedersen (Window Parameters MultiscalarVar LawfulMultiscalarVar padded fillBuffer)
open BoweHopwood (AffineVar LawfulAffineVar)

/-- The two-to-one hash `native` of inputs panics, or it is the hash `crh` of both inputs and as many zeros as there is
room for. It panics when the gadget returns nothing, and else they return the same. -/
structure Agrees {Out V : Type} (crh : List UInt8 → Outcome Out) (capacity : Nat) (value : V → Out)
    (left right : List UInt8) (native : Outcome Out) (gadget : Gadget V) : Prop where
  drops_nothing : (∃ p, native = .error (.panic p)) ∨ native = crh (padded capacity (left ++ right))
  rejects_iff : (∃ p, native = .error (.panic p)) ↔ Rejects gadget
  value_eq : ∀ out, native = .ok out → Computes gadget fun v => value v = out

section

variable {Out V : Type} {crh : List UInt8 → Outcome Out} {capacity : Nat} {value : V → Out} {left right : List UInt8}
  {native : Outcome Out} {gadget : Gadget V}

theorem Agrees.of_computes (hpad : native = crh (padded capacity (left ++ right)))
    (h : Computes gadget fun v => native = .ok (value v)) : Agrees crh capacity value left right native gadget := by
  obtain ⟨v, hv, -⟩ := h.exists_and h
  refine ⟨.inr hpad, iff_of_false (fun ⟨p, hp⟩ => nomatch hv.symm.trans hp) h.not_rejects, fun out hout => ?_⟩
  exact h.mono fun v hv => Except.ok.inj (hv.symm.trans hout)

theorem Agrees.of_rejects (hnative : ∃ p, native = .error (.panic p)) (h : Rejects gadget) :
    Agrees crh capacity value left right native gadget :=
  ⟨.inl hnative, iff_of_true hnative h, fun _ hout => nomatch hnative.choose_spec.symm.trans hout⟩

/-- Windows without bits, inputs that fit, and inputs that do not. -/
theorem agrees_iff_of_cases {windowSize : Nat} {fits : Prop}
    (hzero : windowSize = 0 → Agrees crh capacity value left right native gadget)
    (hfits : 0 < windowSize → fits → Agrees crh capacity value left right native gadget)
    (hlong : 0 < windowSize → ¬ fits → ¬ Agrees crh capacity value left right native gadget) :
    Agrees crh capacity value left right native gadget ↔ fits ∨ windowSize = 0 := by
  rcases Nat.eq_zero_or_pos windowSize with hw | hw
  · exact iff_of_true (hzero hw) (.inr hw)
  by_cases hf : fits
  · exact iff_of_true (hfits hw hf) (.inl hf)
  · exact iff_of_false (hlong hw hf) fun h => h.elim hf hw.ne'

theorem not_agrees {out : Out} (hnative : native = .ok out) (h : Rejects gadget) :
    ¬ Agrees crh capacity value left right native gadget := fun ha => by
  obtain ⟨p, hp⟩ := ha.rejects_iff.mpr h
  exact nomatch hnative.symm.trans hp

end

section

variable {C GG D F V A B : Type} [AddCommGroup C] [MultiscalarVar C GG] [LawfulMultiscalarVar C GG] [AddCommGroup D]
  [AffineVar D F V A] [UInt8Var B] [UInt8BitsVar B] [LawfulUInt8BitsVar B] [LawfulUInt8Constant B] {W : Window}
  {left right : List B}

omit [UInt8BitsVar B] [LawfulUInt8BitsVar B] [LawfulUInt8Constant B] in
theorem fillBuffer_map {capacity : Nat} (h : left.length + right.length ≤ capacity) :
    fillBuffer (List.replicate capacity 0) (left.map UInt8Var.value) (right.map UInt8Var.value) =
      padded capacity ((left ++ right).map UInt8Var.value) := by
  rw [List.map_append]
  exact Pedersen.fillBuffer_eq (by rwa [List.length_map, List.length_map])

omit [UInt8BitsVar B] [LawfulUInt8BitsVar B] in
/-- The gadget fills its input up with constants. -/
theorem map_append_replicate (capacity : Nat) (input : List B) :
    (input ++ List.replicate (capacity - input.length) (UInt8Var.constant 0)).map UInt8Var.value =
      padded capacity (input.map UInt8Var.value) := by
  rw [List.map_append, List.map_replicate, LawfulUInt8Constant.value_constant, padded, List.length_map]

omit [LawfulUInt8Constant B] in
theorem pedersen_agrees_iff {parameters : Parameters C} (hp : parameters.Matches W) (hl : left.length = right.length) :
    Agrees (Pedersen.CRH.evaluate W parameters) (W.inputSizeBits / 8) MultiscalarVar.value
        (left.map UInt8Var.value) (right.map UInt8Var.value)
        (Pedersen.TwoToOneCRH.evaluate W parameters (left.map UInt8Var.value) (right.map UInt8Var.value))
        (Pedersen.TwoToOneCRHGadget.evaluate W parameters left right : Gadget GG) ↔
      left.length + right.length ≤ W.inputSizeBits / 8 ∨ W.windowSize = 0 := by
  have hlength : (left ++ right).length = left.length + right.length := List.length_append
  rw [Pedersen.TwoToOneCRH.evaluate_eq_crh W parameters (by rwa [List.length_map, List.length_map])]
  refine agrees_iff_of_cases (fun hw => ?_) (fun hw hfit => ?_) fun hw hlong => ?_
  · refine .of_rejects (Pedersen.CRH.evaluate_of_windowSize_zero hp hw _) ?_
    exact rejects_liftM_bind fun _ _ => Pedersen.crhGadget_rejects W parameters (.inr hw)
  · rw [fillBuffer_map hfit]
    refine .of_computes (by rw [List.map_append]) (computes_assertEq_bind hl ?_)
    refine (Pedersen.crhGadget_computes hp hw (by omega)).mono fun v hv => ?_
    rw [← hv, Pedersen.CRH.evaluate_padded hp hw (by rw [List.length_map]; omega)]
  · refine not_agrees (Pedersen.CRH.evaluate_eq hp hw ?_) ?_
    · rw [Pedersen.length_fillBuffer, List.length_replicate]
      exact Nat.div_mul_le_self _ _
    · exact rejects_liftM_bind fun _ _ => Pedersen.crhGadget_rejects W parameters (.inl (by omega))

theorem boweHopwood_agrees_iff {parameters : Parameters D} (hp : parameters.Matches W) (x : D → F) [LawfulAffineVar x A]
    (hl : left.length = right.length) :
    Agrees (BoweHopwood.CRH.evaluate x W parameters) (W.inputSizeBits / 8) (AffineVar.coordinate A)
        (left.map UInt8Var.value) (right.map UInt8Var.value)
        (BoweHopwood.TwoToOneCRH.evaluate x W parameters (left.map UInt8Var.value) (right.map UInt8Var.value))
        (BoweHopwood.TwoToOneCRHGadget.evaluate A W parameters left right) ↔
      left.length + right.length ≤ W.inputSizeBits / 8 ∨ W.windowSize = 0 := by
  have hlength : (left ++ right).length = left.length + right.length := List.length_append
  rw [BoweHopwood.TwoToOneCRH.evaluate_eq_crh x W parameters (by rwa [List.length_map, List.length_map])]
  refine agrees_iff_of_cases (fun hw => ?_) (fun hw hfit => ?_) fun hw hlong => ?_
  · refine .of_rejects (BoweHopwood.CRH.evaluate_of_windowSize_zero x hp hw _) ?_
    exact rejects_liftM_bind fun _ _ => rejects_liftM_bind fun _ _ => BoweHopwood.crhGadget_rejects hw parameters _
  · rw [fillBuffer_map hfit]
    refine .of_computes (by rw [List.map_append]) (computes_assertEq_bind hl ?_)
    refine computes_assert_bind (decide_eq_true hfit) ?_
    rw [← hlength, ← map_append_replicate]
    refine BoweHopwood.crhGadget_computes x hp hw ?_
    rw [List.length_append, List.length_replicate, BoweHopwood.CHUNK_SIZE]
    omega
  · refine not_agrees (BoweHopwood.CRH.evaluate_eq x hp hw ?_) ?_
    · rw [Pedersen.length_fillBuffer, List.length_replicate, BoweHopwood.CHUNK_SIZE]
      omega
    · refine rejects_liftM_bind fun _ _ => rejects_liftM_bind fun _ hassert => ?_
      exact absurd (of_decide_eq_true (assert_eq_ok.mp hassert)) hlong

/-- For every window, all parameters that match it and all inputs of one length: the hashes agree with their gadgets and
drop nothing exactly when both inputs fit into the buffer, or there are no bits in a window. -/
theorem twoToOne_agrees_iff {parameters : Parameters C} (hp : parameters.Matches W) {parameters' : Parameters D}
    (hp' : parameters'.Matches W) (x : D → F) [LawfulAffineVar x A] (hl : left.length = right.length) :
    (Agrees (Pedersen.CRH.evaluate W parameters) (W.inputSizeBits / 8) MultiscalarVar.value
        (left.map UInt8Var.value) (right.map UInt8Var.value)
        (Pedersen.TwoToOneCRH.evaluate W parameters (left.map UInt8Var.value) (right.map UInt8Var.value))
        (Pedersen.TwoToOneCRHGadget.evaluate W parameters left right : Gadget GG) ↔
      left.length + right.length ≤ W.inputSizeBits / 8 ∨ W.windowSize = 0) ∧
    (Agrees (BoweHopwood.CRH.evaluate x W parameters') (W.inputSizeBits / 8) (AffineVar.coordinate A)
        (left.map UInt8Var.value) (right.map UInt8Var.value)
        (BoweHopwood.TwoToOneCRH.evaluate x W parameters' (left.map UInt8Var.value) (right.map UInt8Var.value))
        (BoweHopwood.TwoToOneCRHGadget.evaluate A W parameters' left right) ↔
      left.length + right.length ≤ W.inputSizeBits / 8 ∨ W.windowSize = 0) :=
  ⟨pedersen_agrees_iff hp hl, boweHopwood_agrees_iff hp' x hl⟩

end

/-- One window of 16 bits. -/
theorem matches_sixteen : (Parameters.mk [List.replicate 16 (1 : ZMod 7)]).Matches ⟨16, 1⟩ :=
  ⟨rfl, by decide⟩

theorem twoToOne_agrees_iff_sixteen :
    (Agrees (Pedersen.CRH.evaluate ⟨16, 1⟩ ⟨[List.replicate 16 (1 : ZMod 7)]⟩) 2
        (MultiscalarVar.value : Assigned (ZMod 7) → ZMod 7) [1] [2]
        (Pedersen.TwoToOneCRH.evaluate ⟨16, 1⟩ ⟨[List.replicate 16 (1 : ZMod 7)]⟩ [1] [2])
        (Pedersen.TwoToOneCRHGadget.evaluate ⟨16, 1⟩ ⟨[List.replicate 16 (1 : ZMod 7)]⟩
          [Assigned.var (1 : UInt8)] [.var 2]) ↔
      1 + 1 ≤ 2 ∨ 16 = 0) ∧
    (Agrees (BoweHopwood.CRH.evaluate id ⟨16, 1⟩ ⟨[List.replicate 16 (1 : ZMod 7)]⟩) 2
        (AffineVar.coordinate (Assigned (ZMod 7))) [1] [2]
        (BoweHopwood.TwoToOneCRH.evaluate id ⟨16, 1⟩ ⟨[List.replicate 16 (1 : ZMod 7)]⟩ [1] [2])
        (BoweHopwood.TwoToOneCRHGadget.evaluate (Assigned (ZMod 7)) ⟨16, 1⟩ ⟨[List.replicate 16 (1 : ZMod 7)]⟩
          [Assigned.var (1 : UInt8)] [.var 2]) ↔
      1 + 1 ≤ 2 ∨ 16 = 0) := by
  have hl : [Assigned.var (1 : UInt8)].length = [Assigned.var (2 : UInt8)].length := rfl
  exact twoToOne_agrees_iff matches_sixteen matches_sixteen id hl

/-- The second byte does not fit into a buffer of one: inputs of the same digest, which the gadget rejects. -/
theorem twoToOne_drops_bytes :
    Pedersen.TwoToOneCRH.evaluate ⟨8, 1⟩ ⟨[List.replicate 8 (1 : ZMod 7)]⟩ [1] [2] =
      Pedersen.TwoToOneCRH.evaluate ⟨8, 1⟩ ⟨[List.replicate 8 (1 : ZMod 7)]⟩ [1] [3] ∧
    ¬ Agrees (Pedersen.CRH.evaluate ⟨8, 1⟩ ⟨[List.replicate 8 (1 : ZMod 7)]⟩) 1
      (MultiscalarVar.value : Assigned (ZMod 7) → ZMod 7) [1] [2]
      (Pedersen.TwoToOneCRH.evaluate ⟨8, 1⟩ ⟨[List.replicate 8 (1 : ZMod 7)]⟩ [1] [2])
      (Pedersen.TwoToOneCRHGadget.evaluate ⟨8, 1⟩ ⟨[List.replicate 8 (1 : ZMod 7)]⟩
        [Assigned.var (1 : UInt8)] [.var 2]) := by
  have hdigest (right : UInt8) : Pedersen.TwoToOneCRH.evaluate ⟨8, 1⟩ ⟨[List.replicate 8 (1 : ZMod 7)]⟩ [1] [right] =
      Pedersen.CRH.evaluate ⟨8, 1⟩ ⟨[List.replicate 8 (1 : ZMod 7)]⟩ [1] := rfl
  have hone : Pedersen.CRH.evaluate ⟨8, 1⟩ ⟨[List.replicate 8 (1 : ZMod 7)]⟩ [1] = .ok 1 := by decide
  refine ⟨(hdigest 2).trans (hdigest 3).symm, not_agrees ((hdigest 2).trans hone) ?_⟩
  exact rejects_liftM_bind fun _ _ => Pedersen.crhGadget_rejects _ _ (.inl (by decide))

end CryptoPrimitives
