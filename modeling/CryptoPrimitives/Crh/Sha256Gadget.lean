import CryptoPrimitives.Crh.Sha256
import CryptoPrimitives.Gadget.Uint

/-!
# The SHA-256 gadget

`crh/sha256/constraints.rs`, over variables `B` and `W` with the operations of
`UInt8<F>` and `UInt32<F>`.

* `updateState_computes`: `update_state` is the compression function of the standard.
* `Consumed`: what the fields hold after the bytes taken in so far.
* `update_computes`, `foldlM_update_computes`: any run of `update` keeps it.
* `computes_sha256`: `update` over any pieces and then `finalize` is SHA-256 of the
  bytes, and so is `evaluate` of the two-to-one gadget.
-/

namespace CryptoPrimitives.Sha256

open BlockStream (absorb)
open Synthesis (Computes)

/-- `K`. -/
def K : List UInt32 := [
  0x428a2f98, 0x71374491, 0xb5c0fbcf, 0xe9b5dba5, 0x3956c25b, 0x59f111f1, 0x923f82a4, 0xab1c5ed5,
  0xd807aa98, 0x12835b01, 0x243185be, 0x550c7dc3, 0x72be5d74, 0x80deb1fe, 0x9bdc06a7, 0xc19bf174,
  0xe49b69c1, 0xefbe4786, 0x0fc19dc6, 0x240ca1cc, 0x2de92c6f, 0x4a7484aa, 0x5cb0a9dc, 0x76f988da,
  0x983e5152, 0xa831c66d, 0xb00327c8, 0xbf597fc7, 0xc6e00bf3, 0xd5a79147, 0x06ca6351, 0x14292967,
  0x27b70a85, 0x2e1b2138, 0x4d2c6dfc, 0x53380d13, 0x650a7354, 0x766a0abb, 0x81c2c92e, 0x92722c85,
  0xa2bfe8a1, 0xa81a664b, 0xc24b8b70, 0xc76c51a3, 0xd192e819, 0xd6990624, 0xf40e3585, 0x106aa070,
  0x19a4c116, 0x1e376c08, 0x2748774c, 0x34b0bcb5, 0x391c0cb3, 0x4ed8aa4a, 0x5b9cca4f, 0x682e6ff3,
  0x748f82ee, 0x78a5636f, 0x84c87814, 0x8cc70208, 0x90befffa, 0xa4506ceb, 0xbef9a3f7, 0xc67178f2]

/-- `H`. -/
def H : List UInt32 :=
  [0x6a09e667, 0xbb67ae85, 0x3c6ef372, 0xa54ff53a, 0x510e527f, 0x9b05688c, 0x1f83d9ab, 0x5be0cd19]

/-- The table of the code is that of the standard. -/
theorem K_eq : K = roundConstants := by decide +kernel

theorem H_eq : H = HashValue.initial.toList := by decide +kernel

/-- `Sha256Gadget`. -/
structure Sha256Gadget (B W : Type) where
  state : List W
  completedDataBlocks : Nat
  pending : List B
  numPending : Nat

section

variable {B W : Type} [UInt8Var B] [UInt32Var B W]

/-- `Sha256Gadget::default`. -/
def Sha256Gadget.default : Sha256Gadget B W where
  state := H.map UInt32Var.constant
  completedDataBlocks := 0
  pending := List.replicate 64 (UInt8Var.constant 0)
  numPending := 0

/-- `x1 ^ &x2 ^ &x3`. -/
def xor₃ (x1 x2 x3 : W) : Gadget W := do
  let x ← UInt32Var.xor x1 x2
  UInt32Var.xor x x3

/-- The step of the loop that extends `w`. -/
def scheduleStep (w : List W) (i : Nat) : Gadget (List W) := do
  let w15 ← liftM (index w (i - 15) : Outcome W)
  let s0 ← xor₃ (UInt32Var.rotateRight w15 7) (UInt32Var.rotateRight w15 18) (UInt32Var.shr w15 3)
  let w2 ← liftM (index w (i - 2) : Outcome W)
  let s1 ← xor₃ (UInt32Var.rotateRight w2 17) (UInt32Var.rotateRight w2 19) (UInt32Var.shr w2 10)
  let w16 ← liftM (index w (i - 16) : Outcome W)
  let w7 ← liftM (index w (i - 7) : Outcome W)
  let wi ← UInt32Var.wrappingAddMany [w16, s0, w7, s1]
  pure (w.set i wi)

/-- The step of the loop over the rounds, on `h`. -/
def roundStep (w h : List W) (i : Nat) : Gadget (List W) := do
  let h0 ← liftM (index h 0 : Outcome W)
  let h1 ← liftM (index h 1 : Outcome W)
  let h2 ← liftM (index h 2 : Outcome W)
  let h3 ← liftM (index h 3 : Outcome W)
  let h4 ← liftM (index h 4 : Outcome W)
  let h5 ← liftM (index h 5 : Outcome W)
  let h6 ← liftM (index h 6 : Outcome W)
  let h7 ← liftM (index h 7 : Outcome W)
  let x1 ← UInt32Var.and h4 h5
  let x2 ← UInt32Var.and (UInt32Var.not h4) h6
  let ch ← UInt32Var.xor x1 x2
  let x1 ← UInt32Var.and h0 h1
  let x2 ← UInt32Var.and h0 h2
  let x3 ← UInt32Var.and h1 h2
  let ma ← xor₃ x1 x2 x3
  let s0 ← xor₃ (UInt32Var.rotateRight h0 2) (UInt32Var.rotateRight h0 13) (UInt32Var.rotateRight h0 22)
  let s1 ← xor₃ (UInt32Var.rotateRight h4 6) (UInt32Var.rotateRight h4 11) (UInt32Var.rotateRight h4 25)
  let k ← liftM (index K i : Outcome UInt32)
  let wi ← liftM (index w i : Outcome W)
  let t0 ← UInt32Var.wrappingAddMany [h7, s1, ch, UInt32Var.constant k, wi]
  let t1 ← UInt32Var.wrappingAdd s0 ma
  let h3 ← UInt32Var.wrappingAdd h3 t0
  let t ← UInt32Var.wrappingAdd t0 t1
  pure ([t, h0, h1, h2, h3, h4, h5, h6] ++ h.drop 8)

/-- `update_state`. -/
def updateState (state : List W) (data : List B) : Gadget (List W) := do
  liftM (assertEq data.length 64 : Outcome Unit)
  let words ← ((chunks 4 data).take 64).mapM UInt32Var.fromBytesBe
  let w := words ++ (List.replicate 64 (UInt32Var.constant 0)).drop words.length
  let w ← (List.range' 16 48).foldlM scheduleStep w
  let h ← (List.range 64).foldlM (roundStep w) state
  let sums ← (state.zip h).mapM fun entry => UInt32Var.wrappingAdd entry.1 entry.2
  pure (sums ++ state.drop sums.length)

namespace Sha256Gadget

/-- The step of the loop of `update` over the chunks. -/
def updateChunk (self : Sha256Gadget B W) (chunk : List B) : Gadget (Sha256Gadget B W) :=
  if chunk.length = 64 then do
    let state ← updateState self.state chunk
    let completedDataBlocks ← liftM (usizeAdd self.completedDataBlocks 1 : Outcome Nat)
    pure { self with state, completedDataBlocks }
  else do
    let stop ← liftM (usizeAdd self.numPending chunk.length : Outcome Nat)
    let pending ← liftM (cloneFromSlice self.pending self.numPending stop chunk : Outcome (List B))
    pure { self with pending, numPending := stop }

/-- `Sha256Gadget::update`. -/
def update (self : Sha256Gadget B W) (data : List B) : Gadget (Sha256Gadget B W) :=
  if self.numPending > 0 ∧ self.numPending + data.length ≥ 64 then do
    let offset ← liftM (usizeSub 64 self.numPending : Outcome Nat)
    let head ← liftM (slice data 0 offset : Outcome (List B))
    let pending ← liftM (cloneFromSlice self.pending self.numPending self.pending.length head : Outcome (List B))
    let state ← updateState self.state pending
    let completedDataBlocks ← liftM (usizeAdd self.completedDataBlocks 1 : Outcome Nat)
    let data ← liftM (slice data offset data.length : Outcome (List B))
    (chunks 64 data).foldlM updateChunk { state, completedDataBlocks, pending, numPending := 0 }
  else (chunks 64 data).foldlM updateChunk self

/-- `Sha256Gadget::finalize`. -/
def finalize (self : Sha256Gadget B W) : Gadget (List B) := do
  let blockBits ← liftM (usizeMul self.completedDataBlocks 512 : Outcome Nat)
  let pendingBits ← liftM (usizeMul self.numPending 8 : Outcome Nat)
  let dataBitlen ← liftM (usizeAdd blockBits pendingBits : Outcome Nat)
  let encodedBitlen := (toBeBytes 8 dataBitlen).map UInt8Var.constant
  let pending := (List.replicate 72 (UInt8Var.constant 0)).set 0 (UInt8Var.constant 0x80)
  let offset ← liftM (if self.numPending < 56 then usizeSub 56 self.numPending else usizeSub 120 self.numPending :
    Outcome Nat)
  let pending ← liftM (cloneFromSlice pending offset (offset + 8) encodedBitlen : Outcome (List B))
  let padding ← liftM (slice pending 0 (offset + 8) : Outcome (List B))
  let self ← update self padding
  let bytes ← self.state.mapM UInt32Var.toBytesBe
  pure bytes.flatten

variable (W) in
/-- `Sha256Gadget::digest`, and `CRHSchemeGadget::evaluate`. -/
def digest (data : List B) : Gadget (List B) := do
  let sha256Var ← (default : Sha256Gadget B W).update data
  sha256Var.finalize

variable (W) in
/-- `TwoToOneCRHSchemeGadget::evaluate`, and `compress`. -/
def twoToOneEvaluate (leftInput rightInput : List B) : Gadget (List B) := do
  let h ← (default : Sha256Gadget B W).update leftInput
  let h ← h.update rightInput
  h.finalize

end Sha256Gadget

end

/-! ## The compression function -/

/-- `rotate_right` of the code is `ROTR`. -/
theorem rotateRight_eq (x : UInt32) {n : Nat} (h0 : 0 < n) (h : n < 32) :
    rotateRight x n = rotr (UInt32.ofNat n) x := by
  have hn : ((UInt32.ofNat n).toBitVec % 32).toNat = n := by
    simp
    omega
  have hm : ((32 - UInt32.ofNat n).toBitVec % 32).toNat = 32 - n := by
    simp
    omega
  rw [← UInt32.toBitVec_inj, rotateRight, rotr, UInt32.toBitVec_or, UInt32.toBitVec_shiftRight,
    UInt32.toBitVec_shiftLeft, BitVec.ushiftRight_eq', BitVec.shiftLeft_eq', hn, hm, BitVec.rotateRight_def,
    Nat.mod_eq_of_lt h]

section

variable {B W : Type} [UInt8Var B] [UInt32Var B W] [LawfulUIntVar B W]

theorem xor₃_computes (x1 x2 x3 : W) : Computes (xor₃ x1 x2 x3) fun r =>
    UInt32Var.value r = UInt32Var.value x1 ^^^ UInt32Var.value x2 ^^^ UInt32Var.value x3 := by
  refine (LawfulUIntVar.xor_computes x1 x2).bind fun x hx => ?_
  rw [← hx]
  exact LawfulUIntVar.xor_computes x x3

theorem value_rotateRight (x : W) {n : Nat} (h0 : 0 < n) (h : n < 32) :
    UInt32Var.value (UInt32Var.rotateRight x n) = rotr (UInt32.ofNat n) (UInt32Var.value x) := by
  rw [LawfulUIntVar.value_rotateRight x n h, rotateRight_eq _ h0 h]

/-- Three rotations: the functions `Σ` of the standard. -/
theorem bigSigma_computes (x : W) {l m n : Nat} (hl : 0 < l ∧ l < 32) (hm : 0 < m ∧ m < 32) (hn : 0 < n ∧ n < 32) :
    Computes (xor₃ (UInt32Var.rotateRight x l) (UInt32Var.rotateRight x m) (UInt32Var.rotateRight x n)) fun r =>
      UInt32Var.value r = rotr (UInt32.ofNat l) (UInt32Var.value x) ^^^ rotr (UInt32.ofNat m) (UInt32Var.value x) ^^^
        rotr (UInt32.ofNat n) (UInt32Var.value x) := by
  rw [← value_rotateRight x hl.1 hl.2, ← value_rotateRight x hm.1 hm.2, ← value_rotateRight x hn.1 hn.2]
  exact xor₃_computes _ _ _

/-- Two rotations and a shift: the functions `σ`. -/
theorem smallSigma_computes (x : W) {l m n : Nat} (hl : 0 < l ∧ l < 32) (hm : 0 < m ∧ m < 32) (hn : n < 32) :
    Computes (xor₃ (UInt32Var.rotateRight x l) (UInt32Var.rotateRight x m) (UInt32Var.shr x n)) fun r =>
      UInt32Var.value r = rotr (UInt32.ofNat l) (UInt32Var.value x) ^^^ rotr (UInt32.ofNat m) (UInt32Var.value x) ^^^
        shr (UInt32.ofNat n) (UInt32Var.value x) := by
  rw [← value_rotateRight x hl.1 hl.2, ← value_rotateRight x hm.1 hm.2, shr, ← LawfulUIntVar.value_shr x n hn]
  exact xor₃_computes _ _ _

theorem length_schedule (words : List UInt32) (n : Nat) : (schedule words n).length = words.length + n := by
  induction n with
  | zero => rfl
  | succ n ih => rw [schedule, List.length_append, ih, List.length_singleton, Nat.add_assoc]

omit [UInt8Var B] [LawfulUIntVar B W] in
/-- An entry of a list of variables, below those known. -/
theorem exists_index {w : List W} {values : List UInt32} {n k : Nat} (hw : (w.map UInt32Var.value).take n = values)
    (hk : k < n) (hl : k < w.length) :
    ∃ x, (index w k : Outcome W) = .ok x ∧ UInt32Var.value x = values.getD k 0 := by
  refine ⟨w[k], index_of_lt hl, ?_⟩
  rw [← hw, List.getD_eq_getElem?_getD, List.getElem?_take_of_lt hk, List.getElem?_map, List.getElem?_eq_getElem hl]
  rfl

/-- The loop over `w` extends it as the standard does. -/
theorem scheduleStep_computes {words : List UInt32} (hwords : words.length = 16) {n : Nat} (hn : n < 48) {w : List W}
    (hl : w.length = 64) (hw : (w.map UInt32Var.value).take (16 + n) = schedule words n) :
    Computes (scheduleStep w (16 + n)) fun w' =>
      w'.length = 64 ∧ (w'.map UInt32Var.value).take (16 + (n + 1)) = schedule words (n + 1) := by
  obtain ⟨w15, h15, hv15⟩ := exists_index (k := 16 + n - 15) hw (by omega) (by omega)
  obtain ⟨w2, h2, hv2⟩ := exists_index (k := 16 + n - 2) hw (by omega) (by omega)
  obtain ⟨w16, h16, hv16⟩ := exists_index (k := 16 + n - 16) hw (by omega) (by omega)
  obtain ⟨w7, h7, hv7⟩ := exists_index (k := 16 + n - 7) hw (by omega) (by omega)
  rw [scheduleStep]
  refine computes_liftM_bind h15 ?_
  refine (smallSigma_computes w15 (l := 7) (m := 18) (n := 3) (by omega) (by omega) (by omega)).bind fun s0 hs0 => ?_
  refine computes_liftM_bind h2 ?_
  refine (smallSigma_computes w2 (l := 17) (m := 19) (n := 10) (by omega) (by omega) (by omega)).bind fun s1 hs1 => ?_
  refine computes_liftM_bind h16 ?_
  refine computes_liftM_bind h7 ?_
  refine (LawfulUIntVar.wrappingAddMany_computes _ (List.cons_ne_nil _ _)).bind fun wi hwi => .pure ⟨?_, ?_⟩
  · rw [List.length_set, hl]
  · have hlen : (schedule words n).length = 16 + n := by rw [length_schedule, hwords]
    have hlt : 16 + n < (w.set (16 + n) wi).length := by
      rw [List.length_set]
      omega
    rw [← Nat.add_assoc, List.take_add_one, List.getElem?_map, List.getElem?_eq_getElem hlt, List.map_set,
      List.take_set_of_le (le_refl _), hw, schedule, List.getElem_set_self]
    refine congrArg (fun x => schedule words n ++ [x]) (hwi.trans ?_)
    rw [show 16 + n - 15 = n + 1 by omega] at hv15
    rw [show 16 + n - 2 = n + 14 by omega] at hv2
    rw [show 16 + n - 16 = n by omega] at hv16
    rw [show 16 + n - 7 = n + 9 by omega] at hv7
    simp only [List.map_cons, List.map_nil, List.sum_cons, List.sum_nil, hs0, hs1, hv15, hv2, hv16, hv7,
      UInt32.add_zero]
    simp only [smallSigma0, smallSigma1]
    ac_rfl

/-- A round of the gadget is one of the standard. -/
theorem roundStep_computes {w : List W} {words : List UInt32} (hw : w.map UInt32Var.value = words) {h : List W}
    {v : HashValue} (hh : h.map UInt32Var.value = v.toList) {i : Nat} (hi : i < 64) (hl : w.length = 64) :
    Computes (roundStep w h i) fun h' =>
      h'.map UInt32Var.value = (v.round (roundConstants.getD i 0) (words.getD i 0)).toList := by
  simp only [HashValue.toList, List.map_eq_cons_iff, List.map_eq_nil_iff] at hh
  obtain ⟨h0, _, rfl, ha, h1, _, rfl, hb, h2, _, rfl, hc, h3, _, rfl, hd, h4, _, rfl, he, h5, _, rfl, hf,
    h6, _, rfl, hg, h7, _, rfl, hh, rfl⟩ := hh
  obtain ⟨wi, hindex, hwi⟩ := exists_index (k := i) (n := 64) (List.take_of_length_le (by rw [List.length_map, hl]))
    hi (hl ▸ hi)
  rw [hw] at hwi
  have hK : (index K i : Outcome UInt32) = .ok (roundConstants.getD i 0) := by
    rw [K_eq, index_getD]
    rw [← K_eq]
    exact hi
  rw [roundStep]
  -- the working variables
  iterate 8
    refine computes_liftM_bind rfl ?_
  refine (LawfulUIntVar.and_computes h4 h5).bind fun x1 hx1 => ?_
  refine (LawfulUIntVar.and_computes (UInt32Var.not h4) h6).bind fun x2 hx2 => ?_
  refine (LawfulUIntVar.xor_computes x1 x2).bind fun cv hcv => ?_
  refine (LawfulUIntVar.and_computes h0 h1).bind fun y1 hy1 => ?_
  refine (LawfulUIntVar.and_computes h0 h2).bind fun y2 hy2 => ?_
  refine (LawfulUIntVar.and_computes h1 h2).bind fun y3 hy3 => ?_
  refine (xor₃_computes y1 y2 y3).bind fun ma hma => ?_
  refine (bigSigma_computes h0 (l := 2) (m := 13) (n := 22) (by omega) (by omega) (by omega)).bind fun s0 hs0 => ?_
  refine (bigSigma_computes h4 (l := 6) (m := 11) (n := 25) (by omega) (by omega) (by omega)).bind fun s1 hs1 => ?_
  refine computes_liftM_bind hK ?_
  refine computes_liftM_bind hindex ?_
  refine (LawfulUIntVar.wrappingAddMany_computes _ (List.cons_ne_nil _ _)).bind fun t0 ht0 => ?_
  refine (LawfulUIntVar.wrappingAdd_computes s0 ma).bind fun t1 ht1 => ?_
  refine (LawfulUIntVar.wrappingAdd_computes h3 t0).bind fun e he' => ?_
  refine (LawfulUIntVar.wrappingAdd_computes t0 t1).bind fun a ha' => .pure ?_
  have hch : UInt32Var.value cv = ch v.e v.f v.g := by
    rw [hcv, hx1, hx2, LawfulUIntVar.value_not, he, hf, hg, ch]
  have hmaj : UInt32Var.value ma = maj v.a v.b v.c := by
    rw [hma, hy1, hy2, hy3, ha, hb, hc, maj]
  have ht1' : UInt32Var.value t0 = v.h + bigSigma1 v.e + ch v.e v.f v.g + roundConstants.getD i 0 + words.getD i 0 := by
    rw [ht0]
    simp only [List.map_cons, List.map_nil, List.sum_cons, List.sum_nil, hh, hs1, he, hch, hwi,
      LawfulUIntVar.value_constant, UInt32.add_zero]
    simp only [bigSigma1]
    ac_rfl
  have ht2 : UInt32Var.value t1 = bigSigma0 v.a + maj v.a v.b v.c := by
    rw [ht1, hs0, ha, hmaj]
    rfl
  show [UInt32Var.value a, _, _, _, UInt32Var.value e, _, _, _] = (v.round _ _).toList
  rw [ha', he', ht1', ht2, ha, hb, hc, hd, he, hf, hg]
  rfl

theorem foldlM_scheduleStep_computes {words : List UInt32} (hwords : words.length = 16) {w : List W}
    (hl : w.length = 64) (hw : (w.map UInt32Var.value).take 16 = words) :
    Computes ((List.range' 16 48).foldlM scheduleStep w) fun w' =>
      w'.length = 64 ∧ w'.map UInt32Var.value = schedule words 48 := by
  have hloop : Computes ((List.range' 16 48).foldlM scheduleStep w) fun w' =>
      w'.length = 64 ∧ (w'.map UInt32Var.value).take (16 + (List.range' 16 48).length) =
        schedule words (List.range' 16 48).length := by
    refine Computes.foldlM (I := fun n (w : List W) => w.length = 64 ∧
      (w.map UInt32Var.value).take (16 + n) = schedule words n) (fun n i hi w hw => ?_) ⟨hl, hw⟩
    obtain ⟨hn, hi⟩ := List.getElem?_eq_some_iff.mp hi
    rw [List.getElem_range', Nat.one_mul] at hi
    subst hi
    exact scheduleStep_computes hwords (by rwa [List.length_range'] at hn) hw.1 hw.2
  refine hloop.mono fun w' hw' => ⟨hw'.1, ?_⟩
  have h := hw'.2
  rwa [List.length_range', List.take_of_length_le (by rw [List.length_map, hw'.1])] at h

theorem foldlM_roundStep_computes {w : List W} {words : List UInt32} (hw : w.map UInt32Var.value = words)
    (hl : w.length = 64) {state : List W} {v : HashValue} (hv : state.map UInt32Var.value = v.toList) :
    Computes ((List.range 64).foldlM (roundStep w) state) fun h => h.map UInt32Var.value =
      ((List.range 64).foldl (fun v t => v.round (roundConstants.getD t 0) (words.getD t 0)) v).toList := by
  refine Computes.foldlM_foldl (R := fun (h : List W) (v : HashValue) => h.map UInt32Var.value = v.toList)
    (fun i hi h v hh => ?_) hv
  have hi : i < 64 := List.mem_range.mp hi
  exact roundStep_computes hw hh hi hl

/-- The gadget of the compression function computes it. -/
theorem updateState_computes {state : List W} {v : HashValue} (hv : state.map UInt32Var.value = v.toList)
    {data : List B} (hdata : data.length = 64) :
    Computes (updateState state data) fun state' =>
      state'.map UInt32Var.value = (compress v (data.map UInt8Var.value)).toList := by
  obtain ⟨hcount, hchunks⟩ := chunks_of_length (show 0 < 4 by omega) (n := 16) hdata
  have hblock : (blockWords (data.map UInt8Var.value)).length = 16 := by
    rw [blockWords, List.length_map, chunks_map (by omega), List.length_map, hcount]
  rw [updateState, List.take_of_length_le (by omega)]
  refine computes_liftM_bind ((assertEq_eq_ok (u := ())).mpr hdata) ?_
  refine (Computes.mapM_map fun chunk h =>
    LawfulUIntVar.fromBytesBe_computes (W := W) chunk (hchunks chunk h)).bind fun words hwords => ?_
  have hwords : words.map UInt32Var.value = blockWords (data.map UInt8Var.value) := by
    rw [hwords, blockWords, chunks_map (by omega), List.map_map]
    rfl
  have hlen : words.length = 16 := by rw [← hblock, ← hwords, List.length_map]
  refine (foldlM_scheduleStep_computes hblock
    (by rw [List.length_append, List.length_drop, List.length_replicate, hlen])
    (by rw [List.map_append, hwords, List.take_left' hblock])).bind fun w hw => ?_
  refine (foldlM_roundStep_computes hw.2 hw.1 hv).bind fun h hh => ?_
  refine (Computes.mapM_map fun entry _ => LawfulUIntVar.wrappingAdd_computes entry.1 entry.2).bind
    fun sums hsums => .pure ?_
  have hlenState : state.length = 8 := by
    rw [← List.length_map UInt32Var.value, hv]
    rfl
  have hlenSums : sums.length = 8 := by
    rw [← List.length_map UInt32Var.value, hsums, List.length_map, List.length_zip, hlenState,
      ← List.length_map UInt32Var.value, hh]
    rfl
  rw [List.drop_of_length_le (by omega), List.append_nil, hsums,
    show (fun entry : W × W => UInt32Var.value entry.1 + UInt32Var.value entry.2) =
      (fun entry => entry.1 + entry.2) ∘ Prod.map UInt32Var.value UInt32Var.value from rfl, ← List.map_map,
    ← List.zip_map, hv, hh]
  rfl

/-! ## Streaming -/

namespace Sha256Gadget

/-- The gadget has consumed a message: its full blocks are in the state, and the bytes
after them are pending. -/
structure Consumed (gadget : Sha256Gadget B W) (message : List B) : Prop where
  state_eq : gadget.state.map UInt32Var.value =
    (absorb 64 compress .initial (message.map UInt8Var.value)).1.toList
  completedDataBlocks_eq : gadget.completedDataBlocks = message.length / 64
  numPending_eq : gadget.numPending = message.length % 64
  length_pending : gadget.pending.length = 64
  take_pending : gadget.pending.take gadget.numPending = message.drop (64 * (message.length / 64))

theorem default_consumed : (default : Sha256Gadget B W).Consumed [] where
  state_eq := by
    have hconstant : (H.map (UInt32Var.constant : UInt32 → W)).map UInt32Var.value = H :=
      Function.LeftInverse.list_map LawfulUIntVar.value_constant H
    rw [default, hconstant, H_eq]
    rfl
  completedDataBlocks_eq := (Nat.zero_div 64).symm
  numPending_eq := (Nat.zero_mod 64).symm
  length_pending := List.length_replicate
  take_pending := List.drop_nil.symm

variable {self : Sha256Gadget B W} {message : List B}

omit [LawfulUIntVar B W] in
/-- What follows a message goes on after its pending bytes. -/
theorem Consumed.absorb_append (h : self.Consumed message) (data : List B) :
    absorb 64 compress .initial ((message ++ data).map UInt8Var.value) =
      absorb 64 compress (absorb 64 compress .initial (message.map UInt8Var.value)).1
        ((self.pending.take self.numPending ++ data).map UInt8Var.value) := by
  rw [List.map_append, BlockStream.absorb_append (by omega), BlockStream.absorb_snd (by omega), List.length_map,
    ← List.map_drop, ← h.take_pending, List.map_append]

omit [LawfulUIntVar B W] in
/-- Pending bytes that are filled up to a block. -/
theorem Consumed.of_block (h : self.Consumed message) {data : List B} (hdata : self.numPending + data.length = 64)
    {state : List W} (hstate : state.map UInt32Var.value =
      (compress (absorb 64 compress .initial (message.map UInt8Var.value)).1
        ((self.pending.take self.numPending ++ data).map UInt8Var.value)).toList)
    {pending : List B} (hpending : pending.length = 64) :
    Consumed ⟨state, self.completedDataBlocks + 1, pending, 0⟩ (message ++ data) := by
  have hnum := h.numPending_eq
  have hblocks := h.completedDataBlocks_eq
  have hlen : ((self.pending.take self.numPending ++ data).map UInt8Var.value).length = 64 := by
    rw [List.length_map, List.length_append, List.length_take_of_le (by rw [h.length_pending]; omega), hdata]
  refine ⟨?_, ?_, ?_, hpending, ?_⟩
  · rw [h.absorb_append, BlockStream.absorb_of_le (by omega) hlen.ge, List.take_of_length_le hlen.le,
      List.drop_of_length_le hlen.le]
    exact hstate
  · rw [List.length_append]
    show self.completedDataBlocks + 1 = _
    omega
  · rw [List.length_append]
    show 0 = _
    omega
  · rw [List.drop_of_length_le (by rw [List.length_append]; omega)]
    rfl

omit [LawfulUIntVar B W] in
/-- Pending bytes that do not fill a block. -/
theorem Consumed.of_lt (h : self.Consumed message) {data : List B} (hdata : self.numPending + data.length < 64)
    {pending : List B} (hpending : pending.length = 64)
    (htake : pending.take (self.numPending + data.length) = self.pending.take self.numPending ++ data) :
    Consumed { self with pending, numPending := self.numPending + data.length } (message ++ data) := by
  have hnum := h.numPending_eq
  have hblocks := h.completedDataBlocks_eq
  have hlen : ((self.pending.take self.numPending ++ data).map UInt8Var.value).length < 64 := by
    rw [List.length_map, List.length_append, List.length_take_of_le (by rw [h.length_pending]; omega)]
    exact hdata
  have hdiv : (message ++ data).length / 64 = message.length / 64 := by
    rw [List.length_append]
    omega
  refine ⟨?_, ?_, ?_, hpending, ?_⟩
  · rw [h.absorb_append, BlockStream.absorb_of_lt hlen]
    exact h.state_eq
  · rw [hdiv]
    exact hblocks
  · rw [List.length_append]
    show self.numPending + data.length = _
    omega
  · rw [hdiv, List.drop_append_of_le_length (by omega), ← h.take_pending]
    exact htake

theorem foldlM_updateChunk_computes (h : self.Consumed message) {data : List B}
    (hdata : self.numPending = 0 ∨ self.numPending + data.length < 64)
    (hlen : (message ++ data).length < 2 ^ 64) :
    Computes ((chunks 64 data).foldlM updateChunk self) fun self' => self'.Consumed (message ++ data) := by
  induction hn : data.length using Nat.strongRecOn generalizing self message data with
  | _ n ih =>
    have hnum := h.numPending_eq
    have hblocks := h.completedDataBlocks_eq
    rw [List.length_append] at hlen
    by_cases hnil : data = []
    · subst hnil
      rw [List.append_nil]
      exact .pure h
    by_cases hlt : self.numPending + data.length < 64
    · -- a chunk that is left
      rw [chunks_of_lt hnil (by omega), List.foldlM_cons, updateChunk, if_neg (by omega), bind_assoc]
      refine computes_liftM_bind (usizeAdd_eq_ok.mpr ⟨by rw [usizeBits]; omega, rfl⟩) ?_
      rw [bind_assoc]
      refine computes_liftM_bind (cloneFromSlice_of_le rfl (by rw [h.length_pending]; omega)) ?_
      refine .pure (h.of_lt hlt ?_ ?_)
      · rw [List.length_append, List.length_append, List.length_take_of_le (by rw [h.length_pending]; omega),
          List.length_drop, h.length_pending]
        omega
      · rw [List.take_left' (by
          rw [List.length_append, List.length_take_of_le (by rw [h.length_pending]; omega)])]
    · -- a full one
      have hzero : self.numPending = 0 := hdata.resolve_right hlt
      have hchunk : (data.take 64).length = 64 := List.length_take_of_le (by omega)
      rw [chunks_eq (by omega) hnil, List.foldlM_cons, updateChunk, if_pos hchunk, bind_assoc]
      refine (updateState_computes h.state_eq hchunk).bind fun state hstate => ?_
      rw [bind_assoc]
      refine computes_liftM_bind (usizeAdd_eq_ok.mpr ⟨by rw [usizeBits]; omega, rfl⟩) ?_
      have hnext := h.of_block (show self.numPending + (data.take 64).length = 64 by omega)
        (by rw [hzero]; exact hstate) h.length_pending
      have hself : ({ self with state, completedDataBlocks := self.completedDataBlocks + 1 } : Sha256Gadget B W) =
          ⟨state, self.completedDataBlocks + 1, self.pending, 0⟩ := by rw [hzero]
      have hdrop : (data.drop 64).length = data.length - 64 := List.length_drop
      have hrest := ih _ (show (data.drop 64).length < n by omega) hnext (.inl rfl)
        (by rw [List.length_append, List.length_append]; omega) rfl
      rw [List.append_assoc, List.take_append_drop] at hrest
      rw [pure_bind, hself]
      exact hrest

theorem update_computes (h : self.Consumed message) {data : List B} (hlen : (message ++ data).length < 2 ^ 64) :
    Computes (self.update data) fun self' => self'.Consumed (message ++ data) := by
  have hnum := h.numPending_eq
  have hblocks := h.completedDataBlocks_eq
  rw [update]
  split
  · rename_i hfill
    have hhead : (data.take (64 - self.numPending)).length = 64 - self.numPending :=
      List.length_take_of_le (by omega)
    have hpending := h.length_pending
    rw [List.length_append] at hlen
    refine computes_liftM_bind (usizeSub_of_le (by omega)) ?_
    refine computes_liftM_bind (slice_of_le (Nat.zero_le _) (by omega)) ?_
    rw [List.drop_zero, Nat.sub_zero]
    refine computes_liftM_bind (cloneFromSlice_of_le (by omega) (Nat.le_refl _)) ?_
    rw [List.drop_length, List.append_nil]
    have hblock : (self.pending.take self.numPending ++ data.take (64 - self.numPending)).length = 64 := by
      rw [List.length_append, List.length_take_of_le (by omega), hhead]
      omega
    refine (updateState_computes h.state_eq hblock).bind fun state hstate => ?_
    refine computes_liftM_bind (usizeAdd_eq_ok.mpr ⟨by rw [usizeBits]; omega, rfl⟩) ?_
    refine computes_liftM_bind (slice_of_le (by omega) (Nat.le_refl _)) ?_
    have hdrop : (data.drop (64 - self.numPending)).length = data.length - (64 - self.numPending) := List.length_drop
    rw [List.take_of_length_le hdrop.le]
    have hnext := h.of_block (show _ + (data.take (64 - self.numPending)).length = 64 by omega) hstate hblock
    have hrest := foldlM_updateChunk_computes hnext (.inl rfl)
      (show ((message ++ data.take (64 - self.numPending)) ++ data.drop (64 - self.numPending)).length < 2 ^ 64 by
        rw [List.length_append, List.length_append]
        omega)
    rwa [List.append_assoc, List.take_append_drop] at hrest
  · rename_i hfill
    exact foldlM_updateChunk_computes h (by omega) hlen

/-- The padding that `finalize` cuts out of 72 bytes. -/
theorem exists_padding (hbyte : ∀ x, UInt8Var.value (UInt8Var.constant x : B) = x) {zeros : Nat} (hlt : zeros < 64)
    (bitlen : Nat) : ∃ pending bytes : List B,
    (cloneFromSlice ((List.replicate 72 (UInt8Var.constant 0)).set 0 (UInt8Var.constant 0x80)) (zeros + 1)
      (zeros + 1 + 8) ((toBeBytes 8 bitlen).map UInt8Var.constant) : Outcome (List B)) = .ok pending ∧
      (slice pending 0 (zeros + 1 + 8) : Outcome (List B)) = .ok bytes ∧
      bytes.map UInt8Var.value = 0x80 :: List.replicate zeros 0 ++ toBeBytes 8 bitlen := by
  have hencoded : ((toBeBytes 8 bitlen).map (UInt8Var.constant : UInt8 → B)).length = 8 := by
    rw [List.length_map, toBeBytes, List.length_map, List.length_reverse, List.length_range]
  have hstart : ((List.replicate 72 (UInt8Var.constant 0 : B)).set 0 (UInt8Var.constant 0x80)).take (zeros + 1) =
      UInt8Var.constant 0x80 :: List.replicate zeros (UInt8Var.constant 0) := by
    rw [List.replicate_succ, List.set_cons_zero, List.take_succ_cons, List.take_replicate, Nat.min_eq_left (by omega)]
  have hlen : ((UInt8Var.constant 0x80 :: List.replicate zeros (UInt8Var.constant 0) : List B) ++
      (toBeBytes 8 bitlen).map UInt8Var.constant).length = zeros + 1 + 8 := by
    rw [List.length_append, hencoded, List.length_cons, List.length_replicate]
  refine ⟨_, _, cloneFromSlice_of_le (by rw [hencoded]) (by rw [List.length_set, List.length_replicate]; omega),
    slice_of_le (Nat.zero_le _) ?_, ?_⟩
  · rw [hstart, List.length_append, hlen]
    exact Nat.le_add_right _ _
  · rw [hstart, List.drop_zero, Nat.sub_zero, List.take_left' hlen, List.map_append, List.map_cons, List.map_replicate,
      hbyte, hbyte, Function.LeftInverse.list_map hbyte]

/-- The bytes that `finalize` takes in are the padding of the message. -/
theorem finalize_computes (h : self.Consumed message) (hlen : message.length < 2 ^ 61) :
    Computes self.finalize fun bytes => bytes.map UInt8Var.value = sha256 (message.map UInt8Var.value) := by
  have hnum := h.numPending_eq
  have hblocks := h.completedDataBlocks_eq
  obtain ⟨zeros, hzeros, hoffset⟩ : ∃ zeros, zeros = (119 - message.length % 64) % 64 ∧
      (if self.numPending < 56 then usizeSub 56 self.numPending else usizeSub 120 self.numPending : Outcome Nat) =
        .ok (zeros + 1) := by
    refine ⟨_, rfl, ?_⟩
    split
    · rw [usizeSub_of_le (by omega)]
      congr 1
      omega
    · rw [usizeSub_of_le (by omega)]
      congr 1
      omega
  have hbitlen : self.completedDataBlocks * 512 + self.numPending * 8 = 8 * message.length := by omega
  obtain ⟨pending, bytes, hpending, hslice, hbytes⟩ :=
    exists_padding (LawfulUIntVar.value_byte (B := B) W) (show zeros < 64 by omega)
    (self.completedDataBlocks * 512 + self.numPending * 8)
  have hpadding : bytes.map UInt8Var.value = padding message.length := by
    rw [hbytes, hbitlen, hzeros]
    rfl
  have hlenBytes : bytes.length ≤ 72 := by
    rw [← List.length_map UInt8Var.value, hbytes, List.length_append, List.length_cons, List.length_replicate, toBeBytes,
      List.length_map, List.length_reverse, List.length_range]
    omega
  rw [finalize]
  refine computes_liftM_bind (usizeMul_eq_ok.mpr ⟨by rw [usizeBits]; omega, rfl⟩) ?_
  refine computes_liftM_bind (usizeMul_eq_ok.mpr ⟨by rw [usizeBits]; omega, rfl⟩) ?_
  refine computes_liftM_bind (usizeAdd_eq_ok.mpr ⟨by rw [usizeBits]; omega, rfl⟩) ?_
  refine computes_liftM_bind hoffset ?_
  refine computes_liftM_bind hpending ?_
  refine computes_liftM_bind hslice ?_
  refine (update_computes h (by rw [List.length_append]; omega)).bind fun self' hself' => ?_
  refine (Computes.mapM_map fun w _ => LawfulUIntVar.toBytesBe_computes w).bind fun digest hdigest => .pure ?_
  have hstate := hself'.state_eq
  rw [List.map_append, hpadding] at hstate
  rw [List.map_flatten, hdigest, sha256, List.length_map, ← hstate, List.flatMap_def, List.map_map]
  rfl

theorem foldlM_update_computes (h : self.Consumed message) {pieces : List (List B)}
    (hlen : (message ++ pieces.flatten).length < 2 ^ 64) :
    Computes (pieces.foldlM update self) fun self' => self'.Consumed (message ++ pieces.flatten) := by
  induction pieces generalizing self message with
  | nil =>
    rw [List.flatten_nil, List.append_nil]
    exact .pure h
  | cons piece pieces ih =>
    rw [List.flatten_cons, ← List.append_assoc] at hlen ⊢
    rw [List.foldlM_cons]
    refine (update_computes h ?_).bind fun self' h' => ih h' hlen
    rw [List.length_append] at hlen
    exact (Nat.le_add_right _ _).trans_lt hlen

/-- The bytes of any pieces, and then `finalize`. -/
theorem foldlM_update_finalize_computes (pieces : List (List B)) (hlen : pieces.flatten.length < 2 ^ 61) :
    Computes (do
      let gadget ← pieces.foldlM update (default : Sha256Gadget B W)
      gadget.finalize) fun bytes =>
        bytes.length = 32 ∧ bytes.map UInt8Var.value = sha256 (pieces.flatten.map UInt8Var.value) := by
  refine (foldlM_update_computes default_consumed (by rw [List.nil_append]; omega)).bind fun gadget h => ?_
  rw [List.nil_append] at h
  refine (finalize_computes h hlen).mono fun bytes hbytes => ⟨?_, hbytes⟩
  rw [← List.length_map UInt8Var.value, hbytes, length_sha256]

/-- One piece. -/
theorem digest_computes {data : List B} (hlen : data.length < 2 ^ 61) :
    Computes (digest W data) fun bytes =>
      bytes.length = 32 ∧ bytes.map UInt8Var.value = sha256 (data.map UInt8Var.value) := by
  have h := foldlM_update_finalize_computes (W := W) [data]
  simp only [List.foldlM_cons, List.foldlM_nil, bind_pure, List.flatten_cons, List.flatten_nil,
    List.append_nil] at h
  exact h hlen

/-- Two pieces. -/
theorem twoToOneEvaluate_computes {leftInput rightInput : List B}
    (hlen : leftInput.length + rightInput.length < 2 ^ 61) :
    Computes (twoToOneEvaluate W leftInput rightInput) fun bytes => bytes.length = 32 ∧
      bytes.map UInt8Var.value = sha256 (leftInput.map UInt8Var.value ++ rightInput.map UInt8Var.value) := by
  have h := foldlM_update_finalize_computes (W := W) [leftInput, rightInput]
  simp only [List.foldlM_cons, List.foldlM_nil, bind_assoc, pure_bind, List.flatten_cons, List.flatten_nil,
    List.append_nil, List.length_append, List.map_append] at h
  exact h hlen

/-- Whatever pieces a message is given in, the gadget holds its last bytes at every
piece, and returns its SHA-256 digest; and so it does for two inputs. -/
theorem computes_sha256 (pieces : List (List B)) (hlen : pieces.flatten.length < 2 ^ 61) :
    (∀ k, Computes ((pieces.take k).foldlM update (default : Sha256Gadget B W)) fun gadget =>
      gadget.numPending < 64 ∧
      gadget.completedDataBlocks * 64 + gadget.numPending = (pieces.take k).flatten.length ∧
      gadget.pending.take gadget.numPending = (pieces.take k).flatten.drop (gadget.completedDataBlocks * 64)) ∧
    Computes (do
      let gadget ← pieces.foldlM update (default : Sha256Gadget B W)
      gadget.finalize) (fun bytes =>
        bytes.length = 32 ∧ bytes.map UInt8Var.value = sha256 (pieces.flatten.map UInt8Var.value)) ∧
    ∀ leftInput rightInput : List B, leftInput.length + rightInput.length < 2 ^ 61 →
      Computes (twoToOneEvaluate W leftInput rightInput) fun bytes => bytes.length = 32 ∧
        bytes.map UInt8Var.value = sha256 (leftInput.map UInt8Var.value ++ rightInput.map UInt8Var.value) := by
  refine ⟨fun k => ?_, foldlM_update_finalize_computes pieces hlen, fun leftInput rightInput hlen =>
    twoToOneEvaluate_computes hlen⟩
  have hprefix : (pieces.take k).flatten.length ≤ pieces.flatten.length := by
    conv_rhs => rw [← List.take_append_drop k pieces, List.flatten_append, List.length_append]
    exact Nat.le_add_right _ _
  refine (foldlM_update_computes default_consumed (by rw [List.nil_append]; omega)).mono fun gadget h => ?_
  rw [List.nil_append] at h
  have hnum := h.numPending_eq
  have hblocks := h.completedDataBlocks_eq
  refine ⟨by omega, by omega, ?_⟩
  rw [h.take_pending, hblocks, Nat.mul_comm]

/-- A message of 200 bytes in three pieces: the second fills a block and goes on into the next
one, and the third fills this one and then a whole block. -/
def threePieces : List (List (Assigned UInt8)) :=
  [(List.range 60).map fun i => .var (UInt8.ofNat i), List.replicate 10 (.constant 0xff),
    List.replicate 130 (.var 0xa5)]

theorem computes_sha256_threePieces :
    (∀ k, Computes ((threePieces.take k).foldlM update
        (default : Sha256Gadget (Assigned UInt8) (Assigned UInt32))) fun gadget =>
      gadget.numPending < 64 ∧
      gadget.completedDataBlocks * 64 + gadget.numPending = (threePieces.take k).flatten.length ∧
      gadget.pending.take gadget.numPending =
        (threePieces.take k).flatten.drop (gadget.completedDataBlocks * 64)) ∧
    Computes (do
      let gadget ← threePieces.foldlM update (default : Sha256Gadget (Assigned UInt8) (Assigned UInt32))
      gadget.finalize) (fun bytes =>
        bytes.length = 32 ∧ bytes.map UInt8Var.value = sha256 (threePieces.flatten.map UInt8Var.value)) ∧
    ∀ leftInput rightInput : List (Assigned UInt8), leftInput.length + rightInput.length < 2 ^ 61 →
      Computes (twoToOneEvaluate (Assigned UInt32) leftInput rightInput) fun bytes => bytes.length = 32 ∧
        bytes.map UInt8Var.value = sha256 (leftInput.map UInt8Var.value ++ rightInput.map UInt8Var.value) :=
  computes_sha256 threePieces (by decide +kernel)

end Sha256Gadget

end

end CryptoPrimitives.Sha256
