import CryptoPrimitives.Gadget.Uint
import CryptoPrimitives.Prf.Blake2s
import Mathlib.Data.List.GetD

/-!
# The BLAKE2s gadget

`prf/blake2s/constraints.rs` and `commitment/blake2s/constraints.rs`, over variables `B`
and `W` with the operations of `UInt8<F>` and `UInt32<F>`.

* `mixingG_computes`, `blake2sCompression_computes`: the functions `G` and `F` of the RFC.
* `value_blocks`: the bits of a message are cut into its data blocks.
* `computes_blake2s`: the gadget is BLAKE2s started from the parameters, and the
  pseudorandom function and the commitment made of it are BLAKE2s-256.
-/

namespace CryptoPrimitives.Blake2s

open Digits (ofBits)
open Synthesis (Computes)

/-- `R1`, `R2`, `R3` and `R4`. -/
def R1 : Nat := 16

def R2 : Nat := 12

def R3 : Nat := 8

def R4 : Nat := 7

/-- `SIGMA`. -/
def SIGMA : List (List Nat) := [
  [0, 1, 2, 3, 4, 5, 6, 7, 8, 9, 10, 11, 12, 13, 14, 15],
  [14, 10, 4, 8, 9, 15, 13, 6, 1, 12, 0, 2, 11, 7, 5, 3],
  [11, 8, 12, 0, 5, 2, 15, 13, 10, 14, 3, 6, 7, 1, 9, 4],
  [7, 9, 3, 1, 13, 12, 11, 14, 2, 6, 5, 10, 4, 0, 15, 8],
  [9, 0, 5, 7, 2, 4, 10, 15, 14, 1, 11, 12, 6, 8, 3, 13],
  [2, 12, 6, 10, 0, 11, 8, 3, 4, 13, 7, 5, 15, 14, 1, 9],
  [12, 5, 1, 15, 14, 13, 4, 10, 0, 7, 6, 3, 9, 2, 8, 11],
  [13, 11, 7, 14, 12, 1, 3, 9, 5, 0, 15, 4, 8, 6, 2, 10],
  [6, 15, 14, 9, 11, 3, 0, 8, 12, 2, 13, 7, 1, 4, 10, 5],
  [10, 2, 8, 4, 7, 6, 1, 5, 15, 11, 9, 14, 3, 12, 13, 0]]

/-- The words of the initialization vector, as the code lists them. -/
def blake2sIv : List UInt32 :=
  [0x6A09E667, 0xBB67AE85, 0x3C6EF372, 0xA54FF53A, 0x510E527F, 0x9B05688C, 0x1F83D9AB, 0x5BE0CD19]

section

variable {B W : Type} [UInt8Var B] [UInt32Var B W]

/-- `v[a] = UInt32::wrapping_add_many(&[v[a].clone(), v[b].clone(), x.clone()])?`. -/
def addWord (v : List W) (a b : Nat) (x : W) : Gadget (List W) := do
  let va ← liftM (index v a : Outcome W)
  let vb ← liftM (index v b : Outcome W)
  let sum ← UInt32Var.wrappingAddMany [va, vb, x]
  pure (v.set a sum)

/-- `v[d] = (&v[d] ^ &v[a]).rotate_right(r)`. -/
def xorRotate (v : List W) (d a r : Nat) : Gadget (List W) := do
  let vd ← liftM (index v d : Outcome W)
  let va ← liftM (index v a : Outcome W)
  let x ← UInt32Var.xor vd va
  pure (v.set d (UInt32Var.rotateRight x r))

/-- `v[c] = v[c].wrapping_add(&v[d])`. -/
def addTo (v : List W) (c d : Nat) : Gadget (List W) := do
  let vc ← liftM (index v c : Outcome W)
  let vd ← liftM (index v d : Outcome W)
  let sum ← UInt32Var.wrappingAdd vc vd
  pure (v.set c sum)

/-- `h[i] ^= x`. -/
def xorAssign (h : List W) (i : Nat) (x : W) : Gadget (List W) := do
  let hi ← liftM (index h i : Outcome W)
  let y ← UInt32Var.xor hi x
  pure (h.set i y)

/-- `mixing_g`. -/
def mixingG (v : List W) (a b c d : Nat) (x y : W) : Gadget (List W) := do
  let v ← addWord v a b x
  let v ← xorRotate v d a R1
  let v ← addTo v c d
  let v ← xorRotate v b c R2
  let v ← addWord v a b y
  let v ← xorRotate v d a R3
  let v ← addTo v c d
  xorRotate v b c R4

/-- `mixing_g(&mut v, a, b, c, d, &m[s[x]], &m[s[y]])`. -/
def mixWords (m : List W) (s : List Nat) (v : List W) (a b c d x y : Nat) : Gadget (List W) := do
  let sx ← liftM (index s x : Outcome Nat)
  let mx ← liftM (index m sx : Outcome W)
  let sy ← liftM (index s y : Outcome Nat)
  let my ← liftM (index m sy : Outcome W)
  mixingG v a b c d mx my

/-- The step of the loop over the rounds. -/
def roundStep (m v : List W) (i : Nat) : Gadget (List W) := do
  let s ← liftM (index SIGMA (i % 10) : Outcome (List Nat))
  let v ← mixWords m s v 0 4 8 12 0 1
  let v ← mixWords m s v 1 5 9 13 2 3
  let v ← mixWords m s v 2 6 10 14 4 5
  let v ← mixWords m s v 3 7 11 15 6 7
  let v ← mixWords m s v 0 5 10 15 8 9
  let v ← mixWords m s v 1 6 11 12 10 11
  let v ← mixWords m s v 2 7 8 13 12 13
  mixWords m s v 3 4 9 14 14 15

/-- The step of the loop that xors the two halves of `v` into `h`. -/
def xorHalves (v h : List W) (i : Nat) : Gadget (List W) := do
  let low ← liftM (index v i : Outcome W)
  let h ← xorAssign h i low
  let high ← liftM (index v (i + 8) : Outcome W)
  xorAssign h i high

/-- `blake2s_compression`. -/
def blake2sCompression (h m : List W) (t : Nat) (f : Bool) : Gadget (List W) := do
  liftM (assertEq h.length 8 : Outcome Unit)
  liftM (assertEq m.length 16 : Outcome Unit)
  let v := h ++ blake2sIv.map UInt32Var.constant
  liftM (assertEq v.length 16 : Outcome Unit)
  let v ← xorAssign v 12 (UInt32Var.constant (UInt32.ofNat t))
  let v ← xorAssign v 13 (UInt32Var.constant (UInt32.ofNat (t >>> 32)))
  let v ← (if f then xorAssign v 14 (UInt32Var.constant 0xFFFFFFFF) else pure v : Gadget (List W))
  let v ← (List.range 10).foldlM (roundStep m) v
  (List.range 8).foldlM (xorHalves v) h

variable [UInt32LeVar B W]

/-- A word of a block, of which the last one may be short. -/
def blockWord (word : List Boolean) : W :=
  UInt32LeVar.fromBitsLe (word ++ List.replicate (32 - word.length) (Boolean.constant false))

/-- `this_block`: the words of a block, of which the last one may be short. -/
def thisBlock (block : List Boolean) : List W :=
  let words := (chunks 32 block).map blockWord
  words ++ List.replicate (16 - words.length) (UInt32Var.constant 0)

/-- `blocks`, as `evaluate_blake2s_with_parameters` builds it. -/
def blocks (input : List Boolean) : List (List W) :=
  let blocks := (chunks 512 input).map thisBlock
  if blocks.isEmpty then [List.replicate 16 (UInt32Var.constant 0)] else blocks

/-- The step of the loop over the blocks before the last one, with their numbers. -/
def compressInner (h : List W) (entry : List W × Nat) : Gadget (List W) := do
  let i ← liftM (usizeAdd entry.2 1 : Outcome Nat)
  let t ← liftM (usizeMul i 64 : Outcome Nat)
  blake2sCompression h entry.1 t false

/-- `evaluate_blake2s_with_parameters`. -/
def evaluateBlake2sWithParameters (input : List Boolean) (parameters : Vector UInt32 8) : Gadget (List W) := do
  liftM (assert (input.length % 8 == 0) "assertion failed: input.len() % 8 == 0" : Outcome Unit)
  let h : List W := [
    UInt32Var.constant ((0x6A09E667 : UInt32) ^^^ parameters[0]),
    UInt32Var.constant ((0xBB67AE85 : UInt32) ^^^ parameters[1]),
    UInt32Var.constant ((0x3C6EF372 : UInt32) ^^^ parameters[2]),
    UInt32Var.constant ((0xA54FF53A : UInt32) ^^^ parameters[3]),
    UInt32Var.constant ((0x510E527F : UInt32) ^^^ parameters[4]),
    UInt32Var.constant ((0x9B05688C : UInt32) ^^^ parameters[5]),
    UInt32Var.constant ((0x1F83D9AB : UInt32) ^^^ parameters[6]),
    UInt32Var.constant ((0x5BE0CD19 : UInt32) ^^^ parameters[7])]
  let blocks : List (List W) := blocks input
  let last ← liftM (usizeSub blocks.length 1 : Outcome Nat)
  let inner ← liftM (slice blocks 0 last : Outcome (List (List W)))
  let h ← inner.zipIdx.foldlM compressInner h
  let block ← liftM (index blocks last : Outcome (List W))
  blake2sCompression h block (input.length / 8) true

/-- `evaluate_blake2s`. -/
def evaluateBlake2s (input : List Boolean) : Gadget (List W) := do
  liftM (assert (input.length % 8 == 0) "assertion failed: input.len() % 8 == 0" : Outcome Unit)
  let parameters := (Vector.replicate 8 0).set 0 (0x01010000 ^^^ 32)
  evaluateBlake2sWithParameters input parameters

variable [UInt8BitsVar B]

variable (W) in
/-- `Blake2sGadget::evaluate`. -/
def Blake2sGadget.evaluate (seed input : List B) : Gadget (List B) := do
  liftM (assertEq seed.length 32 : Outcome Unit)
  let bits ← (seed ++ input).mapM UInt8BitsVar.toBitsLe
  let words : List W ← evaluateBlake2s bits.flatten
  let result ← words.mapM UInt32LeVar.toBytesLe
  pure result.flatten

variable (W) in
/-- `CommGadget::commit`. -/
def CommGadget.commit (input r : List B) : Gadget (List B) := do
  let inputBits ← (input ++ r).mapM UInt8BitsVar.toBitsLe
  let words : List W ← evaluateBlake2s inputBits.flatten
  let result ← words.mapM UInt32LeVar.toBytesLe
  pure result.flatten

end

/-- The tables of the code are those of the RFC. -/
theorem SIGMA_eq : SIGMA = sigma := rfl

theorem blake2sIv_eq : blake2sIv = IV := by decide +kernel

theorem toList_parameters (p : Vector UInt32 8) : p.toList = [p[0], p[1], p[2], p[3], p[4], p[5], p[6], p[7]] := by
  refine List.ext_getElem p.length_toList fun i hi _ => ?_
  rw [p.length_toList] at hi
  rcases (by omega : i = 0 ∨ i = 1 ∨ i = 2 ∨ i = 3 ∨ i = 4 ∨ i = 5 ∨ i = 6 ∨ i = 7) with
    rfl | rfl | rfl | rfl | rfl | rfl | rfl | rfl <;> rfl

/-- The parameters of `evaluate_blake2s` are those of a digest of 32 bytes. -/
theorem zipWith_parameters : List.zipWith (· ^^^ ·) IV ((Vector.replicate 8 0).set 0 (0x01010000 ^^^ 32)).toList =
    IV.set 0 (IV.getD 0 0 ^^^ 0x01010000 ^^^ UInt32.ofNat 32) := by decide +kernel

/-! ## The compression function -/

section

variable {B W : Type} [UInt32Var B W]

/-- The `n` variables `v` have the values `values`. -/
def HaveValues (n : Nat) (v : List W) (values : List UInt32) : Prop :=
  v.map UInt32Var.value = values ∧ values.length = n

variable {n : Nat} {v : List W} {values : List UInt32}

theorem HaveValues.length_eq (h : HaveValues n v values) : v.length = n := by
  rw [← h.2, ← h.1, List.length_map]

/-- An entry of them. -/
theorem HaveValues.index (h : HaveValues n v values) {i : Nat} (hi : i < n) :
    Computes (liftM (index v i : Outcome W) : Gadget W) fun x => UInt32Var.value x = values.getD i 0 := by
  have hv : i < v.length := by rwa [h.length_eq]
  refine computes_liftM (index_of_lt hv) ?_
  rw [← h.1, List.getD_eq_getElem?_getD, List.getElem?_map, List.getElem?_eq_getElem hv]
  rfl

theorem HaveValues.set (h : HaveValues n v values) {x : W} {value : UInt32} (hx : UInt32Var.value x = value)
    (i : Nat) : HaveValues n (v.set i x) (values.set i value) :=
  ⟨by rw [List.map_set, h.1, hx], by rw [List.length_set, h.2]⟩

theorem HaveValues.append {k : Nat} {w : List W} {values' : List UInt32} (h : HaveValues n v values)
    (hw : HaveValues k w values') : HaveValues (n + k) (v ++ w) (values ++ values') :=
  ⟨by rw [List.map_append, h.1, hw.1], by rw [List.length_append, h.2, hw.2]⟩

variable [UInt8Var B] [LawfulUIntVar B W]

theorem haveValues_constant (values : List UInt32) :
    HaveValues values.length (values.map (UInt32Var.constant : UInt32 → W)) values :=
  ⟨Function.LeftInverse.list_map LawfulUIntVar.value_constant values, rfl⟩

theorem addWord_computes (h : HaveValues n v values) {a b : Nat} (ha : a < n) (hb : b < n) {x : W} {value : UInt32}
    (hx : UInt32Var.value x = value) :
    Computes (addWord v a b x) fun v' =>
      HaveValues n v' (values.set a (values.getD a 0 + values.getD b 0 + value)) := by
  refine (h.index ha).bind fun va hva => (h.index hb).bind fun vb hvb => ?_
  refine (LawfulUIntVar.wrappingAddMany_computes _ (List.cons_ne_nil _ _)).bind fun sum hsum => .pure (h.set ?_ a)
  rw [hsum]
  simp only [List.map_cons, List.map_nil, List.sum_cons, List.sum_nil, hva, hvb, hx, UInt32.add_zero, UInt32.add_assoc]

theorem xorRotate_computes (h : HaveValues n v values) {d a r : Nat} (hd : d < n) (ha : a < n) (hr : r < 32) :
    Computes (xorRotate v d a r) fun v' =>
      HaveValues n v' (values.set d (rotateRight (values.getD d 0 ^^^ values.getD a 0) r)) := by
  refine (h.index hd).bind fun vd hvd => (h.index ha).bind fun va hva => ?_
  refine (LawfulUIntVar.xor_computes vd va).bind fun x hx => .pure (h.set ?_ d)
  rw [LawfulUIntVar.value_rotateRight x r hr, hx, hvd, hva]

theorem addTo_computes (h : HaveValues n v values) {c d : Nat} (hc : c < n) (hd : d < n) :
    Computes (addTo v c d) fun v' => HaveValues n v' (values.set c (values.getD c 0 + values.getD d 0)) := by
  refine (h.index hc).bind fun vc hvc => (h.index hd).bind fun vd hvd => ?_
  refine (LawfulUIntVar.wrappingAdd_computes vc vd).bind fun sum hsum => .pure (h.set ?_ c)
  rw [hsum, hvc, hvd]

theorem xorAssign_computes (h : HaveValues n v values) {i : Nat} (hi : i < n) {x : W} {value : UInt32}
    (hx : UInt32Var.value x = value) :
    Computes (xorAssign v i x) fun v' => HaveValues n v' (values.set i (values.getD i 0 ^^^ value)) := by
  refine (h.index hi).bind fun vi hvi => ?_
  refine (LawfulUIntVar.xor_computes vi x).bind fun y hy => .pure (h.set ?_ i)
  rw [hy, hvi, hx]

/-- The gadget of the mixing function computes it. -/
theorem mixingG_computes (h : HaveValues n v values) {a b c d : Nat} (ha : a < n) (hb : b < n) (hc : c < n)
    (hd : d < n) {x y : W} {valueX valueY : UInt32} (hx : UInt32Var.value x = valueX)
    (hy : UInt32Var.value y = valueY) :
    Computes (mixingG v a b c d x y) fun v' => HaveValues n v' (G values a b c d valueX valueY) := by
  refine (addWord_computes h ha hb hx).bind fun v h => ?_
  refine (xorRotate_computes h hd ha (by decide)).bind fun v h => ?_
  refine (addTo_computes h hc hd).bind fun v h => ?_
  refine (xorRotate_computes h hb hc (by decide)).bind fun v h => ?_
  refine (addWord_computes h ha hb hy).bind fun v h => ?_
  refine (xorRotate_computes h hd ha (by decide)).bind fun v h => ?_
  refine (addTo_computes h hc hd).bind fun v h => ?_
  exact xorRotate_computes h hb hc (by decide)

theorem mixWords_computes {m : List W} {words : List UInt32} (hm : HaveValues 16 m words) {s : List Nat}
    (hs : s.length = 16 ∧ ∀ k ∈ s, k < 16) (h : HaveValues 16 v values) {a b c d x y : Nat}
    (hlt : ∀ k ∈ [a, b, c, d, x, y], k < 16) :
    Computes (mixWords m s v a b c d x y) fun v' =>
      HaveValues 16 v' (G values a b c d (words.getD (s.getD x 0) 0) (words.getD (s.getD y 0) 0)) := by
  have hword {k : Nat} (hk : k < 16) : (index s k : Outcome Nat) = .ok (s.getD k 0) ∧ s.getD k 0 < 16 := by
    have hk' : k < s.length := by rwa [hs.1]
    refine ⟨index_getD hk' 0, ?_⟩
    rw [List.getD_eq_getElem _ _ hk']
    exact hs.2 _ (List.getElem_mem hk')
  simp only [List.forall_mem_cons] at hlt
  obtain ⟨ha, hb, hc, hd, hx, hy, -⟩ := hlt
  refine computes_liftM_bind (hword hx).1 ?_
  refine (hm.index (hword hx).2).bind fun mx hmx => ?_
  refine computes_liftM_bind (hword hy).1 ?_
  refine (hm.index (hword hy).2).bind fun my hmy => ?_
  exact mixingG_computes h ha hb hc hd hmx hmy

theorem roundStep_computes {m : List W} {words : List UInt32} (hm : HaveValues 16 m words)
    (h : HaveValues 16 v values) (i : Nat) :
    Computes (roundStep m v i) fun v' => HaveValues 16 v' (round words values i) := by
  have hi : i % 10 < sigma.length := Nat.mod_lt i (by decide)
  have hrows : ∀ s ∈ sigma, s.length = 16 ∧ ∀ k ∈ s, k < 16 := by decide
  have hs : (sigma.getD (i % 10) []).length = 16 ∧ ∀ k ∈ sigma.getD (i % 10) [], k < 16 := by
    rw [List.getD_eq_getElem _ _ hi]
    exact hrows _ (List.getElem_mem hi)
  rw [roundStep, SIGMA_eq]
  refine computes_liftM_bind (index_getD hi []) ?_
  -- the columns
  refine (mixWords_computes hm hs h (by decide)).bind fun v h => ?_
  refine (mixWords_computes hm hs h (by decide)).bind fun v h => ?_
  refine (mixWords_computes hm hs h (by decide)).bind fun v h => ?_
  refine (mixWords_computes hm hs h (by decide)).bind fun v h => ?_
  -- the diagonals
  refine (mixWords_computes hm hs h (by decide)).bind fun v h => ?_
  refine (mixWords_computes hm hs h (by decide)).bind fun v h => ?_
  refine (mixWords_computes hm hs h (by decide)).bind fun v h => ?_
  exact mixWords_computes hm hs h (by decide)

theorem xorHalves_computes {h : List W} {state : List UInt32} (hv : HaveValues 16 v values)
    (hh : HaveValues 8 h state) {i : Nat} (hi : i < 8) :
    Computes (xorHalves v h i) fun h' =>
      HaveValues 8 h' (finish values state i) := by
  refine (hv.index (show i < 16 by omega)).bind fun low hlow => ?_
  refine (xorAssign_computes hh hi hlow).bind fun h₁ hh₁ => ?_
  refine (hv.index (show i + 8 < 16 by omega)).bind fun high hhigh => ?_
  refine (xorAssign_computes hh₁ hi hhigh).mono fun h' hh' => ?_
  have hset : (state.set i (state.getD i 0 ^^^ values.getD i 0)).getD i 0 = state.getD i 0 ^^^ values.getD i 0 := by
    rw [List.getD_eq_getElem?_getD, List.getElem?_set_self (by rw [hh.2]; exact hi), Option.getD_some]
  rwa [hset, List.set_set] at hh'

/-- The gadget of the compression function computes it. -/
theorem blake2sCompression_computes {h m : List W} {state words : List UInt32} (hh : HaveValues 8 h state)
    (hm : HaveValues 16 m words) (t : Nat) (f : Bool) :
    Computes (blake2sCompression h m t f) fun h' => HaveValues 8 h' (F state words t f) := by
  have hv : HaveValues 16 (h ++ blake2sIv.map UInt32Var.constant) (state ++ IV) := by
    rw [blake2sIv_eq]
    exact hh.append (haveValues_constant IV)
  rw [blake2sCompression]
  refine computes_liftM_bind ((assertEq_eq_ok (u := ())).mpr hh.length_eq) ?_
  refine computes_liftM_bind ((assertEq_eq_ok (u := ())).mpr hm.length_eq) ?_
  refine computes_liftM_bind ((assertEq_eq_ok (u := ())).mpr hv.length_eq) ?_
  refine (xorAssign_computes hv (by decide) (LawfulUIntVar.value_constant _)).bind fun v hv => ?_
  refine (xorAssign_computes hv (by decide) (LawfulUIntVar.value_constant _)).bind fun v hv => ?_
  have hf : Computes (if f then xorAssign v 14 (UInt32Var.constant 0xFFFFFFFF) else pure v) fun v' =>
      HaveValues 16 v' (workVector state t f) := by
    rw [workVector, UInt32.ofNat_mod_size]
    cases f with
    | true => exact xorAssign_computes hv (by decide) (LawfulUIntVar.value_constant _)
    | false => exact .pure hv
  refine hf.bind fun v hv => ?_
  have hround (i : Nat) (_ : i ∈ List.range 10) (v : List W) (values : List UInt32) (h : HaveValues 16 v values) :=
    roundStep_computes hm h i
  refine (Computes.foldlM_foldl hround hv).bind fun v hv => ?_
  have hfinish (i : Nat) (hi : i ∈ List.range 8) (h : List W) (state : List UInt32) (hh : HaveValues 8 h state) :=
    xorHalves_computes hv hh (List.mem_range.mp hi)
  exact Computes.foldlM_foldl hfinish hh

/-! ## The blocks -/

variable [UInt32LeVar B W] [LawfulUInt32LeVar B W]

/-- The words that bits stand for. -/
def bitWords (bits : List Bool) : List UInt32 :=
  (chunks 32 bits).map (UInt32.ofNat ∘ ofBits) ++ List.replicate (16 - (chunks 32 bits).length) 0

omit [LawfulUIntVar B W] in
theorem value_blockWord {word : List Boolean} (h : word.length ≤ 32) :
    UInt32Var.value (blockWord word : W) = UInt32.ofNat (ofBits (word.map Boolean.value)) := by
  rw [blockWord, LawfulUInt32LeVar.value_fromBitsLe _ (by rw [List.length_append, List.length_replicate]; omega),
    List.map_append, List.map_replicate, Digits.ofBits_append]
  show UInt32.ofNat (_ + _ * ofBits (List.replicate _ false)) = _
  rw [Digits.ofBits_replicate_false, Nat.mul_zero, Nat.add_zero]

theorem value_thisBlock (block : List Boolean) :
    (thisBlock block : List W).map UInt32Var.value = bitWords (block.map Boolean.value) := by
  have hwords : ((chunks 32 block).map (blockWord : List Boolean → W)).map UInt32Var.value =
      (chunks 32 (block.map Boolean.value)).map (UInt32.ofNat ∘ ofBits) := by
    rw [chunks_map (by omega), List.map_map, List.map_map]
    exact List.map_congr_left fun word hword => value_blockWord (length_le_of_mem_chunks (by omega) hword)
  rw [thisBlock, List.map_append, hwords, List.map_replicate, LawfulUIntVar.value_constant, bitWords,
    chunks_map (by omega), List.length_map, List.length_map]

theorem bitWords_flatMap {block : List UInt8} (h : block.length ≤ 64) :
    bitWords (block.flatMap byteBits) = blockWords block := by
  rw [bitWords, chunks_flatMap (by omega) length_byteBits (show 0 < 4 by omega), List.map_map,
    List.length_map, blockWords_eq h]
  congr 1
  refine List.map_congr_left fun chunk _ => ?_
  exact congrArg UInt32.ofNat (ofBits_flatten_byteBits chunk)

/-- The bits of a message are cut into its data blocks. -/
theorem value_blocks {input : List Boolean} {message : List UInt8}
    (h : input.map Boolean.value = message.flatMap byteBits) :
    (blocks input : List (List W)).map (List.map UInt32Var.value) = dataBlocks message := by
  have hchunks : (chunks 512 input).map (List.map Boolean.value) = (chunks 64 message).map (List.flatMap byteBits) := by
    rw [← chunks_map (by omega), h]
    exact chunks_flatMap (by omega) length_byteBits (show 0 < 64 by omega) message
  have hblocks : ((chunks 512 input).map (thisBlock : List Boolean → List W)).map (List.map UInt32Var.value) =
      (chunks 64 message).map blockWords := by
    rw [List.map_map]
    calc (chunks 512 input).map (List.map UInt32Var.value ∘ thisBlock)
        = ((chunks 512 input).map (List.map Boolean.value)).map bitWords := by
          rw [List.map_map]
          exact List.map_congr_left fun block _ => value_thisBlock block
      _ = (chunks 64 message).map blockWords := by
          rw [hchunks, List.map_map]
          exact List.map_congr_left fun block hblock => bitWords_flatMap (length_le_of_mem_chunks (by omega) hblock)
  rw [blocks, dataBlocks_eq, ← hblocks]
  cases (chunks 512 input).map (thisBlock : List Boolean → List W) with
  | nil =>
    show [(List.replicate 16 _).map _] = _
    rw [List.map_replicate, LawfulUIntVar.value_constant]
    rfl
  | cons => rfl

variable {message : List UInt8} {input : List Boolean}

theorem haveValues_blocks (h : input.map Boolean.value = message.flatMap byteBits) {i : Nat}
    (hi : i < (dataBlocks message).length) : ∃ block : List W,
      (blocks input)[i]? = some block ∧ HaveValues 16 block ((dataBlocks message).getD i []) := by
  have hlen : i < (blocks input : List (List W)).length := by
    rwa [← List.length_map (List.map UInt32Var.value), value_blocks h]
  refine ⟨(blocks input)[i], List.getElem?_eq_getElem hlen, ?_, ?_⟩
  · rw [← value_blocks (W := W) h, List.getD_eq_getElem?_getD, List.getElem?_map, List.getElem?_eq_getElem hlen]
    rfl
  · rw [List.getD_eq_getElem _ _ hi]
    exact (length_dataBlocks message).2 _ (List.getElem_mem hi)

/-- A block before the last one. -/
theorem compressInner_computes (h : input.map Boolean.value = message.flatMap byteBits)
    (hlen : message.length < 2 ^ 61) {i : Nat} (hi : i + 1 < (dataBlocks message).length) {state : List W}
    {values : List UInt32} (hs : HaveValues 8 state values) {block : List W}
    (hblock : (blocks input)[i]? = some block) :
    Computes (compressInner state (block, i)) fun h' =>
      HaveValues 8 h' (F values ((dataBlocks message).getD i []) ((i + 1) * 64) false) := by
  obtain ⟨block', hblock', hvalues⟩ := haveValues_blocks (W := W) h (show i < (dataBlocks message).length by omega)
  obtain rfl : block' = block := Option.some.inj (hblock'.symm.trans hblock)
  rw [(length_dataBlocks message).1, blockCount] at hi
  refine computes_liftM_bind (usizeAdd_eq_ok.mpr ⟨?_, rfl⟩) ?_
  · show i + 1 < 2 ^ 64
    omega
  refine computes_liftM_bind (usizeMul_eq_ok.mpr ⟨?_, rfl⟩) ?_
  · show (i + 1) * 64 < 2 ^ 64
    omega
  exact blake2sCompression_computes hs hvalues _ false

/-- The loop over the blocks before the last one. -/
theorem foldlM_compressInner_computes (h : input.map Boolean.value = message.flatMap byteBits)
    (hlen : message.length < 2 ^ 61) {last : Nat} (hlast : last + 1 = (dataBlocks message).length) {state : List W}
    (values : List UInt32) (hs : HaveValues 8 state values) :
    Computes (((blocks input).take last).zipIdx.foldlM compressInner state) fun h' =>
      HaveValues 8 h' ((List.range last).foldl
        (fun h i => F h ((dataBlocks message).getD i []) ((i + 1) * 64) false) values) := by
  have hzip : ((blocks input : List (List W)).take last).zipIdx.length = last := by
    rw [List.length_zipIdx, List.length_take, ← List.length_map (List.map UInt32Var.value), value_blocks h, ← hlast]
    omega
  have hstep (i : Nat) (entry : List W × Nat) (hentry : ((blocks input).take last).zipIdx[i]? = some entry)
      (s : List W) (hs : HaveValues 8 s ((List.range i).foldl
        (fun h i => F h ((dataBlocks message).getD i []) ((i + 1) * 64) false) values)) :
      Computes (compressInner s entry) fun h' => HaveValues 8 h' ((List.range (i + 1)).foldl
        (fun h i => F h ((dataBlocks message).getD i []) ((i + 1) * 64) false) values) := by
    have hi : i < last := by
      rw [← hzip]
      exact (List.getElem?_eq_some_iff.mp hentry).1
    rw [List.getElem?_zipIdx, List.getElem?_take_of_lt hi] at hentry
    obtain ⟨block, hblock, rfl⟩ := Option.map_eq_some_iff.mp hentry
    rw [List.range_succ, List.foldl_append, Nat.zero_add]
    exact compressInner_computes h hlen (by omega) hs hblock
  have hloop := Computes.foldlM hstep hs
  rwa [hzip] at hloop

theorem length_input (h : input.map Boolean.value = message.flatMap byteBits) : input.length = 8 * message.length := by
  rw [← List.length_map Boolean.value, h, length_flatMap_byteBits]

theorem evaluateBlake2sWithParameters_computes (h : input.map Boolean.value = message.flatMap byteBits)
    (hlen : message.length < 2 ^ 61) (parameters : Vector UInt32 8) :
    Computes (evaluateBlake2sWithParameters input parameters : Gadget (List W)) fun h =>
      HaveValues 8 h (blake2sFrom (List.zipWith (· ^^^ ·) IV parameters.toList) message) := by
  obtain ⟨last, hlast⟩ : ∃ last, last + 1 = (dataBlocks message).length := ⟨(dataBlocks message).length - 1, by
    rw [(length_dataBlocks message).1, blockCount]
    omega⟩
  have hcount : (blocks input : List (List W)).length = last + 1 := by
    rw [hlast, ← value_blocks (W := W) h, List.length_map]
  obtain ⟨block, hblock, hvalues⟩ := haveValues_blocks (W := W) h (show last < (dataBlocks message).length by omega)
  have hinput := length_input h
  rw [evaluateBlake2sWithParameters, blake2sFrom]
  refine computes_liftM_bind ((assert_eq_ok (u := ())).mpr ?_) ?_
  · rw [hinput, Nat.mul_mod_right]
    rfl
  refine computes_liftM_bind (usizeSub_of_le (by omega)) ?_
  rw [hcount, Nat.add_sub_cancel]
  refine computes_liftM_bind (slice_of_le (Nat.zero_le _) (by omega)) ?_
  refine (foldlM_compressInner_computes h hlen hlast (List.zipWith (· ^^^ ·) IV parameters.toList) ?_).bind
    fun s hs => ?_
  · rw [← blake2sIv_eq, toList_parameters]
    exact haveValues_constant (List.zipWith (· ^^^ ·) blake2sIv [parameters[0], parameters[1], parameters[2],
      parameters[3], parameters[4], parameters[5], parameters[6], parameters[7]])
  refine computes_liftM_bind (index_eq_ok.mpr hblock) ?_
  rw [hinput, Nat.mul_div_cancel_left _ (by omega), ← hlast, Nat.add_sub_cancel]
  exact blake2sCompression_computes hs hvalues _ true

omit [LawfulUIntVar B W] in
/-- The words of a hash, written out. -/
theorem toBytesLe_computes {n : Nat} {words : List W} {values : List UInt32} (h : HaveValues n words values) :
    Computes (words.mapM UInt32LeVar.toBytesLe) fun bytes =>
      bytes.flatten.map UInt8Var.value = values.flatMap fun word => toLeBytes 4 word.toNat := by
  refine (Computes.mapM_map fun w _ => LawfulUInt32LeVar.toBytesLe_computes w).mono fun bytes hbytes => ?_
  rw [List.map_flatten, hbytes, ← h.1, List.flatMap_map]
  rfl

/-- A digest of 32 bytes. -/
theorem evaluateBlake2s_computes (h : input.map Boolean.value = message.flatMap byteBits)
    (hlen : message.length < 2 ^ 61) :
    Computes (evaluateBlake2s input : Gadget (List W)) fun words => ∃ values,
      HaveValues 8 words values ∧ values.flatMap (fun word => toLeBytes 4 word.toNat) = blake2s256 message := by
  refine computes_liftM_bind ((assert_eq_ok (u := ())).mpr ?_) ?_
  · rw [length_input h, Nat.mul_mod_right]
    rfl
  refine (evaluateBlake2sWithParameters_computes h hlen _).mono fun words hwords => ⟨_, hwords, ?_⟩
  have hlength := hwords.2
  rw [zipWith_parameters] at hlength ⊢
  rw [blake2s256, blake2s, List.take_of_length_le]
  rw [List.length_flatMap, List.map_congr_left fun word _ => length_toLeBytes 4 word.toNat, List.map_const',
    List.sum_replicate_nat, hlength]

/-- The bytes of a hash of bytes. -/
theorem evaluateBlake2s_bytes {bytes : List B} (hlen : bytes.length < 2 ^ 61) {bits : List (List Boolean)}
    (hbits : bits.map (List.map Boolean.value) = bytes.map fun byte => byteBits (UInt8Var.value byte)) :
    Computes ((evaluateBlake2s bits.flatten : Gadget (List W)) >>= fun words =>
      words.mapM UInt32LeVar.toBytesLe >>= fun result => pure result.flatten) fun out : List B =>
        out.map UInt8Var.value = blake2s256 (bytes.map UInt8Var.value) := by
  have hinput : bits.flatten.map Boolean.value = (bytes.map UInt8Var.value).flatMap byteBits := by
    rw [List.map_flatten, hbits, List.flatMap_map]
    rfl
  refine (evaluateBlake2s_computes hinput (by rwa [List.length_map])).bind fun words ⟨values, hwords, hhash⟩ => ?_
  exact (toBytesLe_computes hwords).bind fun result hresult => .pure (hresult.trans hhash)

variable [UInt8BitsVar B] [LawfulUInt8BitsVar B]

/-- The gadget is BLAKE2s: started from the parameters, as a hash function, as a
pseudorandom function and as a commitment. -/
theorem computes_blake2s :
    (∀ (parameters : Vector UInt32 8) (message : List UInt8) (input : List Boolean), message.length < 2 ^ 61 →
      input.map Boolean.value = message.flatMap byteBits →
      Computes (evaluateBlake2sWithParameters input parameters : Gadget (List W)) fun words =>
        HaveValues 8 words (blake2sFrom (List.zipWith (· ^^^ ·) IV parameters.toList) message)) ∧
    (∀ (message : List UInt8) (input : List Boolean), message.length < 2 ^ 61 →
      input.map Boolean.value = message.flatMap byteBits →
      Computes (evaluateBlake2s input : Gadget (List W)) fun words => words.length = 8 ∧
        (words.map UInt32Var.value).flatMap (fun word => toLeBytes 4 word.toNat) = blake2s256 message) ∧
    (∀ seed x : List B, seed.length = 32 → (seed ++ x).length < 2 ^ 61 →
      Computes (Blake2sGadget.evaluate W seed x) fun out =>
        out.map UInt8Var.value = blake2s256 (seed.map UInt8Var.value ++ x.map UInt8Var.value)) ∧
    ∀ input r : List B, (input ++ r).length < 2 ^ 61 →
      Computes (CommGadget.commit W input r) fun out =>
        out.map UInt8Var.value = blake2s256 (input.map UInt8Var.value ++ r.map UInt8Var.value) := by
  refine ⟨fun parameters message input hlen h => evaluateBlake2sWithParameters_computes h hlen parameters,
    fun message input hlen h => ?_, fun seed x hseed hlen => ?_, fun input r hlen => ?_⟩
  · refine (evaluateBlake2s_computes h hlen).mono ?_
    rintro words ⟨values, hwords, hhash⟩
    exact ⟨hwords.length_eq, by rw [hwords.1, hhash]⟩
  · rw [← List.map_append]
    refine computes_liftM_bind ((assertEq_eq_ok (u := ())).mpr hseed) ?_
    refine (Computes.mapM_map fun byte _ => LawfulUInt8BitsVar.toBitsLe_computes byte).bind fun bits hbits => ?_
    exact evaluateBlake2s_bytes hlen hbits
  · rw [← List.map_append]
    refine (Computes.mapM_map fun byte _ => LawfulUInt8BitsVar.toBitsLe_computes byte).bind fun bits hbits => ?_
    exact evaluateBlake2s_bytes hlen hbits

end

/-- At a message of a block and a byte, one of two blocks, and seeds, inputs and randomness of more
than a block together. -/
theorem computes_blake2s_assigned :
    let message : List UInt8 := List.replicate 65 0xA5
    let blocks : List UInt8 := List.replicate 128 7
    Computes (evaluateBlake2sWithParameters ((message.flatMap byteBits).map .var) (Vector.replicate 8 3) :
        Gadget (List (Assigned UInt32)))
      (fun words =>
        HaveValues 8 words (blake2sFrom (List.zipWith (· ^^^ ·) IV (Vector.replicate 8 3).toList) message)) ∧
    Computes (evaluateBlake2s ((blocks.flatMap byteBits).map .constant) : Gadget (List (Assigned UInt32)))
      (fun words => words.length = 8 ∧
        (words.map UInt32Var.value).flatMap (fun word => toLeBytes 4 word.toNat) = blake2s256 blocks) ∧
    Computes (Blake2sGadget.evaluate (Assigned UInt32) (List.replicate 32 (.var 1)) (List.replicate 40 (.constant 2)))
      (fun out => out.map UInt8Var.value = blake2s256 (List.replicate 32 1 ++ List.replicate 40 2)) ∧
    Computes (CommGadget.commit (Assigned UInt32) (List.replicate 33 (.var 5)) (List.replicate 32 (.var 7)))
      (fun out => out.map UInt8Var.value = blake2s256 (List.replicate 33 5 ++ List.replicate 32 7)) := by
  intro message blocks
  have hvalues {f : Bool → Boolean} (hf : ∀ b, (f b).value = b) (bits : List Bool) :
      (bits.map f).map Boolean.value = bits := by
    rw [List.map_map]
    exact (List.map_congr_left fun b _ => hf b).trans (List.map_id bits)
  have h := computes_blake2s (B := Assigned UInt8) (W := Assigned UInt32)
  refine ⟨h.1 _ message _ (by decide) (hvalues (fun _ => rfl) _), h.2.1 blocks _ (by decide +kernel)
    (hvalues (fun _ => rfl) _), ?_, ?_⟩
  · have hseed : (List.replicate 32 (Assigned.var (1 : UInt8))).length = 32 := List.length_replicate
    have hprf := h.2.2.1 _ (List.replicate 40 (.constant 2)) hseed (by decide)
    rwa [List.map_replicate, List.map_replicate] at hprf
  · have hcommit := h.2.2.2 (List.replicate 33 (.var 5)) (List.replicate 32 (.var 7)) (by decide)
    rwa [List.map_replicate, List.map_replicate] at hcommit

end CryptoPrimitives.Blake2s
