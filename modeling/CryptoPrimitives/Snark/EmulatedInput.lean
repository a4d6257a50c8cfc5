import CryptoPrimitives.Framework.DoubleAndAdd
import CryptoPrimitives.Snark.BooleanInput
import CryptoPrimitives.Sponge.Emulated

/-!
# Inputs of another field as emulated elements

`EmulatedFieldInputVar::from_field_elements` of `snark/constraints.rs`. It rebuilds
elements from the bits of `BooleanInputVar`: limb by limb when one of the elements it is
given is a variable, and at once when all are constants.

* `emulatedOfFieldBits_computes`: the limbs of the bits of a chunk stand for its element.
* `constantOfFieldBits_eq`: the constant has the bits of the chunk in the opposite order.
* `fromFieldElementsAgree_iff`: on which elements the two are the same.
-/

namespace CryptoPrimitives.Snark

open Digits (ofBits limb)
open PrimeField (modulusBitSize)
open Sponge (EmulatedFp EmulatedFpVar AllocatedEmulatedFpVar limbsOf prime_65537)
open Synthesis (Computes)

/-- `xs.resize(n, x)`. -/
def resize {α : Type} (n : Nat) (x : α) (xs : List α) : List α := xs.take n ++ List.replicate (n - xs.length) x

section

variable {n : Nat}

/-- The loops over `bits.iter().rev()`, of which `term` adds to the sum what a bit weighs. -/
def sumBits (term : Boolean → ZMod n → ZMod n → ZMod n) (bits : List Boolean) : ZMod n :=
  (bits.reverse.foldl (fun acc bit => (term bit acc.1 acc.2, acc.2 + acc.2)) ((0, 1) : ZMod n × ZMod n)).1

/-- `value` or `limb_value` after the loop. -/
def valueOfBits (bits : List Boolean) : ZMod n :=
  sumBits (fun bit value cur => if bit.value then value + cur else value) bits

/-- The value of the linear combination after the loop. -/
def lcOfBits (bits : List Boolean) : ZMod n := sumBits (fun bit lc cur => lc + bit.lc * cur) bits

end

variable {p q : Nat} {V : Type} [FpVar p V]

/-- An element of the constant branch. -/
def constantOfFieldBits (q : Nat) (fieldBits : List Boolean) : ZMod q :=
  valueOfBits (resize (modulusBitSize q) (.constant false) fieldBits)

/-- An element of the branch of variables. -/
def emulatedOfFieldBits (E : EmulatedFp p q) (fieldBits : List Boolean) : Gadget (EmulatedFpVar p q V) := do
  let fieldBits := (resize (modulusBitSize q) (.constant false) fieldBits).reverse
  let lowLimbs ← liftM (usizeSub E.numLimbs 1 : Outcome Nat)
  let bitPerTopLimb ← liftM (usizeSub (modulusBitSize q) (lowLimbs * E.bitsPerLimb) : Outcome Nat)
  let limbs ← (List.range E.numLimbs).mapM fun j => do
    let bitsSlice ← liftM (if j = 0 then slice fieldBits 0 bitPerTopLimb
      else slice fieldBits (bitPerTopLimb + (j - 1) * E.bitsPerLimb) (bitPerTopLimb + j * E.bitsPerLimb) :
        Outcome (List Boolean))
    let limb ← FpVar.newWitness (valueOfBits bitsSlice)
    Synthesis.enforce (decide (lcOfBits bitsSlice - FpVar.value limb = 0))
    pure limb
  pure (.var { limbs, numOfAdditionsOverNormalForm := 0, isInTheNormalForm := true })

/-- `EmulatedFieldInputVar::from_field_elements`. -/
def EmulatedFieldInputVar.fromFieldElements [FpVarAlloc p V] (E : EmulatedFp p q) (src : List V) :
    Gadget (List (EmulatedFpVar p q V)) :=
  if src.all FpVarAlloc.csIsNone then do
    let booleanAllocation ← BooleanInputVar.fromFieldElements q src
    pure (booleanAllocation.map fun fieldBits => .constant (constantOfFieldBits q fieldBits))
  else do
    let booleanAllocation ← BooleanInputVar.fromFieldElements q src
    booleanAllocation.mapM (emulatedOfFieldBits E)

/-! ## The loops over bits -/

section

variable {n : Nat}

/-- Each bit has the weight of its place from the end. -/
theorem sumBits_eq {term : Boolean → ZMod n → ZMod n → ZMod n}
    (hterm : ∀ bit value cur, term bit value cur = if bit.value then value + cur else value) (bits : List Boolean) :
    sumBits term bits = (ofBits (bits.reverse.map Boolean.value) : Nat) := by
  have h := DoubleAndAdd.foldl_lsbFirst (bits.reverse.map Boolean.value) (0 : ZMod n) 1
  rw [List.foldl_map, zero_add, nsmul_one] at h
  simp only [sumBits, hterm]
  exact h

theorem valueOfBits_eq (bits : List Boolean) :
    (valueOfBits bits : ZMod n) = (ofBits (bits.reverse.map Boolean.value) : Nat) :=
  sumBits_eq (fun _ _ _ => rfl) bits

theorem lcOfBits_eq (bits : List Boolean) :
    (lcOfBits bits : ZMod n) = (ofBits (bits.reverse.map Boolean.value) : Nat) :=
  sumBits_eq (fun bit value cur => by rw [Boolean.lc]; cases bit.value <;> simp) bits

end

section

variable {α β : Type}

theorem resize_of_le {n : Nat} {x : α} {xs : List α} (h : xs.length ≤ n) :
    resize n x xs = xs ++ List.replicate (n - xs.length) x := by
  rw [resize, List.take_of_length_le h]

theorem length_resize {n : Nat} {x : α} {xs : List α} (h : xs.length ≤ n) : (resize n x xs).length = n := by
  rw [resize_of_le h, List.length_append, List.length_replicate, Nat.add_sub_cancel' h]

end

/-- Bits that are filled up stand for the same number. -/
theorem ofBits_resize {n : Nat} {bits : List Boolean} (h : bits.length ≤ n) :
    ofBits ((resize n (.constant false) bits).map Boolean.value) = ofBits (bits.map Boolean.value) := by
  rw [resize_of_le h, List.map_append, List.map_replicate, Digits.ofBits_append]
  show _ + _ * ofBits (List.replicate _ false) = _
  rw [Digits.ofBits_replicate_false, Nat.mul_zero, Nat.add_zero]

/-- The constant branch reads the bits in the opposite order. -/
theorem constantOfFieldBits_eq {fieldBits : List Boolean} (h : fieldBits.length ≤ modulusBitSize q) :
    constantOfFieldBits q fieldBits = (2 ^ (modulusBitSize q - fieldBits.length) *
      ofBits (fieldBits.map Boolean.value).reverse : Nat) := by
  rw [constantOfFieldBits, valueOfBits_eq, resize_of_le h, List.reverse_append, List.reverse_replicate,
    List.map_append, List.map_replicate, Digits.ofBits_append, List.length_replicate, List.map_reverse]
  show ((ofBits (List.replicate _ false) + _ : Nat) : ZMod q) = _
  rw [Digits.ofBits_replicate_false, Nat.zero_add]

/-! ## The limbs -/

/-- As many limbs as the modulus takes, which is how many `get_params` returns. -/
def LimbsFit (E : EmulatedFp p q) : Prop :=
  E.numLimbs = (modulusBitSize q + E.bitsPerLimb - 1) / E.bitsPerLimb

instance (E : EmulatedFp p q) : Decidable (LimbsFit E) := inferInstanceAs (Decidable (_ = _))

theorem slice_reverse {α : Type} {xs : List α} {start stop : Nat} (h : start ≤ stop) (hl : stop ≤ xs.length) :
    (slice xs.reverse start stop : Outcome (List α)) =
      .ok ((xs.take (xs.length - start)).drop (xs.length - stop)).reverse := by
  rw [slice_of_le h (by rw [List.length_reverse]; exact hl), List.drop_reverse, List.take_reverse,
    List.length_take_of_le (Nat.sub_le _ _), show xs.length - start - (stop - start) = xs.length - stop by omega]

/-- The bits of a limb, among bits of which the most significant ones come first. -/
theorem exists_bitsSlice {α : Type} {m w n : Nat} {bits : List α} (hlen : bits.length = n) (hlow : (m - 1) * w ≤ n)
    (hroom : n ≤ w * m) {j : Nat} (hj : j < m) :
    ∃ bitsSlice, (if j = 0 then slice bits.reverse 0 (n - (m - 1) * w)
        else slice bits.reverse (n - (m - 1) * w + (j - 1) * w) (n - (m - 1) * w + j * w) :
          Outcome (List α)) = .ok bitsSlice ∧
      ∀ value : α → Bool, ofBits (bitsSlice.reverse.map value) = limb w (ofBits (bits.map value)) (m - 1 - j) := by
  have hlt (value : α → Bool) : ofBits (bits.map value) < 2 ^ (w * m) := by
    have := Digits.ofBits_lt (bits.map value)
    rw [List.length_map, hlen] at this
    exact this.trans_le (Nat.pow_le_pow_right Nat.two_pos hroom)
  split
  · -- the top limb has the bits that are left above the others
    rename_i h0
    have hsucc : w * m = w * (m - 1) + w := by rw [← Nat.mul_succ, Nat.succ_eq_add_one, Nat.sub_add_cancel hj.pos]
    refine ⟨_, slice_reverse (Nat.zero_le _) (by omega), fun value => ?_⟩
    rw [List.reverse_reverse, hlen, Nat.sub_zero, List.take_of_length_le hlen.le, Nat.sub_sub_self hlow,
      List.map_drop, Digits.ofBits_drop, limb, h0, Nat.sub_zero, Nat.mul_comm (m - 1),
      Nat.mod_eq_of_lt (by rw [Nat.div_lt_iff_lt_mul (Nat.two_pow_pos _), ← pow_add, Nat.add_comm, ← hsucc]; exact hlt value)]
  · obtain ⟨i, rfl⟩ : ∃ i, j = i + 1 := ⟨j - 1, by omega⟩
    obtain ⟨k, rfl⟩ : ∃ k, m = k + 1 + (i + 1) := ⟨m - 1 - (i + 1), by omega⟩
    have hsum : (k + 1 + (i + 1) - 1) * w = k * w + w + i * w := by
      rw [show k + 1 + (i + 1) - 1 = k + 1 + i by omega]
      ring
    have hstep : (i + 1) * w = i * w + w := Nat.succ_mul i w
    rw [hsum] at hlow
    rw [hsum, show i + 1 - 1 = i from rfl]
    refine ⟨_, slice_reverse (by omega) (by omega), fun value => ?_⟩
    rw [List.reverse_reverse, hlen,
      show n - (n - (k * w + w + i * w) + i * w) = w * k + w by rw [Nat.mul_comm w k]; omega,
      show n - (n - (k * w + w + i * w) + (i + 1) * w) = w * k by rw [Nat.mul_comm w k]; omega,
      show k + 1 + (i + 1) - 1 - (i + 1) = k by omega, List.map_drop, List.map_take, Digits.ofBits_drop,
      Digits.ofBits_take, pow_add, Nat.mod_mul_right_div_self]
    rfl

theorem limbsOf_eq (w m n : Nat) :
    limbsOf p w m n = (List.range m).map fun j => ((limb w n (m - 1 - j) : Nat) : ZMod p) := by
  rw [limbsOf, List.range_eq_range', List.reverse_range', List.map_map, List.range_eq_range']
  refine List.map_congr_left fun j _ => ?_
  rw [Function.comp_apply, Nat.zero_add]

section

variable [LawfulFpVar p V] [Fact p.Prime] [Fact q.Prime] {E : EmulatedFp p q}

/-- The element of the bits of a chunk. -/
theorem emulatedOfFieldBits_computes (hE : E.Lawful) (hfit : LimbsFit E) {fieldBits : List Boolean}
    (h : fieldBits.length ≤ modulusBitSize q) :
    Computes (emulatedOfFieldBits E fieldBits : Gadget (EmulatedFpVar p q V)) fun v =>
      v.value E = (ofBits (fieldBits.map Boolean.value) : Nat) := by
  have hroom := hE.modulusBitSize_le
  have hw := hE.bitsPerLimb_pos
  have hm := hE.numLimbs_pos
  have hlow : (E.numLimbs - 1) * E.bitsPerLimb ≤ modulusBitSize q := by
    have := Nat.div_mul_le_self (modulusBitSize q + E.bitsPerLimb - 1) E.bitsPerLimb
    rw [← hfit] at this
    rw [Nat.sub_mul, Nat.one_mul]
    omega
  have hlimb (j : Nat) (hj : j ∈ List.range E.numLimbs) : Computes (do
        let bitsSlice ← liftM (if j = 0 then
            slice (resize (modulusBitSize q) (.constant false) fieldBits).reverse 0
              (modulusBitSize q - (E.numLimbs - 1) * E.bitsPerLimb)
          else slice (resize (modulusBitSize q) (.constant false) fieldBits).reverse
            (modulusBitSize q - (E.numLimbs - 1) * E.bitsPerLimb + (j - 1) * E.bitsPerLimb)
            (modulusBitSize q - (E.numLimbs - 1) * E.bitsPerLimb + j * E.bitsPerLimb) : Outcome (List Boolean))
        let limb ← FpVar.newWitness (valueOfBits bitsSlice)
        Synthesis.enforce (decide (lcOfBits bitsSlice - FpVar.value limb = 0))
        pure limb : Gadget V) fun v => FpVar.value v =
          ((limb E.bitsPerLimb (ofBits (fieldBits.map Boolean.value)) (E.numLimbs - 1 - j) : Nat) : ZMod p) := by
    obtain ⟨bitsSlice, hslice, hvalue⟩ := exists_bitsSlice (length_resize h) hlow hroom (List.mem_range.mp hj)
    have hbits := hvalue Boolean.value
    rw [ofBits_resize h] at hbits
    refine computes_liftM_bind hslice ?_
    refine (LawfulFpVar.newWitness_computes _).bind fun limb hvalue => ?_
    rw [valueOfBits_eq, hbits] at hvalue
    refine (Computes.enforce ?_).bind fun _ _ => .pure hvalue
    rw [lcOfBits_eq, hbits, hvalue, sub_self]
    exact decide_eq_true rfl
  rw [emulatedOfFieldBits]
  refine computes_liftM_bind (usizeSub_of_le hm) ?_
  refine computes_liftM_bind (usizeSub_of_le hlow) ?_
  refine (Computes.mapM_map hlimb).bind fun limbs hlimbs => .pure ?_
  show E.limbsToValue (limbs.map FpVar.value) = _
  rw [hlimbs, ← limbsOf_eq]
  refine Sponge.limbsToValue_limbsOf hE ?_
  have hlt := Digits.ofBits_lt (fieldBits.map Boolean.value)
  rw [List.length_map] at hlt
  exact hlt.trans_le (Nat.pow_le_pow_right Nat.two_pos (h.trans hroom))

/-! ## Constants and variables -/

/-- The elements `xs`, given as constants and given as variables, lead to those that
`repack_input` packs them into. -/
def FromFieldElementsAgree (V : Type) [FpVar p V] [FpVarAlloc p V] (E : EmulatedFp p q) (xs : List (ZMod p)) :
    Prop :=
  ∃ dest, repackInput q xs = .ok dest ∧
    Computes (EmulatedFieldInputVar.fromFieldElements E (xs.map FpVar.constant : List V))
      (fun vs => vs.map (EmulatedFpVar.value E) = dest) ∧
    ∀ vars : List V, (∀ v ∈ vars, FpVarAlloc.csIsNone v = false) → vars.map FpVar.value = xs →
      Computes (EmulatedFieldInputVar.fromFieldElements E vars) fun vs =>
        vs.map (EmulatedFpVar.value E) = dest

/-- Each chunk of the bits of `xs`, filled up to an element of the field of `q` elements,
stands for the same element when its bits are read in the opposite order. -/
def ReadsAlike (q : Nat) (xs : List (ZMod p)) : Prop :=
  ∀ chunk ∈ chunks (capacity q p) (srcBits xs),
    2 ^ (modulusBitSize q - chunk.length) * ofBits chunk ≡ ofBits chunk.reverse [MOD q]

omit [Fact p.Prime] in
theorem length_le_of_values {booleans : List (List Boolean)} {bits : List Bool}
    (h : booleans.map (List.map Boolean.value) = (chunks (capacity q p) bits).map List.reverse) :
    ∀ fieldBits ∈ booleans, fieldBits.length ≤ modulusBitSize q := fun fieldBits hmem => by
  have hvalues := List.mem_map_of_mem (f := List.map Boolean.value) hmem
  rw [h] at hvalues
  obtain ⟨chunk, hchunk, heq⟩ := List.mem_map.mp hvalues
  rw [← List.length_map Boolean.value, ← heq, List.length_reverse]
  exact (length_le_of_mem_chunks capacity_pos hchunk).trans capacity_le

instance (q : Nat) (xs : List (ZMod p)) : Decidable (ReadsAlike q xs) :=
  inferInstanceAs (Decidable (∀ chunk ∈ _, _))

variable [FpVarAlloc p V]

omit [Fact p.Prime] in
/-- The constant branch, on elements of these values. -/
theorem fromFieldElements_constants {src : List V} (h : ∀ v ∈ src, FpVarAlloc.csIsNone v = true) :
    Computes (EmulatedFieldInputVar.fromFieldElements E src) fun vs => vs.map (EmulatedFpVar.value E) =
      (chunks (capacity q p) (srcBits (src.map FpVar.value))).map fun chunk =>
        ((2 ^ (modulusBitSize q - chunk.length) * ofBits chunk : Nat) : ZMod q) := by
  rw [EmulatedFieldInputVar.fromFieldElements, if_pos (List.all_eq_true.mpr h)]
  refine (BooleanInputVar.fromFieldElements_computes src).bind fun booleans hbits => .pure ?_
  have hlen := length_le_of_values hbits
  calc _ = booleans.map fun fieldBits => constantOfFieldBits q fieldBits := by rw [List.map_map]; rfl
    _ = booleans.map ((fun bits => ((2 ^ (modulusBitSize q - bits.length) * ofBits bits.reverse : Nat) : ZMod q)) ∘
          List.map Boolean.value) := List.map_congr_left fun fieldBits hmem => by
        rw [constantOfFieldBits_eq (hlen fieldBits hmem), Function.comp_apply, List.length_map]
    _ = _ := by
        rw [← List.map_map, hbits, List.map_map]
        exact List.map_congr_left fun chunk _ => by
          rw [Function.comp_apply, List.length_reverse, List.reverse_reverse]

/-- The branch of variables, on elements of these values. -/
theorem fromFieldElements_variables (hE : E.Lawful) (hfit : LimbsFit E) {src : List V}
    (h : ∃ v ∈ src, FpVarAlloc.csIsNone v = false) :
    Computes (EmulatedFieldInputVar.fromFieldElements E src) fun vs => vs.map (EmulatedFpVar.value E) =
      (chunks (capacity q p) (srcBits (src.map FpVar.value))).map (chunkElement q) := by
  obtain ⟨v, hmem, hv⟩ := h
  rw [EmulatedFieldInputVar.fromFieldElements, if_neg fun hall => by
    rw [List.all_eq_true.mp hall v hmem] at hv
    exact Bool.noConfusion hv]
  refine (BooleanInputVar.fromFieldElements_computes src).bind fun booleans hbits => ?_
  have hlen := length_le_of_values hbits
  refine (Computes.mapM_map fun fieldBits hmem => emulatedOfFieldBits_computes hE hfit (hlen fieldBits hmem)).mono
    fun vs hvs => ?_
  rw [hvs]
  calc booleans.map (fun fieldBits => ((ofBits (fieldBits.map Boolean.value) : Nat) : ZMod q))
      = (booleans.map (List.map Boolean.value)).map fun bits => ((ofBits bits : Nat) : ZMod q) := by
        rw [List.map_map]; rfl
    _ = _ := by rw [hbits, List.map_map]; rfl

omit [Fact p.Prime] in
theorem fromFieldElements_constant_computes [LawfulFpVarAlloc p V] (E : EmulatedFp p q) (xs : List (ZMod p)) :
    Computes (EmulatedFieldInputVar.fromFieldElements E (xs.map FpVar.constant : List V)) fun vs =>
      vs.map (EmulatedFpVar.value E) = (chunks (capacity q p) (srcBits xs)).map fun chunk =>
        ((2 ^ (modulusBitSize q - chunk.length) * ofBits chunk : Nat) : ZMod q) := by
  have hvalues : (xs.map FpVar.constant : List V).map FpVar.value = xs :=
    Function.LeftInverse.list_map LawfulFpVar.value_constant xs
  have h := @fromFieldElements_constants p q V _ _ _ E _ (xs.map FpVar.constant) fun v hv => by
    obtain ⟨x, -, rfl⟩ := List.mem_map.mp hv
    exact LawfulFpVarAlloc.csIsNone_constant x
  rwa [hvalues] at h

omit [Fact p.Prime] in
theorem readsAlike_iff_map (xs : List (ZMod p)) : ReadsAlike q xs ↔
    (chunks (capacity q p) (srcBits xs)).map (fun chunk =>
        ((2 ^ (modulusBitSize q - chunk.length) * ofBits chunk : Nat) : ZMod q)) =
      (chunks (capacity q p) (srcBits xs)).map (chunkElement q) := by
  rw [List.map_inj_left]
  exact forall₂_congr fun chunk _ => (ZMod.natCast_eq_natCast_iff _ _ q).symm

theorem FromFieldElementsAgree.readsAlike [LawfulFpVarAlloc p V] {xs : List (ZMod p)}
    (h : FromFieldElementsAgree V E xs) : ReadsAlike q xs := by
  obtain ⟨dest, hdest, hagree, -⟩ := h
  rw [repackInput_eq, Except.ok.injEq] at hdest
  obtain ⟨vs, hvs, hvs'⟩ := (fromFieldElements_constant_computes E xs).exists_and hagree
  rw [readsAlike_iff_map, ← hvs, hvs', hdest]

/-- The branches agree on the elements whose chunks can be read in either order. -/
theorem fromFieldElementsAgree_iff [LawfulFpVarAlloc p V] (hE : E.Lawful) (hfit : LimbsFit E)
    (xs : List (ZMod p)) : FromFieldElementsAgree V E xs ↔ ReadsAlike q xs := by
  refine ⟨FromFieldElementsAgree.readsAlike, fun h => ?_⟩
  rw [readsAlike_iff_map] at h
  refine ⟨_, repackInput_eq xs, (fromFieldElements_constant_computes E xs).mono fun vs hvs => hvs.trans h, ?_⟩
  rintro vars hvars rfl
  cases vars with
  | nil => exact fromFieldElements_constants nofun
  | cons v vars => exact fromFieldElements_variables hE hfit ⟨v, List.mem_cons_self, hvars v List.mem_cons_self⟩

end

/-! ## A field of 17 bits -/

theorem fromFieldElementsAgree_palindromes :
    FromFieldElementsAgree (Assigned (ZMod 65537)) (EmulatedFp.positional 65537 65537 17 1) [256, 32770] := by
  have hE : (EmulatedFp.positional 65537 65537 17 1).Lawful :=
    EmulatedFp.positional_lawful (by decide +kernel) (by decide)
  have hfit : LimbsFit (EmulatedFp.positional 65537 65537 17 1) := by decide +kernel
  have halike : ReadsAlike (p := 65537) 65537 [256, 32770] := by decide +kernel
  have : Fact (Nat.Prime 65537) := ⟨prime_65537⟩
  exact (fromFieldElementsAgree_iff hE hfit [256, 32770]).mpr halike

/-- The constant 1 leads to the element `2 ^ 16`. -/
theorem not_fromFieldElementsAgree_one :
    ¬FromFieldElementsAgree (Assigned (ZMod 65537)) (EmulatedFp.positional 65537 65537 17 1) [1] := by
  have halike : ¬ReadsAlike (p := 65537) 65537 [1] := by decide +kernel
  have : Fact (Nat.Prime 65537) := ⟨prime_65537⟩
  exact fun h => halike h.readsAlike

end CryptoPrimitives.Snark
