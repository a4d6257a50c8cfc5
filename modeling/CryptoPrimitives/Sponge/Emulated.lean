import CryptoPrimitives.Sponge.Constraints
import Mathlib.Tactic.NormNum.Prime

/-!
# Elements of another field in a circuit

`sponge/constraints/mod.rs`: `bits_le_to_emulated`, and the squeeze of elements of
given sizes that uses it. `EmulatedFp` is what it takes from `ark-r1cs-std`.

* `bitsLeToEmulated_computes`: the elements have the values of their bits.
* `squeezeEmulatedFieldElementsWithSizes_computes`: the gadget returns what the
  default implementation of the sponge returns.
-/

namespace CryptoPrimitives.Sponge

open Digits (ofBits limb)
open PrimeField (modulusBitSize)
open Synthesis (Computes Mirrors)

/-- The limbs of elements of the field of `q` elements, in a circuit over that of `p`:
`get_params` for `OptimizationType::Constraints`, and `get_limbs_representations` and
`limbs_to_value` of `AllocatedEmulatedFpVar`. -/
structure EmulatedFp (p q : Nat) where
  numLimbs : Nat
  bitsPerLimb : Nat
  getLimbsRepresentations : ZMod q → Except SynthesisFault (List (ZMod p))
  limbsToValue : List (ZMod p) → ZMod q

/-- The limbs of a number in base `2 ^ w`, the most significant one first. -/
def limbsOf (p w m n : Nat) : List (ZMod p) := (List.range m).reverse.map fun k => (limb w n k : Nat)

/-- An element has the limbs of its number, they have room for all of them, and none
is reduced in the field of the circuit. -/
structure EmulatedFp.Lawful {p q : Nat} (E : EmulatedFp p q) : Prop where
  modulusBitSize_le : modulusBitSize q ≤ E.bitsPerLimb * E.numLimbs
  two_pow_le : 2 ^ E.bitsPerLimb ≤ p
  getLimbsRepresentations_eq (x : ZMod q) :
    E.getLimbsRepresentations x = .ok (limbsOf p E.bitsPerLimb E.numLimbs x.val)
  limbsToValue_eq (limbs : List (ZMod p)) : E.limbsToValue limbs =
    ((limbs.map ZMod.val).foldl (fun acc limb => acc * 2 ^ E.bitsPerLimb + limb) 0 : Nat)

theorem EmulatedFp.Lawful.bitsPerLimb_pos {p q : Nat} {E : EmulatedFp p q} (hE : E.Lawful) : 0 < E.bitsPerLimb :=
  Nat.pos_of_ne_zero fun h0 => by
    have hroom := hE.modulusBitSize_le
    rw [h0, Nat.zero_mul, modulusBitSize] at hroom
    omega

theorem EmulatedFp.Lawful.numLimbs_pos {p q : Nat} {E : EmulatedFp p q} (hE : E.Lawful) : 0 < E.numLimbs :=
  Nat.pos_of_ne_zero fun h0 => by
    have hroom := hE.modulusBitSize_le
    rw [h0, Nat.mul_zero, modulusBitSize] at hroom
    omega

/-- The limbs themselves, as many as asked for. -/
def EmulatedFp.positional (p q numLimbs bitsPerLimb : Nat) : EmulatedFp p q where
  numLimbs := numLimbs
  bitsPerLimb := bitsPerLimb
  getLimbsRepresentations x := .ok (limbsOf p bitsPerLimb numLimbs x.val)
  limbsToValue limbs := ((limbs.map ZMod.val).foldl (fun acc limb => acc * 2 ^ bitsPerLimb + limb) 0 : Nat)

theorem EmulatedFp.positional_lawful {p q numLimbs bitsPerLimb : Nat}
    (hroom : modulusBitSize q ≤ bitsPerLimb * numLimbs) (hfield : 2 ^ bitsPerLimb ≤ p) :
    (positional p q numLimbs bitsPerLimb).Lawful :=
  ⟨hroom, hfield, fun _ => rfl, fun _ => rfl⟩

-- over a field of 17 bits `get_params` finds limbs of one bit, and over a much smaller one none
theorem prime_65537 : Nat.Prime 65537 := by norm_num

theorem prime_131071 : Nat.Prime 131071 := by norm_num

/-- `AllocatedEmulatedFpVar`. -/
structure AllocatedEmulatedFpVar (p : Nat) (V : Type) where
  limbs : List V
  numOfAdditionsOverNormalForm : ZMod p
  isInTheNormalForm : Bool

/-- `EmulatedFpVar`. -/
inductive EmulatedFpVar (p q : Nat) (V : Type) where
  | constant (x : ZMod q)
  | var (v : AllocatedEmulatedFpVar p V)

section

variable {p q : Nat} {V : Type} [FpVar p V]

/-- The element that a variable stands for. -/
def EmulatedFpVar.value (E : EmulatedFp p q) : EmulatedFpVar p q V → ZMod q
  | constant x => x
  | var v => E.limbsToValue (v.limbs.map FpVar.value)

/-- The rows of `lookup_table` from the one of `cur` on. -/
def lookupTable (E : EmulatedFp p q) : Nat → ZMod q → Gadget (List (List (ZMod p)))
  | 0, _ => pure []
  | n + 1, cur => do
    let repr ← liftM (E.getLimbsRepresentations cur)
    let rest ← lookupTable E n (cur + cur)
    pure (repr :: rest)

/-- `lc[k] + c * table[row][k]` for each `k`, the linear combinations by their values. -/
def addMultiple (c : ZMod p) (table : List (List (ZMod p))) (lc : List (ZMod p)) (row : Nat) :
    Outcome (List (ZMod p)) :=
  lc.zipIdx.mapM fun entry => do
    let keys ← index table row
    let key ← index keys entry.2
    pure (entry.1 + c * key)

/-- The step of the loop over the bits of an element, on `val` and `lc`. -/
def addBit (table : List (List (ZMod p))) (acc : List (ZMod p) × List (ZMod p)) (entry : Boolean × Nat) :
    Outcome (List (ZMod p) × List (ZMod p)) := do
  let val ← if entry.1.value then addRow table acc.1 entry.2 else pure acc.1
  let lc ← addMultiple entry.1.lc table acc.2 entry.2
  pure (val, lc)

/-- The element of one list of bits. -/
def emulatedOfBits (E : EmulatedFp p q) (table : List (List (ZMod p))) (emulatedBitsLe : List Boolean) :
    Gadget (EmulatedFpVar p q V) := do
  let (val, lc) ← liftM (emulatedBitsLe.zipIdx.foldlM (addBit table)
    (List.replicate E.numLimbs 0, List.replicate E.numLimbs 0) : Outcome (List (ZMod p) × List (ZMod p)))
  let limbs ← (val.zip lc).mapM fun entry => do
    let gadget ← FpVar.newWitness entry.1
    Synthesis.enforce (decide (entry.2 - FpVar.value gadget = 0))
    pure gadget
  pure (.var { limbs, numOfAdditionsOverNormalForm := 0, isInTheNormalForm := true })

/-- `bits_le_to_emulated`. -/
def bitsLeToEmulated (E : EmulatedFp p q) (allEmulatedBitsLe : List (List Boolean)) :
    Gadget (List (EmulatedFpVar p q V)) :=
  if allEmulatedBitsLe.isEmpty then pure []
  else do
    let maxEmulatedBits := allEmulatedBitsLe.foldl (fun bound bits => max bound bits.length) 0
    let table ← lookupTable E maxEmulatedBits 1
    allEmulatedBitsLe.mapM (emulatedOfBits E table)

/-- `squeeze_emulated_field_elements_with_sizes`, for elements of the field of `q`
elements. -/
def PoseidonSpongeVar.squeezeEmulatedFieldElementsWithSizes (E : EmulatedFp p q) (G : Duplex Gadget V)
    (self : DuplexSponge V) (sizes : List FieldElementSize) :
    Gadget ((List (EmulatedFpVar p q V) × List (List Boolean)) × DuplexSponge V) :=
  if sizes.length = 0 then pure (([], []), self)
  else do
    let total ← liftM (totalBits q sizes)
    let (bits, self) ← squeezeBits G self total
    let destBits ← liftM (bitsWindows q sizes bits)
    let destGadgets ← bitsLeToEmulated E destBits
    pure ((destGadgets, destBits), self)

end

/-! ## Limbs of bits -/

section

variable {p q : Nat}

theorem zipWith_limbsOf (f : ZMod p → ZMod p → ZMod p) (w m a b : Nat) :
    List.zipWith f (limbsOf p w m a) (limbsOf p w m b) =
      (List.range m).reverse.map fun k => f (limb w a k : Nat) (limb w b k : Nat) := by
  rw [limbsOf, limbsOf, List.zipWith_map, List.zipWith_self]

theorem length_limbsOf (w m n : Nat) : (limbsOf p w m n).length = m := by
  rw [limbsOf, List.length_map, List.length_reverse, List.length_range]

/-- The limbs of a power of two, or of nothing, are added limb by limb above a number. -/
theorem zipWith_limbsOf_add {w m n d : Nat} (hd : d = 0 ∨ ∃ j, n < 2 ^ j ∧ d = 2 ^ j) (b : Bool) :
    List.zipWith (fun x key => x + (if b then 1 else 0) * key) (limbsOf p w m n) (limbsOf p w m d) =
      limbsOf p w m (n + if b then d else 0) := by
  rw [zipWith_limbsOf]
  refine List.map_congr_left fun k _ => ?_
  cases b with
  | false => simp
  | true =>
    rw [if_pos rfl, if_pos rfl, one_mul, ← Nat.cast_add]
    rcases hd with rfl | ⟨j, hn, rfl⟩
    · rw [Nat.add_zero, Digits.limb_zero, Nat.add_zero]
    · rw [Digits.limb_add_two_pow hn k]

theorem addRow_limbsOf {table : List (List (ZMod p))} {row w m n d : Nat}
    (hrow : table[row]? = some (limbsOf p w m d)) (hd : d = 0 ∨ ∃ j, n < 2 ^ j ∧ d = 2 ^ j) :
    addRow table (limbsOf p w m n) row = .ok (limbsOf p w m (n + d)) := by
  have hadd := zipWith_limbsOf_add (p := p) (w := w) (m := m) hd true
  simp only [if_true, one_mul] at hadd
  rw [addRow, zipIdx_mapM_index hrow (· + ·) (by rw [length_limbsOf, length_limbsOf]), hadd]

/-- A step adds to `val` and `lc` the limbs of a power of two, or of nothing, above the
number they have the limbs of. -/
theorem addBit_limbsOf {table : List (List (ZMod p))} {row w m n d : Nat}
    (hrow : table[row]? = some (limbsOf p w m d)) (hd : d = 0 ∨ ∃ j, n < 2 ^ j ∧ d = 2 ^ j) (b : Boolean) :
    addBit table (limbsOf p w m n, limbsOf p w m n) (b, row) =
      .ok (limbsOf p w m (n + if b.value then d else 0), limbsOf p w m (n + if b.value then d else 0)) := by
  have hlc : addMultiple b.lc table (limbsOf p w m n) row = .ok (limbsOf p w m (n + if b.value then d else 0)) := by
    rw [addMultiple, zipIdx_mapM_index hrow (fun x key => x + b.lc * key) (by rw [length_limbsOf, length_limbsOf]),
      Boolean.lc, zipWith_limbsOf_add hd]
  rw [addBit, hlc, addRow_limbsOf hrow hd]
  cases b.value <;> rfl

theorem two_pow_mod {q : Nat} (hq : q ≠ 0) {j : Nat} (h : j < modulusBitSize q) :
    2 ^ j % q = 0 ∨ 2 ^ j % q = 2 ^ j := by
  have hle : 2 ^ j ≤ q := (Nat.pow_le_pow_right Nat.two_pos (by rw [modulusBitSize] at h; omega)).trans
    (Nat.log2_self_le hq)
  rcases hle.lt_or_eq with hlt | heq
  · exact .inr (Nat.mod_eq_of_lt hlt)
  · exact .inl (by rw [heq, Nat.mod_self])

theorem limbsOf_zero (w m : Nat) : limbsOf p w m 0 = List.replicate m 0 := by
  rw [limbsOf, List.eq_replicate_iff]
  refine ⟨by rw [List.length_map, List.length_reverse, List.length_range], fun x hx => ?_⟩
  obtain ⟨k, -, rfl⟩ := List.mem_map.mp hx
  rw [Digits.limb_zero, Nat.cast_zero]

/-- The loop over the bits adds up the limbs of a number that stands for their element:
a power of two that is no element is reduced, the sum is not. -/
theorem exists_foldlM_addBit (hq : q ≠ 0) {table : List (List (ZMod p))} {w m : Nat} {bits : List Boolean}
    (hbits : bits.length ≤ modulusBitSize q)
    (htable : ∀ j < bits.length, table[j]? = some (limbsOf p w m (2 ^ j % q))) :
    ∃ n < 2 ^ bits.length, (bits.zipIdx.foldlM (addBit table) (List.replicate m 0, List.replicate m 0) :
        Outcome _) = .ok (limbsOf p w m n, limbsOf p w m n) ∧
      (n : ZMod q) = (ofBits (bits.map Boolean.value) : Nat) := by
  induction bits using List.reverseRecOn with
  | nil => exact ⟨0, Nat.one_pos, by rw [limbsOf_zero]; rfl, rfl⟩
  | append_singleton bits b ih =>
    rw [List.length_append, List.length_singleton] at hbits htable
    obtain ⟨n, hn, hfold, hcast⟩ := ih (by omega) fun j hj => htable j (by omega)
    have hd := two_pow_mod hq (show bits.length < modulusBitSize q by omega)
    have hstep := addBit_limbsOf (n := n) (htable bits.length (by omega))
      (hd.imp_right fun h => ⟨bits.length, hn, h⟩) b
    have hpow : 2 ^ (bits.length + 1) = 2 ^ bits.length * 2 := pow_succ ..
    have hdle : 2 ^ bits.length % q ≤ 2 ^ bits.length := Nat.mod_le _ _
    refine ⟨n + if b.value then 2 ^ bits.length % q else 0, ?_, ?_, ?_⟩
    · rw [List.length_append, List.length_singleton, hpow]
      split <;> omega
    · rw [List.zipIdx_append, List.foldlM_append, hfold, Except.ok_bind, List.zipIdx_singleton, Nat.zero_add,
        List.foldlM_cons, hstep]
      rfl
    · rw [List.map_append, List.map_cons, List.map_nil, Digits.ofBits_concat, List.length_map, Nat.cast_add,
        hcast, Nat.cast_add]
      cases b.value with
      | false => simp
      | true => simp

end

/-! ## The gadgets -/

section

variable {p q : Nat} {E : EmulatedFp p q}

theorem lookupTable_computes (hE : E.Lawful) (n : Nat) (x : ZMod q) :
    Computes (lookupTable E n x) fun table =>
      table = (List.range n).map fun j => limbsOf p E.bitsPerLimb E.numLimbs (2 ^ j * x).val := by
  induction n generalizing x with
  | zero => exact .pure rfl
  | succ n ih =>
    refine (Computes.lift (hE.getLimbsRepresentations_eq x) rfl).bind ?_
    rintro _ rfl
    refine (ih (x + x)).bind ?_
    rintro _ rfl
    refine .pure ?_
    rw [List.range_succ_eq_map, List.map_cons, List.map_map, pow_zero, one_mul]
    congr 1
    refine List.map_congr_left fun j _ => ?_
    rw [Function.comp_apply, pow_succ, mul_assoc, two_mul]

variable {V : Type} [FpVar p V] [LawfulFpVar p V]

/-- The limbs of a number below the room for them, read from the most significant one down. -/
theorem foldl_limbsOf [NeZero p] {w m n : Nat} (hfield : 2 ^ w ≤ p) (h : n < 2 ^ (w * m)) :
    ((limbsOf p w m n).map ZMod.val).foldl (fun acc limb => acc * 2 ^ w + limb) 0 = n := by
  have hval : (limbsOf p w m n).map ZMod.val = (List.range m).reverse.map (limb w n) := by
    rw [limbsOf, List.map_map]
    exact List.map_congr_left fun k _ => ZMod.val_natCast_of_lt ((Digits.limb_lt _ n k).trans_le hfield)
  rw [hval, Digits.foldl_limbs, Nat.zero_mul, Nat.zero_add, Nat.mod_eq_of_lt h]

/-- The limbs of a number below the room for them stand for it. -/
theorem limbsToValue_limbsOf [Fact p.Prime] (hE : E.Lawful) {n : Nat}
    (h : n < 2 ^ (E.bitsPerLimb * E.numLimbs)) :
    E.limbsToValue (limbsOf p E.bitsPerLimb E.numLimbs n) = (n : Nat) := by
  rw [hE.limbsToValue_eq, foldl_limbsOf hE.two_pow_le h]

theorem emulatedOfBits_computes [Fact p.Prime] [Fact q.Prime] (hE : E.Lawful) {bits : List Boolean}
    (hbits : bits.length ≤ modulusBitSize q) {n : Nat} (hn : bits.length ≤ n) :
    Computes (emulatedOfBits E ((List.range n).map fun j =>
        limbsOf p E.bitsPerLimb E.numLimbs (2 ^ j * (1 : ZMod q)).val) bits : Gadget (EmulatedFpVar p q V))
      fun v => v.value E = elementOfBits q (bits.map Boolean.value) := by
  have hq : q ≠ 0 := (Fact.out : q.Prime).ne_zero
  have htable : ∀ j < bits.length, ((List.range n).map fun j =>
      limbsOf p E.bitsPerLimb E.numLimbs (2 ^ j * (1 : ZMod q)).val)[j]? =
        some (limbsOf p E.bitsPerLimb E.numLimbs (2 ^ j % q)) := fun j hj => by
    rw [List.getElem?_map, List.getElem?_range (hj.trans_le hn), Option.map_some, mul_one,
      show (2 ^ j : ZMod q) = ((2 ^ j : Nat) : ZMod q) by rw [Nat.cast_pow]; rfl, ZMod.val_natCast]
  obtain ⟨k, hk, hfold, hcast⟩ := exists_foldlM_addBit hq hbits htable
  have hroom : k < 2 ^ (E.bitsPerLimb * E.numLimbs) :=
    hk.trans_le (Nat.pow_le_pow_right Nat.two_pos (hbits.trans hE.modulusBitSize_le))
  refine computes_liftM_bind hfold ?_
  have hwitness (entry : ZMod p × ZMod p) (h : entry ∈ (limbsOf p E.bitsPerLimb E.numLimbs k).zip
      (limbsOf p E.bitsPerLimb E.numLimbs k)) : Computes (do
        let gadget ← FpVar.newWitness entry.1
        Synthesis.enforce (decide (entry.2 - FpVar.value gadget = 0))
        pure gadget : Gadget V) fun v => FpVar.value v = entry.1 := by
    rw [List.zip_eq_zipWith, List.zipWith_self] at h
    obtain ⟨x, -, rfl⟩ := List.mem_map.mp h
    refine (LawfulFpVar.newWitness_computes x).bind fun v hv => ?_
    refine (Computes.enforce (by rw [hv, sub_self]; exact decide_eq_true rfl)).bind fun _ _ => .pure hv
  refine (Computes.mapM_map hwitness).bind fun limbs hlimbs => .pure ?_
  rw [List.map_fst_zip le_rfl] at hlimbs
  rw [elementOfBits_eq, ← hcast, ← limbsToValue_limbsOf hE hroom, ← hlimbs]
  rfl

theorem le_foldl_max {α : Type} (f : α → Nat) {x : α} {xs : List α} (h : x ∈ xs) (b : Nat) :
    f x ≤ xs.foldl (fun bound x => max bound (f x)) b := by
  have hle (xs : List α) : ∀ b, b ≤ xs.foldl (fun bound x => max bound (f x)) b := by
    induction xs with
    | nil => exact le_refl
    | cons y xs ih => exact fun b => (le_max_left b (f y)).trans (ih _)
  induction xs generalizing b with
  | nil => exact absurd h List.not_mem_nil
  | cons y xs ih =>
    rcases List.mem_cons.mp h with rfl | h
    · exact (le_max_right b (f x)).trans (hle xs _)
    · exact ih h _

theorem bitsLeToEmulated_computes [Fact p.Prime] [Fact q.Prime] (hE : E.Lawful) {all : List (List Boolean)}
    (hall : ∀ bits ∈ all, bits.length ≤ modulusBitSize q) :
    Computes (bitsLeToEmulated E all : Gadget (List (EmulatedFpVar p q V)))
      fun vs => vs.map (EmulatedFpVar.value E) = all.map fun bits => elementOfBits q (bits.map Boolean.value) := by
  rw [bitsLeToEmulated]
  split
  · rename_i h
    rw [List.isEmpty_iff.mp h]
    exact .pure rfl
  · have hmax : ∀ bits ∈ all, bits.length ≤ all.foldl (fun bound bits => max bound bits.length) 0 :=
      fun bits h => le_foldl_max List.length h 0
    refine (lookupTable_computes hE _ 1).bind ?_
    rintro _ rfl
    exact Computes.mapM_map fun bits h => emulatedOfBits_computes hE (hall bits h) (hmax bits h)

/-- The gadget returns the elements of the windows of the bits that the sponge squeezes. -/
theorem squeezeEmulatedFieldElementsWithSizes_computes [Fact p.Prime] [Fact q.Prime] (hE : E.Lawful)
    {D : Duplex Outcome (ZMod p)} {G : Duplex Gadget V} (hDG : DuplexMirrors D G) {sizes : List FieldElementSize}
    (hne : sizes ≠ []) {ns : List Nat} (hsizes : List.Forall₂ (fun size n => size.numBits q = .ok n) sizes ns)
    {self : DuplexSponge V} {self' : DuplexSponge (ZMod p)} {bits : List Bool}
    (h : PoseidonSponge.squeezeBits D self.value ns.sum = .ok (bits, self')) (hlen : bits.length = ns.sum) :
    Computes (PoseidonSpongeVar.squeezeEmulatedFieldElementsWithSizes E G self sizes) fun r =>
      r.1.1.map (EmulatedFpVar.value E) = (ns.splitLengths bits).map (elementOfBits q) ∧
      r.2.value = self' := by
  rw [PoseidonSpongeVar.squeezeEmulatedFieldElementsWithSizes,
    if_neg fun h => hne (List.length_eq_zero_iff.mp h)]
  refine computes_liftM_bind (totalBits_eq hsizes) ?_
  refine (PoseidonSpongeVar.squeezeBits_mirrors hDG self ns.sum _ h).bind ?_
  rintro ⟨vars, self'⟩ heq
  obtain ⟨rfl, rfl⟩ := Prod.mk.inj heq
  rw [List.length_map] at hlen
  refine computes_liftM_bind (bitsWindows_eq hsizes hlen.ge) ?_
  have hwindows : ∀ bits ∈ ns.splitLengths vars, bits.length ≤ modulusBitSize q :=
    List.length_mem_splitLengths vars ns _ (numBits_le_of_mem hsizes)
  refine (bitsLeToEmulated_computes hE hwindows).bind fun destGadgets hvalues => .pure ⟨?_, rfl⟩
  rw [hvalues, splitLengths_map, List.map_map]
  rfl

end

end CryptoPrimitives.Sponge
