import CryptoPrimitives.Gadget.BooleanVar
import CryptoPrimitives.Sponge.Emulated

/-!
# Elements of another field, with their constraints

`bits_le_to_emulated` of `sponge/constraints/mod.rs` in a constraint system.

* `foldlM_addBit_builds`: the loop over the bits of an element adds up the limbs of their
  number, in the values and in the linear combinations alike.
* `bitsLeToEmulated_normalFormOf`: each element has the limbs of the number of its bits, for
  fields of which all powers of two that the bits reach are elements.
* `bitsLeToEmulated_two`: in the field of two elements the second power of two is not.
-/

namespace CryptoPrimitives.Sponge

open Circuit (Builds Extends Fixed Satisfies emit)
open CircuitFpVar (eval)
open Digits (ofBits limb)
open PrimeField (modulusBitSize)

section

variable {p q : Nat} {V : Type} [CircuitFpVar p V]

/-- The number that the limbs of an element stand for, which none of them is reduced in. -/
def EmulatedFpVar.integer (E : EmulatedFp p q) (ρ : Nat → ZMod p) : EmulatedFpVar p q V → Nat
  | constant x => x.val
  | var v => (v.limbs.map fun limb => (eval ρ limb).val).foldl (fun acc limb => acc * 2 ^ E.bitsPerLimb + limb) 0

end

namespace InCircuit

variable {p q : Nat} {V : Type} [CircuitFpVar p V]

/-- The rows of `lookup_table` from the one of `cur` on. -/
def lookupTable (E : EmulatedFp p q) : Nat → ZMod q → Except SynthesisFault (List (List (ZMod p)))
  | 0, _ => pure []
  | n + 1, cur => do
    let repr ← E.getLimbsRepresentations cur
    let rest ← lookupTable E n (cur + cur)
    pure (repr :: rest)

/-- `lc[k] + bit.lc() * table[row][k]` for each `k`. A linear combination is what it is
under each assignment. -/
def addMultiple (bit : BooleanVar V) (table : List (List (ZMod p))) (lc : List ((Nat → ZMod p) → ZMod p))
    (row : Nat) : Outcome (List ((Nat → ZMod p) → ZMod p)) :=
  lc.zipIdx.mapM fun entry => do
    let keys ← index table row
    let key ← index keys entry.2
    pure fun ρ => entry.1 ρ + bit.lc ρ * key

/-- The step of the loop over the bits of an element, on `val` and `lc`. -/
def addBit (table : List (List (ZMod p))) (acc : List (ZMod p) × List ((Nat → ZMod p) → ZMod p))
    (entry : BooleanVar V × Nat) : CircuitGadget p (List (ZMod p) × List ((Nat → ZMod p) → ZMod p)) := do
  let value ← Circuit.assigned fun ρ => entry.1.value ρ
  let val ← if value then liftM (addRow table acc.1 entry.2) else pure acc.1
  let lc ← liftM (addMultiple entry.1 table acc.2 entry.2)
  pure (val, lc)

/-- The element of one list of bits. -/
def emulatedOfBits (E : EmulatedFp p q) (table : List (List (ZMod p))) (emulatedBitsLe : List (BooleanVar V)) :
    CircuitGadget p (EmulatedFpVar p q V) := do
  let (val, lc) ← emulatedBitsLe.zipIdx.foldlM (addBit table)
    (List.replicate E.numLimbs 0, List.replicate E.numLimbs fun _ => 0)
  let limbs ← (val.zip lc).mapM fun entry => do
    let gadget : V ← CircuitFpVar.newWitness entry.1
    emit fun ρ => entry.2 ρ - eval ρ gadget = 0
    pure gadget
  pure (.var { limbs, numOfAdditionsOverNormalForm := 0, isInTheNormalForm := true })

/-- `bits_le_to_emulated`. -/
def bitsLeToEmulated (E : EmulatedFp p q) (allEmulatedBitsLe : List (List (BooleanVar V))) :
    CircuitGadget p (List (EmulatedFpVar p q V)) :=
  if allEmulatedBitsLe.isEmpty then pure []
  else do
    let maxEmulatedBits := allEmulatedBitsLe.foldl (fun bound bits => max bound bits.length) 0
    let table ← liftM (lookupTable E maxEmulatedBits 1)
    allEmulatedBitsLe.mapM (emulatedOfBits E table)

/-! ## The table -/

theorem lookupTable_eq {E : EmulatedFp p q} (hE : E.Lawful) (n : Nat) (x : ZMod q) :
    lookupTable E n x =
      .ok ((List.range n).map fun j => limbsOf p E.bitsPerLimb E.numLimbs (2 ^ j * x).val) := by
  induction n generalizing x with
  | zero => rfl
  | succ n ih =>
    rw [lookupTable, hE.getLimbsRepresentations_eq, Except.ok_bind, ih, Except.ok_bind, List.range_succ_eq_map,
      List.map_cons, List.map_map, pow_zero, one_mul]
    show Except.ok _ = Except.ok _
    congr 2
    refine List.map_congr_left fun j _ => ?_
    rw [Function.comp_apply, pow_succ, mul_assoc, two_mul]

/-- No entry of the table is reduced, but the second one of the field of two elements. -/
theorem two_pow_lt [hq : Fact q.Prime] {j : Nat} (h : j < modulusBitSize q) (htwo : q = 2 → j < 1) : 2 ^ j < q := by
  have hle : 2 ^ j ≤ q := (Nat.pow_le_pow_right Nat.two_pos (by rw [modulusBitSize] at h; omega)).trans
    (Nat.log2_self_le hq.out.ne_zero)
  refine hle.lt_of_ne fun heq => ?_
  cases j with
  | zero => exact hq.out.one_lt.ne heq
  | succ j =>
    have hdvd : 2 ∣ q := heq ▸ dvd_pow_self 2 (Nat.succ_ne_zero j)
    have := htwo ((Nat.prime_dvd_prime_iff_eq Nat.prime_two hq.out).mp hdvd).symm
    omega

theorem lookupTable_getElem? [hq : Fact q.Prime] (E : EmulatedFp p q) {n j : Nat} (hj : j < n)
    (h : j < modulusBitSize q) (htwo : q = 2 → j < 1) :
    ((List.range n).map fun j => limbsOf p E.bitsPerLimb E.numLimbs (2 ^ j * (1 : ZMod q)).val)[j]? =
      some (limbsOf p E.bitsPerLimb E.numLimbs (2 ^ j)) := by
  rw [List.getElem?_map, List.getElem?_range hj, Option.map_some, mul_one,
    show (2 ^ j : ZMod q) = ((2 ^ j : Nat) : ZMod q) by rw [Nat.cast_pow]; rfl,
    ZMod.val_natCast_of_lt (two_pow_lt h htwo)]

/-! ## The loop over the bits -/

/-- A step adds the limbs of the next power of two to those of a number below it. -/
theorem addBit_builds {table : List (List (ZMod p))} {row width m : Nat}
    (hrow : table[row]? = some (limbsOf p width m (2 ^ row))) {acc : List (ZMod p) × List ((Nat → ZMod p) → ZMod p)}
    (hval : acc.1.length = m) (hlc : acc.2.length = m) {bit : BooleanVar V} {w : List (ZMod p)}
    (hbit : Fixed w fun ρ => bit.value ρ) :
    Builds w (addBit table acc (bit, row))
      (fun w' r => w' = w ∧ r.2.length = m ∧ ∀ ρ, Extends w ρ → ∀ n < 2 ^ row, acc.1 = limbsOf p width m n →
        r.1 = limbsOf p width m (n + if bit.value ρ then 2 ^ row else 0))
      fun ρ r => bit.IsBit ρ → ∀ n < 2 ^ row, acc.2.map (fun lc => lc ρ) = limbsOf p width m n →
        r.2.map (fun lc => lc ρ) = limbsOf p width m (n + if bit.value ρ then 2 ^ row else 0) := by
  have hkeys : (limbsOf p width m (2 ^ row)).length = m := length_limbsOf width m _
  have hadd : addRow table acc.1 row = .ok (List.zipWith (· + ·) acc.1 (limbsOf p width m (2 ^ row))) :=
    zipIdx_mapM_index hrow (· + ·) (hkeys.trans hval.symm)
  have hmultiple : addMultiple bit table acc.2 row =
      .ok (List.zipWith (fun lc key ρ => lc ρ + bit.lc ρ * key) acc.2 (limbsOf p width m (2 ^ row))) :=
    zipIdx_mapM_index hrow (fun (lc : (Nat → ZMod p) → ZMod p) key ρ => lc ρ + bit.lc ρ * key)
      (hkeys.trans hlc.symm)
  have hrest (val : List (ZMod p)) : Builds w (do
        let lc ← liftM (addMultiple bit table acc.2 row)
        pure (val, lc) : CircuitGadget p (List (ZMod p) × List ((Nat → ZMod p) → ZMod p)))
      (fun w' r => w' = w ∧ r.1 = val ∧ r.2.length = m) fun ρ r => bit.IsBit ρ → ∀ n < 2 ^ row,
        acc.2.map (fun lc => lc ρ) = limbsOf p width m n →
          r.2.map (fun lc => lc ρ) = limbsOf p width m (n + if bit.value ρ then 2 ^ row else 0) := by
    refine builds_liftM_bind hmultiple (.pure ⟨rfl, rfl, ?_⟩ fun ρ hisbit n hlt hn => ?_)
    · rw [List.length_zipWith, hkeys, hlc, Nat.min_self]
    · rw [List.map_zipWith, ← zipWith_limbsOf_add (.inr ⟨row, hlt, rfl⟩), ← hn, List.zipWith_map_left, ← hisbit]
  unfold addBit
  refine (Circuit.assigned_builds hbit).bind fun value w₁ _ ⟨hw₁, hvalue⟩ _ => ?_
  subst hw₁
  cases value with
  | false =>
    refine (hrest acc.1).mono (fun w' r _ _ h => ⟨h.1, h.2.2, fun ρ hρ n _ hn => ?_⟩) fun _ _ h _ => h
    rw [hvalue ρ hρ, h.2.1]
    exact hn
  | true =>
    refine builds_liftM_bind hadd ((hrest _).mono (fun w' r _ _ h => ⟨h.1, h.2.2, fun ρ hρ n hlt hn => ?_⟩)
      fun _ _ h _ => h)
    rw [hvalue ρ hρ, h.2.1]
    exact Except.ok.inj (hadd.symm.trans (hn ▸ addRow_limbsOf hrow (.inr ⟨row, hlt, rfl⟩)))

/-- The loop over the bits leaves the limbs of their number in the values, and in the linear
combinations under every assignment of bits. -/
theorem foldlM_addBit_builds {table : List (List (ZMod p))} {width m : Nat} {bits : List (BooleanVar V)}
    (htable : ∀ j < bits.length, table[j]? = some (limbsOf p width m (2 ^ j))) {w : List (ZMod p)}
    (hbits : ∀ bit ∈ bits, Fixed w fun ρ => bit.value ρ) :
    Builds w (bits.zipIdx.foldlM (addBit table) (List.replicate m 0, List.replicate m fun _ => 0))
      (fun w' r => w' = w ∧ r.2.length = m ∧ ∀ ρ, Extends w ρ →
        r.1 = limbsOf p width m (ofBits (bits.map (BooleanVar.value ρ))))
      fun ρ r => (∀ bit ∈ bits, bit.IsBit ρ) →
        r.2.map (fun lc => lc ρ) = limbsOf p width m (ofBits (bits.map (BooleanVar.value ρ))) := by
  induction bits using List.reverseRecOn with
  | nil =>
    refine .pure ⟨rfl, List.length_replicate, fun ρ _ => (limbsOf_zero width m).symm⟩ fun ρ _ => ?_
    rw [List.map_replicate]
    exact (limbsOf_zero width m).symm
  | append_singleton bits bit ih =>
    rw [List.length_append, List.length_singleton] at htable
    obtain ⟨hinit, hbit⟩ := List.forall_mem_append.mp hbits
    have hlt (ρ : Nat → ZMod p) : ofBits (bits.map (BooleanVar.value ρ)) < 2 ^ bits.length := by
      have := Digits.ofBits_lt (bits.map (BooleanVar.value ρ))
      rwa [List.length_map] at this
    have hconcat (ρ : Nat → ZMod p) : ofBits ((bits ++ [bit]).map (BooleanVar.value ρ)) =
        ofBits (bits.map (BooleanVar.value ρ)) + if bit.value ρ then 2 ^ bits.length else 0 := by
      rw [List.map_append, List.map_singleton, Digits.ofBits_concat, List.length_map]
      cases bit.value ρ <;> simp
    rw [List.zipIdx_append, List.foldlM_append, List.zipIdx_singleton, Nat.zero_add]
    refine (ih (fun j hj => htable j (by omega)) hinit).bind ?_
    intro acc w₁ _ hacc _
    obtain ⟨rfl, hlen, hval⟩ := hacc
    have hvallen : acc.1.length = m := by
      rw [hval _ (Circuit.extends_getD _), length_limbsOf]
    have hstep := addBit_builds (htable bits.length (by omega)) hvallen hlen
      (hbit bit (List.mem_singleton_self bit))
    rw [List.foldlM_cons]
    refine hstep.bind fun r w' _ ⟨hw', hlen', hval'⟩ _ => .pure ⟨hw', hlen', fun ρ hρ => ?_⟩ fun ρ hlc' hlc h => ?_
    · rw [hconcat]
      exact hval' ρ hρ _ (hlt ρ) (hval ρ hρ)
    · obtain ⟨hinit, hbit⟩ := List.forall_mem_append.mp h
      rw [hconcat]
      exact hlc' (hbit bit (List.mem_singleton_self bit)) _ (hlt ρ) (hlc hinit)

/-! ## The elements -/

/-- The element is in normal form, with the limbs of the number of the bits: each limb is in
its range, and the integer that they stand for is the number. -/
def NormalFormOf (E : EmulatedFp p q) (ρ : Nat → ZMod p) (bits : List (BooleanVar V))
    (element : EmulatedFpVar p q V) : Prop :=
  ∃ v, element = .var v ∧ v.isInTheNormalForm = true ∧ v.numOfAdditionsOverNormalForm = 0 ∧
    (∀ limb ∈ v.limbs, (eval ρ limb).val < 2 ^ E.bitsPerLimb) ∧
    v.limbs.map (eval ρ) = limbsOf p E.bitsPerLimb E.numLimbs (ofBits (bits.map (BooleanVar.value ρ))) ∧
    element.integer E ρ = ofBits (bits.map (BooleanVar.value ρ))

theorem normalFormOf_of_limbs [Fact p.Prime] {E : EmulatedFp p q} (hE : E.Lawful) {ρ : Nat → ZMod p}
    {bits : List (BooleanVar V)} (hlen : bits.length ≤ modulusBitSize q) {limbs : List V}
    (h : limbs.map (eval ρ) = limbsOf p E.bitsPerLimb E.numLimbs (ofBits (bits.map (BooleanVar.value ρ)))) :
    NormalFormOf E ρ bits
      (.var { limbs, numOfAdditionsOverNormalForm := 0, isInTheNormalForm := true } : EmulatedFpVar p q V) := by
  have hroom : ofBits (bits.map (BooleanVar.value ρ)) < 2 ^ (E.bitsPerLimb * E.numLimbs) := by
    refine (Digits.ofBits_lt _).trans_le (Nat.pow_le_pow_right Nat.two_pos ?_)
    rw [List.length_map]
    exact hlen.trans hE.modulusBitSize_le
  refine ⟨_, rfl, rfl, rfl, fun v hv => ?_, h, ?_⟩
  · have hmem := List.mem_map_of_mem (f := eval ρ) hv
    rw [h] at hmem
    obtain ⟨k, -, hk⟩ := List.mem_map.mp hmem
    rw [← hk, ZMod.val_natCast]
    exact (Nat.mod_le _ _).trans_lt (Digits.limb_lt _ _ _)
  · show (limbs.map fun limb => (eval ρ limb).val).foldl _ 0 = _
    rw [← foldl_limbsOf hE.two_pow_le hroom, ← h, List.map_map]
    rfl

variable [LawfulCircuitFpVar p V]

/-- Variables with these values, tied to linear combinations that have them. -/
theorem tiedWitnesses_builds {val : List (ZMod p)} {lc : List ((Nat → ZMod p) → ZMod p)} {w : List (ZMod p)}
    (h : ∀ ρ, Extends w ρ → lc.map (fun lc => lc ρ) = val) :
    Builds w ((val.zip lc).mapM fun entry => do
        let gadget : V ← CircuitFpVar.newWitness entry.1
        emit fun ρ => entry.2 ρ - eval ρ gadget = 0
        pure gadget)
      (fun _ _ => True) fun ρ limbs => limbs.map (eval ρ) = lc.map fun lc => lc ρ := by
  have hlen : lc.length = val.length := by
    rw [← h _ (Circuit.extends_getD w), List.length_map]
  refine (Builds.mapM (H := fun _ _ _ => True) (S := fun ρ entry v => eval ρ v = entry.2 ρ)
    (fun _ _ _ _ _ _ => trivial) fun entry hentry w₁ hw₁ => ?_).mono (fun _ _ _ _ _ => trivial) fun ρ limbs hlimbs => ?_
  · refine (LawfulCircuitFpVar.newWitness_builds w₁ entry.1).bind fun gadget w₂ hw₂ ⟨_, hvalue⟩ _ => ?_
    refine (Circuit.emit_builds fun ρ hρ => ?_).bind fun _ _ _ _ _ => .pure trivial fun ρ heq _ => ?_
    · have heq := h ρ (hρ.of_prefix (hw₁.trans hw₂))
      rw [← List.forall₂_eq_eq_eq, List.forall₂_map_left_iff] at heq
      rw [(List.forall₂_iff_zip.mp heq.flip).2 hentry, hvalue ρ hρ, sub_self]
    · exact (sub_eq_zero.mp heq).symm
  · rw [← List.map_snd_zip hlen.le, List.map_map, map_eq_map_iff_forall₂]
    exact hlimbs.flip

theorem emulatedOfBits_builds [Fact p.Prime] [Fact q.Prime] {E : EmulatedFp p q} (hE : E.Lawful)
    {bits : List (BooleanVar V)} (hlen : bits.length ≤ modulusBitSize q) (htwo : q = 2 → bits.length ≤ 1) {n : Nat}
    (hn : bits.length ≤ n) {w : List (ZMod p)} (hfixed : ∀ bit ∈ bits, Fixed w fun ρ => bit.value ρ)
    (hbits : ∀ ρ, Extends w ρ → ∀ bit ∈ bits, bit.IsBit ρ) :
    Builds w (emulatedOfBits E ((List.range n).map fun j =>
        limbsOf p E.bitsPerLimb E.numLimbs (2 ^ j * (1 : ZMod q)).val) bits) (fun _ _ => True)
      fun ρ element => (∀ bit ∈ bits, bit.IsBit ρ) → NormalFormOf E ρ bits element := by
  have htable : ∀ j < bits.length, ((List.range n).map fun j =>
      limbsOf p E.bitsPerLimb E.numLimbs (2 ^ j * (1 : ZMod q)).val)[j]? =
        some (limbsOf p E.bitsPerLimb E.numLimbs (2 ^ j)) := fun j hj =>
    lookupTable_getElem? E (hj.trans_le hn) (hj.trans_le hlen) fun h2 => hj.trans_le (htwo h2)
  unfold emulatedOfBits
  refine (foldlM_addBit_builds htable hfixed).bind ?_
  intro r w₁ _ hr hlc
  obtain ⟨val, lc⟩ := r
  obtain ⟨rfl, -, hval⟩ := hr
  refine (tiedWitnesses_builds fun ρ hρ => ?_).bind fun limbs _ _ _ _ => .pure trivial fun ρ hlimbs hlc hisbit => ?_
  · exact (hlc ρ hρ (hbits ρ hρ)).trans (hval ρ hρ).symm
  · exact normalFormOf_of_limbs hE hlen (hlimbs.trans (hlc hisbit))

/-- Windows that a squeeze of given sizes takes have no more bits than the modulus. -/
theorem length_le_of_bitsWindows {B : Type} {sizes : List FieldElementSize} {bits : List B} {windows : List (List B)}
    (h : bitsWindows q sizes bits = .ok windows) : ∀ window ∈ windows, window.length ≤ modulusBitSize q := by
  induction sizes generalizing bits windows with
  | nil =>
    obtain rfl := Except.ok.inj h
    exact nofun
  | cons size sizes ih =>
    simp only [bitsWindows, Except.bind_eq_ok] at h
    obtain ⟨n, hn, window, hwindow, _, _, rest, hrest, hok⟩ := h
    obtain rfl := Except.ok.inj hok
    obtain ⟨⟨-, hle⟩, rfl⟩ := ite_raise_eq_ok.mp hwindow
    refine List.forall_mem_cons.mpr ⟨?_, ih hrest⟩
    exact (List.length_take_le _ _).trans (FieldElementSize.numBits_le hn)

/-- Under every assignment of bits that satisfies the constraints each element is in normal form and has the number of
its own vector. -/
theorem bitsLeToEmulated_builds [Fact p.Prime] [Fact q.Prime] {E : EmulatedFp p q} (hE : E.Lawful)
    {all : List (List (BooleanVar V))} (hall : ∀ bits ∈ all, bits.length ≤ modulusBitSize q)
    (htwo : q = 2 → ∀ bits ∈ all, bits.length ≤ 1) {w : List (ZMod p)}
    (hfixed : ∀ bits ∈ all, ∀ bit ∈ bits, Fixed w fun ρ => bit.value ρ)
    (hbits : ∀ ρ, Extends w ρ → ∀ bits ∈ all, ∀ bit ∈ bits, bit.IsBit ρ) :
    Builds w (bitsLeToEmulated E all) (fun _ _ => True) fun ρ elements =>
      (∀ bits ∈ all, ∀ bit ∈ bits, bit.IsBit ρ) → List.Forall₂ (NormalFormOf E ρ) all elements := by
  unfold bitsLeToEmulated
  split
  · rename_i h
    rw [List.isEmpty_iff.mp h]
    exact .pure trivial fun _ _ => .nil
  · show Builds w (liftM (lookupTable E (all.foldl (fun bound bits => max bound bits.length) 0) 1) >>= fun table =>
      all.mapM (emulatedOfBits E table)) _ _
    rw [lookupTable_eq hE]
    refine (Builds.mapM (H := fun _ _ _ => True) (S := fun ρ bits element => (∀ bit ∈ bits, bit.IsBit ρ) →
      NormalFormOf E ρ bits element) (fun _ _ _ _ _ _ => trivial) fun bits h w₁ hw₁ => ?_).mono
        (fun _ _ _ _ _ => trivial) fun ρ elements hforms hisbit => ?_
    · exact emulatedOfBits_builds hE (hall bits h) (fun h2 => htwo h2 bits h) (le_foldl_max List.length h 0)
        (fun bit hbit => (hfixed bits h bit hbit).mono hw₁) fun ρ hρ => hbits ρ (hρ.of_prefix hw₁) bits h
    · obtain ⟨hlen, hzip⟩ := List.forall₂_iff_zip.mp hforms
      exact List.forall₂_iff_zip.mpr ⟨hlen, fun hentry => hzip hentry (hisbit _ (List.of_mem_zip hentry).1)⟩

/-- On vectors of bits that are no longer than the modulus, as a squeeze of given sizes
passes them, and have one bit at most where the field has two elements: the values assigned
satisfy the constraints, and under every assignment of bits that satisfies them each element
is in normal form and has the number of its own vector. -/
theorem bitsLeToEmulated_normalFormOf [Fact p.Prime] [Fact q.Prime] {E : EmulatedFp p q} (hE : E.Lawful)
    (all : List (List (BooleanVar V))) (hall : ∀ bits ∈ all, bits.length ≤ modulusBitSize q)
    (htwo : q = 2 → ∀ bits ∈ all, bits.length ≤ 1) {w : List (ZMod p)}
    (hfixed : ∀ bits ∈ all, ∀ bit ∈ bits, Fixed w fun ρ => bit.value ρ)
    (hbits : ∀ ρ, Extends w ρ → ∀ bits ∈ all, ∀ bit ∈ bits, bit.IsBit ρ) (constraints : List (Constraint (ZMod p))) :
    ∃ elements w' emitted,
      (bitsLeToEmulated E all).run ⟨w, constraints⟩ = .ok (elements, ⟨w', constraints ++ emitted⟩) ∧
      (∀ ρ, Extends w' ρ → Extends w ρ ∧ Satisfies ρ emitted) ∧
      (∀ ρ, Satisfies ρ emitted → (∀ bits ∈ all, ∀ bit ∈ bits, bit.IsBit ρ) →
        List.Forall₂ (NormalFormOf E ρ) all elements) ∧
      ∀ sizes (squeezed : List (BooleanVar V)) windows, bitsWindows q sizes squeezed = .ok windows →
        ∀ window ∈ windows, window.length ≤ modulusBitSize q := by
  obtain ⟨elements, w', emitted, hrun, hw, -, hhonest, hsound⟩ :=
    bitsLeToEmulated_builds hE hall htwo hfixed hbits constraints
  exact ⟨elements, w', emitted, hrun, fun ρ hρ => ⟨hρ.of_prefix hw, hhonest ρ hρ⟩, hsound,
    fun _ _ _ => length_le_of_bitsWindows⟩

/-- Two vectors of different lengths, the longer one of a number above the modulus. -/
theorem bitsLeToEmulated_normalFormOf_small :
    ∃ (elements : List (EmulatedFpVar 131071 7 (LinearVar 131071))) (w : List (ZMod 131071))
        (emitted : List (Constraint (ZMod 131071))),
      (bitsLeToEmulated (.positional 131071 7 3 1) [[.constant true, .constant true, .constant true],
        [.constant true, .var (.var 0 [(1, 0)])]]).run ⟨[1], []⟩ = .ok (elements, ⟨w, emitted⟩) ∧
      (∀ ρ, Extends w ρ → Satisfies ρ emitted) ∧
      ∀ ρ, Satisfies ρ emitted → (ρ 0 = 0 ∨ ρ 0 = 1) →
        elements.map (EmulatedFpVar.integer (.positional 131071 7 3 1) ρ) = [7, if ρ 0 = 1 then 3 else 1] := by
  have hroom : modulusBitSize 7 ≤ 1 * 3 := by decide +kernel
  have hsize : 3 ≤ modulusBitSize 7 := by decide +kernel
  have hp : Fact (Nat.Prime 131071) := ⟨prime_131071⟩
  have h7 : Fact (Nat.Prime 7) := ⟨by decide⟩
  have hE : (EmulatedFp.positional 131071 7 3 1).Lawful := EmulatedFp.positional_lawful hroom (by decide)
  have heval (ρ : Nat → ZMod 131071) : eval ρ (LinearVar.var 0 [(1, 0)]) = ρ 0 := by
    show (0 : ZMod 131071) + (1 * ρ 0 + 0) = ρ 0
    ring
  have hmem (P : BooleanVar (LinearVar 131071) → Prop) (htrue : P (.constant true))
      (hvar : P (.var (.var 0 [(1, 0)]))) :
      ∀ bits ∈ [[.constant true, .constant true, .constant true], [.constant true, .var (LinearVar.var 0 [(1, 0)])]],
        ∀ bit ∈ bits, P bit := by
    simp [htrue, hvar]
  have hlen : ∀ bits ∈ [[BooleanVar.constant true, .constant true, .constant true],
      [.constant true, .var (LinearVar.var (p := 131071) 0 [(1, 0)])]], bits.length ≤ modulusBitSize 7 := by
    simp
    omega
  have hisbit (ρ : Nat → ZMod 131071) (h : ρ 0 = 0 ∨ ρ 0 = 1) :=
    hmem (BooleanVar.IsBit ρ) rfl (by
      rcases h with h | h <;> simp [BooleanVar.IsBit, BooleanVar.lc, BooleanVar.value, heval, h])
  have hzero (ρ : Nat → ZMod 131071) (hρ : Extends [1] ρ) : ρ 0 = 1 := hρ 0 1 rfl
  have hfixed := hmem (fun bit => Fixed [1] fun ρ => bit.value ρ) (fun _ _ _ _ => rfl) fun ρ ρ' hρ hρ' => by
    show decide (eval ρ _ = 1) = decide (eval ρ' _ = 1)
    rw [heval, heval, hzero ρ hρ, hzero ρ' hρ']
  obtain ⟨elements, w, emitted, hrun, hhonest, hsound, -⟩ := bitsLeToEmulated_normalFormOf hE _ hlen
    (fun h => absurd h (by decide)) hfixed (fun ρ hρ => hisbit ρ (.inr (hzero ρ hρ))) []
  rw [List.nil_append] at hrun
  refine ⟨elements, w, emitted, hrun, fun ρ hρ => (hhonest ρ hρ).2, fun ρ hρ hbit => ?_⟩
  have hvalue : (BooleanVar.var (LinearVar.var 0 [(1, 0)])).value ρ = decide (ρ 0 = 1) := by
    rw [BooleanVar.value, heval]
  rcases hsound ρ hρ (hisbit ρ hbit) with _ | ⟨⟨_, -, -, -, -, -, hseven⟩, _ | ⟨⟨_, -, -, -, -, -, hbits⟩, _ | _⟩⟩
  rw [List.map_cons, List.map_cons, List.map_nil, hseven, hbits]
  show [7, ofBits [true, (BooleanVar.var (LinearVar.var 0 [(1, 0)])).value ρ]] = _
  rw [hvalue]
  split
  · rename_i h
    rw [decide_eq_true h]
    rfl
  · rename_i h
    rw [decide_eq_false h]
    rfl

/-- In the field of two elements, the vector of the number 2 leads to no limb that is set. -/
theorem bitsLeToEmulated_two : (EmulatedFp.positional 131071 2 2 1).Lawful ∧
    2 ≤ modulusBitSize 2 ∧
    ∃ (elements : List (EmulatedFpVar 131071 2 (LinearVar 131071))) (w : List (ZMod 131071))
      (emitted : List (Constraint (ZMod 131071))) (ρ : Nat → ZMod 131071),
      (bitsLeToEmulated (.positional 131071 2 2 1) [[.constant false, .constant true]]).run ⟨[], []⟩ =
        .ok (elements, ⟨w, emitted⟩) ∧ Satisfies ρ emitted ∧
      (∀ bit ∈ ([.constant false, .constant true] : List (BooleanVar (LinearVar 131071))), bit.IsBit ρ) ∧
      elements.map (EmulatedFpVar.integer (.positional 131071 2 2 1) ρ) = [0] ∧
      ofBits (([.constant false, .constant true] : List (BooleanVar (LinearVar 131071))).map
        (BooleanVar.value ρ)) = 2 := by
  refine ⟨EmulatedFp.positional_lawful (by decide +kernel) (by decide), by decide +kernel, _, _, _, fun _ => 0, rfl, ?_⟩
  refine ⟨List.forall_mem_cons.mpr ⟨by decide +kernel, List.forall_mem_singleton.mpr (by decide +kernel)⟩, ?_,
    by decide +kernel, by decide +kernel⟩
  exact List.forall_mem_cons.mpr ⟨rfl, List.forall_mem_singleton.mpr rfl⟩

end InCircuit

end CryptoPrimitives.Sponge
