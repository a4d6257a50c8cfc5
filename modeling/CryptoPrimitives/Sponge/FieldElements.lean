import CryptoPrimitives.Rust.Collections
import CryptoPrimitives.Rust.PrimeField
import CryptoPrimitives.Sponge.Poseidon
import Mathlib.Data.List.SplitLengths

/-!
# Squeezing field elements of given sizes

`squeeze_bits` and `squeeze_field_elements_with_sizes` of the Poseidon sponge, and
the default implementation in `sponge/mod.rs`.

* `elementOfBits_eq`: the bytes that bits are packed into stand for their number.
* `defaultImpl_eq`: the default implementation squeezes bits, divides them into
  windows, and returns the elements of the windows.
* `defaultImpl_full`: what it returns for full elements of the sponge's own field, which
  the sponge itself squeezes as they are (`squeezeFieldElementsWithSizes_self`).
-/

namespace CryptoPrimitives.Sponge

open Digits (ofBits)
open Except (bind_eq_ok)
open PrimeField (modulusBitSize toBitsLe toBytesLe fromLeBytesModOrder)

/-- `FieldElementSize`. -/
inductive FieldElementSize where
  | full
  | truncated (numBits : Nat)
deriving DecidableEq, Repr

namespace FieldElementSize

/-- `FieldElementSize::num_bits`, for the field of `q` elements. -/
def numBits (q : Nat) : FieldElementSize → Outcome Nat
  | truncated numBits =>
    if numBits > modulusBitSize q then
      raise (.panic (.explicit "num_bits is greater than the capacity of the field."))
    else pure numBits
  | full => pure (modulusBitSize q - 1)

theorem numBits_le {q : Nat} {size : FieldElementSize} {n : Nat} (h : size.numBits q = .ok n) :
    n ≤ modulusBitSize q := by
  cases size with
  | truncated m =>
    rw [numBits] at h
    split at h
    · exact absurd h raise_ne_ok
    · rename_i hle
      rw [← Except.ok.inj h]
      exact not_lt.mp hle
  | full =>
    rw [← Except.ok.inj h]
    exact Nat.sub_le _ 1

theorem numBits_full (q n : Nat) : List.Forall₂ (fun size m => size.numBits q = .ok m) (List.replicate n full)
    (List.replicate n (modulusBitSize q - 1)) := by
  induction n with
  | zero => exact .nil
  | succ n ih => exact .cons rfl ih

end FieldElementSize

/-- `total_bits`. -/
def totalBits (q : Nat) (sizes : List FieldElementSize) : Outcome Nat :=
  sizes.foldlM (fun total size => do
    let numBits ← size.numBits q
    pure (total + numBits)) 0

/-- The windows of the bits that the loops over `sizes` take one after the other. -/
def bitsWindows {B : Type} (q : Nat) : List FieldElementSize → List B → Outcome (List (List B))
  | [], _ => pure []
  | size :: sizes, bitsWindow => do
    let numBits ← size.numBits q
    let emulatedBitsLe ← slice bitsWindow 0 numBits
    let bitsWindow ← slice bitsWindow numBits bitsWindow.length
    let rest ← bitsWindows q sizes bitsWindow
    pure (emulatedBitsLe :: rest)

/-- The byte of at most eight bits. -/
def byteOfBits (bits : List Bool) : UInt8 :=
  bits.zipIdx.foldl (fun byte entry => if entry.1 then byte + 1 <<< UInt8.ofNat entry.2 else byte) 0

/-- The element that a window of bits is packed into. -/
def elementOfBits (q : Nat) (emulatedBitsLe : List Bool) : ZMod q :=
  fromLeBytesModOrder q ((chunks 8 emulatedBitsLe).map byteOfBits)

/-- `squeeze_field_elements_with_sizes_default_impl`, for a sponge with this `squeeze_bits`. -/
def squeezeFieldElementsWithSizesDefaultImpl {S : Type} (q : Nat)
    (squeezeBits : S → Nat → Outcome (List Bool × S)) (sponge : S) (sizes : List FieldElementSize) :
    Outcome (List (ZMod q) × S) :=
  if sizes.length = 0 then pure ([], sponge)
  else do
    let total ← totalBits q sizes
    let (bits, sponge) ← squeezeBits sponge total
    let windows ← bitsWindows q sizes bits
    pure (windows.map (elementOfBits q), sponge)

theorem byteOfBits_toNat {bits : List Bool} (h : bits.length ≤ 8) : (byteOfBits bits).toNat = ofBits bits := by
  have hshift : ∀ k < 8, ((1 : UInt8) <<< UInt8.ofNat k).toNat = 2 ^ k := by decide
  -- the bits from position `k` on are added to a byte below them
  have hfold : ∀ (bits : List Bool) (k : Nat) (byte : UInt8), k + bits.length ≤ 8 → byte.toNat < 2 ^ k →
      ((bits.zipIdx k).foldl (fun byte entry => if entry.1 then byte + 1 <<< UInt8.ofNat entry.2 else byte)
        byte).toNat = byte.toNat + 2 ^ k * ofBits bits := by
    intro bits
    induction bits with
    | nil => exact fun k byte _ _ => rfl
    | cons b bits ih =>
      intro k byte hk hbyte
      rw [List.length_cons] at hk
      have hpow : 2 ^ (k + 1) ≤ 2 ^ 8 := Nat.pow_le_pow_right Nat.two_pos (by omega)
      have hsucc : 2 ^ (k + 1) = 2 ^ k * 2 := pow_succ 2 k
      rw [List.zipIdx_cons, List.foldl_cons, Digits.ofBits_cons, Nat.mul_add, ← Nat.mul_assoc, ← hsucc]
      cases b with
      | false => rw [if_neg Bool.false_ne_true, ih _ _ (by omega) (by omega), Bool.toNat_false]; omega
      | true =>
        have hadd : (byte + 1 <<< UInt8.ofNat k).toNat = byte.toNat + 2 ^ k := by
          rw [UInt8.toNat_add, hshift k (by omega), Nat.mod_eq_of_lt (by omega)]
        have hrest := ih (k + 1) (byte + 1 <<< UInt8.ofNat k) (by omega) (by omega)
        rw [hadd] at hrest
        rw [if_pos rfl, hrest, Bool.toNat_true]
        omega
  have := hfold bits 0 0 (by omega) Nat.one_pos
  rw [byteOfBits, this, pow_zero, Nat.one_mul]
  exact Nat.zero_add _

/-- The bytes that bits are packed into stand for their number. -/
theorem elementOfBits_eq (q : Nat) (bits : List Bool) : elementOfBits q bits = (ofBits bits : Nat) := by
  rw [elementOfBits, fromLeBytesModOrder]
  congr 1
  induction bits using chunks_induction (show 0 < 8 by omega) with
  | nil => rfl
  | cons bits hnil ih =>
    have hrest : 2 ^ (bits.take 8).length * ofBits (bits.drop 8) = 256 * ofBits (bits.drop 8) := by
      by_cases hlen : 8 ≤ bits.length
      · rw [List.length_take_of_le hlen]
        rfl
      · rw [List.drop_of_length_le (by omega), Digits.ofBits_nil, Nat.mul_zero, Nat.mul_zero]
    rw [chunks_eq (by omega) hnil, List.map_cons, List.map_cons, Nat.ofDigits_cons,
      byteOfBits_toNat (List.length_take_le 8 bits), ih, ← hrest, ← Digits.ofBits_append, List.take_append_drop]

theorem numBits_le_of_mem {q : Nat} {sizes : List FieldElementSize} {ns : List Nat}
    (h : List.Forall₂ (fun size n => size.numBits q = .ok n) sizes ns) : ∀ n ∈ ns, n ≤ modulusBitSize q := by
  induction h with
  | nil => exact nofun
  | cons hsize _ ih => exact List.forall_mem_cons.mpr ⟨FieldElementSize.numBits_le hsize, ih⟩

theorem totalBits_eq {q : Nat} {sizes : List FieldElementSize} {ns : List Nat}
    (h : List.Forall₂ (fun size n => size.numBits q = .ok n) sizes ns) : totalBits q sizes = .ok ns.sum := by
  have hfold : ∀ total, sizes.foldlM (fun total size => do
      let numBits ← size.numBits q
      pure (total + numBits) : Nat → FieldElementSize → Outcome Nat) total = .ok (total + ns.sum) := by
    induction h with
    | nil => exact fun total => rfl
    | cons hsize _ ih =>
      intro total
      rw [List.foldlM_cons, hsize, Except.ok_bind, List.sum_cons, ← Nat.add_assoc]
      exact ih _
  rw [totalBits, hfold, Nat.zero_add]

theorem bitsWindows_eq {B : Type} {q : Nat} {sizes : List FieldElementSize} {ns : List Nat}
    (h : List.Forall₂ (fun size n => size.numBits q = .ok n) sizes ns) {bits : List B}
    (hb : ns.sum ≤ bits.length) : bitsWindows q sizes bits = .ok (ns.splitLengths bits) := by
  induction h generalizing bits with
  | nil => rfl
  | @cons size n sizes ns hsize _ ih =>
    rw [List.sum_cons] at hb
    rw [bitsWindows, hsize, Except.ok_bind, slice_of_le (Nat.zero_le _) (by omega), Except.ok_bind,
      slice_of_le (by omega) le_rfl, Except.ok_bind, List.take_of_length_le (by rw [List.length_drop]),
      ih (by rw [List.length_drop]; omega), List.splitLengths_cons]
    rfl

/-- The default implementation squeezes bits and returns the elements of their windows. -/
theorem defaultImpl_eq {S : Type} {squeezeBits : S → Nat → Outcome (List Bool × S)} {q : Nat}
    {sizes : List FieldElementSize} {ns : List Nat} (hne : sizes ≠ [])
    (hsizes : List.Forall₂ (fun size n => size.numBits q = .ok n) sizes ns) {sponge sponge' : S} {bits : List Bool}
    (h : squeezeBits sponge ns.sum = .ok (bits, sponge')) (hlen : bits.length = ns.sum) :
    squeezeFieldElementsWithSizesDefaultImpl q squeezeBits sponge sizes =
      .ok ((ns.splitLengths bits).map (elementOfBits q), sponge') := by
  rw [squeezeFieldElementsWithSizesDefaultImpl, if_neg fun h => hne (List.length_eq_zero_iff.mp h),
    totalBits_eq hsizes, Except.ok_bind, h, Except.ok_bind]
  simp only [bitsWindows_eq hsizes hlen.ge, Except.ok_bind]
  rfl

theorem splitLengths_flatten {α : Type} (xss : List (List α)) :
    (xss.map List.length).splitLengths xss.flatten = xss := by
  induction xss with
  | nil => rfl
  | cons xs xss ih =>
    rw [List.map_cons, List.flatten_cons, List.splitLengths_cons, List.take_left, List.drop_left, ih]

theorem splitLengths_map {α β : Type} (f : α → β) (ns : List Nat) (xs : List α) :
    ns.splitLengths (xs.map f) = (ns.splitLengths xs).map (List.map f) := by
  induction ns generalizing xs with
  | nil => rfl
  | cons n ns ih =>
    rw [List.splitLengths_cons, List.splitLengths_cons, List.map_cons, ← List.map_drop, ih, List.map_take]

/-- `field_cast`, from the field of `p` to that of `q` elements. -/
def fieldCast {p : Nat} (q : Nat) (x : List (ZMod p)) : Option (List (ZMod q)) :=
  if p ≠ q then none else some (x.map fun item => fromLeBytesModOrder q (toBytesLe item))

namespace PoseidonSponge

variable {p : Nat}

/-- `PoseidonSponge::squeeze_bits`. -/
def squeezeBits (D : Duplex Outcome (ZMod p)) (self : DuplexSponge (ZMod p)) (numBits : Nat) :
    Outcome (List Bool × DuplexSponge (ZMod p)) := do
  let usableBits := modulusBitSize p - 1
  let numElements := (numBits + usableBits - 1) / usableBits
  let (srcElements, self) ← squeezeNativeFieldElements D self numElements
  let bits ← srcElements.mapM fun elem => slice (toBitsLe elem) 0 usableBits
  pure (bits.flatten.take numBits, self)

/-- `squeeze_native_field_elements_with_sizes`. -/
def squeezeNativeFieldElementsWithSizes (D : Duplex Outcome (ZMod p)) (self : DuplexSponge (ZMod p))
    (sizes : List FieldElementSize) : Outcome (List (ZMod p) × DuplexSponge (ZMod p)) :=
  if ∀ size ∈ sizes, size = .full then squeezeNativeFieldElements D self sizes.length
  else squeezeFieldElementsWithSizesDefaultImpl p (squeezeBits D) self sizes

/-- `PoseidonSponge::squeeze_field_elements_with_sizes`, for elements of the field of `q`
elements. -/
def squeezeFieldElementsWithSizes (q : Nat) (D : Duplex Outcome (ZMod p)) (self : DuplexSponge (ZMod p))
    (sizes : List FieldElementSize) : Outcome (List (ZMod q) × DuplexSponge (ZMod p)) :=
  if p = q then do
    let (elements, self) ← squeezeNativeFieldElementsWithSizes D self sizes
    let buf ← unwrapOption (fieldCast q elements)
    pure (buf, self)
  else squeezeFieldElementsWithSizesDefaultImpl q (squeezeBits D) self sizes

/-- The bits of an element that `squeeze_bits` returns. -/
def lowBits (x : ZMod p) : List Bool := (List.range (modulusBitSize p - 1)).map x.val.testBit

theorem length_lowBits (x : ZMod p) : (lowBits x).length = modulusBitSize p - 1 := by
  rw [lowBits, List.length_map, List.length_range]

theorem slice_toBitsLe (x : ZMod p) :
    (slice (toBitsLe x) 0 (modulusBitSize p - 1) : Outcome (List Bool)) = .ok (lowBits x) := by
  have hlen : modulusBitSize p - 1 ≤ (toBitsLe x).length := by
    rw [toBitsLe, List.length_map, List.length_range]
    exact (Nat.sub_le _ 1).trans PrimeField.modulusBitSize_le
  rw [slice_of_le (Nat.zero_le _) hlen, List.drop_zero, Nat.sub_zero, PrimeField.take_toBitsLe x (Nat.sub_le _ 1)]
  rfl

variable {D : Duplex Outcome (ZMod p)}

theorem squeezeBits_eq (self : DuplexSponge (ZMod p)) (n : Nat) :
    squeezeBits D self n = (fun r => ((r.1.map lowBits).flatten.take n, r.2)) <$>
      squeezeNativeFieldElements D self ((n + (modulusBitSize p - 1) - 1) / (modulusBitSize p - 1)) := by
  have hlow (elements : List (ZMod p)) :
      (elements.mapM fun elem => slice (toBitsLe elem) 0 (modulusBitSize p - 1) : Outcome _) =
        .ok (elements.map lowBits) := Except.mapM_eq_map fun x _ => slice_toBitsLe x
  rw [squeezeBits]
  cases squeezeNativeFieldElements D self ((n + (modulusBitSize p - 1) - 1) / (modulusBitSize p - 1)) with
  | error e => rfl
  | ok r =>
    obtain ⟨elements, self'⟩ := r
    simp only [Except.ok_bind, hlow]
    rfl

theorem length_flatten_lowBits (elements : List (ZMod p)) :
    (elements.map lowBits).flatten.length = elements.length * (modulusBitSize p - 1) := by
  induction elements with
  | nil => exact (Nat.zero_mul _).symm
  | cons x elements ih =>
    rw [List.map_cons, List.flatten_cons, List.length_append, ih, length_lowBits, List.length_cons, Nat.succ_mul,
      Nat.add_comm]

section

variable [hp : Fact p.Prime]

theorem one_le_usableBits (p : Nat) [hp : Fact p.Prime] : 1 ≤ modulusBitSize p - 1 := by
  rw [modulusBitSize, Nat.add_sub_cancel, Nat.le_log2 hp.out.ne_zero]
  exact hp.out.two_le

theorem exists_squeezeBits (hD : D.Total) (hr : 0 < D.rate) {self : DuplexSponge (ZMod p)} (hs : self.Valid D)
    (n : Nat) : ∃ bits self', squeezeBits D self n = .ok (bits, self') ∧ bits.length = n := by
  obtain ⟨elements, self', h, hlen⟩ := exists_squeezeNativeFieldElements hD hr hs
    ((n + (modulusBitSize p - 1) - 1) / (modulusBitSize p - 1))
  refine ⟨_, self', by rw [squeezeBits_eq, h]; rfl, List.length_take_of_le ?_⟩
  have hw := one_le_usableBits p
  have hdiv := Nat.div_add_mod (n + (modulusBitSize p - 1) - 1) (modulusBitSize p - 1)
  have hmod := Nat.mod_lt (n + (modulusBitSize p - 1) - 1) hw
  rw [length_flatten_lowBits, hlen, Nat.mul_comm]
  omega

/-! ## The route of the native field -/

theorem fieldCast_self (x : List (ZMod p)) : fieldCast p x = some x := by
  rw [fieldCast, if_neg (not_not.mpr rfl)]
  exact congrArg some ((List.map_congr_left fun item _ =>
    PrimeField.fromLeBytesModOrder_toBytesLe item).trans (List.map_id x))

theorem squeezeFieldElementsWithSizes_self (self : DuplexSponge (ZMod p)) (sizes : List FieldElementSize) :
    squeezeFieldElementsWithSizes p D self sizes = squeezeNativeFieldElementsWithSizes D self sizes := by
  rw [squeezeFieldElementsWithSizes, if_pos rfl]
  cases squeezeNativeFieldElementsWithSizes D self sizes with
  | error e => rfl
  | ok r =>
    obtain ⟨elements, self'⟩ := r
    simp only [Except.ok_bind, fieldCast_self]
    rfl

/-- All elements full: the default implementation returns the low bits of the elements. -/
theorem defaultImpl_full (hD : D.Total) (hr : 0 < D.rate) {self self' : DuplexSponge (ZMod p)} (hs : self.Valid D)
    {n : Nat} (hn : n ≠ 0) {elements : List (ZMod p)}
    (h : squeezeNativeFieldElements D self n = .ok (elements, self')) :
    squeezeFieldElementsWithSizesDefaultImpl p (squeezeBits D) self (List.replicate n .full) =
      .ok (elements.map fun x => ((x.val % 2 ^ (modulusBitSize p - 1) : Nat) : ZMod p), self') := by
  have hw := one_le_usableBits p
  have hlen : elements.length = n := by
    obtain ⟨_, _, h', hlen⟩ := exists_squeezeNativeFieldElements hD hr hs n
    rw [h', Except.ok.injEq, Prod.mk.injEq] at h
    rw [← h.1, hlen]
  have hcount : (n * (modulusBitSize p - 1) + (modulusBitSize p - 1) - 1) / (modulusBitSize p - 1) = n :=
    Nat.div_eq_of_lt_le (by omega) (by rw [Nat.succ_mul]; omega)
  have hwidths : (elements.map lowBits).map List.length = List.replicate n (modulusBitSize p - 1) := by
    rw [List.map_map, ← hlen]
    exact List.map_eq_replicate_iff.mpr fun x _ => length_lowBits x
  have hsum : (List.replicate n (modulusBitSize p - 1)).sum = n * (modulusBitSize p - 1) := List.sum_replicate_nat
  have hbits : squeezeBits D self (List.replicate n (modulusBitSize p - 1)).sum =
      .ok ((elements.map lowBits).flatten, self') := by
    rw [squeezeBits_eq, hsum, hcount, h]
    exact congrArg (fun bits => Except.ok (bits, self'))
      (List.take_of_length_le (by rw [length_flatten_lowBits, hlen]))
  rw [defaultImpl_eq (fun h => hn (List.replicate_eq_nil_iff _ |>.mp h))
      (FieldElementSize.numBits_full p n) hbits
      (by rw [hsum, length_flatten_lowBits, hlen]), ← hwidths, splitLengths_flatten, List.map_map]
  refine congrArg (fun elements => Except.ok (elements, self')) (List.map_congr_left fun x _ => ?_)
  rw [Function.comp_apply, elementOfBits_eq, lowBits, Digits.ofBits_testBit]

end

end PoseidonSponge

end CryptoPrimitives.Sponge
