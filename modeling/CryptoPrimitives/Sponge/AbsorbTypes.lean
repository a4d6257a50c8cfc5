import CryptoPrimitives.Framework.Appends
import CryptoPrimitives.Sponge.Absorb
import CryptoPrimitives.Sponge.FieldElements

/-!
# The types that a sponge absorbs

The implementations of the trait `Absorb` in `sponge/absorb.rs`: `AbsorbImpl` has the
methods, and `AbsorbType` the types, nested to any depth.

* `AbsorbType.appends`: every method puts the same elements behind every `dest`.
* `batch_agree_iff`: the two ways to turn a batch into field elements agree exactly for the
  types other than `u8`, and the two ways to turn it into bytes for all.
-/

namespace CryptoPrimitives.Sponge

open PrimeField (modulusBitSize toBytesLe fromLeBytesModOrder)

/-- The methods of `Absorb`. A method that appends to `dest` returns the list that `dest`
becomes; the field is that of `p` elements. -/
structure AbsorbImpl (A : Type) where
  toSpongeBytes : A → List UInt8 → Outcome (List UInt8)
  toSpongeFieldElements (p : Nat) : A → List (ZMod p) → Outcome (List (ZMod p))
  batchToSpongeBytes (batch : List A) (dest : List UInt8) : Outcome (List UInt8) :=
    batch.foldlM (fun dest absorbable => toSpongeBytes absorbable dest) dest
  batchToSpongeFieldElements (p : Nat) (batch : List A) (dest : List (ZMod p)) : Outcome (List (ZMod p)) :=
    batch.foldlM (fun dest absorbable => toSpongeFieldElements p absorbable dest) dest

namespace AbsorbImpl

variable {A : Type}

/-! No implementation has a `_as_vec` method of its own. -/

/-- `Absorb::to_sponge_field_elements_as_vec`. -/
def toSpongeFieldElementsAsVec (I : AbsorbImpl A) (p : Nat) (self : A) : Outcome (List (ZMod p)) :=
  I.toSpongeFieldElements p self []

/-- `Absorb::batch_to_sponge_bytes_as_vec`. -/
def batchToSpongeBytesAsVec (I : AbsorbImpl A) (batch : List A) : Outcome (List UInt8) :=
  I.batchToSpongeBytes batch []

/-- `Absorb::batch_to_sponge_field_elements_as_vec`. -/
def batchToSpongeFieldElementsAsVec (I : AbsorbImpl A) (p : Nat) (batch : List A) : Outcome (List (ZMod p)) :=
  batch.foldlM (fun result absorbable => I.toSpongeFieldElements p absorbable result) []

/-! ## Integers, booleans and strings -/

/-- `Absorb for u8`. -/
def u8 : AbsorbImpl UInt8 where
  toSpongeBytes self dest := pure (dest ++ [self])
  toSpongeFieldElements p self dest := pure (dest ++ [(self.toNat : ZMod p)])
  batchToSpongeBytes batch dest := pure (dest ++ batch)
  batchToSpongeFieldElements p batch dest := do
    let elements ← Absorb.batchToSpongeFieldElements p batch
    pure (dest ++ elements)

/-- `Absorb for bool`. -/
def bool : AbsorbImpl Bool where
  toSpongeBytes self dest := pure (dest ++ [if self then 1 else 0])
  toSpongeFieldElements p self dest := pure (dest ++ [if self then (1 : ZMod p) else 0])

/-- `impl_absorbable_unsigned!`, for the type of `w` bits. -/
def implAbsorbableUnsigned (w : Nat) : AbsorbImpl (BitVec w) where
  toSpongeBytes self dest := pure (dest ++ toLeBytes (w / 8) self.toNat)
  toSpongeFieldElements p self dest := pure (dest ++ [(self.toNat : ZMod p)])

def u16 : AbsorbImpl (BitVec 16) := implAbsorbableUnsigned 16
def u32 : AbsorbImpl (BitVec 32) := implAbsorbableUnsigned 32
def u64 : AbsorbImpl (BitVec 64) := implAbsorbableUnsigned 64
def u128 : AbsorbImpl (BitVec 128) := implAbsorbableUnsigned 128

/-- `self.abs()`, which overflows on the least integer. -/
def checkedAbs {w : Nat} (self : BitVec w) : Outcome (BitVec w) :=
  if self = BitVec.intMin w then raise (.panic .overflow) else pure self.abs

/-- `impl_absorbable_signed!`, for the types of `w` bits. -/
def implAbsorbableSigned (w : Nat) : AbsorbImpl (BitVec w) where
  toSpongeBytes self dest := pure (dest ++ toLeBytes (w / 8) self.toNat)
  toSpongeFieldElements p self dest := do
    let abs ← checkedAbs self
    let elem : ZMod p := abs.toNat
    pure (dest ++ [if self.toInt < 0 then -elem else elem])

def i8 : AbsorbImpl (BitVec 8) := implAbsorbableSigned 8
def i16 : AbsorbImpl (BitVec 16) := implAbsorbableSigned 16
def i32 : AbsorbImpl (BitVec 32) := implAbsorbableSigned 32
def i64 : AbsorbImpl (BitVec 64) := implAbsorbableSigned 64
def i128 : AbsorbImpl (BitVec 128) := implAbsorbableSigned 128

/-- `Absorb for usize`. -/
def usize : AbsorbImpl (BitVec 64) where
  toSpongeBytes self dest := pure (dest ++ Absorb.usizeToSpongeBytes self.toNat)
  toSpongeFieldElements p self dest := u64.toSpongeFieldElements p self dest

/-- `Absorb for isize`. -/
def isize : AbsorbImpl (BitVec 64) where
  toSpongeBytes self dest := pure (dest ++ toLeBytes 8 self.toNat)
  toSpongeFieldElements p self dest := i64.toSpongeFieldElements p self dest

/-! ## Types of types -/

/-- `Absorb for &[A]`. -/
def slice (I : AbsorbImpl A) : AbsorbImpl (List A) where
  toSpongeBytes self dest := I.batchToSpongeBytes self dest
  toSpongeFieldElements p self dest := I.batchToSpongeFieldElements p self dest

/-- `Absorb for Vec<A>`. -/
def vec (I : AbsorbImpl A) : AbsorbImpl (List A) where
  toSpongeBytes self dest := I.slice.toSpongeBytes self dest
  toSpongeFieldElements p self dest := I.slice.toSpongeFieldElements p self dest

/-- `Absorb for Option<A>`. -/
def option (I : AbsorbImpl A) : AbsorbImpl (Option A) where
  toSpongeBytes self dest := do
    let dest ← bool.toSpongeBytes self.isSome dest
    match self with
    | some item => I.toSpongeBytes item dest
    | none => pure dest
  toSpongeFieldElements p self dest := do
    let dest ← bool.toSpongeFieldElements p self.isSome dest
    match self with
    | some item => I.toSpongeFieldElements p item dest
    | none => pure dest

/-- `Absorb for &A`. -/
def ref (I : AbsorbImpl A) : AbsorbImpl A where
  toSpongeBytes self dest := I.toSpongeBytes self dest
  toSpongeFieldElements p self dest := I.toSpongeFieldElements p self dest

/-- `Absorb for String`. -/
def string : AbsorbImpl ByteString where
  toSpongeBytes self dest := pure (dest ++ Absorb.stringToSpongeBytes self)
  toSpongeFieldElements p self dest := u8.slice.toSpongeFieldElements p self.bytes dest

end AbsorbImpl

/-! ## Field elements and points -/

/-- What `Absorb for Fp<P, N>` uses of the field. -/
structure FpConfig where
  characteristic : Nat
  /-- The bytes that `serialize_compressed` writes. -/
  serializeCompressed : ZMod characteristic → Except Error (List UInt8)

/-- What `Absorb for TEAffine<P>` and `Absorb for SWAffine<P>` use of the curve. -/
structure CurveConfig where
  BaseField : Type
  /-- That of `BaseField::BasePrimeField`. -/
  characteristic : Nat
  /-- `ToConstraintField for BaseField`. -/
  toFieldElements : BaseField → Option (List (ZMod characteristic))
  Affine : Type
  x : Affine → BaseField
  y : Affine → BaseField
  isZero : Affine → Bool
  /-- `ToConstraintField for Affine`. -/
  affineToFieldElements : Affine → Option (List (ZMod characteristic))

namespace AbsorbImpl

/-- `Absorb for Fp<P, N>`. -/
def fp (P : FpConfig) : AbsorbImpl (ZMod P.characteristic) where
  toSpongeBytes self dest := do
    let bytes ← unwrap (P.serializeCompressed self)
    pure (dest ++ bytes)
  toSpongeFieldElements p self dest := do
    let elements ← unwrapOption (fieldCast p [self])
    pure (dest ++ elements)
  batchToSpongeFieldElements p batch dest := do
    let elements ← unwrapOption (fieldCast p batch)
    pure (dest ++ elements)

/-- The bytes of the coordinates of a point. -/
def coordinateBytes (P : CurveConfig) (self : P.Affine) : Outcome (List UInt8) := do
  let x ← unwrapOption (P.toFieldElements (P.x self))
  let y ← unwrapOption (P.toFieldElements (P.y self))
  pure ((x ++ y).flatMap toBytesLe)

/-- `Absorb for TEAffine<P>`. -/
def teAffine (P : CurveConfig) : AbsorbImpl P.Affine where
  toSpongeBytes self dest := do
    let bytes ← coordinateBytes P self
    pure (dest ++ bytes)
  toSpongeFieldElements p self dest := do
    let elements ← unwrapOption (P.affineToFieldElements self)
    let elements ← unwrapOption (fieldCast p elements)
    pure (dest ++ elements)

/-- `Absorb for SWAffine<P>`. -/
def swAffine (P : CurveConfig) : AbsorbImpl P.Affine where
  toSpongeBytes self dest := do
    let bytes ← coordinateBytes P self
    pure (dest ++ bytes ++ [if P.isZero self then 1 else 0])
  toSpongeFieldElements p self dest := do
    let elements ← unwrapOption (P.affineToFieldElements self)
    let elements ← unwrapOption (fieldCast p elements)
    pure (dest ++ elements)

end AbsorbImpl

/-- The types that implement `Absorb`. -/
inductive AbsorbType : Type 1 where
  | u8 | bool | u16 | u32 | u64 | u128 | i8 | i16 | i32 | i64 | i128 | usize | isize | string
  | fp (P : FpConfig)
  | teAffine (P : CurveConfig)
  | swAffine (P : CurveConfig)
  | slice (A : AbsorbType)
  | vec (A : AbsorbType)
  | option (A : AbsorbType)
  | ref (A : AbsorbType)

namespace AbsorbType

/-- The values of a type. -/
def Value : AbsorbType → Type
  | u8 => UInt8
  | bool => Bool
  | u16 | i16 => BitVec 16
  | u32 | i32 => BitVec 32
  | u64 | i64 | usize | isize => BitVec 64
  | u128 | i128 => BitVec 128
  | i8 => BitVec 8
  | string => ByteString
  | fp P => ZMod P.characteristic
  | teAffine P | swAffine P => P.Affine
  | slice A | vec A => List A.Value
  | option A => Option A.Value
  | ref A => A.Value

/-- The implementation for a type. -/
def impl : (A : AbsorbType) → AbsorbImpl A.Value
  | u8 => .u8
  | bool => .bool
  | u16 => .u16
  | u32 => .u32
  | u64 => .u64
  | u128 => .u128
  | i8 => .i8
  | i16 => .i16
  | i32 => .i32
  | i64 => .i64
  | i128 => .i128
  | usize => .usize
  | isize => .isize
  | string => .string
  | fp P => .fp P
  | teAffine P => .teAffine P
  | swAffine P => .swAffine P
  | slice A => A.impl.slice
  | vec A => A.impl.vec
  | option A => A.impl.option
  | ref A => A.impl.ref

/-- The field elements of a type are cast to the field of `p` elements. -/
def Compatible (p : Nat) : AbsorbType → Prop
  | fp P => P.characteristic = p
  | teAffine P | swAffine P => P.characteristic = p
  | slice A | vec A | option A | ref A => A.Compatible p
  | _ => True

end AbsorbType

/-! ## What the methods append -/

/-- Every method appends to `dest`. -/
structure AbsorbImpl.Appending {A : Type} (I : AbsorbImpl A) : Prop where
  bytes (self : A) : Appends (I.toSpongeBytes self)
  fieldElements (p : Nat) (self : A) : Appends (I.toSpongeFieldElements p self)
  batchBytes (batch : List A) : Appends (I.batchToSpongeBytes batch)
  batchFieldElements (p : Nat) (batch : List A) : Appends (I.batchToSpongeFieldElements p batch)

namespace AbsorbImpl

variable {A : Type} {I : AbsorbImpl A}

/-- The default methods append what those for one value do. -/
theorem Appending.of_default {f : A → List UInt8 → Outcome (List UInt8)}
    {g : (p : Nat) → A → List (ZMod p) → Outcome (List (ZMod p))} (hf : ∀ self, Appends (f self))
    (hg : ∀ p self, Appends (g p self)) :
    Appending { toSpongeBytes := f, toSpongeFieldElements := g } where
  bytes := hf
  fieldElements := hg
  batchBytes _ := .foldlM fun x _ => hf x
  batchFieldElements p _ := .foldlM fun x _ => hg p x

theorem u8_appending : u8.Appending where
  bytes _ := .pure _
  fieldElements _ _ := .pure _
  batchBytes _ := .pure _
  batchFieldElements _ _ := .of_bind fun _ => .pure _

theorem bool_appending : bool.Appending := .of_default (fun _ => .pure _) fun _ _ => .pure _

theorem implAbsorbableUnsigned_appending (w : Nat) : (implAbsorbableUnsigned w).Appending :=
  .of_default (fun _ => .pure _) fun _ _ => .pure _

theorem implAbsorbableSigned_appending (w : Nat) : (implAbsorbableSigned w).Appending :=
  .of_default (fun _ => .pure _) fun _ _ => .of_bind fun _ => .pure _

theorem usize_appending : usize.Appending := .of_default (fun _ => .pure _) fun _ _ => .pure _

theorem isize_appending : isize.Appending :=
  .of_default (fun _ => .pure _) (implAbsorbableSigned_appending 64).fieldElements

theorem string_appending : string.Appending :=
  .of_default (fun _ => .pure _) fun p self => u8_appending.batchFieldElements p self.bytes

theorem fp_appending (P : FpConfig) : (fp P).Appending where
  bytes _ := .of_bind fun _ => .pure _
  fieldElements _ _ := .of_bind fun _ => .pure _
  batchBytes _ := .foldlM fun _ _ => .of_bind fun _ => .pure _
  batchFieldElements _ _ := .of_bind fun _ => .pure _

theorem teAffine_appending (P : CurveConfig) : (teAffine P).Appending :=
  .of_default (fun _ => .of_bind fun _ => .pure _) fun _ _ => .of_bind fun _ => .of_bind fun _ => .pure _

theorem swAffine_appending (P : CurveConfig) : (swAffine P).Appending := by
  refine .of_default (fun self => ?_) fun _ _ => .of_bind fun _ => .of_bind fun _ => .pure _
  refine .of_bind fun bytes => ?_
  simp only [List.append_assoc]
  exact .pure _

theorem Appending.slice (h : I.Appending) : I.slice.Appending :=
  .of_default h.batchBytes h.batchFieldElements

theorem Appending.vec (h : I.Appending) : I.vec.Appending :=
  .of_default h.batchBytes h.batchFieldElements

theorem Appending.option (h : I.Appending) : I.option.Appending := by
  refine .of_default (fun self => ?_) fun p self => ?_
  · refine .bind (bool_appending.bytes self.isSome) ?_
    cases self with
    | some item => exact h.bytes item
    | none => exact fun dest => congrArg Except.ok (List.append_nil dest).symm
  · refine .bind (bool_appending.fieldElements p self.isSome) ?_
    cases self with
    | some item => exact h.fieldElements p item
    | none => exact fun dest => congrArg Except.ok (List.append_nil dest).symm

theorem Appending.ref (h : I.Appending) : I.ref.Appending := .of_default h.bytes h.fieldElements

end AbsorbImpl

theorem AbsorbType.appends (A : AbsorbType) : A.impl.Appending := by
  induction A with
  | u8 => exact AbsorbImpl.u8_appending
  | bool => exact AbsorbImpl.bool_appending
  | u16 | u32 | u64 | u128 => exact AbsorbImpl.implAbsorbableUnsigned_appending _
  | i8 | i16 | i32 | i64 | i128 => exact AbsorbImpl.implAbsorbableSigned_appending _
  | usize => exact AbsorbImpl.usize_appending
  | isize => exact AbsorbImpl.isize_appending
  | string => exact AbsorbImpl.string_appending
  | fp P => exact AbsorbImpl.fp_appending P
  | teAffine P => exact AbsorbImpl.teAffine_appending P
  | swAffine P => exact AbsorbImpl.swAffine_appending P
  | slice A ih => exact ih.slice
  | vec A ih => exact ih.vec
  | option A ih => exact ih.option
  | ref A ih => exact ih.ref

/-! ## Batches -/

/-- The bytes of a number that is not zero are not all zero. -/
theorem sum_toLeBytes_pos {count n : Nat} (h0 : 0 < n) (hn : n < 256 ^ count) :
    0 < ((toLeBytes count n).map UInt8.toNat).sum := by
  refine Nat.pos_of_ne_zero fun hsum => h0.ne' (toLeBytes_inj hn (Nat.pow_pos (by decide)) ?_)
  rw [toLeBytes_zero, List.eq_replicate_iff]
  refine ⟨length_toLeBytes count n, fun byte hbyte => UInt8.toNat_inj.mp ?_⟩
  exact List.sum_eq_zero_iff.mp hsum byte.toNat (List.mem_map_of_mem hbyte)

/-- As many elements as bytes are packed into with their length before them only where there are few. -/
theorem length_of_div_eq {size n : Nat} (hs : 0 < size) (h : (n + 8 + (size - 1)) / size = n) : 0 < n ∧ n ≤ 9 := by
  obtain ⟨k, rfl⟩ := Nat.exists_eq_add_of_lt hs
  have hmul : n * (0 + k + 1) ≤ n + 8 + (0 + k + 1 - 1) := by
    have := Nat.div_mul_le_self (n + 8 + (0 + k + 1 - 1)) (0 + k + 1)
    rwa [h] at this
  have hlt : n + 8 + (0 + k + 1 - 1) < (0 + k + 1) * (n + 1) := by
    have := Nat.lt_mul_div_succ (n + 8 + (0 + k + 1 - 1)) hs
    rwa [h] at this
  rw [Nat.mul_succ] at hlt
  rw [Nat.zero_add, Nat.mul_succ] at hmul
  rw [Nat.zero_add, Nat.mul_comm, Nat.mul_succ] at hlt
  have hk : 0 < k := by
    refine Nat.pos_of_ne_zero fun hk => ?_
    rw [hk] at hlt
    omega
  refine ⟨Nat.pos_of_ne_zero fun hn => ?_, Nat.le_of_not_lt fun hn => ?_⟩
  · rw [hn] at hlt
    omega
  · have := Nat.mul_le_mul_right k (show 10 ≤ n from hn)
    omega

theorem fromLeBytesModOrder_singleton (p : Nat) (byte : UInt8) : fromLeBytesModOrder p [byte] = (byte.toNat : ZMod p) :=
  congrArg Nat.cast Nat.ofDigits_singleton

section

variable {p : Nat} [Fact p.Prime]

/-- The elements that bytes are packed into are together at least as large as the bytes. -/
theorem sum_bytes_le (h : 0 < maxSize p) (bytes : List UInt8) :
    (bytes.map UInt8.toNat).sum ≤ ((Absorb.packed p bytes).map ZMod.val).sum := by
  have hchunks : (Absorb.packed p bytes).map ZMod.val = (chunks (maxSize p) bytes).map leNumber := by
    rw [Absorb.packed, List.map_map]
    exact List.map_congr_left fun chunk hc => val_fromLeBytesModOrder (length_le_of_mem_chunks h hc)
  calc (bytes.map UInt8.toNat).sum
    _ = ((chunks (maxSize p) bytes).map fun chunk => (chunk.map UInt8.toNat).sum).sum := by
      rw [← flatten_chunks h bytes, List.map_flatten, List.sum_flatten, List.map_map, flatten_chunks h]
      rfl
    _ ≤ ((chunks (maxSize p) bytes).map leNumber).sum :=
      List.sum_le_sum fun chunk _ => Nat.sum_le_ofDigits _ (by decide)
    _ = ((Absorb.packed p bytes).map ZMod.val).sum := by rw [hchunks]

/-- A field whose elements take a byte has more than 255 elements. -/
theorem val_natCast_toNat (h : 0 < maxSize p) (byte : UInt8) : (byte.toNat : ZMod p).val = byte.toNat := by
  rw [← fromLeBytesModOrder_singleton, val_fromLeBytesModOrder (show [byte].length ≤ maxSize p from h)]
  exact Nat.ofDigits_singleton

/-- Bytes with their length before them are not packed into one element for each. -/
theorem packed_ne (h : 0 < maxSize p) (batch : List UInt8) :
    Absorb.packed p (toLeBytes 8 batch.length ++ batch) ≠ batch.map fun byte => (byte.toNat : ZMod p) := fun heq => by
  have hlength : (batch.length + 8 + (maxSize p - 1)) / maxSize p = batch.length := by
    have := congrArg List.length heq
    rwa [Absorb.packed, List.length_map, List.length_map, length_chunks h, List.length_append, length_toLeBytes,
      Nat.add_comm 8] at this
  obtain ⟨hpos, hfew⟩ := length_of_div_eq h hlength
  have hsum : ((toLeBytes 8 batch.length ++ batch).map UInt8.toNat).sum ≤ (batch.map UInt8.toNat).sum := by
    refine (sum_bytes_le h _).trans_eq ?_
    rw [heq, List.map_map]
    exact congrArg List.sum (List.map_congr_left fun byte _ => val_natCast_toNat h byte)
  rw [List.map_append, List.sum_append] at hsum
  have hbytes : 0 < ((toLeBytes 8 batch.length).map UInt8.toNat).sum := sum_toLeBytes_pos hpos (by omega)
  omega

/-- `u8` packs a batch in one of the two ways only. -/
theorem u8_batch_ne (batch : List UInt8) :
    AbsorbImpl.u8.batchToSpongeFieldElements p batch [] ≠ AbsorbImpl.u8.batchToSpongeFieldElementsAsVec p batch := by
  have hvec : AbsorbImpl.u8.batchToSpongeFieldElementsAsVec p batch =
      .ok (batch.map fun byte => (byte.toNat : ZMod p)) := foldlM_append_singleton _ batch []
  have hbatch : AbsorbImpl.u8.batchToSpongeFieldElements p batch [] =
      toFieldElements p (toLeBytes 8 batch.length ++ batch) := bind_pure _
  rw [hvec, hbatch]
  rcases Nat.eq_zero_or_pos (maxSize p) with h | h
  · rw [toFieldElements, if_pos h]
    exact fun heq => nomatch heq
  · rw [Absorb.toFieldElements_eq h]
    exact fun heq => packed_ne h batch (Except.ok.inj heq)

/-- Field elements are cast one by one as they are together. -/
theorem fieldCast_foldlM (batch dest : List (ZMod p)) :
    batch.foldlM (fun dest x => do
      let elements ← unwrapOption (fieldCast p [x])
      pure (dest ++ elements)) dest = (do
      let elements ← unwrapOption (fieldCast p batch)
      pure (dest ++ elements) : Outcome (List (ZMod p))) := by
  simp only [PoseidonSponge.fieldCast_self]
  refine (foldlM_append_singleton id batch dest).trans ?_
  rw [List.map_id]
  rfl

/-- Only `u8` has a method of its own that does not do what the loop over the batch does. -/
theorem batchToSpongeFieldElements_eq {A : AbsorbType} (hA : A.Compatible p) (hu : A ≠ .u8) (batch : List A.Value)
    (dest : List (ZMod p)) : A.impl.batchToSpongeFieldElements p batch dest =
      batch.foldlM (fun dest absorbable => A.impl.toSpongeFieldElements p absorbable dest) dest := by
  cases A with
  | u8 => exact absurd rfl hu
  | fp P =>
    obtain ⟨q, serializeCompressed⟩ := P
    cases hA
    exact (fieldCast_foldlM batch dest).symm
  | _ => rfl

/-- For every type, every field that it is cast to and every batch: the two ways to turn the batch into
field elements agree exactly when the type is not `u8`, and the two ways to turn it into bytes agree. -/
theorem batch_agree_iff {A : AbsorbType} (hA : A.Compatible p) (batch : List A.Value) :
    ((∀ dest, A.impl.batchToSpongeFieldElements p batch dest =
        (dest ++ ·) <$> A.impl.batchToSpongeFieldElementsAsVec p batch) ↔ A ≠ .u8) ∧
      ∀ dest, A.impl.batchToSpongeBytes batch dest = (dest ++ ·) <$> A.impl.batchToSpongeBytesAsVec batch := by
  refine ⟨⟨fun h hu => ?_, fun hu dest => ?_⟩, A.appends.batchBytes batch⟩
  · subst hu
    exact u8_batch_ne batch ((h []).trans (id_map _))
  · rw [batchToSpongeFieldElements_eq hA hu]
    exact Appends.foldlM (fun x _ => A.appends.fieldElements p x) dest

end

/-- Two byte strings, one of them empty. -/
theorem batch_agree_iff_vec :
    ((∀ dest, (AbsorbType.vec .u8).impl.batchToSpongeFieldElements 257 [[(1 : UInt8)], []] dest =
        (dest ++ ·) <$> (AbsorbType.vec .u8).impl.batchToSpongeFieldElementsAsVec 257 [[(1 : UInt8)], []]) ↔
      AbsorbType.vec .u8 ≠ .u8) ∧
    ∀ dest, (AbsorbType.vec .u8).impl.batchToSpongeBytes [[(1 : UInt8)], []] dest =
      (dest ++ ·) <$> (AbsorbType.vec .u8).impl.batchToSpongeBytesAsVec [[(1 : UInt8)], []] := by
  have : Fact (Nat.Prime 257) := ⟨by norm_num⟩
  exact batch_agree_iff (A := .vec .u8) (p := 257) trivial [[(1 : UInt8)], []]

/-- One byte, in the field whose elements take one: with its length before it, or alone. -/
theorem u8_batch_disagrees : Nat.Prime 257 ∧ AbsorbType.u8.Compatible 257 ∧
    AbsorbType.u8.impl.batchToSpongeFieldElements 257 [(1 : UInt8)] [] = .ok [1, 0, 0, 0, 0, 0, 0, 0, 1] ∧
    AbsorbType.u8.impl.batchToSpongeFieldElementsAsVec 257 [(1 : UInt8)] = .ok [1] ∧
    ¬ ∀ dest, AbsorbType.u8.impl.batchToSpongeFieldElements 257 [(1 : UInt8)] dest =
      (dest ++ ·) <$> AbsorbType.u8.impl.batchToSpongeFieldElementsAsVec 257 [(1 : UInt8)] := by
  have happend : AbsorbType.u8.impl.batchToSpongeFieldElements 257 [(1 : UInt8)] [] =
      .ok [1, 0, 0, 0, 0, 0, 0, 0, 1] := by decide +kernel
  have hvec : AbsorbType.u8.impl.batchToSpongeFieldElementsAsVec 257 [(1 : UInt8)] = .ok [1] := by decide +kernel
  refine ⟨by norm_num, trivial, happend, hvec, fun h => ?_⟩
  have hlists := Except.ok.inj (happend.symm.trans ((h []).trans (congrArg _ hvec)))
  exact absurd (congrArg List.length hlists) (by decide)

end CryptoPrimitives.Sponge
