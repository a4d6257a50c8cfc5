import CryptoPrimitives.Sponge.AbsorbCoding
import CryptoPrimitives.Sponge.AbsorbSigned

/-!
# What is absorbed determines the value

The two ways in which `Absorb` writes values, as bytes and as field elements.

* `toSpongeBytes_injective_iff`, `toSpongeFieldElements_injective_iff`: the types for which a value can be read off from
  what a sponge absorbs.
-/

namespace CryptoPrimitives.Sponge

open PrimeField (modulusBitSize)

/-! ## Bytes -/

namespace AbsorbType

/-- `to_sponge_bytes` of a value of the type writes these bytes. -/
def BytesCode (A : AbsorbType) (x : A.Value) (bytes : List UInt8) : Prop := A.impl.toSpongeBytes x [] = .ok bytes

/-- Elements of a prime field, written as its configuration in the library writes them. -/
def CanonicalBytes : AbsorbType → Prop
  | fp P => P.characteristic.Prime ∧ ∀ x, P.serializeCompressed x = .ok (PrimeField.serialize x)
  | teAffine _ | swAffine _ => False
  | _ => True

variable {A : AbsorbType}

/-- Values that are all written in `n` bytes. -/
theorem delimited_of_length {n : Nat} (hn : 0 < n) (enc : A.Value → List UInt8)
    (henc : ∀ x, A.impl.toSpongeBytes x [] = .ok (enc x)) (hlen : ∀ x, (enc x).length = n)
    (hinj : Function.Injective enc) : Code.Delimited A.BytesCode := by
  have henc' {x : A.Value} {l : List UInt8} (hx : A.BytesCode x l) : enc x = l :=
    Except.ok.inj ((henc x).symm.trans hx)
  have hinj' : Code.Injective A.BytesCode := fun x y l hx hy => hinj ((henc' hx).trans (henc' hy).symm)
  exact hinj'.delimited hn fun x l hx => henc' hx ▸ hlen x

theorem toLeBytes_toNat_injective {w n : Nat} (hw : 2 ^ w = 256 ^ n) :
    Function.Injective fun x : BitVec w => toLeBytes n x.toNat := fun x y hxy =>
  BitVec.eq_of_toNat_eq (toLeBytes_inj (hw ▸ x.isLt) (hw ▸ y.isLt) hxy)

theorem serialize_injective {p : Nat} [NeZero p] : Function.Injective (PrimeField.serialize (p := p)) := fun x y hxy =>
  ZMod.val_injective p (by rw [← PrimeField.leNumber_serialize, hxy, PrimeField.leNumber_serialize])

theorem delimited_bytes (hleaf : A.isLeaf = true) (hA : A.CanonicalBytes) : Code.Delimited A.BytesCode := by
  have hinteger {A : AbsorbType} {w : Nat} (n : Nat) (hn : 0 < n) (hw : 2 ^ w = 256 ^ n) (toBits : A.Value → BitVec w)
      (hbits : Function.Injective toBits)
      (henc : ∀ x, A.impl.toSpongeBytes x [] = .ok (toLeBytes n (toBits x).toNat)) : Code.Delimited A.BytesCode :=
    delimited_of_length hn _ henc (fun x => length_toLeBytes n _) ((toLeBytes_toNat_injective hw).comp hbits)
  cases A with
  | slice | vec | option | ref => cases hleaf
  | teAffine | swAffine => cases hA
  | u8 =>
    exact delimited_of_length (A := u8) Nat.one_pos (fun x : UInt8 => [x]) (fun _ => rfl) (fun _ => rfl)
      List.singleton_injective
  | bool =>
    refine delimited_of_length (A := bool) Nat.one_pos (fun x : Bool => [if x then 1 else 0]) (fun _ => rfl)
      (fun _ => rfl) ?_
    show Function.Injective fun x : Bool => [if x then (1 : UInt8) else 0]
    decide
  | u16 | i16 => exact hinteger (w := 16) 2 (by decide) rfl id Function.injective_id fun _ => rfl
  | u32 | i32 => exact hinteger (w := 32) 4 (by decide) rfl id Function.injective_id fun _ => rfl
  | u64 | i64 | usize | isize => exact hinteger (w := 64) 8 (by decide) rfl id Function.injective_id fun _ => rfl
  | u128 | i128 => exact hinteger (w := 128) 16 (by decide) rfl id Function.injective_id fun _ => rfl
  | i8 => exact hinteger (w := 8) 1 (by decide) rfl id Function.injective_id fun _ => rfl
  | string =>
    exact Code.delimited_of_selfDelimiting Absorb.selfDelimiting_stringToSpongeBytes id
      fun x _ hx => ⟨x, rfl, Except.ok.inj hx⟩
  | fp P =>
    have : NeZero P.characteristic := ⟨hA.1.ne_zero⟩
    have hpos : 0 < (modulusBitSize P.characteristic + 7) / 8 := by
      rw [modulusBitSize]
      omega
    refine delimited_of_length (A := fp P) hpos PrimeField.serialize (fun x => ?_) (fun x => length_toLeBytes _ _)
      serialize_injective
    show (unwrap (P.serializeCompressed x) >>= fun bytes => pure ([] ++ bytes)) = _
    rw [hA.2 x]
    rfl

theorem exists_zero_bytes (hleaf : A.isLeaf = true) (hA : A.CanonicalBytes) :
    ∃ x n, A.BytesCode x (List.replicate n 0) := by
  cases A with
  | slice | vec | option | ref => cases hleaf
  | teAffine | swAffine => cases hA
  | u8 => exact ⟨(0 : UInt8), 1, rfl⟩
  | bool => exact ⟨false, 1, rfl⟩
  | u16 | i16 => exact ⟨(0 : BitVec 16), 2, rfl⟩
  | u32 | i32 => exact ⟨(0 : BitVec 32), 4, rfl⟩
  | u64 | i64 | usize | isize => exact ⟨(0 : BitVec 64), 8, rfl⟩
  | u128 | i128 => exact ⟨(0 : BitVec 128), 16, rfl⟩
  | i8 => exact ⟨(0 : BitVec 8), 1, rfl⟩
  | string =>
    have hempty : ([] : List UInt8).length < 2 ^ 63 := by decide
    refine ⟨ByteString.mk [] hempty, 8, ?_⟩
    show (Except.ok (toLeBytes 8 0 ++ []) : Outcome (List UInt8)) = _
    rw [List.append_nil, toLeBytes_zero]
  | fp P =>
    refine ⟨(0 : ZMod P.characteristic), (modulusBitSize P.characteristic + 7) / 8, ?_⟩
    show (unwrap (P.serializeCompressed 0) >>= fun bytes => pure ([] ++ bytes)) = _
    rw [hA.2, PrimeField.serialize, ZMod.val_zero, toLeBytes_zero]
    rfl

theorem batchToSpongeBytes_eq (A : AbsorbType) (xs : List A.Value) :
    A.impl.batchToSpongeBytes xs [] = List.flatten <$> xs.mapM fun x => A.impl.toSpongeBytes x [] := by
  have happends : ∀ x ∈ xs, Appends (A.impl.toSpongeBytes x) := fun x _ => A.appends.bytes x
  rw [← Appends.foldlM_nil happends]
  cases A with
  | u8 =>
    have hbytes := foldlM_append_singleton (m := Outcome) id xs []
    rw [List.map_id] at hbytes
    exact hbytes.symm
  | _ => rfl

/-- The bytes of a list are those of its entries. -/
theorem bytesCode_slice (A : AbsorbType) : (slice A).BytesCode = Code.list A.BytesCode := by
  funext (xs : List A.Value) l
  refine propext ?_
  show A.impl.batchToSpongeBytes xs [] = .ok l ↔ _
  rw [batchToSpongeBytes_eq, Except.map_eq_ok]
  simp only [Except.mapM_eq_ok]
  rfl

theorem bytesCode_option (A : AbsorbType) : (option A).BytesCode = Code.option 0 1 A.BytesCode := by
  funext x l
  refine propext ?_
  cases x with
  | none => exact ⟨fun h => (Except.ok.inj h).symm, fun h => congrArg Except.ok h.symm⟩
  | some x =>
    show A.impl.toSpongeBytes x [1] = .ok l ↔ _
    rw [A.appends.bytes x [1], Except.map_eq_ok]
    exact exists_congr fun m => and_congr_right fun _ => eq_comm

/-- The bytes of the values. -/
def bytesCoding : Coding UInt8 where
  code := BytesCode
  zero := 0
  one := 1
  framed _ := false
  covers := CanonicalBytes
  fits _ := True

theorem bytesCoding_lawful : bytesCoding.Lawful where
  zero_ne_one := by decide
  code_slice _ _ := bytesCode_slice _
  code_vec _ := rfl
  code_option := bytesCode_option
  code_ref _ := rfl
  leaf_delimited hleaf hA _ := delimited_bytes hleaf hA
  leaf_fits _ _ _ := trivial
  leaf_zeros hleaf hA := exists_zero_bytes hleaf hA
  framed_delimited h := absurd h Bool.false_ne_true
  framed_zeros h := absurd h Bool.false_ne_true
  framed_fits h := absurd h Bool.false_ne_true

theorem forallLeaves_true (A : AbsorbType) : A.ForallLeaves fun _ => True := by
  induction A with
  | slice A ih | vec A ih | option A ih | ref A ih => exact ih
  | _ => trivial

/-- For every type without points, nested to any depth: the bytes that a value is turned into determine it exactly when
no list is in a list, nor behind options in one. -/
theorem toSpongeBytes_injective_iff {A : AbsorbType} (hA : A.ForallLeaves CanonicalBytes) :
    (∀ x y bytes, A.impl.toSpongeBytes x [] = .ok bytes → A.impl.toSpongeBytes y [] = .ok bytes → x = y) ↔
      A.unambiguous (fun _ => false) = true := by
  refine (bytesCoding_lawful.injective_iff hA).trans ?_
  rw [show bytesCoding.fits = fun _ => True from rfl]
  exact and_iff_left (forallLeaves_true A)

/-! ## Field elements -/

/-- The bits of an integer type. -/
def bits : AbsorbType → Nat
  | u8 | i8 => 8
  | u16 | i16 => 16
  | u32 | i32 => 32
  | u64 | i64 | usize | isize => 64
  | u128 | i128 => 128
  | _ => 0

/-- `[u8]` packs its length with it. -/
def isU8 : AbsorbType → Bool
  | u8 => true
  | _ => false

/-- No list of bytes in the value is longer than an allocation. -/
def Allocated : (A : AbsorbType) → A.Value → Prop
  | slice A | vec A => fun xs : List A.Value => (A.isU8 = true → xs.length < 2 ^ 63) ∧ ∀ x ∈ xs, A.Allocated x
  | option A => fun x : Option A.Value => ∀ y ∈ x, A.Allocated y
  | ref A => A.Allocated
  | _ => fun _ => True

/-- `to_sponge_field_elements` of a value of the type writes these elements. -/
def ElementsCode (p : Nat) (A : AbsorbType) (x : A.Value) (elements : List (ZMod p)) : Prop :=
  A.Allocated x ∧ A.impl.toSpongeFieldElements p x [] = .ok elements

/-- Types other than points, with field elements of the field that they are turned into. -/
def CastTo (p : Nat) : AbsorbType → Prop
  | fp P => P.characteristic = p
  | teAffine _ | swAffine _ => False
  | _ => True

/-- The field has room for the integers of the type. -/
def HasRoom (p : Nat) (A : AbsorbType) : Prop := A.bits ≤ modulusBitSize p - 1

variable {p : Nat}

theorem compatible_of_castTo {A : AbsorbType} (hA : A.ForallLeaves (CastTo p)) : A.Compatible p := by
  induction A with
  | slice A ih | vec A ih | option A ih | ref A ih => exact ih hA
  | fp P => exact hA
  | teAffine | swAffine => cases hA
  | _ => trivial

theorem unsigned_injective_iff {w : Nat} [NeZero p] :
    (Function.Injective fun x : BitVec w => (x.toNat : ZMod p)) ↔ w ≤ modulusBitSize p - 1 := by
  rw [modulusBitSize, Nat.add_sub_cancel]
  constructor
  · intro hinj
    by_contra hlt
    have hp : p < 2 ^ w := (Nat.log2_lt (NeZero.ne p)).mp (Nat.lt_of_not_le hlt)
    have heq : BitVec.ofNat w p = BitVec.ofNat w 0 := hinj (by
      simp only [BitVec.toNat_ofNat, Nat.mod_eq_of_lt hp, Nat.zero_mod, CharP.cast_eq_zero, Nat.cast_zero])
    have hval := congrArg BitVec.toNat heq
    rw [BitVec.toNat_ofNat, BitVec.toNat_ofNat, Nat.mod_eq_of_lt hp, Nat.zero_mod] at hval
    exact NeZero.ne p hval
  · intro hw x y hxy
    have hp : 2 ^ w ≤ p := (Nat.pow_le_pow_right Nat.two_pos hw).trans (Nat.log2_self_le (NeZero.ne p))
    have hval := congrArg ZMod.val hxy
    simp only [ZMod.val_natCast_of_lt (x.isLt.trans_le hp), ZMod.val_natCast_of_lt (y.isLt.trans_le hp)] at hval
    exact BitVec.eq_of_toNat_eq hval

/-- The integers of `w` bits but the least one are determined by their images exactly when the field has room for all
of them: it has `2 ^ w - 1` elements for none of the widths. -/
theorem signed_injective_iff {w : Nat} [hp : Fact p.Prime] (hw : 0 < w) (hprime : ¬ (2 ^ w - 1).Prime) :
    (∀ x y : BitVec w, x ≠ BitVec.intMin w → y ≠ BitVec.intMin w → (x.toInt : ZMod p) = y.toInt → x = y) ↔
      w ≤ modulusBitSize p - 1 := by
  refine ⟨fun hinj => ?_, fun h x y _ _ => toInt_cast_inj h⟩
  rw [modulusBitSize, Nat.add_sub_cancel]
  by_contra hlt
  have hlt' : p < 2 ^ w := (Nat.log2_lt hp.out.ne_zero).mp (Nat.lt_of_not_le hlt)
  have hne : p ≠ 2 ^ w - 1 := fun heq => hprime (heq ▸ hp.out)
  have htwo : (2 : Nat) ^ w = 2 * 2 ^ (w - 1) := (Nat.two_pow_pred_mul_two hw).symm.trans (Nat.mul_comm ..)
  have hpos := hp.out.pos
  have hhalf : (2 : Int) ^ (w - 1) = (2 ^ (w - 1) : Nat) := by push_cast; rfl
  -- two integers that are `p` apart
  have hx : (BitVec.ofInt w (p / 2 : Int)).toInt = p / 2 := BitVec.toInt_ofInt_eq_self hw (by omega) (by omega)
  have hy : (BitVec.ofInt w (p / 2 - p : Int)).toInt = p / 2 - p :=
    BitVec.toInt_ofInt_eq_self hw (by omega) (by omega)
  have hmin : (BitVec.intMin w).toInt = -(2 ^ (w - 1) : Nat) := by
    rw [BitVec.toInt_intMin, Nat.mod_eq_of_lt (by omega)]
  have hximage : ((BitVec.ofInt w (p / 2 : Int)).toInt : ZMod p) = (BitVec.ofInt w (p / 2 - p : Int)).toInt := by
    rw [hx, hy, Int.cast_sub, Int.cast_natCast p, ZMod.natCast_self, sub_zero]
  have hxmin : BitVec.ofInt w (p / 2 : Int) ≠ BitVec.intMin w := fun h => by
    rw [h] at hx
    omega
  have hymin : BitVec.ofInt w (p / 2 - p : Int) ≠ BitVec.intMin w := fun h => by
    rw [h] at hy
    omega
  rw [hinj _ _ hxmin hymin hximage] at hx
  omega

variable {A : AbsorbType}

/-- Values that are all written as one element. -/
theorem delimited_of_singleton (e : A.Value → ZMod p) (he : ∀ x l, A.ElementsCode p x l → [e x] = l)
    (hinj : Code.Injective (A.ElementsCode p)) : Code.Delimited (A.ElementsCode p) :=
  hinj.delimited Nat.one_pos fun x l hx => by rw [← he x l hx]; rfl

/-- One element for each value, which determines it. -/
theorem injective_of_singleton (e : A.Value → ZMod p) (he : ∀ x l, A.ElementsCode p x l → [e x] = l)
    (hinj : Function.Injective e) : Code.Injective (A.ElementsCode p) := fun x y l hx hy =>
  hinj (List.singleton_inj.mp ((he x l hx).trans (he y l hy).symm))

section

variable [hp : Fact p.Prime] {w : Nat} (toBits : A.Value → BitVec w)

theorem unsigned_elements_iff (hbits : Function.Bijective toBits)
    (henc : ∀ x l, A.ElementsCode p x l ↔ [((toBits x).toNat : ZMod p)] = l) :
    Code.Injective (A.ElementsCode p) ↔ w ≤ modulusBitSize p - 1 := by
  have : NeZero p := ⟨hp.out.ne_zero⟩
  rw [← unsigned_injective_iff]
  constructor
  · intro hinj x y hxy
    obtain ⟨x, rfl⟩ := hbits.2 x
    obtain ⟨y, rfl⟩ := hbits.2 y
    rw [hinj ((henc x _).mpr rfl) ((henc y _).mpr (congrArg (fun e => [e]) hxy.symm))]
  · exact fun hinj => injective_of_singleton _ (fun x l => (henc x l).mp) (hinj.comp hbits.1)

theorem signed_elements_iff (hbits : Function.Bijective toBits) (hw : 0 < w) (hprime : ¬ (2 ^ w - 1).Prime)
    (henc : ∀ x l, A.ElementsCode p x l ↔ toBits x ≠ BitVec.intMin w ∧ [((toBits x).toInt : ZMod p)] = l) :
    Code.Injective (A.ElementsCode p) ↔ w ≤ modulusBitSize p - 1 := by
  rw [← signed_injective_iff hw hprime]
  constructor
  · intro hinj x y hx hy hxy
    obtain ⟨x, rfl⟩ := hbits.2 x
    obtain ⟨y, rfl⟩ := hbits.2 y
    rw [hinj ((henc x _).mpr ⟨hx, rfl⟩) ((henc y _).mpr ⟨hy, congrArg (fun e => [e]) hxy.symm⟩)]
  · intro hinj x y l hx hy
    obtain ⟨hxmin, hx⟩ := (henc x l).mp hx
    obtain ⟨hymin, hy⟩ := (henc y l).mp hy
    exact hbits.1 (hinj _ _ hxmin hymin (List.singleton_inj.mp (hx.trans hy.symm)))

end

/-- The element of an integer of a signed type. -/
theorem implAbsorbableSigned_eq_ok {w : Nat} (x : BitVec w) (l : List (ZMod p)) :
    (AbsorbImpl.implAbsorbableSigned w).toSpongeFieldElements p x [] = .ok l ↔
      x ≠ BitVec.intMin w ∧ [(x.toInt : ZMod p)] = l := by
  by_cases hx : x = BitVec.intMin w
  · rw [hx, implAbsorbableSigned_intMin]
    exact iff_of_false (by simp) fun h => h.1 rfl
  · rw [implAbsorbableSigned_eq hx, Except.ok.injEq, List.nil_append]
    exact (and_iff_right hx).symm

theorem fp_elements [Fact p.Prime] {serializeCompressed : ZMod p → Except Error (List UInt8)} (x : ZMod p) :
    (fp ⟨p, serializeCompressed⟩).impl.toSpongeFieldElements p x [] = .ok [x] := by
  show unwrapOption (fieldCast p [x]) >>= _ = _
  rw [PoseidonSponge.fieldCast_self]
  rfl

/-- The elements that bytes are packed into, with their length. -/
theorem u8_elements (hsize : 0 < maxSize p) (bytes : List UInt8) :
    (slice u8).impl.toSpongeFieldElements p bytes [] = .ok (Absorb.packed p (toLeBytes 8 bytes.length ++ bytes)) := by
  show (Absorb.batchToSpongeFieldElements p bytes >>= fun elements => pure ([] ++ elements)) = _
  rw [Absorb.batchToSpongeFieldElements, Absorb.toFieldElements_eq hsize]
  rfl

theorem selfDelimiting_packedBytes [Fact p.Prime] (hsize : 0 < maxSize p) :
    SelfDelimiting fun x : ByteString => Absorb.packed p (toLeBytes 8 x.bytes.length ++ x.bytes) :=
  Absorb.selfDelimiting_packed hsize Absorb.selfDelimiting_stringToSpongeBytes

theorem elements_of_isLeaf [hp : Fact p.Prime] (hsize : 0 < maxSize p) (hleaf : A.isLeaf = true) (hA : A.CastTo p) :
    (Code.Injective (A.ElementsCode p) ↔ A.HasRoom p) ∧
      (Code.Injective (A.ElementsCode p) → Code.Delimited (A.ElementsCode p)) := by
  have hunsigned {A : AbsorbType} {w : Nat} (toBits : A.Value → BitVec w) (hbits : Function.Bijective toBits)
      (henc : ∀ x l, A.ElementsCode p x l ↔ [((toBits x).toNat : ZMod p)] = l) (hw : A.bits = w) :
      (Code.Injective (A.ElementsCode p) ↔ A.HasRoom p) ∧
        (Code.Injective (A.ElementsCode p) → Code.Delimited (A.ElementsCode p)) := by
    rw [HasRoom, hw]
    exact ⟨unsigned_elements_iff toBits hbits henc, delimited_of_singleton _ fun x l => (henc x l).mp⟩
  have hsigned {A : AbsorbType} {w : Nat} (toBits : A.Value → BitVec w) (hbits : Function.Bijective toBits)
      (hpos : 0 < w) (hprime : ¬ (2 ^ w - 1).Prime)
      (henc : ∀ x l, A.ElementsCode p x l ↔ toBits x ≠ BitVec.intMin w ∧ [((toBits x).toInt : ZMod p)] = l)
      (hw : A.bits = w) : (Code.Injective (A.ElementsCode p) ↔ A.HasRoom p) ∧
        (Code.Injective (A.ElementsCode p) → Code.Delimited (A.ElementsCode p)) := by
    rw [HasRoom, hw]
    exact ⟨signed_elements_iff toBits hbits hpos hprime henc,
      delimited_of_singleton _ fun x l hx => ((henc x l).mp hx).2⟩
  have hroom (A : AbsorbType) (hinj : Code.Injective (A.ElementsCode p)) (hdelim : Code.Delimited (A.ElementsCode p))
      (hw : A.bits = 0) : (Code.Injective (A.ElementsCode p) ↔ A.HasRoom p) ∧
        (Code.Injective (A.ElementsCode p) → Code.Delimited (A.ElementsCode p)) := by
    rw [HasRoom, hw]
    exact ⟨iff_of_true hinj (Nat.zero_le _), fun _ => hdelim⟩
  have hone {A : AbsorbType} {x : A.Value} {e : ZMod p} (l : List (ZMod p)) (hallocated : A.Allocated x)
      (he : A.impl.toSpongeFieldElements p x [] = .ok [e]) : A.ElementsCode p x l ↔ [e] = l := by
    rw [ElementsCode, and_iff_right hallocated, he, Except.ok.injEq]
  have hid {w : Nat} : Function.Bijective (id : BitVec w → BitVec w) := Function.bijective_id
  cases A with
  | slice | vec | option | ref => cases hleaf
  | teAffine | swAffine => cases hA
  | u8 =>
    have hbits : Function.Bijective UInt8.toBitVec := ⟨fun _ _ => UInt8.eq_of_toBitVec_eq, fun x => ⟨⟨x⟩, rfl⟩⟩
    exact hunsigned (A := u8) UInt8.toBitVec hbits (fun x l => hone (A := u8) l trivial rfl) rfl
  | u16 => exact hunsigned (A := u16) (w := 16) id hid (fun x l => hone (A := u16) l trivial rfl) rfl
  | u32 => exact hunsigned (A := u32) (w := 32) id hid (fun x l => hone (A := u32) l trivial rfl) rfl
  | u64 => exact hunsigned (A := u64) (w := 64) id hid (fun x l => hone (A := u64) l trivial rfl) rfl
  | u128 => exact hunsigned (A := u128) (w := 128) id hid (fun x l => hone (A := u128) l trivial rfl) rfl
  | usize => exact hunsigned (A := usize) (w := 64) id hid (fun x l => hone (A := usize) l trivial rfl) rfl
  | i8 =>
    exact hsigned (A := i8) (w := 8) id hid (by decide) (by norm_num)
      (fun x l => (and_iff_right trivial).trans (implAbsorbableSigned_eq_ok x l)) rfl
  | i16 =>
    exact hsigned (A := i16) (w := 16) id hid (by decide) (by norm_num)
      (fun x l => (and_iff_right trivial).trans (implAbsorbableSigned_eq_ok x l)) rfl
  | i32 =>
    exact hsigned (A := i32) (w := 32) id hid (by decide) (by norm_num)
      (fun x l => (and_iff_right trivial).trans (implAbsorbableSigned_eq_ok x l)) rfl
  | i64 =>
    exact hsigned (A := i64) (w := 64) id hid (by decide) (by norm_num)
      (fun x l => (and_iff_right trivial).trans (implAbsorbableSigned_eq_ok x l)) rfl
  | i128 =>
    exact hsigned (A := i128) (w := 128) id hid (by decide) (by norm_num)
      (fun x l => (and_iff_right trivial).trans (implAbsorbableSigned_eq_ok x l)) rfl
  | isize =>
    exact hsigned (A := isize) (w := 64) id hid (by decide) (by norm_num)
      (fun x l => (and_iff_right trivial).trans (implAbsorbableSigned_eq_ok x l)) rfl
  | bool =>
    have henc (x : Bool) (l : List (ZMod p)) : bool.ElementsCode p x l ↔ [if x then (1 : ZMod p) else 0] = l :=
      hone (A := bool) l trivial rfl
    have hinj : Function.Injective fun x : Bool => if x then (1 : ZMod p) else 0 := by
      rintro (_ | _) (_ | _) h
      · rfl
      · exact absurd h zero_ne_one
      · exact absurd h one_ne_zero
      · rfl
    have hcode := injective_of_singleton (A := bool) _ (fun x l => (henc x l).mp) hinj
    exact hroom bool hcode (delimited_of_singleton _ (fun x l => (henc x l).mp) hcode) rfl
  | fp P =>
    obtain ⟨q, serializeCompressed⟩ := P
    obtain rfl : q = p := hA
    have henc (x : ZMod q) (l : List (ZMod q)) : (fp ⟨q, serializeCompressed⟩).ElementsCode q x l ↔ [x] = l :=
      hone (A := fp ⟨q, serializeCompressed⟩) l trivial (fp_elements x)
    have hcode := injective_of_singleton (A := fp ⟨q, serializeCompressed⟩) id (fun x l => (henc x l).mp)
      Function.injective_id
    exact hroom (fp ⟨q, serializeCompressed⟩) hcode (delimited_of_singleton _ (fun x l => (henc x l).mp) hcode) rfl
  | string =>
    have hdelim : Code.Delimited (string.ElementsCode p) :=
      Code.delimited_of_selfDelimiting (selfDelimiting_packedBytes hsize) id fun x l hx =>
        ⟨x, rfl, Except.ok.inj ((u8_elements hsize x.bytes).symm.trans hx.2)⟩
    exact hroom string hdelim.injective hdelim rfl

/-- Zeros are packed into zeros. -/
theorem packed_replicate [Fact p.Prime] (hsize : 0 < maxSize p) (n : Nat) :
    ∃ m, Absorb.packed p (List.replicate n 0) = List.replicate m 0 := by
  refine ⟨_, List.eq_replicate_of_mem fun x hx => ?_⟩
  obtain ⟨chunk, hchunk, rfl⟩ := List.mem_map.mp hx
  have hzero : chunk = List.replicate chunk.length 0 := List.eq_replicate_of_mem fun byte hbyte => by
    have hmem := List.mem_flatten_of_mem hchunk hbyte
    rw [flatten_chunks hsize] at hmem
    exact List.eq_of_mem_replicate hmem
  have hnumber := leNumber_append_replicate [] chunk.length
  rw [List.nil_append, ← hzero] at hnumber
  exact (congrArg Nat.cast hnumber).trans Nat.cast_zero

theorem exists_zero_elements [Fact p.Prime] (hsize : 0 < maxSize p) (hleaf : A.isLeaf = true) (hA : A.CastTo p) :
    ∃ x n, A.ElementsCode p x (List.replicate n 0) := by
  have hunsigned : (Except.ok [((0 : Nat) : ZMod p)] : Outcome (List (ZMod p))) = .ok [0] :=
    congrArg (fun e => Except.ok [e]) Nat.cast_zero
  have hsigned {w : Nat} (hmin : (0 : BitVec w) ≠ BitVec.intMin w) :
      (AbsorbImpl.implAbsorbableSigned w).toSpongeFieldElements p 0 [] = .ok [0] := by
    have hzero : (0 : BitVec w).toInt = 0 := BitVec.toInt_zero
    exact (implAbsorbableSigned_eq_ok 0 [0]).mpr ⟨hmin, by rw [hzero, Int.cast_zero]⟩
  cases A with
  | slice | vec | option | ref => cases hleaf
  | teAffine | swAffine => cases hA
  | u8 => exact ⟨(0 : UInt8), 1, trivial, hunsigned⟩
  | bool => exact ⟨false, 1, trivial, rfl⟩
  | u16 => exact ⟨(0 : BitVec 16), 1, trivial, hunsigned⟩
  | u32 => exact ⟨(0 : BitVec 32), 1, trivial, hunsigned⟩
  | u64 | usize => exact ⟨(0 : BitVec 64), 1, trivial, hunsigned⟩
  | u128 => exact ⟨(0 : BitVec 128), 1, trivial, hunsigned⟩
  | i8 => exact ⟨(0 : BitVec 8), 1, trivial, hsigned (by decide)⟩
  | i16 => exact ⟨(0 : BitVec 16), 1, trivial, hsigned (by decide)⟩
  | i32 => exact ⟨(0 : BitVec 32), 1, trivial, hsigned (by decide)⟩
  | i64 | isize => exact ⟨(0 : BitVec 64), 1, trivial, hsigned (by decide)⟩
  | i128 => exact ⟨(0 : BitVec 128), 1, trivial, hsigned (by decide)⟩
  | string =>
    have hempty : ([] : List UInt8).length < 2 ^ 63 := by decide
    obtain ⟨n, hn⟩ := packed_replicate (p := p) hsize 8
    refine ⟨ByteString.mk [] hempty, n, trivial, (u8_elements hsize []).trans ?_⟩
    rw [List.length_nil, toLeBytes_zero, List.append_nil, hn]
  | fp P =>
    obtain ⟨q, serializeCompressed⟩ := P
    obtain rfl : q = p := hA
    exact ⟨(0 : ZMod q), 1, trivial, fp_elements 0⟩

/-! The elements of lists and options. -/

theorem allocated_slice (hu : A.isU8 = false) (xs : List A.Value) :
    (slice A).Allocated xs ↔ ∀ x ∈ xs, A.Allocated x :=
  and_iff_right fun h => absurd (h.symm.trans hu) Bool.false_ne_true.symm

/-- A list other than of `u8` is turned into the elements of its entries. -/
theorem elementsCode_slice [Fact p.Prime] (hA : A.ForallLeaves (CastTo p)) (hu : A.isU8 = false) :
    (slice A).ElementsCode p = Code.list (A.ElementsCode p) := by
  have hne : A ≠ u8 := fun h => by
    rw [h] at hu
    cases hu
  funext (xs : List A.Value) l
  refine propext ?_
  have happends : ∀ x ∈ xs, Appends (A.impl.toSpongeFieldElements p x) := fun x _ => A.appends.fieldElements p x
  have hbatch : A.impl.batchToSpongeFieldElements p xs [] = .ok l ↔
      ∃ ls, List.Forall₂ (fun x l => A.impl.toSpongeFieldElements p x [] = .ok l) xs ls ∧ ls.flatten = l := by
    rw [batchToSpongeFieldElements_eq (compatible_of_castTo hA) hne, Appends.foldlM_nil happends, Except.map_eq_ok]
    simp only [Except.mapM_eq_ok]
  refine (and_congr (allocated_slice hu xs) hbatch).trans ?_
  rw [← exists_and_left]
  refine exists_congr fun ls => ?_
  rw [← and_assoc, ← List.forall₂_and_left]
  rfl

theorem elementsCode_option (A : AbsorbType) :
    (option A).ElementsCode p = Code.option 0 1 (A.ElementsCode p) := by
  funext x l
  refine propext ?_
  cases x with
  | none =>
    refine (and_iff_right fun y hy => absurd hy (Option.not_mem_none y)).trans ?_
    exact ⟨fun h => (Except.ok.inj h).symm, fun h => congrArg Except.ok h.symm⟩
  | some x =>
    have hallocated : (option A).Allocated (some x) ↔ A.Allocated x :=
      ⟨fun h => h x rfl, fun h y hy => Option.some.inj hy ▸ h⟩
    have helements : (option A).impl.toSpongeFieldElements p (some x) [] = .ok l ↔
        ∃ m, A.impl.toSpongeFieldElements p x [] = .ok m ∧ l = 1 :: m := by
      show A.impl.toSpongeFieldElements p x [1] = .ok l ↔ _
      rw [A.appends.fieldElements p x [1], Except.map_eq_ok]
      exact exists_congr fun m => and_congr_right fun _ => eq_comm
    refine (and_congr hallocated helements).trans ?_
    rw [← exists_and_left]
    exact exists_congr fun m => and_assoc.symm

/-- The field elements of the values. -/
def elementsCoding (p : Nat) : Coding (ZMod p) where
  code := ElementsCode p
  zero := 0
  one := 1
  framed := isU8
  covers := CastTo p
  fits := HasRoom p

theorem elementsCode_u8 (hsize : 0 < maxSize p) {bytes : List UInt8} {l : List (ZMod p)} :
    (slice u8).ElementsCode p bytes l ↔
      bytes.length < 2 ^ 63 ∧ Absorb.packed p (toLeBytes 8 bytes.length ++ bytes) = l := by
  refine and_congr ⟨fun h => h.1 rfl, fun h => ⟨fun _ => h, fun _ _ => trivial⟩⟩ ?_
  rw [u8_elements hsize, Except.ok.injEq]

theorem elementsCoding_lawful [Fact p.Prime] (h9 : 9 ≤ modulusBitSize p) : (elementsCoding p).Lawful := by
  have hsize := Absorb.maxSize_pos h9
  have hu8 {A : AbsorbType} (h : A.isU8 = true) : A = u8 := by
    cases A with
    | u8 => rfl
    | _ => cases h
  have hdelim : Code.Delimited ((slice u8).ElementsCode p) :=
    Code.delimited_of_selfDelimiting (selfDelimiting_packedBytes hsize) ByteString.bytes fun bytes l hx => by
      obtain ⟨hlt, hl⟩ := (elementsCode_u8 hsize).mp hx
      exact ⟨⟨bytes, hlt⟩, rfl, hl⟩
  have hzeros : ∃ x n, (slice u8).ElementsCode p x (List.replicate n 0) := by
    obtain ⟨n, hn⟩ := packed_replicate (p := p) hsize 8
    refine ⟨([] : List UInt8), n, (elementsCode_u8 hsize).mpr ⟨by decide, ?_⟩⟩
    rw [List.length_nil, toLeBytes_zero, List.append_nil, hn]
  exact {
    zero_ne_one := zero_ne_one
    code_slice := elementsCode_slice
    code_vec := fun _ => rfl
    code_option := elementsCode_option
    code_ref := fun _ => rfl
    leaf_delimited := fun hleaf hA hfits =>
      (elements_of_isLeaf hsize hleaf hA).2 ((elements_of_isLeaf hsize hleaf hA).1.mpr hfits)
    leaf_fits := fun hleaf hA => (elements_of_isLeaf hsize hleaf hA).1.mp
    leaf_zeros := exists_zero_elements hsize
    framed_delimited := fun h => hu8 h ▸ hdelim
    framed_zeros := fun h => hu8 h ▸ hzeros
    framed_fits := fun h => hu8 h ▸ Nat.le_sub_one_of_lt h9 }

/-- For every prime field of at least 9 bits and every type without points, nested to any depth: the field elements that
a value is turned into determine it exactly when no list but of `u8` is in a list, nor behind options in one, and the
field has room for the integers in the type. -/
theorem toSpongeFieldElements_injective_iff [Fact p.Prime] (h9 : 9 ≤ modulusBitSize p) {A : AbsorbType}
    (hA : A.ForallLeaves (CastTo p)) :
    (∀ x y elements, A.Allocated x → A.Allocated y → A.impl.toSpongeFieldElements p x [] = .ok elements →
      A.impl.toSpongeFieldElements p y [] = .ok elements → x = y) ↔
        A.unambiguous isU8 = true ∧ A.ForallLeaves (HasRoom p) := by
  refine Iff.trans ?_ ((elementsCoding_lawful h9).injective_iff hA)
  exact ⟨fun h x y l hx hy => h x y l hx.1 hy.1 hx.2 hy.2, fun h x y l hx hy hx' hy' => h ⟨hx, hx'⟩ ⟨hy, hy'⟩⟩

/-- The bytes of lists of options of field elements determine them, those of lists of byte strings do not. -/
theorem toSpongeBytes_injective_iff_nested :
    (∀ x y bytes, (vec (option (fp ⟨257, fun x => .ok (PrimeField.serialize x)⟩))).impl.toSpongeBytes x [] = .ok bytes →
      (vec (option (fp ⟨257, fun x => .ok (PrimeField.serialize x)⟩))).impl.toSpongeBytes y [] = .ok bytes → x = y) ∧
    ¬ ∀ x y bytes, (vec (vec u8)).impl.toSpongeBytes x [] = .ok bytes →
      (vec (vec u8)).impl.toSpongeBytes y [] = .ok bytes → x = y := by
  have h257 : Nat.Prime 257 := by norm_num
  constructor
  · exact (toSpongeBytes_injective_iff (A := vec (option (fp _))) ⟨h257, fun _ => rfl⟩).mpr rfl
  · exact fun h => absurd ((toSpongeBytes_injective_iff (A := vec (vec u8)) trivial).mp h) (by decide)

/-- The elements of lists of byte strings determine them, those of lists of options of lists of integers do not. -/
theorem toSpongeFieldElements_injective_iff_nested :
    (∀ x y elements, (vec (vec u8)).Allocated x → (vec (vec u8)).Allocated y →
      (vec (vec u8)).impl.toSpongeFieldElements 257 x [] = .ok elements →
      (vec (vec u8)).impl.toSpongeFieldElements 257 y [] = .ok elements → x = y) ∧
    ¬ ∀ x y elements, (vec (option (vec i8))).Allocated x → (vec (option (vec i8))).Allocated y →
      (vec (option (vec i8))).impl.toSpongeFieldElements 257 x [] = .ok elements →
      (vec (option (vec i8))).impl.toSpongeFieldElements 257 y [] = .ok elements → x = y := by
  have : Fact (Nat.Prime 257) := ⟨by norm_num⟩
  have h9 : 9 ≤ modulusBitSize 257 := by decide +kernel
  constructor
  · exact (toSpongeFieldElements_injective_iff h9 (A := vec (vec u8)) trivial).mpr ⟨rfl, Nat.le_sub_one_of_lt h9⟩
  · exact fun h => absurd ((toSpongeFieldElements_injective_iff h9 (A := vec (option (vec i8))) trivial).mp h).1
      (by decide)

end AbsorbType

end CryptoPrimitives.Sponge
