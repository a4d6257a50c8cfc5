import CryptoPrimitives.Sponge.AbsorbTypes

/-!
# Signed integers

`impl_absorbable_signed!` of `sponge/absorb.rs` takes the absolute value of an integer, casts it to the
unsigned type of the same width, and negates the element.

* `cast_abs_eq`: the element is the image of the integer, also of the least one, whose absolute value
  wraps around to its own bits.
* `toInt_cast_inj`: integers of no more bits than the field has room for have different images.
* `absorbsValue_iff`: but the absolute value of the least integer overflows, and for every other one
  the code does what it should.
-/

namespace CryptoPrimitives.Sponge

open PrimeField (modulusBitSize)

/-- The signed types that implement `Absorb`. -/
inductive SignedType where
  | i8 | i16 | i32 | i64 | i128 | isize
deriving DecidableEq, Repr

namespace SignedType

def bits : SignedType → Nat
  | i8 => 8
  | i16 => 16
  | i32 => 32
  | i64 | isize => 64
  | i128 => 128

/-- The implementation for a type. -/
def impl : (T : SignedType) → AbsorbImpl (BitVec T.bits)
  | i8 => .i8
  | i16 => .i16
  | i32 => .i32
  | i64 => .i64
  | i128 => .i128
  | isize => .isize

/-- `to_sponge_field_elements` of the unsigned type of the same width. -/
def unsignedFieldElements (p : Nat) : (T : SignedType) → BitVec T.bits → List (ZMod p) → Outcome (List (ZMod p))
  | i8, self, dest => AbsorbImpl.u8.toSpongeFieldElements p ⟨self⟩ dest
  | i16, self, dest => AbsorbImpl.u16.toSpongeFieldElements p self dest
  | i32, self, dest => AbsorbImpl.u32.toSpongeFieldElements p self dest
  | i64, self, dest => AbsorbImpl.u64.toSpongeFieldElements p self dest
  | i128, self, dest => AbsorbImpl.u128.toSpongeFieldElements p self dest
  | isize, self, dest => AbsorbImpl.usize.toSpongeFieldElements p self dest

/-- `isize` delegates to `i64`. -/
theorem impl_eq (T : SignedType) (p : Nat) (self : BitVec T.bits) (dest : List (ZMod p)) :
    T.impl.toSpongeFieldElements p self dest =
      (AbsorbImpl.implAbsorbableSigned T.bits).toSpongeFieldElements p self dest := by
  cases T <;> rfl

/-- `usize` delegates to `u64`. -/
theorem unsignedFieldElements_eq (T : SignedType) (p : Nat) (self : BitVec T.bits) (dest : List (ZMod p)) :
    T.unsignedFieldElements p self dest = .ok (dest ++ [(self.toNat : ZMod p)]) := by
  cases T <;> rfl

end SignedType

/-! ## Images in the field -/

section

variable {w p : Nat}

/-- The absolute value, cast to an unsigned type: for the least integer, too. -/
theorem toNat_abs_eq (self : BitVec w) : self.abs.toNat = self.toInt.natAbs := by
  have hlt := self.isLt
  rw [BitVec.toNat_abs, BitVec.toInt_eq_msb_cond]
  cases self.msb with
  | false => rfl
  | true =>
    simp only [if_true]
    omega

/-- The element that is pushed, in wrapping arithmetic. -/
theorem cast_abs_eq (self : BitVec w) :
    (if self.toInt < 0 then -(self.abs.toNat : ZMod p) else self.abs.toNat) = (self.toInt : ZMod p) := by
  rw [toNat_abs_eq]
  split
  · rename_i hneg
    have hint : self.toInt = -(self.toInt.natAbs : Int) := by omega
    conv_rhs => rw [hint, Int.cast_neg, Int.cast_natCast]
  · rename_i hnonneg
    have hint : self.toInt = (self.toInt.natAbs : Int) := by omega
    conv_rhs => rw [hint, Int.cast_natCast]

/-- Two integers of so many bits are less than `2 ^ w` apart. -/
theorem toInt_cast_inj (hw : w ≤ modulusBitSize p - 1) {x y : BitVec w} (h : (x.toInt : ZMod p) = y.toInt) : x = y := by
  rcases Nat.eq_zero_or_pos w with rfl | hpos
  · exact BitVec.of_length_zero.trans BitVec.of_length_zero.symm
  have hp : p ≠ 0 := by
    rintro rfl
    exact absurd (hpos.trans_le hw) (by decide)
  have hroom : 2 ^ w ≤ p := (Nat.pow_le_pow_right Nat.two_pos hw).trans (PrimeField.two_pow_le hp)
  have hdvd := (ZMod.intCast_eq_intCast_iff_dvd_sub _ _ p).mp h
  have hx := And.intro (BitVec.le_two_mul_toInt (x := x)) (BitVec.two_mul_toInt_lt (x := x))
  have hy := And.intro (BitVec.le_two_mul_toInt (x := y)) (BitVec.two_mul_toInt_lt (x := y))
  have hroom' : (2 : Int) ^ w ≤ p := by exact_mod_cast hroom
  have hzero := Int.eq_zero_of_dvd_of_natAbs_lt_natAbs hdvd (by omega)
  exact BitVec.toInt_inj.mp (by omega)

theorem implAbsorbableSigned_eq {self : BitVec w} (h : self ≠ BitVec.intMin w) (dest : List (ZMod p)) :
    (AbsorbImpl.implAbsorbableSigned w).toSpongeFieldElements p self dest =
      .ok (dest ++ [(self.toInt : ZMod p)]) := by
  rw [← cast_abs_eq]
  show (AbsorbImpl.checkedAbs self >>= fun abs => _) = _
  rw [AbsorbImpl.checkedAbs, if_neg h]
  rfl

theorem implAbsorbableSigned_intMin (dest : List (ZMod p)) :
    (AbsorbImpl.implAbsorbableSigned w).toSpongeFieldElements p (BitVec.intMin w) dest =
      .error (.panic .overflow) := by
  show (AbsorbImpl.checkedAbs (BitVec.intMin w) >>= fun abs => _) = _
  rw [AbsorbImpl.checkedAbs, if_pos rfl]
  rfl

end

/-! ## What is pushed -/

/-- An integer is absorbed as its value: without an overflow, its image is pushed, as the unsigned type pushes it when it
is not negative, and no other integer of the type pushes the same when the field has room for the type. -/
structure AbsorbsValue (T : SignedType) (p : Nat) (value : BitVec T.bits) : Prop where
  pushes (dest : List (ZMod p)) : T.impl.toSpongeFieldElements p value dest = .ok (dest ++ [(value.toInt : ZMod p)])
  eq_unsigned (h : 0 ≤ value.toInt) (dest : List (ZMod p)) :
    T.impl.toSpongeFieldElements p value dest = T.unsignedFieldElements p value dest
  separates (h : T.bits ≤ modulusBitSize p - 1) {other : BitVec T.bits} (hne : other ≠ value) (dest : List (ZMod p)) :
    T.impl.toSpongeFieldElements p other dest ≠ T.impl.toSpongeFieldElements p value dest

/-- For every signed type, every value and every field: the value is absorbed as it should exactly when it is
not the least one of its type. -/
theorem absorbsValue_iff (T : SignedType) (p : Nat) (self : BitVec T.bits) :
    AbsorbsValue T p self ↔ self ≠ BitVec.intMin T.bits := by
  constructor
  · rintro ⟨hpushes, -, -⟩ rfl
    have h := hpushes []
    rw [T.impl_eq, implAbsorbableSigned_intMin] at h
    exact nomatch h
  · intro hmin
    have hpushes (dest : List (ZMod p)) :
        T.impl.toSpongeFieldElements p self dest = .ok (dest ++ [(self.toInt : ZMod p)]) := by
      rw [T.impl_eq, implAbsorbableSigned_eq hmin]
    refine ⟨hpushes, fun h dest => ?_, fun hbits other hne dest heq => ?_⟩
    · have hmsb : self.msb = false := by rw [BitVec.msb_eq_toInt, decide_eq_false (by omega)]
      have hnat : self.toInt = self.toNat := BitVec.toInt_eq_toNat_of_msb hmsb
      rw [hpushes, T.unsignedFieldElements_eq, hnat, Int.cast_natCast]
    · by_cases hother : other = BitVec.intMin T.bits
      · rw [hother, T.impl_eq, implAbsorbableSigned_intMin, hpushes] at heq
        exact nomatch heq
      · rw [T.impl_eq, implAbsorbableSigned_eq hother, hpushes, Except.ok.injEq, List.append_cancel_left_eq,
          List.singleton_inj] at heq
        exact hne (toInt_cast_inj hbits heq)

/-- The absolute value of -128 is no `i8`. -/
theorem absorb_intMin_overflows : Nat.Prime 257 ∧ SignedType.i8.bits ≤ modulusBitSize 257 - 1 ∧
    SignedType.i8.impl.toSpongeFieldElements 257 (BitVec.ofInt 8 (-128)) [] = .error (.panic .overflow) ∧
    ¬ AbsorbsValue .i8 257 (BitVec.ofInt 8 (-128)) := by
  have hoverflow : SignedType.i8.impl.toSpongeFieldElements 257 (BitVec.ofInt 8 (-128)) [] =
      .error (.panic .overflow) := implAbsorbableSigned_intMin []
  refine ⟨by norm_num, by decide, hoverflow, fun h => ?_⟩
  have hpushes := h.pushes []
  rw [hoverflow] at hpushes
  exact nomatch hpushes

end CryptoPrimitives.Sponge
