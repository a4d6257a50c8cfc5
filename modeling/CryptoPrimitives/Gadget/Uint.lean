import CryptoPrimitives.Gadget.Boolean
import CryptoPrimitives.Rust.Uint

/-!
# What the gadgets use of `UInt8<F>` and `UInt32<F>`

`UInt8Var B`, `UInt32Var B W`: the types `B` and `W` have the operations of the
variables of 8 and of 32 bits. `LawfulUIntVar`: they act as the operations of `u8` and
`u32` that they name. `UInt8DigestVar`, `UInt8VecVar`, `UInt8BitsVar` and `UInt32LeVar` have
those that only some gadgets use.
-/

namespace CryptoPrimitives

open Digits (ofBits)
open Synthesis (Computes)

/-- The operations of `UInt8<F>` that the gadgets use. -/
class UInt8Var (B : Type) where
  /-- The value assigned to a variable. -/
  value : B → UInt8
  constant : UInt8 → B

/-- The operations of `UInt32<F>` that the gadgets use, over bytes `B`. -/
class UInt32Var (B : outParam Type) (W : Type) where
  /-- The value assigned to a variable. -/
  value : W → UInt32
  constant : UInt32 → W
  fromBytesBe : List B → Gadget W
  toBytesBe : W → Gadget (List B)
  rotateRight : W → Nat → W
  /-- `>>`. -/
  shr : W → Nat → W
  /-- `!`. -/
  not : W → W
  /-- `&`. -/
  and : W → W → Gadget W
  /-- `^`. -/
  xor : W → W → Gadget W
  wrappingAdd : W → W → Gadget W
  wrappingAddMany : List W → Gadget W

/-- The operations act as those of `u8` and `u32`. -/
class LawfulUIntVar (B : outParam Type) (W : Type) [UInt8Var B] [UInt32Var B W] : Prop where
  value_byte (x : UInt8) : UInt8Var.value (UInt8Var.constant x : B) = x
  value_constant (x : UInt32) : UInt32Var.value (UInt32Var.constant x : W) = x
  fromBytesBe_computes (bytes : List B) (h : bytes.length = 4) :
    Computes (UInt32Var.fromBytesBe bytes : Gadget W) fun w =>
      UInt32Var.value w = fromBeBytes (bytes.map UInt8Var.value)
  toBytesBe_computes (w : W) : Computes (UInt32Var.toBytesBe w) fun bytes =>
    bytes.map UInt8Var.value = toBeBytes 4 (UInt32Var.value w).toNat
  value_rotateRight (w : W) (n : Nat) (h : n < 32) :
    UInt32Var.value (UInt32Var.rotateRight w n) = rotateRight (UInt32Var.value w) n
  value_shr (w : W) (n : Nat) (h : n < 32) :
    UInt32Var.value (UInt32Var.shr w n) = UInt32Var.value w >>> UInt32.ofNat n
  value_not (w : W) : UInt32Var.value (UInt32Var.not w) = ~~~UInt32Var.value w
  and_computes (v w : W) :
    Computes (UInt32Var.and v w) fun r => UInt32Var.value r = UInt32Var.value v &&& UInt32Var.value w
  xor_computes (v w : W) :
    Computes (UInt32Var.xor v w) fun r => UInt32Var.value r = UInt32Var.value v ^^^ UInt32Var.value w
  wrappingAdd_computes (v w : W) :
    Computes (UInt32Var.wrappingAdd v w) fun r => UInt32Var.value r = UInt32Var.value v + UInt32Var.value w
  wrappingAddMany_computes (ws : List W) (h : ws ≠ []) :
    Computes (UInt32Var.wrappingAddMany ws) fun r => UInt32Var.value r = (ws.map UInt32Var.value).sum

instance : UInt8Var (Assigned UInt8) where
  value := Assigned.value
  constant := .constant

instance : UInt32Var (Assigned UInt8) (Assigned UInt32) where
  value := Assigned.value
  constant := .constant
  fromBytesBe bytes := pure (.var (fromBeBytes (bytes.map Assigned.value)))
  toBytesBe w := pure ((toBeBytes 4 w.value.toNat).map .var)
  rotateRight w n := w.map (rotateRight · n)
  shr w n := w.map (· >>> UInt32.ofNat n)
  not w := w.map (~~~ ·)
  and v w := pure (v.map₂ (· &&& ·) w)
  xor v w := pure (v.map₂ (· ^^^ ·) w)
  wrappingAdd v w := pure (v.map₂ (· + ·) w)
  wrappingAddMany ws := pure (.var (ws.map Assigned.value).sum)

instance : LawfulUIntVar (Assigned UInt8) (Assigned UInt32) where
  value_byte _ := rfl
  value_constant _ := rfl
  fromBytesBe_computes _ _ := .pure rfl
  toBytesBe_computes w := .pure (by rw [List.map_map]; exact List.map_id _)
  value_rotateRight w n _ := Assigned.value_map (rotateRight · n) w
  value_shr w n _ := Assigned.value_map (· >>> UInt32.ofNat n) w
  value_not := Assigned.value_map (~~~ ·)
  and_computes v w := .pure (Assigned.value_map₂ (· &&& ·) v w)
  xor_computes v w := .pure (Assigned.value_map₂ (· ^^^ ·) v w)
  wrappingAdd_computes v w := .pure (Assigned.value_map₂ (· + ·) v w)
  wrappingAddMany_computes _ _ := .pure rfl

/-! ## Digests of bytes -/

/-- The operations of `UInt8<F>` that a variable of bytes is allocated, selected and
compared with. -/
class UInt8DigestVar (B : Type) [UInt8Var B] where
  newVariable : UInt8 → AllocationMode → Gadget B
  conditionallySelect : Boolean → B → B → Gadget B
  /-- `is_eq` of two slices. -/
  isEq : List B → List B → Gadget Boolean

class LawfulUInt8DigestVar (B : Type) [UInt8Var B] [UInt8DigestVar B] : Prop where
  newVariable_computes (x : UInt8) (mode : AllocationMode) :
    Computes (UInt8DigestVar.newVariable x mode : Gadget B) fun v => UInt8Var.value v = x
  conditionallySelect_computes (cond : Boolean) (x y : B) :
    Computes (UInt8DigestVar.conditionallySelect cond x y) fun v =>
      UInt8Var.value v = if cond.value then UInt8Var.value x else UInt8Var.value y

instance : UInt8DigestVar (Assigned UInt8) where
  newVariable x
    | .constant => pure (.constant x)
    | _ => pure (.var x)
  conditionallySelect cond x y := pure (.var (if cond.value then x.value else y.value))
  isEq xs ys := pure (.var (xs.map Assigned.value == ys.map Assigned.value))

instance : LawfulUInt8DigestVar (Assigned UInt8) where
  newVariable_computes x mode := by cases mode <;> exact .pure rfl
  conditionallySelect_computes _ _ _ := .pure rfl

/-! ## Bytes that are allocated together -/

/-- `UInt8::constant_vec`, `UInt8::new_input_vec` and `UInt8::new_witness_vec`. -/
class UInt8VecVar (B : Type) [UInt8Var B] where
  constantVec : List UInt8 → List B
  newInputVec : List UInt8 → Gadget (List B)
  newWitnessVec : List UInt8 → Gadget (List B)

/-- The variables have the values they are allocated with. -/
class LawfulUInt8VecVar (B : Type) [UInt8Var B] [UInt8VecVar B] : Prop where
  value_constantVec (values : List UInt8) : (UInt8VecVar.constantVec values : List B).map UInt8Var.value = values
  newInputVec_computes (values : List UInt8) :
    Computes (UInt8VecVar.newInputVec values : Gadget (List B)) fun bytes => bytes.map UInt8Var.value = values
  newWitnessVec_computes (values : List UInt8) :
    Computes (UInt8VecVar.newWitnessVec values : Gadget (List B)) fun bytes => bytes.map UInt8Var.value = values

instance : UInt8VecVar (Assigned UInt8) where
  constantVec values := values.map .constant
  newInputVec values := pure (values.map .var)
  newWitnessVec values := pure (values.map .var)

instance : LawfulUInt8VecVar (Assigned UInt8) where
  value_constantVec values := List.map_map.trans (List.map_id values)
  newInputVec_computes values := .pure (by rw [List.map_map]; exact List.map_id values)
  newWitnessVec_computes values := .pure (by rw [List.map_map]; exact List.map_id values)

/-! ## Bits of bytes -/

/-- `UInt8::to_bits_le`. -/
class UInt8BitsVar (B : Type) [UInt8Var B] where
  toBitsLe : B → Gadget (List Boolean)

/-- The bits of a `u8`, the least significant one first. -/
def byteBits (byte : UInt8) : List Bool := (List.range 8).map byte.toNat.testBit

theorem shiftRight_and_one (byte : UInt8) {i : Nat} (h : i < 8) :
    (byte >>> UInt8.ofNat i &&& 1 == 1) = byte.toNat.testBit i := by
  have hi : (UInt8.ofNat i).toNat % 8 = i := by
    rw [UInt8.toNat_ofNat', Nat.mod_eq_of_lt (show i < 2 ^ 8 by omega), Nat.mod_eq_of_lt h]
  rw [Bool.eq_iff_iff, beq_iff_eq, ← UInt8.toNat_inj, UInt8.toNat_and, UInt8.toNat_shiftRight, hi,
    UInt8.toNat_one, Nat.and_one_is_mod, Nat.shiftRight_eq_div_pow, Nat.testBit_eq_decide_div_mod_eq,
    decide_eq_true_eq]

class LawfulUInt8BitsVar (B : Type) [UInt8Var B] [UInt8BitsVar B] : Prop where
  toBitsLe_computes (byte : B) : Computes (UInt8BitsVar.toBitsLe byte) fun bits =>
    bits.map Boolean.value = byteBits (UInt8Var.value byte)

/-- Constants have the value they are made of. -/
class LawfulUInt8Constant (B : Type) [UInt8Var B] : Prop where
  value_constant (x : UInt8) : UInt8Var.value (UInt8Var.constant x : B) = x

instance : LawfulUInt8Constant (Assigned UInt8) := ⟨fun _ => rfl⟩

instance : UInt8BitsVar (Assigned UInt8) where
  toBitsLe byte := pure ((byteBits byte.value).map .var)

instance : LawfulUInt8BitsVar (Assigned UInt8) where
  toBitsLe_computes _ := .pure (by rw [List.map_map]; exact List.map_id _)

theorem length_byteBits (byte : UInt8) : (byteBits byte).length = 8 := by
  rw [byteBits, List.length_map, List.length_range]

theorem length_flatMap_byteBits (bytes : List UInt8) : (bytes.flatMap byteBits).length = 8 * bytes.length := by
  induction bytes with
  | nil => rfl
  | cons byte bytes ih =>
    rw [List.flatMap_cons, List.length_append, length_byteBits, ih, List.length_cons, Nat.mul_succ, Nat.add_comm]

theorem ofBits_byteBits (byte : UInt8) : ofBits (byteBits byte) = byte.toNat := by
  rw [byteBits, Digits.ofBits_testBit]
  exact Nat.mod_eq_of_lt byte.toNat_lt

/-- Bytes written out in eight bits each. -/
theorem ofBits_flatten (f : UInt8 → List Bool) (hf : ∀ byte, (f byte).length = 8) (bytes : List UInt8) :
    ofBits (bytes.map f).flatten = Nat.ofDigits 256 (bytes.map fun byte => ofBits (f byte)) := by
  induction bytes with
  | nil => rfl
  | cons byte bytes ih =>
    rw [List.map_cons, List.flatten_cons, Digits.ofBits_append, hf, ih, List.map_cons, Nat.ofDigits_cons]
    rfl

theorem ofBits_flatten_byteBits (bytes : List UInt8) : ofBits (bytes.map byteBits).flatten = leNumber bytes := by
  rw [ofBits_flatten _ length_byteBits, leNumber]
  exact congrArg _ (List.map_congr_left fun byte _ => ofBits_byteBits byte)

/-! ## Little-endian words -/

/-- `UInt32::from_bits_le`, which takes 32 bits, and `UInt32::to_bytes_le`. -/
class UInt32LeVar (B : outParam Type) (W : Type) where
  fromBitsLe : List Boolean → W
  toBytesLe : W → Gadget (List B)

class LawfulUInt32LeVar (B : outParam Type) (W : Type) [UInt8Var B] [UInt32Var B W] [UInt32LeVar B W] : Prop where
  value_fromBitsLe (bits : List Boolean) (h : bits.length = 32) :
    UInt32Var.value (UInt32LeVar.fromBitsLe bits : W) = UInt32.ofNat (ofBits (bits.map Boolean.value))
  toBytesLe_computes (w : W) : Computes (UInt32LeVar.toBytesLe w) fun bytes =>
    bytes.map UInt8Var.value = toLeBytes 4 (UInt32Var.value w).toNat

instance : UInt32LeVar (Assigned UInt8) (Assigned UInt32) where
  fromBitsLe bits := .var (UInt32.ofNat (ofBits (bits.map Boolean.value)))
  toBytesLe w := pure ((toLeBytes 4 w.value.toNat).map .var)

instance : LawfulUInt32LeVar (Assigned UInt8) (Assigned UInt32) where
  value_fromBitsLe _ _ := rfl
  toBytesLe_computes _ := .pure (by rw [List.map_map]; exact List.map_id _)

end CryptoPrimitives
