import CryptoPrimitives.Sponge.AbsorbInjective
import CryptoPrimitives.Sponge.AbsorbNested

/-!
# The bytes of nested values in a circuit

`to_sponge_bytes` of the implementations of `AbsorbGadget` in `sponge/constraints/absorb.rs`, beside those of `Absorb`.
The native code writes a field element as it is serialized, a gadget all bytes of its limbs.

* `toSpongeBytes_eq`, `toSpongeBytes_computes`: both write a value in the same way but for its field elements.
* `toSpongeBytes_agrees_iff`: so they agree exactly when the limbs have no byte more, or there is no field element.
-/

namespace CryptoPrimitives.Sponge

open PrimeField (bigIntBytes length_serialize length_toBytesLe serialize serializedBytes toBytesLe toBytesLe_eq)
open Synthesis (Computes)

/-- `Absorb::to_sponge_bytes_as_vec`. -/
def AbsorbImpl.toSpongeBytesAsVec {A : Type} (I : AbsorbImpl A) (self : A) : Outcome (List UInt8) :=
  I.toSpongeBytes self []

/-- `Boolean::to_bytes_le`. -/
class BooleanBytes (B : Type) where
  toBytesLe : Boolean → Gadget (List B)

/-- It returns one byte, which is 0 or 1. -/
class LawfulBooleanBytes (B : Type) [UInt8Var B] [BooleanBytes B] : Prop where
  toBytesLe_computes (b : Boolean) : Computes (BooleanBytes.toBytesLe b : Gadget (List B)) fun bytes =>
    bytes.map UInt8Var.value = [if b.value then 1 else 0]

instance : BooleanBytes (Assigned UInt8) where
  toBytesLe
    | .constant b => pure [.constant (if b then 1 else 0)]
    | .var b => pure [.var (if b then 1 else 0)]

instance : LawfulBooleanBytes (Assigned UInt8) where
  toBytesLe_computes b := by cases b <;> exact .pure rfl

/-- `to_sponge_bytes` of `AbsorbGadget`, for one value and for a batch. -/
structure AbsorbGadgetBytes (B A : Type) where
  toSpongeBytes : A → Gadget (List B)
  batchToSpongeBytes (batch : List A) : Gadget (List B) :=
    batch.foldlM (fun result item => do
      let bytes ← toSpongeBytes item
      pure (result ++ bytes)) []

namespace AbsorbGadgetBytes

section

variable {p : Nat} {B V : Type} [FpVar p V] [UInt8Var B] [FpVarConvert p B V] [BooleanBytes B]

/-- `AbsorbGadget for UInt8`. -/
def uint8 : AbsorbGadgetBytes B B where
  toSpongeBytes self := pure [self]

/-- `AbsorbGadget for Boolean`. -/
def boolean : AbsorbGadgetBytes B Boolean where
  toSpongeBytes self := BooleanBytes.toBytesLe self

/-- `AbsorbGadget for FpVar`. -/
def fpVar : AbsorbGadgetBytes B V where
  toSpongeBytes self := FpVarConvert.toBytesLe self

variable {A : Type}

/-- `AbsorbGadget for &[A]`. -/
def slice (I : AbsorbGadgetBytes B A) : AbsorbGadgetBytes B (List A) where
  toSpongeBytes self := I.batchToSpongeBytes self

/-- `AbsorbGadget for Vec<A>`. -/
def vec (I : AbsorbGadgetBytes B A) : AbsorbGadgetBytes B (List A) where
  toSpongeBytes self := I.slice.toSpongeBytes self

/-- `AbsorbGadget for Option<A>`. -/
def option (I : AbsorbGadgetBytes B A) : AbsorbGadgetBytes B (Option A) where
  toSpongeBytes self := do
    let output ← boolean.toSpongeBytes (.constant self.isSome)
    match self with
    | some item => do
      let bytes ← I.toSpongeBytes item
      pure (output ++ bytes)
    | none => pure output

end

end AbsorbGadgetBytes

namespace NestedType

/-- The implementation of the counterpart of a type. -/
def bytesGadget {p : Nat} {B V : Type} [FpVar p V] [UInt8Var B] [FpVarConvert p B V] [BooleanBytes B] :
    (A : NestedType) → AbsorbGadgetBytes B (A.Var B V)
  | u8 => (.uint8 : AbsorbGadgetBytes B B)
  | bool => .boolean
  | fp => (.fpVar : AbsorbGadgetBytes B V)
  | option A => A.bytesGadget.option
  | vec A => A.bytesGadget.vec

section

variable {P : FpConfig}

/-- The bytes of a value. -/
def toSpongeBytes (A : NestedType) (x : (A.absorbType P).Value) : Outcome (List UInt8) :=
  (A.absorbType P).impl.toSpongeBytesAsVec x

/-- The number of field elements in a value. -/
def elementCount : (A : NestedType) → (A.absorbType P).Value → Nat
  | u8, _ => 0
  | bool, _ => 0
  | fp, _ => 1
  | option A, x => (x.map A.elementCount).getD 0
  | vec A, xs => (xs.map A.elementCount).sum

/-- The bytes of a value whose field elements are written by `write`. -/
def bytesWith (write : ZMod P.characteristic → List UInt8) : (A : NestedType) → (A.absorbType P).Value → List UInt8
  | u8, b => ([b] : List UInt8)
  | bool, b => (fun b : Bool => [if b then 1 else 0]) b
  | fp, x => write x
  | option A, x => (if x.isSome then 1 else 0) :: (x.map (A.bytesWith write)).getD []
  | vec A, xs => xs.flatMap (A.bytesWith write)

theorem length_flatMap_eq_add {α β : Type} {f g : α → List β} {c : α → Nat} {n : Nat}
    (h : ∀ x, (f x).length = (g x).length + c x * n) (xs : List α) :
    (xs.flatMap f).length = (xs.flatMap g).length + (xs.map c).sum * n := by
  induction xs with
  | nil => rw [List.map_nil, List.sum_nil, Nat.zero_mul]; rfl
  | cons x xs ih =>
    simp only [List.flatMap_cons, List.length_append, List.map_cons, List.sum_cons, ih, h x, Nat.add_mul]
    omega

theorem bytesWith_congr (write write' : ZMod P.characteristic → List UInt8) (A : NestedType)
    {x : (A.absorbType P).Value} (h : A.elementCount x = 0) : A.bytesWith write x = A.bytesWith write' x := by
  induction A with
  | u8 | bool => rfl
  | fp => exact absurd h one_ne_zero
  | option A ih =>
    cases x with
    | none => rfl
    | some x => exact congrArg (1 :: ·) (ih h)
  | vec A ih =>
    have hcounts := List.sum_eq_zero_iff_forall_eq_nat.mp h
    exact List.flatMap_congr fun y hy => ih (hcounts _ (List.mem_map_of_mem hy))

theorem length_bytesWith {write : ZMod P.characteristic → List UInt8} {n : Nat} (hn : ∀ e, (write e).length = n)
    (A : NestedType) (x : (A.absorbType P).Value) :
    (A.bytesWith write x).length = (A.bytesWith (fun _ => []) x).length + A.elementCount x * n := by
  induction A with
  | u8 | bool => exact (congrArg (1 + ·) (Nat.zero_mul n)).symm
  | fp => exact (hn x).trans (by rw [elementCount, Nat.one_mul]; exact (Nat.zero_add n).symm)
  | option A ih =>
    cases x with
    | none => exact (congrArg (1 + ·) (Nat.zero_mul n)).symm
    | some x => exact (congrArg (· + 1) (ih x)).trans (Nat.add_right_comm ..)
  | vec A ih => exact length_flatMap_eq_add ih x

theorem toSpongeBytes_vec {A : NestedType} {write : (A.absorbType P).Value → List UInt8}
    (h : ∀ x, A.toSpongeBytes x = .ok (write x)) (xs : List (A.absorbType P).Value) :
    (vec A).toSpongeBytes (P := P) xs = .ok (xs.flatMap write) := by
  have hmapM : xs.mapM A.toSpongeBytes = .ok (xs.map write) := Except.mapM_eq_map fun x _ => h x
  refine (AbsorbType.batchToSpongeBytes_eq (A.absorbType P) xs).trans ((congrArg (List.flatten <$> ·) hmapM).trans ?_)
  exact congrArg Except.ok List.flatMap_def.symm

/-- The native code writes each element as it is serialized. -/
theorem toSpongeBytes_eq (hP : (AbsorbType.fp P).CanonicalBytes) (A : NestedType) (x : (A.absorbType P).Value) :
    A.toSpongeBytes x = .ok (A.bytesWith serialize x) := by
  induction A with
  | u8 | bool => rfl
  | fp =>
    show (unwrap (P.serializeCompressed x) >>= fun bytes => pure ([] ++ bytes)) = _
    rw [hP.2 x]
    rfl
  | option A ih =>
    cases x with
    | none => rfl
    | some x =>
      show (A.absorbType P).impl.toSpongeBytes x [1] = _
      rw [(A.absorbType P).appends.bytes x [1], show (A.absorbType P).impl.toSpongeBytes x [] = _ from ih x]
      rfl
  | vec A ih => exact toSpongeBytes_vec ih x

/-! ## The gadget -/

variable {B V : Type} [FpVar P.characteristic V] [UInt8Var B] [FpVarConvert P.characteristic B V] [BooleanBytes B]

theorem bytesGadget_vec {A : NestedType} {write : (A.absorbType P).Value → List UInt8}
    (h : ∀ v : A.Var B V, Computes (A.bytesGadget.toSpongeBytes v) fun bytes =>
      bytes.map UInt8Var.value = write (A.value v))
    (vs : List (A.Var B V)) :
    Computes ((vec A).bytesGadget.toSpongeBytes vs) fun bytes =>
      bytes.map UInt8Var.value = (vs.map A.value).flatMap write := by
  have hloop : (vec A).bytesGadget.toSpongeBytes vs = List.flatten <$> vs.mapM A.bytesGadget.toSpongeBytes := by
    cases A with
    | _ => exact foldlM_append_eq _ vs
  rw [hloop, map_eq_pure_bind]
  refine (Computes.mapM_map fun v _ => h v).bind fun bytes hbytes => .pure ?_
  rw [List.map_flatten, hbytes, ← List.flatMap_def]
  exact (List.flatMap_map ..).symm

variable [LawfulFpVarConvert P.characteristic B V] [LawfulBooleanBytes B]

/-- The gadget writes all bytes of the limbs of each element. -/
theorem toSpongeBytes_computes (A : NestedType) (v : A.Var B V) :
    Computes (A.bytesGadget.toSpongeBytes v) fun bytes =>
      bytes.map UInt8Var.value = A.bytesWith (P := P) toBytesLe (A.value v) := by
  induction A with
  | u8 => exact .pure rfl
  | bool => exact LawfulBooleanBytes.toBytesLe_computes (B := B) v
  | fp => exact LawfulFpVarConvert.toBytesLe_computes (B := B) (V := V) v
  | option A ih =>
    cases v with
    | none =>
      refine (LawfulBooleanBytes.toBytesLe_computes (B := B) (.constant false)).bind fun output houtput => ?_
      exact .pure houtput
    | some v =>
      refine (LawfulBooleanBytes.toBytesLe_computes (B := B) (.constant true)).bind fun output houtput => ?_
      refine (ih v).bind fun bytes hbytes => .pure ?_
      rw [List.map_append, houtput, hbytes]
      rfl
  | vec A ih => exact bytesGadget_vec ih v

/-- For every prime field, type and variable of it: both write the value in the same way, but the gadget puts zeros behind
each field element, up to the end of its limbs. So the gadget writes the bytes of the native code exactly when there is no
room for zeros, or no field element in the value. -/
theorem toSpongeBytes_agrees_iff (hP : (AbsorbType.fp P).CanonicalBytes) (A : NestedType) (v : A.Var B V) :
    A.toSpongeBytes (P := P) (A.value v) = .ok (A.bytesWith serialize (A.value v)) ∧
      Computes (A.bytesGadget.toSpongeBytes v) (fun bytes => bytes.map UInt8Var.value =
        A.bytesWith (P := P) (fun e => serialize e ++
          List.replicate (bigIntBytes P.characteristic - serializedBytes P.characteristic) 0) (A.value v)) ∧
      (Computes (A.bytesGadget.toSpongeBytes v) (fun bytes =>
          A.toSpongeBytes (P := P) (A.value v) = .ok (bytes.map UInt8Var.value)) ↔
        serializedBytes P.characteristic = bigIntBytes P.characteristic ∨ A.elementCount (P := P) (A.value v) = 0) := by
  have : NeZero P.characteristic := ⟨hP.1.ne_zero⟩
  have hgadget := toSpongeBytes_computes (P := P) A v
  have hnative := toSpongeBytes_eq hP A (A.value v)
  rw [← funext toBytesLe_eq]
  refine ⟨hnative, hgadget, fun h => ?_, fun h => hgadget.mono fun bytes hbytes => ?_⟩
  · obtain ⟨bytes, hbytes, hsame⟩ := hgadget.exists_and h
    have heq := Except.ok.inj (hnative.symm.trans hsame)
    rw [hbytes] at heq
    have hlen := congrArg List.length heq
    rw [length_bytesWith length_serialize, length_bytesWith length_toBytesLe, Nat.add_left_cancel_iff] at hlen
    rcases Nat.eq_zero_or_pos (A.elementCount (P := P) (A.value v)) with hzero | hpos
    · exact .inr hzero
    · exact .inl (Nat.eq_of_mul_eq_mul_left hpos hlen)
  · rw [hnative, hbytes, Except.ok.injEq]
    rcases h with h | h
    · refine congrArg (fun write => A.bytesWith write (A.value v)) (funext fun e => ?_)
      rw [toBytesLe_eq, h, Nat.sub_self, List.replicate_zero, List.append_nil]
    · exact bytesWith_congr _ _ A h

end

/-- A list of optional elements of the field of 7 elements, which have one byte of 8. -/
theorem toSpongeBytes_agrees_iff_seven :
    (vec (option fp)).toSpongeBytes (P := ofPrime 7) [some (3 : ZMod 7), none] = .ok [1, 3, 0] ∧
      ¬ Computes ((vec (option fp)).bytesGadget.toSpongeBytes
          ([some (Assigned.var (3 : ZMod 7)), none] : List (Option (Assigned (ZMod 7)))) :
            Gadget (List (Assigned UInt8))) fun bytes =>
        (vec (option fp)).toSpongeBytes (P := ofPrime 7) [some (3 : ZMod 7), none] =
          .ok (bytes.map UInt8Var.value) := by
  have hP : (AbsorbType.fp (ofPrime 7)).CanonicalBytes := ⟨by norm_num [ofPrime], fun _ => rfl⟩
  have h := toSpongeBytes_agrees_iff (P := ofPrime 7) (B := Assigned UInt8) (V := Assigned (ZMod 7)) hP
    (vec (option fp)) [some (Assigned.var (3 : ZMod 7)), none]
  refine ⟨h.1.trans rfl, fun hsame => ?_⟩
  have hsizes := h.2.2.mp hsame
  revert hsizes
  decide

end NestedType

end CryptoPrimitives.Sponge
