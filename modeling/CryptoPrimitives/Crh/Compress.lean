import CryptoPrimitives.Crh.InjectiveMap
import CryptoPrimitives.Crh.PedersenGadget
import CryptoPrimitives.Sponge.AbsorbGadget

/-!
# Compressing two digests

`compress` of the two-to-one hashes whose digest is a coordinate in a prime field: those of `crh/bowe_hopwood` and
`crh/injective_map`. The native code hashes the digests as they are serialized, the gadgets as the bytes of all their
limbs.

* `nativeMessage_eq_iff`: these are one message exactly when there are as many bytes, or the right digest is 0.
* `compress_agrees_iff`: else a gadget agrees with the native code only on a collision.
-/

namespace CryptoPrimitives

open Pedersen (Window padded MultiscalarVar LawfulMultiscalarVar)
open BoweHopwood (AffineVar LawfulAffineVar)
open PrimeField (bigIntBytes length_serialize length_toBytesLe serialize serializedBytes serializedBytes_le toBytesLe
  toBytesLe_eq)
open Sponge (FpVarConvert LawfulFpVarConvert)
open Synthesis (Computes)
open TwistedEdwards (Curve)

/-! ## The code -/

section

variable {p : Nat} {C GG A B V : Type}

/-- `TwoToOneCRH::compress`. -/
def BoweHopwood.TwoToOneCRH.compress [AddCommGroup C] (x : C → ZMod p) (W : Window) (parameters : Pedersen.Parameters C)
    (leftInput rightInput : ZMod p) : Outcome (ZMod p) :=
  TwoToOneCRH.evaluate x W parameters (serialize leftInput) (serialize rightInput)

/-- `TwoToOneCRHGadget::compress`. -/
def BoweHopwood.TwoToOneCRHGadget.compress (A : Type) [FpVar p V] [UInt8Var B] [UInt8BitsVar B] [FpVarConvert p B V]
    [AffineVar C (ZMod p) V A] (W : Window) (parameters : Pedersen.Parameters C) (leftInput rightInput : V) :
    Gadget V := do
  let leftInputBytes ← FpVarConvert.toBytesLe leftInput
  let rightInputBytes ← FpVarConvert.toBytesLe rightInput
  TwoToOneCRHGadget.evaluate A W parameters leftInputBytes rightInputBytes

namespace InjectiveMap

/-- `PedersenTwoToOneCRHCompressor::compress`. -/
def PedersenTwoToOneCRHCompressor.compress [AddCommGroup C] (injectiveMap : C → Outcome (ZMod p)) (W : Window)
    (parameters : Pedersen.Parameters C) (leftInput rightInput : ZMod p) : Outcome (ZMod p) :=
  PedersenTwoToOneCRHCompressor.evaluate injectiveMap W parameters (serialize leftInput) (serialize rightInput)

/-- `x` of a variable of a point. -/
class CoordinateVar (V : outParam Type) (GG : Type) where
  x : GG → V

/-- It has the value of the coordinate. -/
class LawfulCoordinateVar {p : Nat} [Fact p.Prime] (E : Curve (ZMod p)) {V : Type} (GG : Type) [FpVar p V]
    [MultiscalarVar E.Point GG] [CoordinateVar V GG] : Prop where
  value_x (ge : GG) : FpVar.value (CoordinateVar.x ge) = (MultiscalarVar.value ge).x

instance {p : Nat} [Fact p.Prime] {E : Curve (ZMod p)} : CoordinateVar (Assigned (ZMod p)) (Assigned E.Point) where
  x ge := .var ge.value.x

instance {p : Nat} [Fact p.Prime] {E : Curve (ZMod p)} : LawfulCoordinateVar E (Assigned E.Point) where
  value_x _ := rfl

/-- `TECompressorGadget::evaluate`. -/
def TECompressorGadget.evaluate [CoordinateVar V GG] (ge : GG) : Gadget V := pure (CoordinateVar.x ge)

section

variable [MultiscalarVar C GG] [UInt8Var B] [UInt8BitsVar B] (mapGadget : GG → Gadget V) (W : Window)
  (parameters : Pedersen.Parameters C)

/-- `PedersenCRHCompressorGadget::evaluate`. -/
def PedersenCRHCompressorGadget.evaluate (input : List B) : Gadget V := do
  mapGadget (← Pedersen.CRHGadget.evaluate W parameters input)

/-- `PedersenTwoToOneCRHCompressorGadget::evaluate`. -/
def PedersenTwoToOneCRHCompressorGadget.evaluate (leftInput rightInput : List B) : Gadget V := do
  liftM (assertEq leftInput.length rightInput.length : Outcome Unit)
  mapGadget (← Pedersen.TwoToOneCRHGadget.evaluate W parameters leftInput rightInput)

/-- `PedersenTwoToOneCRHCompressorGadget::compress`. The bits of a digest may be those of another number with its
residue; the ones assigned to them are not. -/
def PedersenTwoToOneCRHCompressorGadget.compress [FpVar p V] [FpVarConvert p B V] (leftInput rightInput : V) :
    Gadget V := do
  let leftInputBytes ← FpVarConvert.toBytesLe leftInput
  let rightInputBytes ← FpVarConvert.toBytesLe rightInput
  PedersenTwoToOneCRHCompressorGadget.evaluate mapGadget W parameters leftInputBytes rightInputBytes

end

end InjectiveMap

end

/-! ## The messages -/

section

variable {p : Nat}

/-- The bytes that the native code hashes. -/
def nativeMessage (capacity : Nat) (left right : ZMod p) : List UInt8 := padded capacity (serialize left ++ serialize right)

/-- The bytes that a gadget hashes. -/
def gadgetMessage (capacity : Nat) (left right : ZMod p) : List UInt8 := padded capacity (toBytesLe left ++ toBytesLe right)

theorem leNumber_replicate_append (n : Nat) (bytes : List UInt8) :
    leNumber (List.replicate n 0 ++ bytes) = 256 ^ n * leNumber bytes := by
  induction n with
  | zero => rw [List.replicate_zero, List.nil_append, pow_zero, Nat.one_mul]
  | succ n ih =>
    rw [List.replicate_succ, List.cons_append, leNumber_cons, ih, UInt8.toNat_zero, Nat.zero_add, Nat.pow_succ',
      Nat.mul_assoc]

/-- Zeros between the digests are seen where the right one has a byte that is not 0. -/
theorem nativeMessage_eq_iff [NeZero p] {capacity : Nat} (hfit : 2 * bigIntBytes p ≤ capacity) (left right : ZMod p) :
    nativeMessage capacity left right = gadgetMessage capacity left right ↔
      serializedBytes p = bigIntBytes p ∨ right = 0 := by
  have hle := serializedBytes_le p
  obtain ⟨k, hk⟩ := Nat.exists_eq_add_of_le hle
  have hzeros (x : ZMod p) : toBytesLe x = serialize x ++ List.replicate k 0 := by
    rw [toBytesLe_eq, hk, Nat.add_sub_cancel_left]
  have hnative : nativeMessage capacity left right = serialize left ++ (serialize right ++
      List.replicate (capacity - 2 * serializedBytes p) 0) := by
    rw [nativeMessage, padded, List.length_append, length_serialize, length_serialize, ← Nat.two_mul,
      List.append_assoc]
  have hgadget : gadgetMessage capacity left right = serialize left ++ (List.replicate k 0 ++ (serialize right ++
      List.replicate (capacity - 2 * serializedBytes p - k) 0)) := by
    rw [gadgetMessage, padded, List.length_append, length_toBytesLe, length_toBytesLe, hzeros, hzeros]
    simp only [List.append_assoc, List.replicate_append_replicate]
    rw [show k + (capacity - (bigIntBytes p + bigIntBytes p)) = capacity - 2 * serializedBytes p - k by omega]
  rw [hnative, hgadget, List.append_cancel_left_eq]
  constructor
  · -- the number of the bytes after the left digest
    intro h
    have hnumber := congrArg leNumber h
    rw [leNumber_replicate_append, leNumber_append_replicate, leNumber_append_replicate,
      PrimeField.leNumber_serialize] at hnumber
    rcases Nat.eq_zero_or_pos right.val with hzero | hpos
    · exact .inr ((ZMod.val_eq_zero right).mp hzero)
    · have hone : 256 ^ k = 1 := Nat.eq_of_mul_eq_mul_right hpos (by rw [← hnumber, Nat.one_mul])
      refine .inl ?_
      rw [hk, (Nat.pow_eq_one.mp hone).resolve_left (by decide), Nat.add_zero]
  · rintro (heq | rfl)
    · rw [heq, Nat.left_eq_add] at hk
      rw [hk, List.replicate_zero, List.nil_append, Nat.sub_zero]
    · have hserialize : serialize (0 : ZMod p) = List.replicate (serializedBytes p) 0 := by
        rw [serialize, ZMod.val_zero, toLeBytes_zero, serializedBytes]
      rw [hserialize]
      simp only [List.replicate_append_replicate]
      congr 1
      omega

end

/-! ## Agreement -/

section

variable {p : Nat} {B V : Type} [FpVar p V] [UInt8Var B] [FpVarConvert p B V] [LawfulFpVarConvert p B V]

/-- Two inputs with one output. -/
def Collides {In Out : Type} (f : In → Out) (x y : In) : Prop := x ≠ y ∧ f x = f y

theorem Collides.eq_or {In Out : Type} {f : In → Out} {x y : In} : f x = f y ↔ x = y ∨ Collides f x y := by
  by_cases h : x = y
  · exact iff_of_true (congrArg f h) (.inl h)
  · exact ⟨fun hf => .inr ⟨h, hf⟩, fun hor => (hor.resolve_left h).2⟩

/-- A gadget of the bytes of two digests: `hash` is what it computes of bytes that fill `crh` up. -/
theorem compress_agrees {crh : List UInt8 → Outcome (ZMod p)} {gadget : List B → List B → Gadget V}
    {native : Outcome (ZMod p)} {capacity : Nat} {left right : V}
    (hnative : native = crh (nativeMessage capacity (FpVar.value left) (FpVar.value right)))
    (hgadget : ∀ leftBytes rightBytes, leftBytes.length = bigIntBytes p → rightBytes.length = bigIntBytes p →
      Computes (gadget leftBytes rightBytes) fun v =>
        crh (padded capacity (leftBytes.map UInt8Var.value ++ rightBytes.map UInt8Var.value)) = .ok (FpVar.value v)) :
    Computes (do
      let leftBytes ← FpVarConvert.toBytesLe left
      let rightBytes ← FpVarConvert.toBytesLe right
      gadget leftBytes rightBytes) (fun v => native = .ok (FpVar.value v)) ↔
    crh (nativeMessage capacity (FpVar.value left) (FpVar.value right)) =
      crh (gadgetMessage capacity (FpVar.value left) (FpVar.value right)) := by
  have hcomputes : Computes (do
      let leftBytes ← FpVarConvert.toBytesLe left
      let rightBytes ← FpVarConvert.toBytesLe right
      gadget leftBytes rightBytes) fun v =>
        crh (gadgetMessage capacity (FpVar.value left) (FpVar.value right)) = .ok (FpVar.value v) := by
    refine (LawfulFpVarConvert.toBytesLe_computes left).bind fun leftBytes hleft => ?_
    refine (LawfulFpVarConvert.toBytesLe_computes right).bind fun rightBytes hright => ?_
    have h := hgadget leftBytes rightBytes (by rw [← length_toBytesLe (FpVar.value left), ← hleft, List.length_map])
      (by rw [← length_toBytesLe (FpVar.value right), ← hright, List.length_map])
    rwa [hleft, hright] at h
  constructor
  · intro h
    obtain ⟨v, hv, hv'⟩ := h.exists_and hcomputes
    rw [← hnative, hv, hv']
  · intro h
    rw [hnative, h]
    exact hcomputes

theorem BoweHopwood.compress_agrees [UInt8BitsVar B] [LawfulUInt8BitsVar B] [LawfulUInt8Constant B] {C A : Type}
    [AddCommGroup C] [AffineVar C (ZMod p) V A] (x : C → ZMod p) [LawfulAffineVar x A]
    (hc : ∀ v : V, AffineVar.coordinate A v = FpVar.value v) {W : Window} {parameters : Pedersen.Parameters C}
    (hp : parameters.Matches W) (hw : 0 < W.windowSize) (hfit : 2 * bigIntBytes p ≤ W.inputSizeBits / 8) (left right : V) :
    Computes (TwoToOneCRHGadget.compress A W parameters left right) (fun v =>
      TwoToOneCRH.compress x W parameters (FpVar.value left) (FpVar.value right) = .ok (FpVar.value v)) ↔
    CRH.evaluate x W parameters (nativeMessage (W.inputSizeBits / 8) (FpVar.value left) (FpVar.value right)) =
      CRH.evaluate x W parameters (gadgetMessage (W.inputSizeBits / 8) (FpVar.value left) (FpVar.value right)) := by
  have hle := serializedBytes_le p
  refine CryptoPrimitives.compress_agrees ?_ fun leftBytes rightBytes hleft hright => ?_
  · rw [TwoToOneCRH.compress, TwoToOneCRH.evaluate_eq_crh x W parameters (by rw [length_serialize, length_serialize]),
      Pedersen.fillBuffer_eq (by rw [length_serialize, length_serialize]; omega), nativeMessage]
  · have hbytes : leftBytes.length + rightBytes.length ≤ W.inputSizeBits / 8 := by omega
    refine computes_assertEq_bind (hleft.trans hright.symm) (computes_assert_bind (decide_eq_true hbytes) ?_)
    rw [← List.map_append, ← map_append_replicate, List.length_append]
    refine (crhGadget_computes x hp hw ?_).mono fun v hv => by rw [hv, hc]
    rw [List.length_append, List.length_append, List.length_replicate, BoweHopwood.CHUNK_SIZE]
    omega

theorem InjectiveMap.compress_agrees [UInt8BitsVar B] [LawfulUInt8BitsVar B] [Fact p.Prime] {E : Curve (ZMod p)} {GG : Type}
    [MultiscalarVar E.Point GG] [LawfulMultiscalarVar E.Point GG] [CoordinateVar V GG] [LawfulCoordinateVar E GG] (r : Nat)
    {W : Window} {parameters : Pedersen.Parameters E.Point} (hp : parameters.Matches W) (hw : 0 < W.windowSize)
    (hfit : 2 * bigIntBytes p ≤ W.inputSizeBits / 8) (left right : V) :
    Computes (PedersenTwoToOneCRHCompressorGadget.compress (TECompressorGadget.evaluate : GG → Gadget V) W parameters left
      right) (fun v => PedersenTwoToOneCRHCompressor.compress (TECompressor.injectiveMap false r) W parameters (FpVar.value left)
        (FpVar.value right) = .ok (FpVar.value v)) ↔
    PedersenCRHCompressor.evaluate (TECompressor.injectiveMap false r) W parameters
        (nativeMessage (W.inputSizeBits / 8) (FpVar.value left) (FpVar.value right)) =
      PedersenCRHCompressor.evaluate (TECompressor.injectiveMap false r) W parameters
        (gadgetMessage (W.inputSizeBits / 8) (FpVar.value left) (FpVar.value right)) := by
  have hle := serializedBytes_le p
  refine CryptoPrimitives.compress_agrees ?_ fun leftBytes rightBytes hleft hright => ?_
  · rw [PedersenTwoToOneCRHCompressor.compress, PedersenTwoToOneCRHCompressor.evaluate,
      Pedersen.TwoToOneCRH.evaluate_eq_crh W parameters (by rw [length_serialize, length_serialize]),
      Pedersen.fillBuffer_eq (by rw [length_serialize, length_serialize]; omega), nativeMessage, PedersenCRHCompressor.evaluate]
  · have hbytes : (leftBytes ++ rightBytes).length ≤ W.inputSizeBits / 8 := by rw [List.length_append]; omega
    have hbits : (leftBytes ++ rightBytes).length * 8 ≤ W.inputSizeBits := by omega
    have heq : leftBytes.length = rightBytes.length := hleft.trans hright.symm
    refine computes_assertEq_bind heq ?_
    refine (computes_assertEq_bind heq (Pedersen.crhGadget_computes hp hw hbits)).bind fun ge hge => .pure ?_
    rw [← List.map_append, PedersenCRHCompressor.evaluate,
      Pedersen.CRH.evaluate_padded hp hw (by rwa [List.length_map]), hge, LawfulCoordinateVar.value_x (E := E)]
    rfl

/-- For every window with room for two digests, all parameters that match it and all digests: the gadgets return what
the native code does exactly when the limbs have no byte more than a digest is serialized to, when the right digest is 0,
or on a collision of the hash. -/
theorem compress_agrees_iff [UInt8BitsVar B] [LawfulUInt8BitsVar B] [LawfulUInt8Constant B] [Fact p.Prime]
    {C : Type} [AddCommGroup C] (A : Type) [AffineVar C (ZMod p) V A] (x : C → ZMod p) [LawfulAffineVar x A]
    (hc : ∀ v : V, AffineVar.coordinate A v = FpVar.value v) {E : Curve (ZMod p)} (GG : Type) [MultiscalarVar E.Point GG]
    [LawfulMultiscalarVar E.Point GG] [InjectiveMap.CoordinateVar V GG] [InjectiveMap.LawfulCoordinateVar E GG] (r : Nat)
    {W : Window} (hw : 0 < W.windowSize) (hfit : 2 * bigIntBytes p ≤ W.inputSizeBits / 8)
    {parameters : Pedersen.Parameters C} (hp : parameters.Matches W) {parameters' : Pedersen.Parameters E.Point}
    (hp' : parameters'.Matches W) (left right : V) :
    let native := nativeMessage (W.inputSizeBits / 8) (FpVar.value left) (FpVar.value right)
    let gadget := gadgetMessage (W.inputSizeBits / 8) (FpVar.value left) (FpVar.value right)
    (Computes (BoweHopwood.TwoToOneCRHGadget.compress A W parameters left right) (fun v =>
        BoweHopwood.TwoToOneCRH.compress x W parameters (FpVar.value left) (FpVar.value right) = .ok (FpVar.value v)) ↔
      (serializedBytes p = bigIntBytes p ∨ FpVar.value right = 0) ∨
        Collides (BoweHopwood.CRH.evaluate x W parameters) native gadget) ∧
    (Computes (InjectiveMap.PedersenTwoToOneCRHCompressorGadget.compress
        (InjectiveMap.TECompressorGadget.evaluate : GG → Gadget V) W parameters' left right) (fun v =>
        InjectiveMap.PedersenTwoToOneCRHCompressor.compress (InjectiveMap.TECompressor.injectiveMap false r) W parameters'
          (FpVar.value left) (FpVar.value right) = .ok (FpVar.value v)) ↔
      (serializedBytes p = bigIntBytes p ∨ FpVar.value right = 0) ∨
        Collides (InjectiveMap.PedersenCRHCompressor.evaluate (InjectiveMap.TECompressor.injectiveMap false r) W
          parameters') native gadget) := by
  intro native gadget
  have hmessages : native = gadget ↔ serializedBytes p = bigIntBytes p ∨ FpVar.value right = 0 :=
    nativeMessage_eq_iff hfit _ _
  rw [← hmessages]
  constructor
  · rw [BoweHopwood.compress_agrees x hc hp hw hfit, Collides.eq_or]
  · rw [InjectiveMap.compress_agrees r hp' hw hfit, Collides.eq_or]

end

section

local instance prime_seven : Fact (Nat.Prime 7) := ⟨by decide⟩

/-- A digest of the field of 7 elements is serialized to one byte of the 8 of its limb. -/
theorem compress_agrees_iff_seven :
    Computes (BoweHopwood.TwoToOneCRHGadget.compress (Assigned (ZMod 7)) ⟨128, 1⟩ ⟨[List.replicate 128 (1 : ZMod 7)]⟩
        (.var (3 : ZMod 7)) (.var (0 : ZMod 7))) fun v : Assigned (ZMod 7) =>
      BoweHopwood.TwoToOneCRH.compress id ⟨128, 1⟩ ⟨[List.replicate 128 (1 : ZMod 7)]⟩ 3 0 = .ok v.value := by
  have hp : (Pedersen.Parameters.mk [List.replicate 128 (1 : ZMod 7)]).Matches ⟨128, 1⟩ :=
    ⟨rfl, List.forall_mem_singleton.mpr List.length_replicate⟩
  have hp' : (Pedersen.Parameters.mk [List.replicate 128 InjectiveMap.pointSeven]).Matches ⟨128, 1⟩ :=
    ⟨rfl, List.forall_mem_singleton.mpr List.length_replicate⟩
  have hfit : 2 * bigIntBytes 7 ≤ (Window.mk 128 1).inputSizeBits / 8 := by decide +kernel
  exact (compress_agrees_iff (Assigned (ZMod 7)) id (fun _ => rfl) (Assigned InjectiveMap.curveSeven.Point) 3 (by decide)
    hfit hp hp' (.var (3 : ZMod 7)) (.var (0 : ZMod 7))).1.mpr (.inl (.inr rfl))

end

end CryptoPrimitives
