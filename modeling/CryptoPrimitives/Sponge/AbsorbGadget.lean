import CryptoPrimitives.Gadget.Uint
import CryptoPrimitives.Sponge.Absorb
import CryptoPrimitives.Sponge.Constraints

/-!
# What sponges absorb in a circuit

`AbsorbInput`: the lists that `sponge/absorb.rs` and `sponge/constraints/absorb.rs` turn
into field elements, natively and in a circuit. `absorb`, `fork` and `squeeze_bytes` of
the Poseidon sponge follow, each for the values and then for the variables.

* `toSpongeFieldElements_mirrors`: the two encodings have the same values.
* `absorb_mirrors`, `fork_mirrors`, `squeezeBytes_mirrors`: and so have the sponges.
-/

namespace CryptoPrimitives.Sponge

open PrimeField (modulusBitSize toBytesLe)
open Synthesis (Computes Mirrors)

/-- The conversions of `FpVar<F>` from booleans, and from and to bytes. -/
class FpVarConvert (p : outParam Nat) (B : outParam Type) (V : Type) [FpVar p V] [UInt8Var B] where
  /-- `FpVar::from`. -/
  fromBoolean : Boolean → V
  toBytesLe : V → Gadget (List B)
  /-- `[UInt8]::to_constraint_field`. -/
  toConstraintField : List B → Gadget (List V)

/-- The conversions act as those of the field; bytes are packed as
`[u8]::to_field_elements` packs them. -/
class LawfulFpVarConvert (p : outParam Nat) (B : outParam Type) (V : Type) [FpVar p V] [UInt8Var B]
    [FpVarConvert p B V] : Prop where
  value_constant (x : UInt8) : UInt8Var.value (UInt8Var.constant x : B) = x
  value_fromBoolean (b : Boolean) : FpVar.value (FpVarConvert.fromBoolean b : V) = if b.value then 1 else 0
  toBytesLe_computes (v : V) : Computes (FpVarConvert.toBytesLe v) fun bytes =>
    bytes.map UInt8Var.value = toBytesLe (FpVar.value v)
  toConstraintField_mirrors (bytes : List B) :
    Mirrors (toFieldElements p (bytes.map UInt8Var.value)) (FpVarConvert.toConstraintField bytes : Gadget (List V))
      fun xs vs => vs.map FpVar.value = xs

instance {p : Nat} : FpVarConvert p (Assigned UInt8) (Assigned (ZMod p)) where
  fromBoolean
    | .constant b => .constant (if b then 1 else 0)
    | .var b => .var (if b then 1 else 0)
  toBytesLe v := pure ((toBytesLe v.value).map .var)
  toConstraintField bytes := do
    let elements ← liftM (toFieldElements p (bytes.map Assigned.value))
    pure (elements.map .var)

instance {p : Nat} : LawfulFpVarConvert p (Assigned UInt8) (Assigned (ZMod p)) where
  value_constant _ := rfl
  value_fromBoolean b := by cases b <;> rfl
  toBytesLe_computes _ := .pure (by rw [List.map_map]; exact List.map_id _)
  toConstraintField_mirrors _ xs hxs := by
    refine computes_liftM_bind hxs ?_
    refine .pure ?_
    show (xs.map Assigned.var).map Assigned.value = xs
    rw [List.map_map]
    exact List.map_id xs

/-- Constants before the bytes of a list. -/
theorem map_constant_append {p : Nat} {B : Type} (V : Type) [FpVar p V] [UInt8Var B] [FpVarConvert p B V]
    [LawfulFpVarConvert p B V] (bytes : List UInt8) (batch : List B) :
    (bytes.map UInt8Var.constant ++ batch).map UInt8Var.value = bytes ++ batch.map UInt8Var.value := by
  rw [List.map_append]
  exact congrArg (· ++ _) (Function.LeftInverse.list_map (LawfulFpVarConvert.value_constant V) bytes)

/-- A list that is absorbed: of field elements, of bytes or of booleans. -/
inductive AbsorbInput (V B L : Type) where
  | elements (batch : List V)
  | bytes (batch : List B)
  | booleans (batch : List L)

namespace AbsorbInput

/-- `to_sponge_field_elements` of the `Absorb` instances. -/
def toSpongeFieldElements {p : Nat} : AbsorbInput (ZMod p) UInt8 Bool → Outcome (List (ZMod p))
  | elements batch => unwrapOption (fieldCast p batch)
  | bytes batch => Absorb.batchToSpongeFieldElements p batch
  | booleans batch => pure (batch.map fun b => if b then 1 else 0)

section

variable {p : Nat} {B V : Type} [FpVar p V] [UInt8Var B]

/-- The values of a list of variables. -/
def value : AbsorbInput V B Boolean → AbsorbInput (ZMod p) UInt8 Bool
  | elements batch => .elements (batch.map FpVar.value)
  | bytes batch => .bytes (batch.map UInt8Var.value)
  | booleans batch => .booleans (batch.map Boolean.value)

variable [FpVarConvert p B V]

/-- `to_sponge_field_elements` of the `AbsorbGadget` instances. -/
def toSpongeFieldElementsVar : AbsorbInput V B Boolean → Gadget (List V)
  | elements batch => pure batch
  | bytes batch => FpVarConvert.toConstraintField ((toLeBytes 8 batch.length).map UInt8Var.constant ++ batch)
  | booleans batch => pure (batch.map FpVarConvert.fromBoolean)

/-- Variables are absorbed as their values are. -/
theorem toSpongeFieldElements_mirrors [Fact p.Prime] [LawfulFpVarConvert p B V] (input : AbsorbInput V B Boolean) :
    Mirrors input.value.toSpongeFieldElements input.toSpongeFieldElementsVar fun xs vs => vs.map FpVar.value = xs := by
  cases input with
  | elements batch =>
    intro xs hxs
    rw [value, toSpongeFieldElements, PoseidonSponge.fieldCast_self] at hxs
    exact .pure (Except.ok.inj hxs)
  | bytes batch =>
    have h := LawfulFpVarConvert.toConstraintField_mirrors (V := V)
      ((toLeBytes 8 batch.length).map UInt8Var.constant ++ batch)
    rw [map_constant_append V] at h
    rw [value, toSpongeFieldElements, Absorb.batchToSpongeFieldElements, List.length_map]
    exact h
  | booleans batch =>
    refine .pure ?_
    rw [List.map_map, List.map_map]
    exact List.map_congr_left fun b _ => LawfulFpVarConvert.value_fromBoolean b

end

end AbsorbInput

/-! ## Absorbing -/

section

variable {p : Nat} {V : Type} [FpVar p V] [LawfulFpVar p V] {D : Duplex Outcome (ZMod p)} {G : Duplex Gadget V}

theorem addElements_mirrors (state : List V) (position : Nat) (elements : List V) :
    Mirrors (addElements (state.map FpVar.value) position (elements.map FpVar.value) : Outcome (List (ZMod p)))
      (addElements state position elements : Gadget (List V)) fun s vs => vs.map FpVar.value = s := by
  induction elements generalizing state position with
  | nil => exact .pure rfl
  | cons element elements ih =>
    rw [List.map_cons, addElements, addElements]
    refine (index_mirrors FpVar.value state position).bind_eq fun v => ?_
    rw [← LawfulFpVar.value_add, ← List.map_set]
    exact ih _ _

theorem absorbLoop_mirrors (hDG : DuplexMirrors D G) (fuel rateStartIndex : Nat) (elements state : List V) :
    Mirrors (absorbLoop D fuel rateStartIndex (elements.map FpVar.value) (state.map FpVar.value))
      (absorbLoop G fuel rateStartIndex elements state) fun s vs => vs.value = s := by
  induction fuel generalizing rateStartIndex elements state with
  | zero => exact fun r hr => absurd hr raise_ne_ok
  | succ fuel ih =>
    rw [absorbLoop, absorbLoop, hDG.rate_eq, hDG.capacity_eq, List.length_map]
    split
    · refine (addElements_mirrors state _ elements).bind_eq fun state => ?_
      exact .pure rfl
    · refine mirrors_self_bind fun n => ?_
      rw [← List.map_take, ← List.map_drop]
      refine (addElements_mirrors state _ _).bind_eq fun state => ?_
      refine (hDG.permute state).bind_eq fun state => ?_
      exact ih _ _ _

theorem absorbInternal_mirrors (hDG : DuplexMirrors D G) (rateStartIndex : Nat) (elements state : List V) :
    Mirrors (absorbInternal D rateStartIndex (elements.map FpVar.value) (state.map FpVar.value))
      (absorbInternal G rateStartIndex elements state) fun s vs => vs.value = s := by
  rw [absorbInternal, absorbInternal, List.length_map]
  exact absorbLoop_mirrors hDG _ _ _ _

/-- The sponge on variables absorbs what the sponge absorbs. -/
theorem PoseidonSpongeVar.absorb_mirrors (hDG : DuplexMirrors D G) (self : DuplexSponge V) (elems : List V) :
    Mirrors (PoseidonSponge.absorb D self.value (elems.map FpVar.value)) (PoseidonSponge.absorb G self elems)
      fun s vs => vs.value = s := by
  obtain ⟨state, mode⟩ := self
  rw [PoseidonSponge.absorb, PoseidonSponge.absorb, List.isEmpty_map]
  split
  · exact .pure rfl
  cases mode with
  | absorbing i =>
    simp only [DuplexSponge.value, DuplexSponge.map, hDG.rate_eq]
    split
    · refine (hDG.permute state).bind_eq fun state => ?_
      exact absorbInternal_mirrors hDG 0 elems state
    · exact absorbInternal_mirrors hDG i elems state
  | squeezing i => exact absorbInternal_mirrors hDG 0 elems state

end

/-! ## Forks and bytes -/

namespace PoseidonSponge

variable {p : Nat}

/-- `CryptographicSponge::fork`. -/
def fork (D : Duplex Outcome (ZMod p)) (self : DuplexSponge (ZMod p)) (domain : List UInt8) :
    Outcome (DuplexSponge (ZMod p)) := do
  let elems ← Absorb.forkElements p domain
  absorb D self elems

/-- `PoseidonSponge::squeeze_bytes`. -/
def squeezeBytes (D : Duplex Outcome (ZMod p)) (self : DuplexSponge (ZMod p)) (numBytes : Nat) :
    Outcome (List UInt8 × DuplexSponge (ZMod p)) := do
  let usableBytes := (modulusBitSize p - 1) / 8
  let bound ← usizeSub (numBytes + usableBytes) 1
  let numElements ← usizeDiv bound usableBytes
  let (srcElements, self) ← squeezeNativeFieldElements D self numElements
  let bytes ← srcElements.mapM fun elem => slice (toBytesLe elem) 0 usableBytes
  pure (bytes.flatten.take numBytes, self)

/-- `PoseidonSponge::squeeze_field_elements`, of the field of `q` elements. -/
def squeezeFieldElements (q : Nat) (D : Duplex Outcome (ZMod p)) (self : DuplexSponge (ZMod p)) (numElements : Nat) :
    Outcome (List (ZMod q) × DuplexSponge (ZMod p)) :=
  if p = q then do
    let (result, self) ← squeezeNativeFieldElements D self numElements
    let cast ← unwrapOption (fieldCast q result)
    pure (cast, self)
  else squeezeFieldElementsWithSizes q D self (List.replicate numElements .full)

/-- Elements of the sponge's own field are cast to themselves. -/
theorem squeezeFieldElements_self [Fact p.Prime] (D : Duplex Outcome (ZMod p)) (self : DuplexSponge (ZMod p))
    (n : Nat) : squeezeFieldElements p D self n = squeezeNativeFieldElements D self n := by
  rw [squeezeFieldElements, if_pos rfl]
  cases squeezeNativeFieldElements D self n with
  | error e => rfl
  | ok r =>
    simp only [Except.ok_bind, fieldCast_self]
    rfl

/-- The bytes of an element that are squeezed. -/
theorem slice_toBytesLe (x : ZMod p) :
    (slice (toBytesLe x) 0 ((modulusBitSize p - 1) / 8) : Outcome (List UInt8)) =
      .ok ((toBytesLe x).take ((modulusBitSize p - 1) / 8)) := by
  have hle := PrimeField.modulusBitSize_le (p := p)
  rw [slice_of_le (Nat.zero_le _) (by rw [toBytesLe, List.length_map, List.length_range]; omega)]
  rfl

end PoseidonSponge

namespace PoseidonSpongeVar

variable {p : Nat} {B V : Type} [FpVar p V] [UInt8Var B] [FpVarConvert p B V]

/-- `CryptographicSpongeVar::fork`. -/
def fork (G : Duplex Gadget V) (self : DuplexSponge V) (domain : List UInt8) : Gadget (DuplexSponge V) := do
  let elems ← liftM (Absorb.forkElements p domain)
  PoseidonSponge.absorb G self (elems.map FpVar.constant)

/-- `PoseidonSpongeVar::squeeze_bytes`. -/
def squeezeBytes (G : Duplex Gadget V) (self : DuplexSponge V) (numBytes : Nat) :
    Gadget (List B × DuplexSponge V) := do
  let usableBytes := (modulusBitSize p - 1) / 8
  let bound ← liftM (usizeSub (numBytes + usableBytes) 1 : Outcome Nat)
  let numElements ← liftM (usizeDiv bound usableBytes : Outcome Nat)
  let (srcElements, self) ← squeezeFieldElements G self numElements
  let bytes ← srcElements.mapM fun elem => do
    let bytes ← FpVarConvert.toBytesLe elem
    liftM (slice bytes 0 usableBytes : Outcome (List B))
  pure (bytes.flatten.take numBytes, self)

variable {D : Duplex Outcome (ZMod p)} {G : Duplex Gadget V}

omit [UInt8Var B] [FpVarConvert p B V] in
/-- The elements of a domain, computed natively, become constants. -/
theorem fork_mirrors [LawfulFpVar p V] (hDG : DuplexMirrors D G) (self : DuplexSponge V) (domain : List UInt8) :
    Mirrors (PoseidonSponge.fork D self.value domain) (fork G self domain) fun s vs => vs.value = s := by
  refine mirrors_self_bind fun elems => ?_
  have hvalues : (elems.map (FpVar.constant : ZMod p → V)).map FpVar.value = elems :=
    Function.LeftInverse.list_map LawfulFpVar.value_constant elems
  have h := absorb_mirrors hDG self (elems.map FpVar.constant)
  rwa [hvalues] at h

theorem squeezeBytes_mirrors [LawfulFpVarConvert p B V] (hDG : DuplexMirrors D G) (self : DuplexSponge V) (n : Nat) :
    Mirrors (PoseidonSponge.squeezeBytes D self.value n) (squeezeBytes G self n)
      fun r vr => (vr.1.map UInt8Var.value, vr.2.value) = r := by
  have hbytes (elem : V) : Mirrors (slice (toBytesLe (FpVar.value elem)) 0 ((modulusBitSize p - 1) / 8) : Outcome _)
      (do
        let bytes ← FpVarConvert.toBytesLe elem
        liftM (slice bytes 0 ((modulusBitSize p - 1) / 8) : Outcome (List B)))
      fun bs vs => vs.map UInt8Var.value = bs := fun bs hbs => by
    refine (LawfulFpVarConvert.toBytesLe_computes elem).bind fun bytes hbytes => ?_
    rw [← hbytes] at hbs
    exact slice_mirrors UInt8Var.value bytes _ _ bs hbs
  rw [PoseidonSponge.squeezeBytes, squeezeBytes]
  refine mirrors_self_bind fun bound => ?_
  refine mirrors_self_bind fun numElements => ?_
  refine (squeezeFieldElements_mirrors hDG self _).bind ?_
  rintro _ ⟨elements, self⟩ rfl
  refine (Mirrors.mapM hbytes elements).bind_eq fun bytes => ?_
  exact .pure (by rw [List.map_take, List.map_flatten])

end PoseidonSpongeVar

end CryptoPrimitives.Sponge
