import CryptoPrimitives.Sponge.AbsorbGadget
import CryptoPrimitives.Sponge.AbsorbTypes

/-!
# Nested values in a circuit

The implementations of `AbsorbGadget` in `sponge/constraints/absorb.rs` for `UInt8`,
`Boolean`, `FpVar`, `Option` and `Vec`, nested to any depth, beside those of `Absorb`.

* `encodesValue`: the field elements of a variable have the values of those of its value, where its bytes can be packed.
* `sameElements_iff`: fields too small for a byte are the only ones where the two may differ.
* `AbsorbInput.toSpongeFieldElements_toValue`, `AbsorbInput.toSpongeFieldElementsVar_toVar`: the lists that the sponges
  absorb are nested values and variables.
-/

namespace CryptoPrimitives.Sponge

open PrimeField (modulusBitSize)
open Synthesis (Computes Rejects)

/-- Nor are bytes packed where `[u8]::to_field_elements` panics. -/
class StrictFpVarConvert (p : outParam Nat) (B : outParam Type) (V : Type) [FpVar p V] [UInt8Var B]
    [FpVarConvert p B V] : Prop extends LawfulFpVarConvert p B V where
  toConstraintField_rejects (bytes : List B) (f : Fault) (h : toFieldElements p (bytes.map UInt8Var.value) = .error f) :
    Rejects (FpVarConvert.toConstraintField bytes : Gadget (List V))

instance {p : Nat} : StrictFpVarConvert p (Assigned UInt8) (Assigned (ZMod p)) where
  toConstraintField_rejects _ _ h := (rejects_liftM h).bind _

/-- `to_sponge_field_elements` of `AbsorbGadget`, for one value and for a batch. -/
structure AbsorbGadgetImpl (V A : Type) where
  toSpongeFieldElements : A → Gadget (List V)
  batchToSpongeFieldElements (batch : List A) : Gadget (List V) :=
    batch.foldlM (fun output absorbable => do
      let elements ← toSpongeFieldElements absorbable
      pure (output ++ elements)) []

namespace AbsorbGadgetImpl

section

variable {p : Nat} {B V : Type} [FpVar p V] [UInt8Var B] [FpVarConvert p B V]

/-- `AbsorbGadget for UInt8`. -/
def uint8 : AbsorbGadgetImpl V B where
  toSpongeFieldElements self := FpVarConvert.toConstraintField [self]
  batchToSpongeFieldElements batch :=
    let bytes := (toLeBytes 8 batch.length).map UInt8Var.constant
    FpVarConvert.toConstraintField (bytes ++ batch)

/-- `AbsorbGadget for Boolean`. -/
def boolean : AbsorbGadgetImpl V Boolean where
  toSpongeFieldElements self := pure [FpVarConvert.fromBoolean self]

/-- `AbsorbGadget for FpVar`. -/
def fpVar : AbsorbGadgetImpl V V where
  toSpongeFieldElements self := pure [self]
  batchToSpongeFieldElements batch := pure batch

variable {A : Type}

/-- `AbsorbGadget for &[A]`. -/
def slice (I : AbsorbGadgetImpl V A) : AbsorbGadgetImpl V (List A) where
  toSpongeFieldElements self := I.batchToSpongeFieldElements self

/-- `AbsorbGadget for Vec<A>`. -/
def vec (I : AbsorbGadgetImpl V A) : AbsorbGadgetImpl V (List A) where
  toSpongeFieldElements self := I.slice.toSpongeFieldElements self

/-- `AbsorbGadget for Option<A>`. -/
def option (I : AbsorbGadgetImpl V A) : AbsorbGadgetImpl V (Option A) where
  toSpongeFieldElements self := do
    let output := [FpVarConvert.fromBoolean (.constant self.isSome)]
    match self with
    | some absorbable => do
      let elements ← I.toSpongeFieldElements absorbable
      pure (output ++ elements)
    | none => pure output

end

end AbsorbGadgetImpl

/-! ## Nested types -/

/-- The types nested from `u8`, `bool` and the elements of the constraint field. -/
inductive NestedType where
  | u8
  | bool
  | fp
  | option (A : NestedType)
  | vec (A : NestedType)
deriving DecidableEq

namespace NestedType

/-- The type, over a field. -/
def absorbType (P : FpConfig) : NestedType → AbsorbType
  | u8 => .u8
  | bool => .bool
  | fp => .fp P
  | option A => .option (A.absorbType P)
  | vec A => .vec (A.absorbType P)

/-- Its counterpart in a circuit. -/
def Var (B V : Type) : NestedType → Type
  | u8 => B
  | bool => Boolean
  | fp => V
  | option A => Option (A.Var B V)
  | vec A => List (A.Var B V)

/-- The implementation of its counterpart. -/
def gadget {p : Nat} {B V : Type} [FpVar p V] [UInt8Var B] [FpVarConvert p B V] :
    (A : NestedType) → AbsorbGadgetImpl V (A.Var B V)
  | u8 => (.uint8 : AbsorbGadgetImpl V B)
  | bool => .boolean
  | fp => (.fpVar : AbsorbGadgetImpl V V)
  | option A => A.gadget.option
  | vec A => A.gadget.vec

section

variable {P : FpConfig} {B V : Type} [FpVar P.characteristic V] [UInt8Var B]

/-- The value of a nested variable. -/
def value : (A : NestedType) → A.Var B V → (A.absorbType P).Value
  | u8, b => (UInt8Var.value : B → UInt8) b
  | bool, b => Boolean.value b
  | fp, v => (FpVar.value : V → ZMod P.characteristic) v
  | option A, x => x.map A.value
  | vec A, xs => xs.map A.value

/-- A `u8` of the value becomes a field element by itself. -/
def singleByte : (A : NestedType) → (A.absorbType P).Value → Bool
  | u8, _ => true
  | bool, _ => false
  | fp, _ => false
  | option A, x => x.any A.singleByte
  | vec A, xs => decide (A ≠ u8) && xs.any A.singleByte

/-- The value has a list of `u8`. -/
def byteList : (A : NestedType) → (A.absorbType P).Value → Bool
  | u8, _ => false
  | bool, _ => false
  | fp, _ => false
  | option A, x => x.any A.byteList
  | vec A, xs => decide (A = u8) || xs.any A.byteList

/-- The field elements of a value. -/
def toSpongeFieldElements (A : NestedType) (x : (A.absorbType P).Value) : Outcome (List (ZMod P.characteristic)) :=
  (A.absorbType P).impl.toSpongeFieldElementsAsVec P.characteristic x

end

/-! ## Lists -/

theorem compatible (P : FpConfig) (A : NestedType) : (A.absorbType P).Compatible P.characteristic := by
  induction A with
  | u8 | bool => exact trivial
  | fp => exact rfl
  | option A ih | vec A ih => exact ih

theorem absorbType_ne (P : FpConfig) {A : NestedType} (h : A ≠ u8) : A.absorbType P ≠ .u8 := by
  cases A with
  | u8 => exact absurd rfl h
  | bool | fp | option | vec => exact fun heq => nomatch heq

section

variable {P : FpConfig} {A : NestedType}

theorem toSpongeFieldElements_some (x : (A.absorbType P).Value) :
    (option A).toSpongeFieldElements (some x) = ([1] ++ ·) <$> A.toSpongeFieldElements x :=
  (A.absorbType P).appends.fieldElements _ x [1]

/-- Bytes in a list are packed, with their number before them. -/
theorem toSpongeFieldElements_bytes (bytes : List UInt8) :
    (vec u8).toSpongeFieldElements (P := P) bytes =
      toFieldElements P.characteristic (toLeBytes 8 bytes.length ++ bytes) := bind_pure _

theorem toSpongeFieldElements_fp [Fact P.characteristic.Prime] (x : ZMod P.characteristic) :
    fp.toSpongeFieldElements (P := P) x = .ok [x] := by
  show unwrapOption (fieldCast P.characteristic [x]) >>= _ = _
  rw [PoseidonSponge.fieldCast_self]
  rfl

theorem toSpongeFieldElements_vec [Fact P.characteristic.Prime] (h : A ≠ u8) (xs : List (A.absorbType P).Value) :
    (vec A).toSpongeFieldElements xs = List.flatten <$> xs.mapM A.toSpongeFieldElements := by
  have hloop := batchToSpongeFieldElements_eq (compatible P A) (absorbType_ne P h) xs []
  exact hloop.trans (Appends.foldlM_nil fun x _ => (A.absorbType P).appends.fieldElements _ x)

theorem singleByte_vec (h : A ≠ u8) (xs : List (A.absorbType P).Value) :
    (vec A).singleByte (P := P) xs = xs.any A.singleByte :=
  congrArg (· && xs.any A.singleByte) (decide_eq_true h)

theorem byteList_vec (h : A ≠ u8) (xs : List (A.absorbType P).Value) :
    (vec A).byteList (P := P) xs = xs.any A.byteList :=
  congrArg (· || xs.any A.byteList) (decide_eq_false h)

variable {B V : Type} [FpVar P.characteristic V] [UInt8Var B] [FpVarConvert P.characteristic B V]

theorem gadget_vec (h : A ≠ u8) (vs : List (A.Var B V)) :
    (vec A).gadget.toSpongeFieldElements vs = List.flatten <$> vs.mapM A.gadget.toSpongeFieldElements := by
  cases A with
  | u8 => exact absurd rfl h
  | fp =>
    rw [← foldlM_append_eq]
    refine (congrArg pure (List.map_id vs).symm).trans ?_
    exact (foldlM_append_singleton id vs []).symm
  | bool | option | vec => exact foldlM_append_eq _ vs

end

/-! ## Values -/

section

variable {P : FpConfig} {B V : Type} [FpVar P.characteristic V] [UInt8Var B] [FpVarConvert P.characteristic B V]
  [LawfulFpVarConvert P.characteristic B V]

theorem toConstraintField_computes (h : 0 < maxSize P.characteristic) (bytes : List B) :
    Computes (FpVarConvert.toConstraintField bytes : Gadget (List V)) fun vs =>
      toFieldElements P.characteristic (bytes.map UInt8Var.value) = .ok (vs.map FpVar.value) := by
  have hpacked := Absorb.toFieldElements_eq h (bytes.map UInt8Var.value)
  refine (LawfulFpVarConvert.toConstraintField_mirrors bytes _ hpacked).mono fun vs hvs => ?_
  rw [hvs]
  exact hpacked

omit [FpVar P.characteristic V] [UInt8Var B] [FpVarConvert P.characteristic B V]
  [LawfulFpVarConvert P.characteristic B V] in
/-- One byte is packed into the element that it is cast to. -/
theorem toFieldElements_singleton (h : 0 < maxSize P.characteristic) (byte : UInt8) :
    toFieldElements P.characteristic [byte] = .ok [(byte.toNat : ZMod P.characteristic)] := by
  rw [Absorb.toFieldElements_eq h, Absorb.packed, chunks_of_lt (List.cons_ne_nil _ _) h, List.map_singleton,
    fromLeBytesModOrder_singleton]

/-- The bytes of a value can be packed, or there are none. -/
def Packable (A : NestedType) (x : (A.absorbType P).Value) : Prop :=
  0 < maxSize P.characteristic ∨ A.singleByte x = false ∧ A.byteList x = false

omit [FpVar P.characteristic V] [UInt8Var B] [FpVarConvert P.characteristic B V]
  [LawfulFpVarConvert P.characteristic B V] in
theorem packable_vec {A : NestedType} (hA : A ≠ u8) {xs : List (A.absorbType P).Value} :
    (vec A).Packable xs ↔ ∀ x ∈ xs, A.Packable x := by
  by_cases h : 0 < maxSize P.characteristic
  · exact iff_of_true (.inl h) fun _ _ => .inl h
  · simp only [Packable, h, false_or, singleByte_vec hA, byteList_vec hA, List.any_eq_false, Bool.not_eq_true]
    exact forall₂_and.symm

/-- The field elements of a variable have the values of those of its value. -/
abbrev EncodesValue (A : NestedType) (v : A.Var B V) : Prop :=
  Computes (A.gadget.toSpongeFieldElements v) fun vs =>
    A.toSpongeFieldElements (P := P) (A.value v) = .ok (vs.map FpVar.value)

theorem encodesValue_u8 (h : 0 < maxSize P.characteristic) (b : B) : u8.EncodesValue (P := P) (V := V) b :=
  (toConstraintField_computes h [b]).mono fun _ hvs => (toFieldElements_singleton h (UInt8Var.value b)).symm.trans hvs

theorem encodesValue_bytes (h : 0 < maxSize P.characteristic) (batch : List B) :
    (vec u8).EncodesValue (P := P) (V := V) batch := by
  have hpacked := toConstraintField_computes h ((toLeBytes 8 batch.length).map UInt8Var.constant ++ batch) (V := V)
  refine hpacked.mono fun vs hvs => ?_
  rw [map_constant_append V] at hvs
  refine (toSpongeFieldElements_bytes (batch.map UInt8Var.value)).trans ?_
  rw [List.length_map]
  exact hvs

theorem encodesValue_bool (b : Boolean) : bool.EncodesValue (P := P) (B := B) (V := V) b :=
  .pure (congrArg (fun x => Except.ok [x]) (LawfulFpVarConvert.value_fromBoolean b).symm)

theorem encodesValue_none (A : NestedType) : (option A).EncodesValue (P := P) (B := B) (V := V) none :=
  .pure (congrArg (fun x => Except.ok [x]) (LawfulFpVarConvert.value_fromBoolean (.constant false)).symm)

theorem EncodesValue.some {A : NestedType} {v : A.Var B V} (h : A.EncodesValue (P := P) v) :
    (option A).EncodesValue (P := P) (some v) := by
  have htrue : FpVar.value (FpVarConvert.fromBoolean (.constant true) : V) = 1 := LawfulFpVarConvert.value_fromBoolean _
  refine h.bind fun vs hvs => .pure ?_
  refine (toSpongeFieldElements_some (A.value v)).trans ?_
  rw [hvs]
  exact congrArg (fun y => Except.ok (y :: vs.map FpVar.value)) htrue.symm

variable [Fact P.characteristic.Prime]

omit [LawfulFpVarConvert P.characteristic B V] in
theorem encodesValue_fp (v : V) : fp.EncodesValue (P := P) (B := B) v :=
  .pure (toSpongeFieldElements_fp (FpVar.value v))

omit [LawfulFpVarConvert P.characteristic B V] in
theorem EncodesValue.vec {A : NestedType} (hA : A ≠ u8) {vs : List (A.Var B V)}
    (h : ∀ v ∈ vs, A.EncodesValue (P := P) v) : (vec A).EncodesValue (P := P) vs := by
  unfold EncodesValue
  rw [gadget_vec hA, map_eq_pure_bind]
  refine (Computes.mapM h).bind fun elements helements => .pure ?_
  refine (toSpongeFieldElements_vec hA (vs.map A.value)).trans ?_
  have hmapM : (vs.map A.value).mapM A.toSpongeFieldElements = .ok (elements.map (List.map FpVar.value)) := by
    rw [Except.mapM_eq_ok, List.forall₂_map_left_iff, List.forall₂_map_right_iff]
    exact helements
  rw [hmapM, List.map_flatten]
  rfl

/-- The field elements of a variable have the values of those of its value, where its bytes can be packed. -/
theorem encodesValue (A : NestedType) (v : A.Var B V) (h : A.Packable (P := P) (A.value v)) :
    A.EncodesValue (P := P) v := by
  induction A with
  | u8 => exact encodesValue_u8 (B := B) (h.resolve_right fun hv => Bool.false_ne_true hv.1.symm) v
  | bool => exact encodesValue_bool v
  | fp => exact encodesValue_fp (V := V) v
  | option A ih =>
    cases v with
    | none => exact encodesValue_none A
    | some v => exact (ih v h).some
  | vec A ih =>
    by_cases hA : A = u8
    · subst hA
      exact encodesValue_bytes (B := B) (h.resolve_right fun hv => Bool.false_ne_true hv.2.symm) v
    · exact .vec hA fun x hx => ih x ((packable_vec hA).mp h _ (List.mem_map_of_mem hx))

end

/-! ## Fields that are too small for a byte -/

section

variable {P : FpConfig} {B V : Type} [FpVar P.characteristic V] [UInt8Var B] [FpVarConvert P.characteristic B V]

theorem toFieldElements_of_maxSize (h : maxSize P.characteristic = 0) (bytes : List UInt8) :
    ∃ f, toFieldElements P.characteristic bytes = .error f := ⟨_, if_pos h⟩

theorem toConstraintField_rejects [StrictFpVarConvert P.characteristic B V] (h : maxSize P.characteristic = 0)
    (bytes : List B) : Rejects (FpVarConvert.toConstraintField bytes : Gadget (List V)) := by
  obtain ⟨f, hf⟩ := toFieldElements_of_maxSize (P := P) h (bytes.map UInt8Var.value)
  exact StrictFpVarConvert.toConstraintField_rejects bytes f hf

theorem gadget_vec_rejects [Fact P.characteristic.Prime] [LawfulFpVarConvert P.characteristic B V] {A : NestedType}
    (hA : A ≠ u8) {vs : List (A.Var B V)}
    (hvs : ∀ v ∈ vs, ¬ A.Packable (P := P) (A.value v) → Rejects (A.gadget.toSpongeFieldElements v))
    (h : ¬ (vec A).Packable (P := P) (vs.map A.value)) : Rejects ((vec A).gadget.toSpongeFieldElements vs) := by
  rw [gadget_vec hA, map_eq_pure_bind]
  refine (Rejects.mapM (fun v hv => ?_) ?_).bind _
  · by_cases hp : A.Packable (P := P) (A.value v)
    · exact .inr ⟨_, encodesValue A v hp⟩
    · exact .inl (hvs v hv hp)
  · rw [packable_vec hA] at h
    push Not at h
    obtain ⟨x, hx, hp⟩ := h
    obtain ⟨v, hv, rfl⟩ := List.mem_map.mp hx
    exact ⟨v, hv, hvs v hv hp⟩

/-- Variables whose bytes cannot be packed have no field elements. -/
theorem gadget_rejects [Fact P.characteristic.Prime] [StrictFpVarConvert P.characteristic B V]
    (hP : maxSize P.characteristic = 0) (A : NestedType) (v : A.Var B V) (h : ¬ A.Packable (P := P) (A.value v)) :
    Rejects (A.gadget.toSpongeFieldElements v) := by
  induction A with
  | u8 => exact toConstraintField_rejects (B := B) hP [v]
  | bool => exact absurd (.inr ⟨rfl, rfl⟩) h
  | fp => exact absurd (.inr ⟨rfl, rfl⟩) h
  | option A ih =>
    cases v with
    | none => exact absurd (.inr ⟨rfl, rfl⟩) h
    | some v => exact (ih v h).bind _
  | vec A ih =>
    by_cases hA : A = u8
    · subst hA
      exact toConstraintField_rejects (B := B) hP _
    · exact gadget_vec_rejects hA (fun v _ => ih v) h

omit [FpVar P.characteristic V] [UInt8Var B] [FpVarConvert P.characteristic B V] in
theorem returns_vec_iff [Fact P.characteristic.Prime] {A : NestedType} (hA : A ≠ u8)
    {xs : List (A.absorbType P).Value}
    (h : ∀ x ∈ xs, (∃ elements, A.toSpongeFieldElements x = .ok elements) ↔ A.byteList x = false) :
    (∃ elements, (vec A).toSpongeFieldElements (P := P) xs = .ok elements) ↔ (vec A).byteList (P := P) xs = false := by
  rw [toSpongeFieldElements_vec hA, Except.exists_map_eq_ok, Except.exists_mapM_eq_ok, byteList_vec hA,
    List.any_eq_false]
  refine forall₂_congr fun x hx => ?_
  rw [h x hx, Bool.not_eq_true]

omit [FpVar P.characteristic V] [UInt8Var B] [FpVarConvert P.characteristic B V] in
/-- Values are turned into field elements there if they have no list of bytes. -/
theorem returns_iff [Fact P.characteristic.Prime] (hP : maxSize P.characteristic = 0) (A : NestedType)
    (x : (A.absorbType P).Value) : (∃ elements, A.toSpongeFieldElements x = .ok elements) ↔ A.byteList x = false := by
  induction A with
  | u8 => exact iff_of_true ⟨_, rfl⟩ rfl
  | bool => exact iff_of_true ⟨_, rfl⟩ rfl
  | fp => exact iff_of_true ⟨_, toSpongeFieldElements_fp x⟩ rfl
  | option A ih =>
    cases x with
    | none => exact iff_of_true ⟨_, rfl⟩ rfl
    | some x =>
      rw [toSpongeFieldElements_some, Except.exists_map_eq_ok, ih x]
      rfl
  | vec A ih =>
    by_cases hA : A = u8
    · subst hA
      refine iff_of_false (fun ⟨elements, h⟩ => ?_) fun h => Bool.false_ne_true h.symm
      obtain ⟨f, hf⟩ := toFieldElements_of_maxSize hP _
      exact nomatch hf.symm.trans ((toSpongeFieldElements_bytes x).symm.trans h)
    · exact returns_vec_iff hA fun y _ => ih y

/-- The gadget returns the elements that the native code returns, and none where that panics. -/
structure SameElements {p : Nat} {V : Type} [FpVar p V] (native : Outcome (List (ZMod p))) (gadget : Gadget (List V)) :
    Prop where
  value_eq (elements : List (ZMod p)) (h : native = .ok elements) :
    Computes gadget fun vs => vs.map FpVar.value = elements
  rejects (f : Fault) (h : native = .error f) : Rejects gadget

theorem EncodesValue.sameElements {A : NestedType} {v : A.Var B V} (h : A.EncodesValue (P := P) v) :
    SameElements (A.toSpongeFieldElements (P := P) (A.value v)) (A.gadget.toSpongeFieldElements v) where
  value_eq elements hn := h.mono fun vs hvs => Except.ok.inj (hvs.symm.trans hn)
  rejects f hn := by
    obtain ⟨vs, hvs, -⟩ := h.exists_and h
    exact nomatch hvs.symm.trans hn

theorem byte_fits_iff (p : Nat) : 9 ≤ modulusBitSize p ↔ 0 < maxSize p := by
  refine ⟨Absorb.maxSize_pos, fun h => ?_⟩
  rw [maxSize] at h
  omega

/-- For every prime field, type and variable of it: the gadget returns the field elements of the value, and panics where
the native code does, exactly when a byte fits into an element, or the value has a list of bytes, which both would pack,
or no byte that only the gadget would pack. -/
theorem sameElements_iff [Fact P.characteristic.Prime] [StrictFpVarConvert P.characteristic B V] (A : NestedType)
    (v : A.Var B V) :
    SameElements (A.toSpongeFieldElements (P := P) (A.value v)) (A.gadget.toSpongeFieldElements v) ↔
      9 ≤ modulusBitSize P.characteristic ∨ A.byteList (P := P) (A.value v) = true ∨
        A.singleByte (P := P) (A.value v) = false := by
  rw [byte_fits_iff]
  by_cases hP : 0 < maxSize P.characteristic
  · exact iff_of_true (encodesValue A v (.inl hP)).sameElements (.inl hP)
  have hreturns := returns_iff (P := P) (Nat.eq_zero_of_not_pos hP) A (A.value v)
  have hrejects := gadget_rejects (P := P) (Nat.eq_zero_of_not_pos hP) A v
  cases hlist : A.byteList (P := P) (A.value v) with
  | true =>
    rw [hlist] at hreturns
    refine iff_of_true ⟨fun elements hn => ?_, fun f _ => hrejects ?_⟩ (.inr (.inl rfl))
    · exact absurd (hreturns.mp ⟨elements, hn⟩) (by decide)
    · exact fun h => h.elim hP fun hv => Bool.false_ne_true (hv.2.symm.trans hlist)
  | false =>
    obtain ⟨elements, hn⟩ := hreturns.mpr hlist
    cases hsingle : A.singleByte (P := P) (A.value v) with
    | true =>
      refine iff_of_false (fun h => (h.value_eq elements hn).not_rejects (hrejects ?_)) (by simp [hP])
      exact fun h => h.elim hP fun hv => Bool.false_ne_true (hv.1.symm.trans hsingle)
    | false => exact iff_of_true (encodesValue A v (.inr ⟨hsingle, hlist⟩)).sameElements (.inr (.inr rfl))

end

/-- The field of `p` elements, written in as few bytes as its elements take. -/
def ofPrime (p : Nat) : FpConfig := ⟨p, fun x => .ok (toLeBytes ((modulusBitSize p + 7) / 8) x.val)⟩

/-- A list of optional bytes, in the field that has room for one byte. -/
theorem sameElements_iff_options :
    SameElements ((vec (option u8)).toSpongeFieldElements (P := ofPrime 257) [some (1 : UInt8), none])
        ((vec (option u8)).gadget.toSpongeFieldElements
          [some (Assigned.var (1 : UInt8)), none] : Gadget (List (Assigned (ZMod 257)))) ↔
      9 ≤ modulusBitSize 257 ∨ false = true ∨ true = false := by
  have : Fact (Nat.Prime (ofPrime 257).characteristic) := ⟨by norm_num [ofPrime]⟩
  exact sameElements_iff (P := ofPrime 257) (vec (option u8)) [some (Assigned.var (1 : UInt8)), none]

/-- In the field of 7 elements the gadget of a byte panics, where the native code casts it. -/
theorem u8_not_sameElements : Nat.Prime 7 ∧
    u8.toSpongeFieldElements (P := ofPrime 7) (5 : UInt8) = .ok [5] ∧
    Rejects (u8.gadget.toSpongeFieldElements (Assigned.var (5 : UInt8)) : Gadget (List (Assigned (ZMod 7)))) ∧
    ¬ SameElements (u8.toSpongeFieldElements (P := ofPrime 7) (5 : UInt8))
      (u8.gadget.toSpongeFieldElements (Assigned.var (5 : UInt8)) : Gadget (List (Assigned (ZMod 7)))) := by
  have hnative : u8.toSpongeFieldElements (P := ofPrime 7) (5 : UInt8) = .ok [5] := rfl
  have hsize : maxSize (ofPrime 7).characteristic = 0 := by decide +kernel
  have hgadget : Rejects (u8.gadget.toSpongeFieldElements (Assigned.var (5 : UInt8)) :
      Gadget (List (Assigned (ZMod 7)))) :=
    toConstraintField_rejects (P := ofPrime 7) (B := Assigned UInt8) hsize [Assigned.var 5]
  exact ⟨by norm_num, hnative, hgadget, fun h => (h.value_eq _ hnative).not_rejects hgadget⟩

end NestedType

/-! ## The lists of the sponges -/

namespace AbsorbInput

open NestedType (vec)

/-- The type of the entries of a list. -/
def entryType {V B L : Type} : AbsorbInput V B L → NestedType
  | elements _ => .fp
  | bytes _ => .u8
  | booleans _ => .bool

section

variable {P : FpConfig}

/-- The list, as a nested value. -/
def toValue : (input : AbsorbInput (ZMod P.characteristic) UInt8 Bool) → ((vec input.entryType).absorbType P).Value
  | elements batch => batch
  | bytes batch => batch
  | booleans batch => batch

/-- What a sponge absorbs of a list are the field elements of the nested value. -/
theorem toSpongeFieldElements_toValue (input : AbsorbInput (ZMod P.characteristic) UInt8 Bool) :
    (vec input.entryType).toSpongeFieldElements (P := P) input.toValue = input.toSpongeFieldElements := by
  cases input with
  | elements batch => exact bind_pure _
  | bytes batch => exact NestedType.toSpongeFieldElements_bytes batch
  | booleans batch => exact foldlM_append_singleton _ batch []

variable {B V : Type} [FpVar P.characteristic V] [UInt8Var B] [FpVarConvert P.characteristic B V]

/-- The list of variables, as a nested variable. -/
def toVar : (input : AbsorbInput V B Boolean) → (vec input.entryType).Var B V
  | elements batch => batch
  | bytes batch => batch
  | booleans batch => batch

theorem toSpongeFieldElementsVar_toVar (input : AbsorbInput V B Boolean) :
    (vec input.entryType).gadget.toSpongeFieldElements input.toVar = input.toSpongeFieldElementsVar := by
  cases input with
  | elements batch => rfl
  | bytes batch => rfl
  | booleans batch => exact foldlM_append_singleton _ batch []

end

end AbsorbInput

end CryptoPrimitives.Sponge
