import CryptoPrimitives.Sponge.AbsorbInjective

/-!
# Derived implementations

`macros/src/lib.rs`: the derived `Absorb` of a struct absorbs its fields, one after another.

* `deriveAbsorb_injective`: the fields are determined by what the struct is turned into when those before the last one
  are delimited, and the struct is delimited when all are; so structs may be fields of structs.
-/

namespace CryptoPrimitives.Sponge

open PrimeField (modulusBitSize)

/-- A type with its implementation of `Absorb`, and the values of it that are considered. -/
structure Absorbable where
  Value : Type
  impl : AbsorbImpl Value
  Allocated : Value → Prop
  appending : impl.Appending

namespace Absorbable

/-- `to_sponge_bytes` of a value of the type writes these bytes. -/
def BytesCode (A : Absorbable) (x : A.Value) (bytes : List UInt8) : Prop :=
  A.Allocated x ∧ A.impl.toSpongeBytes x [] = .ok bytes

/-- `to_sponge_field_elements` of a value of the type writes these elements. -/
def ElementsCode (p : Nat) (A : Absorbable) (x : A.Value) (elements : List (ZMod p)) : Prop :=
  A.Allocated x ∧ A.impl.toSpongeFieldElements p x [] = .ok elements

end Absorbable

/-- The types of the library. -/
def AbsorbType.absorbable (A : AbsorbType) : Absorbable := ⟨A.Value, A.impl, A.Allocated, A.appends⟩

/-- The methods that are derived for a struct without fields. -/
def AbsorbImpl.deriveNil : AbsorbImpl Unit where
  toSpongeBytes _ dest := pure dest
  toSpongeFieldElements _ _ dest := pure dest

/-- The methods that are derived for a struct with a field in front of others. -/
def AbsorbImpl.deriveCons {A B : Type} (I : AbsorbImpl A) (J : AbsorbImpl B) : AbsorbImpl (A × B) where
  toSpongeBytes self dest := do
    let dest ← I.toSpongeBytes self.1 dest
    J.toSpongeBytes self.2 dest
  toSpongeFieldElements p self dest := do
    let dest ← I.toSpongeFieldElements p self.1 dest
    J.toSpongeFieldElements p self.2 dest

theorem AbsorbImpl.deriveNil_appending : deriveNil.Appending :=
  .of_default (fun _ dest => congrArg Except.ok (List.append_nil dest).symm)
    fun _ _ dest => congrArg Except.ok (List.append_nil dest).symm

theorem AbsorbImpl.Appending.deriveCons {A B : Type} {I : AbsorbImpl A} {J : AbsorbImpl B} (hI : I.Appending)
    (hJ : J.Appending) : (I.deriveCons J).Appending :=
  .of_default (fun self => (hI.bytes self.1).bind (hJ.bytes self.2))
    fun p self => (hI.fieldElements p self.1).bind (hJ.fieldElements p self.2)

/-- `derive_absorb`, for a struct with these fields. -/
def deriveAbsorb : List Absorbable → Absorbable
  | [] => ⟨Unit, .deriveNil, fun _ => True, AbsorbImpl.deriveNil_appending⟩
  | A :: fields => {
      Value := A.Value × (deriveAbsorb fields).Value
      impl := A.impl.deriveCons (deriveAbsorb fields).impl
      Allocated := fun x => A.Allocated x.1 ∧ (deriveAbsorb fields).Allocated x.2
      appending := A.appending.deriveCons (deriveAbsorb fields).appending }

/-! ## Codes of structs -/

/-- What a sequence writes whose second part appends. -/
theorem bind_eq_ok_of_appends {β : Type} {x : Outcome (List β)} {g : List β → Outcome (List β)} (hg : Appends g)
    {l : List β} : (x >>= g) = .ok l ↔ ∃ m n, x = .ok m ∧ g [] = .ok n ∧ l = m ++ n := by
  rw [Except.bind_eq_ok]
  constructor
  · rintro ⟨m, hm, hn⟩
    rw [hg m, Except.map_eq_ok] at hn
    obtain ⟨n, hn, rfl⟩ := hn
    exact ⟨m, n, hm, hn, rfl⟩
  · rintro ⟨m, n, hm, hn, rfl⟩
    exact ⟨m, hm, by rw [hg m, hn]; rfl⟩

theorem bytesCode_deriveNil : (deriveAbsorb []).BytesCode = fun _ l => l = [] := by
  funext x l
  refine propext ((and_iff_right trivial).trans ?_)
  exact ⟨fun h => (Except.ok.inj h).symm, fun h => congrArg Except.ok h.symm⟩

theorem elementsCode_deriveNil (p : Nat) : (deriveAbsorb []).ElementsCode p = fun _ l => l = [] := by
  funext x l
  refine propext ((and_iff_right trivial).trans ?_)
  exact ⟨fun h => (Except.ok.inj h).symm, fun h => congrArg Except.ok h.symm⟩

theorem bytesCode_deriveCons (A : Absorbable) (fields : List Absorbable) :
    (deriveAbsorb (A :: fields)).BytesCode = Code.prod A.BytesCode (deriveAbsorb fields).BytesCode := by
  funext x l
  refine propext ((and_congr_right' (bind_eq_ok_of_appends ((deriveAbsorb fields).appending.bytes x.2))).trans ?_)
  constructor
  · rintro ⟨⟨hx, hy⟩, m, n, hm, hn, hl⟩
    exact ⟨m, n, ⟨hx, hm⟩, ⟨hy, hn⟩, hl⟩
  · rintro ⟨m, n, ⟨hx, hm⟩, ⟨hy, hn⟩, hl⟩
    exact ⟨⟨hx, hy⟩, m, n, hm, hn, hl⟩

theorem elementsCode_deriveCons (p : Nat) (A : Absorbable) (fields : List Absorbable) :
    (deriveAbsorb (A :: fields)).ElementsCode p =
      Code.prod (A.ElementsCode p) ((deriveAbsorb fields).ElementsCode p) := by
  funext x l
  refine propext ((and_congr_right' (bind_eq_ok_of_appends
    ((deriveAbsorb fields).appending.fieldElements p x.2))).trans ?_)
  constructor
  · rintro ⟨⟨hx, hy⟩, m, n, hm, hn, hl⟩
    exact ⟨m, n, ⟨hx, hm⟩, ⟨hy, hn⟩, hl⟩
  · rintro ⟨m, n, ⟨hx, hm⟩, ⟨hy, hn⟩, hl⟩
    exact ⟨⟨hx, hy⟩, m, n, hm, hn, hl⟩

/-- Fields that are delimited, in front of one that is determined by its code. -/
theorem derive_code {β : Type} {code : (A : Absorbable) → A.Value → List β → Prop}
    (hnil : code (deriveAbsorb []) = fun _ l => l = [])
    (hcons : ∀ A fields, code (deriveAbsorb (A :: fields)) = Code.prod (code A) (code (deriveAbsorb fields)))
    {fields : List Absorbable} {last : Absorbable} (h : ∀ A ∈ fields, Code.Delimited (code A)) :
    (Code.Injective (code last) → Code.Injective (code (deriveAbsorb (fields ++ [last])))) ∧
      (Code.Delimited (code last) → Code.Delimited (code (deriveAbsorb (fields ++ [last])))) := by
  induction fields with
  | nil =>
    rw [List.nil_append, hcons, hnil]
    exact ⟨fun hlast => hlast.prod_nil, fun hlast => hlast.prod_nil⟩
  | cons A fields ih =>
    obtain ⟨hA, hfields⟩ := List.forall_mem_cons.mp h
    rw [List.cons_append, hcons]
    exact ⟨fun hlast => hA.prod_injective ((ih hfields).1 hlast), fun hlast => hA.prod ((ih hfields).2 hlast)⟩

/-- For every struct, also with structs as fields, whose fields before the last one are delimited: the fields are
determined by the bytes that the struct is turned into when the last one is determined by its own, and the struct is
delimited when the last one is; so it is with field elements. -/
theorem deriveAbsorb_injective (fields : List Absorbable) (last : Absorbable) :
    ((∀ A ∈ fields, Code.Delimited A.BytesCode) →
      (Code.Injective last.BytesCode → Code.Injective (deriveAbsorb (fields ++ [last])).BytesCode) ∧
        (Code.Delimited last.BytesCode → Code.Delimited (deriveAbsorb (fields ++ [last])).BytesCode)) ∧
    ∀ p, (∀ A ∈ fields, Code.Delimited (A.ElementsCode p)) →
      (Code.Injective (last.ElementsCode p) → Code.Injective ((deriveAbsorb (fields ++ [last])).ElementsCode p)) ∧
        (Code.Delimited (last.ElementsCode p) → Code.Delimited ((deriveAbsorb (fields ++ [last])).ElementsCode p)) :=
  ⟨derive_code bytesCode_deriveNil bytesCode_deriveCons,
    fun p => derive_code (elementsCode_deriveNil p) (elementsCode_deriveCons p)⟩

namespace AbsorbType

variable {A : AbsorbType}

theorem absorbable_bytes (hA : A.ForallLeaves CanonicalBytes) :
    (A.delimited (fun _ => false) = true → Code.Delimited A.absorbable.BytesCode) ∧
      (A.unambiguous (fun _ => false) = true → Code.Injective A.absorbable.BytesCode) := by
  have hfits := forallLeaves_true A
  refine ⟨fun h => (bytesCoding_lawful.delimited hA hfits h).mono fun _ _ hx => hx.2, fun h => ?_⟩
  exact (bytesCoding_lawful.injective_iff hA).mpr ⟨h, hfits⟩ |>.mono fun _ _ hx => hx.2

theorem absorbable_elements {p : Nat} [Fact p.Prime] (h9 : 9 ≤ modulusBitSize p) (hA : A.ForallLeaves (CastTo p))
    (hfits : A.ForallLeaves (HasRoom p)) :
    (A.delimited isU8 = true → Code.Delimited (A.absorbable.ElementsCode p)) ∧
      (A.unambiguous isU8 = true → Code.Injective (A.absorbable.ElementsCode p)) :=
  ⟨fun h => (elementsCoding_lawful h9).delimited hA hfits h,
    fun h => ((elementsCoding_lawful h9).injective_iff hA).mpr ⟨h, hfits⟩⟩

end AbsorbType

/-- A struct of a string, a struct of a boolean and a number or bytes, and a list of booleans. -/
theorem deriveAbsorb_injective_nested :
    Code.Injective (deriveAbsorb ([AbsorbType.string.absorbable,
      deriveAbsorb ([AbsorbType.bool.absorbable] ++ [AbsorbType.u32.absorbable])] ++
        [(AbsorbType.vec .bool).absorbable])).BytesCode ∧
    Code.Injective ((deriveAbsorb ([AbsorbType.string.absorbable,
      deriveAbsorb ([AbsorbType.bool.absorbable] ++ [(AbsorbType.vec .u8).absorbable])] ++
        [(AbsorbType.vec .bool).absorbable])).ElementsCode 257) := by
  constructor
  · have hstring := (AbsorbType.absorbable_bytes (A := .string) trivial).1 rfl
    have hbool := (AbsorbType.absorbable_bytes (A := .bool) trivial).1 rfl
    have hnumber := (AbsorbType.absorbable_bytes (A := .u32) trivial).1 rfl
    have hlast := (AbsorbType.absorbable_bytes (A := .vec .bool) trivial).2 rfl
    have hinner := ((deriveAbsorb_injective [AbsorbType.bool.absorbable] AbsorbType.u32.absorbable).1
      (List.forall_mem_singleton.mpr hbool)).2 hnumber
    exact ((deriveAbsorb_injective _ _).1
      (List.forall_mem_cons.mpr ⟨hstring, List.forall_mem_singleton.mpr hinner⟩)).1 hlast
  · have : Fact (Nat.Prime 257) := ⟨by norm_num⟩
    have h9 : 9 ≤ modulusBitSize 257 := by decide +kernel
    have hstring := (AbsorbType.absorbable_elements h9 (A := .string) trivial (Nat.zero_le _)).1 rfl
    have hbool := (AbsorbType.absorbable_elements h9 (A := .bool) trivial (Nat.zero_le _)).1 rfl
    have hbytes := (AbsorbType.absorbable_elements h9 (A := .vec .u8) trivial (Nat.le_sub_one_of_lt h9)).1 rfl
    have hlast := (AbsorbType.absorbable_elements h9 (A := .vec .bool) trivial (Nat.zero_le _)).2 rfl
    have hinner := ((deriveAbsorb_injective [AbsorbType.bool.absorbable] (AbsorbType.vec .u8).absorbable).2 257
      (List.forall_mem_singleton.mpr hbool)).2 hbytes
    exact ((deriveAbsorb_injective _ _).2 257
      (List.forall_mem_cons.mpr ⟨hstring, List.forall_mem_singleton.mpr hinner⟩)).1 hlast

end CryptoPrimitives.Sponge
