import CryptoPrimitives.Sponge.EmulatedConstraints
import CryptoPrimitives.Sponge.RescueCalls

/-!
# Elements of another field from the Rescue sponge

`squeeze_field_elements_with_sizes` of `rescue/mod.rs`, and `squeeze_emulated_field_elements_with_sizes` of its gadget
with the constraints it emits.

* `squeezeBits_builds`: the bits that the gadget squeezes are bits, under whatever satisfies the constraints.
* `squeezeEmulated_builds`: and the elements are in normal form then, with the numbers of the native elements.
-/

namespace CryptoPrimitives.Sponge

open Circuit (Builds Extends Fixed Satisfies fixed_list)
open CircuitFpVar (eval)
open Digits (ofBits)
open InCircuit (NormalFormOf)
open PrimeField (modulusBitSize)

namespace RescueSponge

variable {p : Nat}

/-- `squeeze_native_field_elements_with_sizes`. -/
def squeezeNativeFieldElementsWithSizes (D : Duplex Outcome (ZMod p)) (self : DuplexSponge (ZMod p))
    (sizes : List FieldElementSize) : Outcome (List (ZMod p) × DuplexSponge (ZMod p)) :=
  if ∀ size ∈ sizes, size = .full then squeezeNativeFieldElements D self sizes.length
  else squeezeFieldElementsWithSizesDefaultImpl p (squeezeBits D) self sizes

/-- `RescueSponge::squeeze_field_elements_with_sizes`, for elements of the field of `q` elements. -/
def squeezeFieldElementsWithSizes (q : Nat) (D : Duplex Outcome (ZMod p)) (self : DuplexSponge (ZMod p))
    (sizes : List FieldElementSize) : Outcome (List (ZMod q) × DuplexSponge (ZMod p)) :=
  if p = q then do
    let (elements, self) ← squeezeNativeFieldElementsWithSizes D self sizes
    let buf ← unwrapOption (fieldCast q elements)
    pure (buf, self)
  else squeezeFieldElementsWithSizesDefaultImpl q (squeezeBits D) self sizes

end RescueSponge

section

variable {p q : Nat} {V : Type} [CircuitFpVar p V]

/-- Elements in normal form have the numbers of their windows. -/
theorem map_integer_of_normalFormOf {E : EmulatedFp p q} {ρ : Nat → ZMod p} {windows : List (List (BooleanVar V))}
    {elements : List (EmulatedFpVar p q V)} (h : List.Forall₂ (NormalFormOf E ρ) windows elements) :
    elements.map (fun element => (element.integer E ρ : ZMod q)) =
      windows.map fun window => elementOfBits q (window.map (BooleanVar.value ρ)) := by
  rw [map_eq_map_iff_forall₂]
  refine h.flip.imp fun element window hform => ?_
  obtain ⟨v, -, -, -, -, -, hinteger⟩ := hform
  rw [hinteger, elementOfBits_eq]

variable [CircuitFpVarBits p V]

/-- `squeeze_emulated_field_elements_with_sizes` of the gadget, for elements of the field of `q` elements. -/
def RescueSpongeVar.squeezeEmulatedFieldElementsWithSizes (E : EmulatedFp p q) (G : Duplex (CircuitGadget p) V)
    (self : DuplexSponge V) (sizes : List FieldElementSize) :
    CircuitGadget p ((List (EmulatedFpVar p q V) × List (List (BooleanVar V))) × DuplexSponge V) :=
  if sizes.length = 0 then pure (([], []), self)
  else do
    let total ← liftM (totalBits q sizes)
    let (bits, self) ← squeezeBits G self total
    let destBits ← liftM (bitsWindows q sizes bits)
    let destGadgets ← InCircuit.bitsLeToEmulated E destBits
    pure ((destGadgets, destBits), self)

namespace RescueSpongeVar

variable [LawfulCircuitFpVarBits p V] [Fact p.Prime] {D : Duplex Outcome (ZMod p)} {G : Duplex (CircuitGadget p) V}
  {w : List (ZMod p)} {self : DuplexSponge V}

/-- Every part of the bits of an element consists of bits. -/
theorem squeezeBits_isBit (hD : D.Total) (hr : 0 < D.rate) (hDG : DuplexRealizes D G) (hs : self.Ready D w) (n : Nat) :
    Builds w (squeezeBits G self n) (fun _ _ => True) fun ρ r => ∀ bit ∈ r.1, bit.IsBit ρ := by
  have hpos := PoseidonSponge.one_le_usableBits p
  have hslice (_ : ZMod p) : (slice (List.replicate (modulusBitSize p) True) 0 (modulusBitSize p - 1) : Outcome _) =
      .ok (List.replicate (modulusBitSize p - 1) True) := by
    rw [slice_of_le (Nat.zero_le _) (by rw [List.length_replicate]; exact Nat.sub_le _ 1), List.drop_zero, Nat.sub_zero,
      List.take_replicate, Nat.min_eq_left (Nat.sub_le _ 1)]
  have hnative (ρ : Nat → ZMod p) := RescueSponge.exists_squeeze hD hr (hs.valid ρ)
    ((n + (modulusBitSize p - 1) - 1) / (modulusBitSize p - 1))
  have hbits {ρ : Nat → ZMod p} {bits : List (BooleanVar V)} {x : ZMod p}
      (h : bits.map (BooleanVar.lc ρ) = elementBitsLe x) :
      bits.map (BooleanVar.IsBit ρ) = List.replicate (modulusBitSize p) True := by
    obtain ⟨hisbit, hvalues⟩ := BooleanVar.isBit_of_elementBitsLe h
    have hlen := congrArg List.length hvalues
    rw [List.length_map, List.length_map, List.length_range] at hlen
    rw [← hlen]
    exact List.map_eq_replicate_iff.mpr fun bit hbit => eq_true (hisbit bit hbit)
  -- the parts are taken of what each variable says of itself, and that is `True` of all bits of an element
  have hrealizes := squeezeParts_realizes hDG (g := CircuitFpVarBits.toBitsLe) (e := BooleanVar.IsBit)
    (f := fun _ => List.replicate (modulusBitSize p) True)
    (fun w v hv => (LawfulCircuitFpVarBits.toBitsLe_builds hv).mono (fun _ _ _ _ h => h) fun _ _ h => hbits h) hs.fixed
    ((n + (modulusBitSize p - 1) - 1) / (modulusBitSize p - 1)) (modulusBitSize p - 1) n
  rw [squeezeBits, numElements_bind hpos]
  refine (hrealizes fun ρ _ => ?_).mono (fun _ _ _ _ _ => trivial) fun ρ r h bit hbit => ?_
  · obtain ⟨⟨srcElements, self'⟩, hsqueeze⟩ := hnative ρ
    exact ⟨_, RescueSponge.squeezeParts_eq hsqueeze hslice n⟩
  · obtain ⟨⟨srcElements, self'⟩, hsqueeze⟩ := hnative ρ
    have hall : _ = r.1.map (BooleanVar.IsBit ρ) :=
      congrArg Prod.fst (Except.ok.inj ((RescueSponge.squeezeParts_eq hsqueeze hslice n).symm.trans h))
    have hmem : bit.IsBit ρ ∈ r.1.map (BooleanVar.IsBit ρ) := List.mem_map_of_mem hbit
    rw [← hall] at hmem
    obtain ⟨part, hpart, hmem⟩ := List.mem_flatten.mp (List.mem_of_mem_take hmem)
    obtain ⟨x, -, rfl⟩ := List.mem_map.mp hpart
    exact of_eq_true (List.eq_of_mem_replicate hmem)

/-- The bits are as many as asked for, and those of the native sponge. -/
theorem squeezeBits_builds (hD : D.Total) (hr : 0 < D.rate) (hDG : DuplexRealizes D G) (hs : self.Ready D w) (n : Nat) :
    Builds w (squeezeBits G self n)
      (fun w' r => r.2.Ready D w' ∧ r.1.length = n ∧ ∀ bit ∈ r.1, Fixed w' fun ρ => bit.value ρ)
      fun ρ r => (∀ bit ∈ r.1, bit.IsBit ρ) ∧ RescueSponge.squeezeBits D (self.map (eval ρ)) n =
        .ok (r.1.map (BooleanVar.value ρ), r.2.map (eval ρ)) := by
  have hnative (ρ : Nat → ZMod p) := RescueSponge.exists_squeezeBits hD hr (hs.valid ρ) n
  have hvalues := squeezeBits_realizes hDG hs.fixed n fun ρ _ => by
    obtain ⟨bits, self', h, -⟩ := hnative ρ
    exact ⟨_, h⟩
  refine ((squeezeBits_isBit hD hr hDG hs n).and hvalues).mono ?_ fun _ _ h => h
  rintro w' ⟨bits, self'⟩ - hS ⟨-, hfixed⟩
  obtain ⟨bits', self'', h, hlen, hvalid⟩ := hnative fun i => w'.getD i 0
  obtain ⟨rfl, rfl⟩ := Prod.mk.inj (Except.ok.inj (h.symm.trans (hS _ (Circuit.extends_getD w')).2))
  exact ⟨.of_valid hvalid (hfixed.map Prod.snd), (List.length_map _).symm.trans hlen,
    fixed_list.mp (hfixed.map Prod.fst)⟩

/-- Elements of windows of the squeezed bits, over a permutation of variables that realizes one of values. -/
theorem squeezeEmulated_of_duplex [LawfulCircuitFpVar p V] [Fact q.Prime] {E : EmulatedFp p q} (hE : E.Lawful)
    (hpq : p ≠ q) (hD : D.Total) (hr : 0 < D.rate) (hDG : DuplexRealizes D G) (hs : self.Ready D w)
    {sizes : List FieldElementSize} {ns : List Nat}
    (hsizes : List.Forall₂ (fun size n => size.numBits q = .ok n) sizes ns) (htwo : q = 2 → ∀ n ∈ ns, n ≤ 1) :
    Builds w (squeezeEmulatedFieldElementsWithSizes E G self sizes) (fun w' r => r.2.Ready D w') fun ρ r =>
      List.Forall₂ (NormalFormOf E ρ) r.1.2 r.1.1 ∧
        RescueSponge.squeezeFieldElementsWithSizes q D (self.map (eval ρ)) sizes =
          .ok (r.1.1.map fun element => (element.integer E ρ : ZMod q), r.2.map (eval ρ)) := by
  have hnative (ρ : Nat → ZMod p) : RescueSponge.squeezeFieldElementsWithSizes q D (self.map (eval ρ)) sizes =
      squeezeFieldElementsWithSizesDefaultImpl q (RescueSponge.squeezeBits D) (self.map (eval ρ)) sizes := if_neg hpq
  simp only [hnative]
  rw [squeezeEmulatedFieldElementsWithSizes]
  by_cases hne : sizes = []
  · subst hne
    exact .pure hs fun ρ => ⟨.nil, rfl⟩
  rw [if_neg fun h => hne (List.length_eq_zero_iff.mp h)]
  refine builds_liftM_bind (totalBits_eq hsizes) ?_
  refine (squeezeBits_builds hD hr hDG hs ns.sum).bind fun r w₁ _ hr hbits => ?_
  obtain ⟨bits, self'⟩ := r
  obtain ⟨hready, hlen, hfixed⟩ := hr
  refine builds_liftM_bind (bitsWindows_eq hsizes hlen.ge) ?_
  -- every bit of a window is one of those squeezed
  have hmem {bit : BooleanVar V} {window : List (BooleanVar V)} (hwindow : window ∈ ns.splitLengths bits)
      (hbit : bit ∈ window) : bit ∈ bits := by
    rw [← List.flatten_splitLengths bits ns hlen.le]
    exact List.mem_flatten.mpr ⟨window, hwindow, hbit⟩
  refine (InCircuit.bitsLeToEmulated_builds hE (List.length_mem_splitLengths bits ns _ (numBits_le_of_mem hsizes))
    (fun h2 => List.length_mem_splitLengths bits ns _ (htwo h2))
    (fun window hwindow bit hbit => hfixed bit (hmem hwindow hbit))
    fun ρ hρ window hwindow bit hbit => (hbits ρ hρ).1 bit (hmem hwindow hbit)).bind fun elements w₂ hw₂ _ _ => ?_
  refine .pure (hready.mono hw₂) fun ρ hforms hbits => ?_
  have hforms := hforms fun window hwindow bit hbit => hbits.1 bit (hmem hwindow hbit)
  refine ⟨hforms, ?_⟩
  rw [defaultImpl_eq hne hsizes hbits.2 ((List.length_map _).trans hlen), map_integer_of_normalFormOf hforms,
    splitLengths_map, List.map_map]
  rfl

/-- Over accepted parameters, for sizes of at most one bit each where the field has two elements: whatever satisfies the
constraints leaves elements in normal form, with the numbers of the elements that the native sponge squeezes, and the
sponge in the state of the native one. -/
theorem squeezeEmulated_builds [LawfulCircuitFpVar p V] [Fact q.Prime] {E : EmulatedFp p q} (hE : E.Lawful)
    (hpq : p ≠ q) {predicates : String → Option (ZMod p → ZMod p → Prop)} {rounds alpha alphaInv : Nat}
    {mds arc : List (List (ZMod p))} {rate capacity : Nat} {config : RescueConfig (ZMod p)}
    (h : RescueConfig.new rounds alpha alphaInv mds arc rate capacity = .ok config) (hr : 1 ≤ rate)
    (hinv : InverseExponents p alpha alphaInv)
    (hpredicate : ∀ holds, predicates RESCUE_PREDICATE = some holds → ∀ x y, holds x y ↔ y = x ^ 5)
    (hs : self.Ready config.duplex w) {sizes : List FieldElementSize} {ns : List Nat}
    (hsizes : List.Forall₂ (fun size n => size.numBits q = .ok n) sizes ns) (htwo : q = 2 → ∀ n ∈ ns, n ≤ 1) :
    Builds w (squeezeEmulatedFieldElementsWithSizes E (duplex predicates config) self sizes)
      (fun w' r => r.2.Ready config.duplex w') fun ρ r =>
        List.Forall₂ (NormalFormOf E ρ) r.1.2 r.1.1 ∧
          RescueSponge.squeezeFieldElementsWithSizes q config.duplex (self.map (eval ρ)) sizes =
            .ok (r.1.1.map fun element => (element.integer E ρ : ZMod q), r.2.map (eval ρ)) := by
  obtain ⟨rfl, haccepted⟩ := RescueConfig.new_eq_ok.mp h
  exact squeezeEmulated_of_duplex hE hpq (RescueConfig.duplex_total haccepted) hr
    (duplex_realizes ⟨hinv, hpredicate⟩ haccepted) hs hsizes htwo

end RescueSpongeVar

end

/-- Parameters over a field of 17 bits. -/
abbrev fermatConfig : RescueConfig (ZMod 65537) := degree5ConfigOf 65537 52429

open RescueSpongeVar in
/-- An element of two bits and one of a single bit, of the field of five elements. -/
theorem squeezeEmulated_builds_fermat :
    RescueConfig.new 1 5 52429 fermatConfig.mds fermatConfig.arc 1 1 = .ok fermatConfig ∧
      Builds [-1] (squeezeEmulatedFieldElementsWithSizes (.positional 65537 5 3 1) (duplex degree5 fermatConfig)
          mixedSponge [.full, .truncated 1])
        (fun w' r => r.2.Ready fermatConfig.duplex w') fun ρ r =>
          List.Forall₂ (NormalFormOf (.positional 65537 5 3 1) ρ) r.1.2 r.1.1 ∧
            RescueSponge.squeezeFieldElementsWithSizes 5 fermatConfig.duplex (mixedSponge.map (eval ρ))
                [.full, .truncated 1] =
              .ok (r.1.1.map fun element => (element.integer (.positional 65537 5 3 1) ρ : ZMod 5),
                r.2.map (eval ρ)) := by
  have hp : Fact (Nat.Prime 65537) := ⟨prime_65537⟩
  have hq : Fact (Nat.Prime 5) := ⟨by decide⟩
  have hE : (EmulatedFp.positional 65537 5 3 1).Lawful := EmulatedFp.positional_lawful (by decide +kernel) (by decide)
  have hnew := new_degree5ConfigOf 65537 52429
  have hinv : InverseExponents 65537 5 52429 := ⟨4, rfl⟩
  have hsizes : List.Forall₂ (fun size n => FieldElementSize.numBits 5 size = .ok n) [.full, .truncated 1] [2, 1] :=
    .cons rfl (.cons rfl .nil)
  have hs : mixedSponge.Ready fermatConfig.duplex [-1] := ⟨rfl, le_rfl, mixedSponge_fixed _⟩
  exact ⟨hnew, squeezeEmulated_builds hE (by decide) hnew le_rfl hinv (fun _ => degree5_holds) hs hsizes (by decide)⟩

end CryptoPrimitives.Sponge
