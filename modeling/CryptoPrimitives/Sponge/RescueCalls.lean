import CryptoPrimitives.Framework.CircuitRun
import CryptoPrimitives.Gadget.ByteVar
import CryptoPrimitives.Sponge.PoseidonRuns
import CryptoPrimitives.Sponge.RescueRuns

/-!
# The calls of the Rescue sponge

`squeeze_bytes`, `squeeze_bits` and `fork` of `rescue/mod.rs` and `rescue/constraints.rs`, beside `absorb` and the
squeezes of elements.

* `squeezeBits_realizes`, `squeezeBytes_realizes`, `fork_realizes`: in a constraint system they realize the native ones.
* `RescueSpongeVar.calls_sound_complete`: what satisfies the constraints of a run of all these calls gives the native
  run, and the values assigned on the way satisfy them.
-/

namespace CryptoPrimitives.Sponge

open Circuit (Builds Extends Fixed Means Realizes Satisfies fixed_list)
open CircuitFpVar (eval)
open PrimeField (modulusBitSize toBitsLe toBytesLe)

namespace RescueSponge

variable {p : Nat}

/-- `RescueSponge::squeeze_bytes`. -/
def squeezeBytes (D : Duplex Outcome (ZMod p)) (self : DuplexSponge (ZMod p)) (numBytes : Nat) :
    Outcome (List UInt8 × DuplexSponge (ZMod p)) := do
  let usableBytes := (modulusBitSize p - 1) / 8
  let numElements ← usizeDivCeil numBytes usableBytes
  let (srcElements, self) ← squeezeNativeFieldElements D self numElements
  let bytes ← srcElements.mapM fun elem => slice (toBytesLe elem) 0 usableBytes
  pure (bytes.flatten.take numBytes, self)

/-- `RescueSponge::squeeze_bits`. -/
def squeezeBits (D : Duplex Outcome (ZMod p)) (self : DuplexSponge (ZMod p)) (numBits : Nat) :
    Outcome (List Bool × DuplexSponge (ZMod p)) := do
  let usableBits := modulusBitSize p - 1
  let numElements ← usizeDivCeil numBits usableBits
  let (srcElements, self) ← squeezeNativeFieldElements D self numElements
  let bits ← srcElements.mapM fun elem => slice (toBitsLe elem) 0 usableBits
  pure (bits.flatten.take numBits, self)

/-- `CryptographicSponge::fork`. -/
def fork (D : Duplex Outcome (ZMod p)) (self : DuplexSponge (ZMod p)) (domain : List UInt8) :
    Outcome (DuplexSponge (ZMod p)) := do
  let elems ← Absorb.forkElements p domain
  absorb D self elems

end RescueSponge

namespace RescueSpongeVar

variable {p : Nat} {B V : Type} [CircuitFpVar p V]

/-- `RescueSpongeVar::squeeze_bytes`. -/
def squeezeBytes [CircuitFpVarBytes p B V] (G : Duplex (CircuitGadget p) V) (self : DuplexSponge V) (numBytes : Nat) :
    CircuitGadget p (List B × DuplexSponge V) := do
  let usableBytes := (modulusBitSize p - 1) / 8
  let bound ← liftM (usizeSub (numBytes + usableBytes) 1 : Outcome Nat)
  let numElements ← liftM (usizeDiv bound usableBytes : Outcome Nat)
  let (srcElements, self) ← squeezeFieldElements G self numElements
  let bytes ← srcElements.mapM fun elem => do
    let bytes ← CircuitFpVarBytes.toBytesLe elem
    liftM (slice bytes 0 usableBytes : Outcome (List B))
  pure (bytes.flatten.take numBytes, self)

/-- `RescueSpongeVar::squeeze_bits`. -/
def squeezeBits [CircuitFpVarBits p V] (G : Duplex (CircuitGadget p) V) (self : DuplexSponge V) (numBits : Nat) :
    CircuitGadget p (List (BooleanVar V) × DuplexSponge V) := do
  let usableBits := modulusBitSize p - 1
  let bound ← liftM (usizeSub (numBits + usableBits) 1 : Outcome Nat)
  let numElements ← liftM (usizeDiv bound usableBits : Outcome Nat)
  let (srcElements, self) ← squeezeFieldElements G self numElements
  let bits ← srcElements.mapM fun elem => do
    let bits ← CircuitFpVarBits.toBitsLe elem
    liftM (slice bits 0 usableBits : Outcome (List (BooleanVar V)))
  pure (bits.flatten.take numBits, self)

/-- `CryptographicSpongeVar::fork`. -/
def fork [CircuitConstant p V] (G : Duplex (CircuitGadget p) V) (self : DuplexSponge V) (domain : List UInt8) :
    CircuitGadget p (DuplexSponge V) := do
  let elems ← liftM (Absorb.forkElements p domain)
  absorb G self (elems.map CircuitConstant.constant)

end RescueSpongeVar

/-! ## Parts of elements -/

section

variable {p : Nat} {V β α : Type} [CircuitFpVar p V] {D : Duplex Outcome (ZMod p)} {G : Duplex (CircuitGadget p) V}

/-- The number of elements of the gadgets, which the native sponge rounds up with `div_ceil`. -/
theorem numElements_bind {γ : Type} {a b : Nat} (hb : 0 < b) (k : Nat → CircuitGadget p γ) :
    (do
      let bound ← liftM (usizeSub (a + b) 1 : Outcome Nat)
      let numElements ← liftM (usizeDiv bound b : Outcome Nat)
      k numElements) = k ((a + b - 1) / b) := by
  have hdiv : (usizeDiv (a + b - 1) b : Outcome Nat) = .ok ((a + b - 1) / b) := if_neg hb.ne'
  rw [usizeSub_of_le (by omega)]
  show (liftM (usizeDiv (a + b - 1) b : Outcome Nat) >>= k) = _
  rw [hdiv]
  rfl

/-- Parts of what `g` makes of each element that is squeezed, `f x` of the element `x`. -/
theorem squeezeParts_realizes (hDG : DuplexRealizes D G) {g : V → CircuitGadget p (List β)} {f : ZMod p → List α}
    {e : (Nat → ZMod p) → β → α}
    (hg : ∀ w v, (Fixed w fun ρ => eval ρ v) →
      Builds w (g v) (fun _ _ => True) fun ρ ys => ys.map (e ρ) = f (eval ρ v))
    {w : List (ZMod p)} {self : DuplexSponge V} (hs : Fixed w fun ρ => self.map (eval ρ)) (numElements part n : Nat) :
    Realizes w (do
        let (srcElements, self) ← RescueSpongeVar.squeezeFieldElements G self numElements
        let parts ← srcElements.mapM fun elem => do
          let ys ← g elem
          liftM (slice ys 0 part : Outcome (List β))
        pure (parts.flatten.take n, self))
      (fun ρ => do
        let (srcElements, self) ← RescueSponge.squeezeNativeFieldElements D (self.map (eval ρ)) numElements
        let parts ← srcElements.mapM fun elem => (slice (f elem) 0 part : Outcome (List α))
        pure (parts.flatten.take n, self))
      fun ρ r => (r.1.map (e ρ), r.2.map (eval ρ)) := by
  have hpart (v : V) (w : List (ZMod p)) (hv : Fixed w fun ρ => eval ρ v) :
      Realizes w (g v >>= fun ys => liftM (slice ys 0 part : Outcome (List β)))
        (fun ρ => (slice (f (eval ρ v)) 0 part : Outcome (List α))) fun ρ ys => ys.map (e ρ) := by
    have hwhole : Realizes w (g v) (fun ρ => (.ok (f (eval ρ v)) : Outcome (List α))) fun ρ ys => ys.map (e ρ) := by
      refine Builds.realizes ((hg w v hv).mono (fun w' ys hw hys _ ρ ρ' hρ hρ' => ?_) fun _ _ h => h)
      exact (hys ρ hρ).trans (((hv.mono hw).map f ρ ρ' hρ hρ').trans (hys ρ' hρ').symm)
    exact hwhole.bind (h := fun _ xs => slice xs 0 part) fun ys w' _ hys => slice_realizes hys 0 part
  refine (squeezeFieldElements_realizes hDG hs numElements).bind (h := fun _ r => do
    let parts ← r.1.mapM fun elem => (slice (f elem) 0 part : Outcome (List α))
    pure (parts.flatten.take n, r.2)) fun r w₁ _ hr => ?_
  obtain ⟨srcElements, self⟩ := r
  have hmany : Realizes w₁ (srcElements.mapM fun elem => g elem >>= fun ys => liftM (slice ys 0 part : Outcome (List β)))
      (fun ρ => (srcElements.map (eval ρ)).mapM fun elem => (slice (f elem) 0 part : Outcome (List α)))
      fun ρ (parts : List (List β)) => parts.map (List.map (e ρ)) :=
    Realizes.mapM (fixed_list.mp (hr.map Prod.fst)) fun v _ w' _ hv => hpart v w' hv
  refine hmany.bind (h := fun ρ parts => pure (parts.flatten.take n, self.map (eval ρ))) fun parts w₂ hw₂ hparts => ?_
  have hflat (ρ : Nat → ZMod p) :
      (parts.flatten.take n).map (e ρ) = (parts.map (List.map (e ρ))).flatten.take n := by
    rw [List.map_take, List.map_flatten]
  refine .pure ?_ fun ρ => by rw [hflat]; rfl
  simp only [hflat]
  exact hparts.map₂ ((hr.mono hw₂).map Prod.snd) fun parts self => (parts.flatten.take n, self)

/-! ## Bits, bytes and forks -/

theorem squeezeBytes_realizes {B : Type} [CircuitUInt8 p B] [CircuitFpVarBytes p B V] [LawfulCircuitFpVarBytes p B V]
    (hDG : DuplexRealizes D G) (h9 : 9 ≤ modulusBitSize p) {w : List (ZMod p)} {self : DuplexSponge V}
    (hs : Fixed w fun ρ => self.map (eval ρ)) (n : Nat) :
    Realizes w (RescueSpongeVar.squeezeBytes G self n)
      (fun ρ => RescueSponge.squeezeBytes D (self.map (eval ρ)) n)
      fun ρ r => (r.1.map (CircuitUInt8.value ρ), r.2.map (eval ρ)) := by
  have hpos : 0 < (modulusBitSize p - 1) / 8 := Absorb.maxSize_pos h9
  simp only [RescueSponge.squeezeBytes, usizeDivCeil_eq hpos, Except.ok_bind]
  rw [RescueSpongeVar.squeezeBytes, numElements_bind hpos]
  exact squeezeParts_realizes hDG (fun w v hv => LawfulCircuitFpVarBytes.toBytesLe_builds hv) hs _ _ n

theorem squeezeBits_realizes [Fact p.Prime] [CircuitFpVarBits p V] [LawfulCircuitFpVarBits p V]
    (hDG : DuplexRealizes D G) {w : List (ZMod p)} {self : DuplexSponge V} (hs : Fixed w fun ρ => self.map (eval ρ))
    (n : Nat) :
    Realizes w (RescueSpongeVar.squeezeBits G self n)
      (fun ρ => RescueSponge.squeezeBits D (self.map (eval ρ)) n)
      fun ρ r => (r.1.map (BooleanVar.value ρ), r.2.map (eval ρ)) := by
  have hpos : 0 < modulusBitSize p - 1 := PoseidonSponge.one_le_usableBits p
  have hslice (x : ZMod p) : (slice (toBitsLe x) 0 (modulusBitSize p - 1) : Outcome (List Bool)) =
      slice ((List.range (modulusBitSize p)).map x.val.testBit) 0 (modulusBitSize p - 1) := by
    have hle : modulusBitSize p - 1 ≤ ((List.range (modulusBitSize p)).map x.val.testBit).length := by
      rw [List.length_map, List.length_range]
      exact Nat.sub_le _ 1
    rw [PoseidonSponge.slice_toBitsLe, slice_of_le (Nat.zero_le _) hle, List.drop_zero, Nat.sub_zero, ← List.map_take,
      List.take_range, Nat.min_eq_left (Nat.sub_le _ 1)]
    rfl
  simp only [RescueSponge.squeezeBits, usizeDivCeil_eq hpos, Except.ok_bind, hslice]
  rw [RescueSpongeVar.squeezeBits, numElements_bind hpos]
  refine squeezeParts_realizes hDG (fun w v hv => ?_) hs _ _ n
  exact (LawfulCircuitFpVarBits.toBitsLe_builds hv).mono (fun _ _ _ _ h => h) fun ρ bits h =>
    (BooleanVar.isBit_of_elementBitsLe h).2

/-- The elements of a domain, computed natively, become constants. -/
theorem fork_realizes [LawfulCircuitFpVar p V] [CircuitConstant p V] [LawfulCircuitConstant p V]
    (hDG : DuplexRealizes D G) {w : List (ZMod p)} {self : DuplexSponge V} (hs : Fixed w fun ρ => self.map (eval ρ))
    (domain : List UInt8) :
    Realizes w (RescueSpongeVar.fork G self domain) (fun ρ => RescueSponge.fork D (self.map (eval ρ)) domain)
      fun ρ s => s.map (eval ρ) := by
  refine (realizes_self w (Absorb.forkElements p domain)).bind
    (h := fun ρ elems => RescueSponge.absorb D (self.map (eval ρ)) elems) fun elems w₁ hw₁ _ => ?_
  have hvalues (ρ : Nat → ZMod p) : (elems.map (CircuitConstant.constant : ZMod p → V)).map (eval ρ) = elems :=
    Function.LeftInverse.list_map (LawfulCircuitConstant.eval_constant ρ) elems
  have he : Fixed w₁ fun ρ => (elems.map (CircuitConstant.constant : ZMod p → V)).map (eval ρ) := by
    simp only [hvalues]
    exact Circuit.fixed_const w₁ elems
  exact (absorb_realizes hDG (hs.mono hw₁) he).congr fun ρ => by rw [hvalues]

end

/-! ## Calls -/

/-- A call on a sponge with entries of `V`. After `fork` the calls go on with the new sponge. -/
inductive CryptographicSpongeCall (V : Type) where
  | absorb (input : List V)
  | squeezeFieldElements (numElements : Nat)
  | squeezeBytes (numBytes : Nat)
  | squeezeBits (numBits : Nat)
  | fork (domain : List UInt8)

section

variable {p : Nat} {B V : Type} [CircuitFpVar p V]

namespace CryptographicSpongeCall

/-- The call on the values of its variables. -/
def values (ρ : Nat → ZMod p) : CryptographicSpongeCall V → CryptographicSpongeCall (ZMod p)
  | absorb input => .absorb (input.map (eval ρ))
  | squeezeFieldElements numElements => .squeezeFieldElements numElements
  | squeezeBytes numBytes => .squeezeBytes numBytes
  | squeezeBits numBits => .squeezeBits numBits
  | fork domain => .fork domain

/-- What the call reads has values assigned, and it uses bytes only where a field element has room for one. -/
def Admissible (w : List (ZMod p)) : CryptographicSpongeCall V → Prop
  | absorb input => Fixed w fun ρ => input.map (eval ρ)
  | squeezeFieldElements _ => True
  | squeezeBytes _ => 9 ≤ modulusBitSize p
  | squeezeBits _ => True
  | fork _ => 9 ≤ modulusBitSize p

theorem Admissible.mono {w w' : List (ZMod p)} (hw : w <+: w') {c : CryptographicSpongeCall V} (h : c.Admissible w) :
    c.Admissible w' := by
  cases c with
  | absorb input => exact Fixed.mono hw h
  | squeezeFieldElements n => trivial
  | squeezeBytes n => exact h
  | squeezeBits n => trivial
  | fork domain => exact h

end CryptographicSpongeCall

/-- The values of what a call returns. -/
def SpongeOutput.values [CircuitUInt8 p B] (ρ : Nat → ZMod p) :
    SpongeOutput V B (BooleanVar V) → SpongeOutput (ZMod p) UInt8 Bool
  | unit => .unit
  | elements xs => .elements (xs.map (eval ρ))
  | bits xs => .bits (xs.map (BooleanVar.value ρ))
  | bytes xs => .bytes (xs.map (CircuitUInt8.value ρ))

/-- A call on the native sponge. -/
def RescueSponge.callAny (D : Duplex Outcome (ZMod p)) (self : DuplexSponge (ZMod p)) :
    CryptographicSpongeCall (ZMod p) → Outcome (SpongeOutput (ZMod p) UInt8 Bool × DuplexSponge (ZMod p))
  | .absorb input => do
    let self ← absorb D self input
    pure (.unit, self)
  | .squeezeFieldElements numElements => do
    let (elements, self) ← squeezeNativeFieldElements D self numElements
    pure (.elements elements, self)
  | .squeezeBytes numBytes => do
    let (bytes, self) ← squeezeBytes D self numBytes
    pure (.bytes bytes, self)
  | .squeezeBits numBits => do
    let (bits, self) ← squeezeBits D self numBits
    pure (.bits bits, self)
  | .fork domain => do
    let newSponge ← fork D self domain
    pure (.unit, newSponge)

variable {D : Duplex Outcome (ZMod p)} {G : Duplex (CircuitGadget p) V} {w : List (ZMod p)} {self : DuplexSponge V}

section

variable [CircuitUInt8 p B]

/-- What a call returns with the sponge after it, as one of the outputs. -/
theorem output_realizes {β α : Type} {g : CircuitGadget p (β × DuplexSponge V)}
    {f : (Nat → ZMod p) → Outcome (α × DuplexSponge (ZMod p))} {ev : (Nat → ZMod p) → β → α}
    (h : Realizes w g f fun ρ r => (ev ρ r.1, r.2.map (eval ρ))) {wrap : β → SpongeOutput V B (BooleanVar V)}
    {wrap' : α → SpongeOutput (ZMod p) UInt8 Bool} (hwrap : ∀ ρ x, (wrap x).values ρ = wrap' (ev ρ x)) :
    Realizes w (do
        let (x, self) ← g
        pure (wrap x, self))
      (fun ρ => do
        let (x, self) ← f ρ
        pure (wrap' x, self))
      fun ρ r => (r.1.values ρ, r.2.map (eval ρ)) := by
  refine h.bind (h := fun _ r => pure (wrap' r.1, r.2)) fun r w' _ hr => .pure ?_ fun ρ => by rw [hwrap]; rfl
  simp only [hwrap]
  exact hr.map fun r => (wrap' r.1, r.2)

/-- A call that returns the sponge alone. -/
theorem unit_realizes {g : CircuitGadget p (DuplexSponge V)} {f : (Nat → ZMod p) → Outcome (DuplexSponge (ZMod p))}
    (h : Realizes w g f fun ρ s => s.map (eval ρ)) :
    Realizes w (do
        let self ← g
        pure (SpongeOutput.unit, self))
      (fun ρ => do
        let self ← f ρ
        pure (SpongeOutput.unit, self))
      fun ρ (r : SpongeOutput V B (BooleanVar V) × DuplexSponge V) => (r.1.values ρ, r.2.map (eval ρ)) :=
  h.bind (h := fun _ self => pure (SpongeOutput.unit, self)) fun _ _ _ hs =>
    .pure (hs.map fun self => (SpongeOutput.unit, self)) fun _ => rfl

end

variable [CircuitFpVarBits p V] [CircuitFpVarBytes p B V] [CircuitConstant p V]

/-- A call on the sponge of a circuit. -/
def RescueSpongeVar.callAny (G : Duplex (CircuitGadget p) V) (self : DuplexSponge V) :
    CryptographicSpongeCall V → CircuitGadget p (SpongeOutput V B (BooleanVar V) × DuplexSponge V)
  | .absorb input => do
    let self ← absorb G self input
    pure (.unit, self)
  | .squeezeFieldElements numElements => do
    let (elements, self) ← squeezeFieldElements G self numElements
    pure (.elements elements, self)
  | .squeezeBytes numBytes => do
    let (bytes, self) ← squeezeBytes G self numBytes
    pure (.bytes bytes, self)
  | .squeezeBits numBits => do
    let (bits, self) ← squeezeBits G self numBits
    pure (.bits bits, self)
  | .fork domain => do
    let newSponge ← fork G self domain
    pure (.unit, newSponge)

variable [CircuitUInt8 p B] [LawfulCircuitFpVar p V] [LawfulCircuitFpVarBits p V] [LawfulCircuitFpVarBytes p B V]
  [LawfulCircuitConstant p V]

theorem RescueSpongeVar.callAny_realizes [Fact p.Prime] (hDG : DuplexRealizes D G)
    (hs : Fixed w fun ρ => self.map (eval ρ)) {c : CryptographicSpongeCall V} (hc : c.Admissible w) :
    Realizes w (callAny G self c) (fun ρ => RescueSponge.callAny D (self.map (eval ρ)) (c.values ρ))
      fun ρ (r : SpongeOutput V B (BooleanVar V) × DuplexSponge V) => (r.1.values ρ, r.2.map (eval ρ)) := by
  cases c with
  | absorb input => exact unit_realizes (absorb_realizes hDG hs hc)
  | squeezeFieldElements n => exact output_realizes (squeezeFieldElements_realizes hDG hs n) fun _ _ => rfl
  | squeezeBytes n => exact output_realizes (squeezeBytes_realizes hDG hc hs n) fun _ _ => rfl
  | squeezeBits n => exact output_realizes (squeezeBits_realizes hDG hs n) fun _ _ => rfl
  | fork domain => exact unit_realizes (fork_realizes hDG hs domain)

end

section

variable {p : Nat} {V : Type} [CircuitFpVar p V] {D : Duplex Outcome (ZMod p)} {self : DuplexSponge (ZMod p)}

namespace RescueSponge

/-- Parts of squeezed elements, none of which is too short. -/
theorem squeezeParts_eq {α : Type} {self' : DuplexSponge (ZMod p)} {srcElements : List (ZMod p)} {numElements : Nat}
    (h : squeezeNativeFieldElements D self numElements = .ok (srcElements, self')) {f g : ZMod p → List α} {part : Nat}
    (hslice : ∀ x, (slice (f x) 0 part : Outcome (List α)) = .ok (g x)) (n : Nat) :
    (do
      let (srcElements, self) ← squeezeNativeFieldElements D self numElements
      let parts ← srcElements.mapM fun elem => (slice (f elem) 0 part : Outcome (List α))
      pure (parts.flatten.take n, self)) = .ok ((srcElements.map g).flatten.take n, self') := by
  rw [h, Except.ok_bind]
  simp only [Except.mapM_eq_map fun x _ => hslice x, Except.ok_bind]
  rfl

theorem exists_squeezeBits [Fact p.Prime] (hD : D.Total) (hr : 0 < D.rate) (hs : self.Valid D) (n : Nat) :
    ∃ bits self', squeezeBits D self n = .ok (bits, self') ∧ bits.length = n ∧ self'.Valid D := by
  have hpos := PoseidonSponge.one_le_usableBits p
  obtain ⟨⟨srcElements, self'⟩, h⟩ := exists_squeeze hD hr hs
    ((n + (modulusBitSize p - 1) - 1) / (modulusBitSize p - 1))
  refine ⟨(srcElements.map PoseidonSponge.lowBits).flatten.take n, self', ?_, List.length_take_of_le ?_,
    squeeze_valid hD.keepsWidth hr hs h⟩
  · rw [squeezeBits, usizeDivCeil_eq hpos, Except.ok_bind]
    exact squeezeParts_eq h PoseidonSponge.slice_toBitsLe n
  · have hdiv := Nat.div_add_mod' (n + (modulusBitSize p - 1) - 1) (modulusBitSize p - 1)
    have hmod := Nat.mod_lt (n + (modulusBitSize p - 1) - 1) hpos
    rw [PoseidonSponge.length_flatten_lowBits, length_squeeze hD.keepsWidth hr hs h]
    omega

theorem exists_squeezeBytes (hD : D.Total) (hr : 0 < D.rate) (h9 : 9 ≤ modulusBitSize p) (hs : self.Valid D)
    (n : Nat) : ∃ bytes self', squeezeBytes D self n = .ok (bytes, self') ∧ self'.Valid D := by
  obtain ⟨⟨srcElements, self'⟩, h⟩ := exists_squeeze hD hr hs
    ((n + (modulusBitSize p - 1) / 8 - 1) / ((modulusBitSize p - 1) / 8))
  refine ⟨(srcElements.map fun x => (toBytesLe x).take ((modulusBitSize p - 1) / 8)).flatten.take n, self', ?_,
    squeeze_valid hD.keepsWidth hr hs h⟩
  rw [squeezeBytes, usizeDivCeil_eq (Absorb.maxSize_pos h9), Except.ok_bind]
  exact squeezeParts_eq h PoseidonSponge.slice_toBytesLe n

/-- An admissible call returns, and leaves a valid sponge. -/
theorem exists_callAny [Fact p.Prime] (hD : D.Total) (hr : 0 < D.rate) (hs : self.Valid D)
    {w : List (ZMod p)} {c : CryptographicSpongeCall V} (hc : c.Admissible w) (ρ : Nat → ZMod p) :
    ∃ r, callAny D self (c.values ρ) = .ok r ∧ r.2.Valid D := by
  cases c with
  | absorb input =>
    obtain ⟨self', h⟩ := exists_absorb hD hr hs (input.map (eval ρ))
    exact ⟨(.unit, self'), congrArg (· >>= _) h, absorb_valid hD.keepsWidth hr hs h⟩
  | squeezeFieldElements n =>
    obtain ⟨⟨elements, self'⟩, h⟩ := exists_squeeze hD hr hs n
    exact ⟨(.elements elements, self'), congrArg (· >>= _) h, squeeze_valid hD.keepsWidth hr hs h⟩
  | squeezeBytes n =>
    obtain ⟨bytes, self', h, hvalid⟩ := exists_squeezeBytes hD hr hc hs n
    exact ⟨(.bytes bytes, self'), congrArg (· >>= _) h, hvalid⟩
  | squeezeBits n =>
    obtain ⟨bits, self', h, -, hvalid⟩ := exists_squeezeBits hD hr hs n
    exact ⟨(.bits bits, self'), congrArg (· >>= _) h, hvalid⟩
  | fork domain =>
    obtain ⟨elems, helems⟩ : ∃ elems, Absorb.forkElements p domain = .ok elems :=
      ⟨_, Absorb.toFieldElements_eq (Absorb.maxSize_pos hc) _⟩
    obtain ⟨self', h⟩ := exists_absorb hD hr hs elems
    have hfork : fork D self domain = .ok self' := by rw [fork, helems, Except.ok_bind, h]
    exact ⟨(.unit, self'), congrArg (· >>= _) hfork, absorb_valid hD.keepsWidth hr hs h⟩

end RescueSponge

end

section

variable {p : Nat} {B V : Type} [CircuitFpVar p V] [CircuitFpVarBits p V] [CircuitUInt8 p B] [CircuitFpVarBytes p B V]
  [CircuitConstant p V] [LawfulCircuitFpVar p V] [LawfulCircuitFpVarBits p V] [LawfulCircuitFpVarBytes p B V]
  [LawfulCircuitConstant p V] {D : Duplex Outcome (ZMod p)} {G : Duplex (CircuitGadget p) V}

namespace RescueSpongeVar

/-- An admissible call leaves a sponge that is ready, and means the native call. -/
theorem callAny_means [Fact p.Prime] (hD : D.Total) (hr : 0 < D.rate) (hDG : DuplexRealizes D G) :
    Means (callAny G) CryptographicSpongeCall.Admissible (DuplexSponge.Ready D) (RescueSponge.callAny D)
      (fun ρ self => self.map (eval ρ)) CryptographicSpongeCall.values
      fun ρ (output : SpongeOutput V B (BooleanVar V)) => output.values ρ where
  admissible_mono := fun hw h => h.mono hw
  ready_mono := fun hw h => h.mono hw
  builds {w self c} hs hc := by
    have hok (ρ : Nat → ZMod p) := RescueSponge.exists_callAny hD hr (hs.valid ρ) hc ρ
    refine (callAny_realizes hDG hs.fixed hc fun ρ _ => (hok ρ).imp fun _ h => h.1).mono ?_ fun _ _ h => h
    intro w' r _ hcall hfixed
    obtain ⟨r', h, hvalid⟩ := hok fun i => w'.getD i 0
    have hr' := Except.ok.inj (h.symm.trans (hcall _ (Circuit.extends_getD w')))
    exact .of_valid (congrArg Prod.snd hr' ▸ hvalid) (hfixed.map Prod.snd)

/-- Accepted parameters with inverse exponents, and a predicate that means the power 5 where one is registered: from any
sponge with constant and allocated entries, whatever satisfies the constraints of a run of all calls gives the outputs
and the sponges of the native run, and the values assigned on the way satisfy them. The run can go on with any
admissible calls. -/
theorem calls_sound_complete [Fact p.Prime] {predicates : String → Option (ZMod p → ZMod p → Prop)}
    {rounds alpha alphaInv : Nat} {mds arc : List (List (ZMod p))} {rate capacity : Nat}
    {config : RescueConfig (ZMod p)}
    (h : RescueConfig.new rounds alpha alphaInv mds arc rate capacity = .ok config) (hr : 1 ≤ rate)
    (hinv : InverseExponents p alpha alphaInv)
    (hpredicate : ∀ holds, predicates RESCUE_PREDICATE = some holds → ∀ x y, holds x y ↔ y = x ^ 5)
    {w w' : List (ZMod p)} {self self' : DuplexSponge V} (hl : self.state.length = rate + capacity)
    (hi : self.mode.index ≤ rate) (hs : Fixed w fun ρ => self.map (eval ρ))
    {calls : List (CryptographicSpongeCall V)} {emitted : List (Constraint (ZMod p))}
    {results : List (SpongeOutput V B (BooleanVar V) × DuplexSponge V)}
    (hrun : Circuit.Run (callAny (duplex predicates config)) CryptographicSpongeCall.Admissible w self calls emitted
      results w' self') :
    (∀ ρ, Satisfies ρ emitted →
      trace (RescueSponge.callAny config.duplex) (self.map (eval ρ)) (calls.map (CryptographicSpongeCall.values ρ)) =
        .ok (results.map fun r => (r.1.values ρ, r.2.map (eval ρ)))) ∧
      (∀ ρ, Extends w' ρ → Satisfies ρ emitted) ∧
      ∀ further : List (CryptographicSpongeCall V), (∀ c ∈ further, c.Admissible w') →
        ∃ emitted' results' w'' self'', Circuit.Run (callAny (B := B) (duplex predicates config))
          CryptographicSpongeCall.Admissible w' self' further emitted' results' w'' self'' := by
  obtain ⟨rfl, haccepted⟩ := RescueConfig.new_eq_ok.mp h
  have hmeans := callAny_means (B := B) (RescueConfig.duplex_total haccepted) hr
    (duplex_realizes (V := V) ⟨hinv, hpredicate⟩ haccepted)
  obtain ⟨-, hready, hhonest, hsound⟩ := hrun.spec hmeans ⟨hl.trans (Nat.add_comm rate capacity), hi, hs⟩
  exact ⟨hsound, hhonest, fun further hfurther => Circuit.Run.exists_of_ready hmeans hready hfurther⟩

end RescueSpongeVar

end

/-- Parameters over a field whose elements have room for a byte. -/
abbrev byteDegree5Config : RescueConfig (ZMod 257) := degree5ConfigOf 257 205

/-- A run with each call, which goes on with the fork. -/
def byteSpongeCalls : List (CryptographicSpongeCall (LinearVar 257)) :=
  [.absorb [.var 1 [(-1, 0)], .constant (-1)], .squeezeBytes 2, .fork [7], .squeezeBits 10, .squeezeFieldElements 2]

open RescueSpongeVar in
theorem calls_sound_complete_bytes : ∃ emitted results w' self',
    Circuit.Run (callAny (B := ByteVar (LinearVar 257)) (duplex degree5 byteDegree5Config))
        CryptographicSpongeCall.Admissible [-1] mixedSponge byteSpongeCalls emitted results w' self' ∧
      (∀ ρ, Satisfies ρ emitted →
        trace (RescueSponge.callAny byteDegree5Config.duplex) (mixedSponge.map (LinearVar.eval ρ))
          (byteSpongeCalls.map (CryptographicSpongeCall.values ρ)) =
            .ok (results.map fun r => (r.1.values ρ, r.2.map (LinearVar.eval ρ)))) ∧
      ∀ ρ, Extends w' ρ → Satisfies ρ emitted := by
  have h257 : Fact (Nat.Prime 257) := ⟨by norm_num⟩
  have hbytes : 9 ≤ modulusBitSize 257 := by decide +kernel
  have hnew := new_degree5ConfigOf 257 205
  have hinv : InverseExponents 257 5 205 := ⟨4, rfl⟩
  have hs := mixedSponge_fixed (-1 : ZMod 257)
  have hcalls : ∀ c ∈ byteSpongeCalls, c.Admissible [-1] := by
    simp only [byteSpongeCalls, List.forall_mem_cons, List.not_mem_nil, false_implies, implies_true, and_true]
    refine ⟨fun ρ ρ' hρ hρ' => ?_, hbytes, hbytes, trivial, trivial⟩
    simp only [List.map_cons, List.map_nil, eval, LinearVar.eval, eq_of_extends_singleton hρ hρ']
  obtain ⟨-, -, hgo⟩ := calls_sound_complete hnew le_rfl hinv (fun _ => degree5_holds) rfl le_rfl hs .done
  obtain ⟨emitted, results, w', self', hrun⟩ := hgo byteSpongeCalls hcalls
  obtain ⟨hsound, hhonest, -⟩ := calls_sound_complete hnew le_rfl hinv (fun _ => degree5_holds) rfl le_rfl hs hrun
  exact ⟨emitted, results, w', self', hrun, hsound, hhonest⟩

end CryptoPrimitives.Sponge
