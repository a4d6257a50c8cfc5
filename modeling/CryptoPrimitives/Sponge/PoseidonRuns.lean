import CryptoPrimitives.Sponge.AbsorbGadget

/-!
# Runs of the Poseidon sponge in a circuit

`SpongeCall`: the calls on the sponges there are, of which `fork` adds one. `call` makes
one of them natively, and `PoseidonSpongeVar.call` in a circuit.

* `call_mirrors`: in a circuit a call returns variables with the native values, and
  leaves sponges with the native states and modes.
* `exists_trace`: the native run returns, for every sequence of calls on sponges there
  are.
* `trace_refines`: so every run in a circuit goes with the native run.
-/

namespace CryptoPrimitives.Sponge

open PrimeField (modulusBitSize toBytesLe)
open Synthesis (Computes Mirrors)

/-- A call on the sponge with the number `i`. -/
inductive SpongeCall (V B L : Type) where
  | absorb (i : Nat) (input : AbsorbInput V B L)
  | squeezeFieldElements (i numElements : Nat)
  | squeezeBits (i numBits : Nat)
  | squeezeBytes (i numBytes : Nat)
  | fork (i : Nat) (domain : List UInt8)

/-- What a call returns. -/
inductive SpongeOutput (V B L : Type) where
  | unit
  | elements (xs : List V)
  | bits (xs : List L)
  | bytes (xs : List B)

/-- A call on the native sponges. -/
def PoseidonSponge.call {p : Nat} (D : Duplex Outcome (ZMod p)) (sponges : List (DuplexSponge (ZMod p))) :
    SpongeCall (ZMod p) UInt8 Bool → Outcome (SpongeOutput (ZMod p) UInt8 Bool × List (DuplexSponge (ZMod p)))
  | .absorb i input => do
    let self ← index sponges i
    let elems ← input.toSpongeFieldElements
    let self ← absorb D self elems
    pure (.unit, sponges.set i self)
  | .squeezeFieldElements i numElements => do
    let self ← index sponges i
    let (elements, self) ← squeezeFieldElements p D self numElements
    pure (.elements elements, sponges.set i self)
  | .squeezeBits i numBits => do
    let self ← index sponges i
    let (bits, self) ← squeezeBits D self numBits
    pure (.bits bits, sponges.set i self)
  | .squeezeBytes i numBytes => do
    let self ← index sponges i
    let (bytes, self) ← squeezeBytes D self numBytes
    pure (.bytes bytes, sponges.set i self)
  | .fork i domain => do
    let self ← index sponges i
    let newSponge ← fork D self domain
    pure (.unit, sponges ++ [newSponge])

section

variable {p : Nat} {B V : Type} [FpVar p V] [UInt8Var B] [FpVarConvert p B V]

/-- A call on the sponges of a circuit. -/
def PoseidonSpongeVar.call (G : Duplex Gadget V) (sponges : List (DuplexSponge V)) :
    SpongeCall V B Boolean → Gadget (SpongeOutput V B Boolean × List (DuplexSponge V))
  | .absorb i input => do
    let self ← liftM (index sponges i : Outcome (DuplexSponge V))
    let elems ← input.toSpongeFieldElementsVar
    let self ← PoseidonSponge.absorb G self elems
    pure (.unit, sponges.set i self)
  | .squeezeFieldElements i numElements => do
    let self ← liftM (index sponges i : Outcome (DuplexSponge V))
    let (elements, self) ← squeezeFieldElements G self numElements
    pure (.elements elements, sponges.set i self)
  | .squeezeBits i numBits => do
    let self ← liftM (index sponges i : Outcome (DuplexSponge V))
    let (bits, self) ← squeezeBits G self numBits
    pure (.bits bits, sponges.set i self)
  | .squeezeBytes i numBytes => do
    let self ← liftM (index sponges i : Outcome (DuplexSponge V))
    let (bytes, self) ← squeezeBytes G self numBytes
    pure (.bytes bytes, sponges.set i self)
  | .fork i domain => do
    let self ← liftM (index sponges i : Outcome (DuplexSponge V))
    let newSponge ← fork G self domain
    pure (.unit, sponges ++ [newSponge])

/-- The call with the values of its variables. -/
def SpongeCall.value : SpongeCall V B Boolean → SpongeCall (ZMod p) UInt8 Bool
  | .absorb i input => .absorb i input.value
  | .squeezeFieldElements i numElements => .squeezeFieldElements i numElements
  | .squeezeBits i numBits => .squeezeBits i numBits
  | .squeezeBytes i numBytes => .squeezeBytes i numBytes
  | .fork i domain => .fork i domain

/-- The values of what a call returns. -/
def SpongeOutput.value : SpongeOutput V B Boolean → SpongeOutput (ZMod p) UInt8 Bool
  | .unit => .unit
  | .elements xs => .elements (xs.map FpVar.value)
  | .bits xs => .bits (xs.map Boolean.value)
  | .bytes xs => .bytes (xs.map UInt8Var.value)

/-- The states and modes of the sponges of a circuit. -/
def spongeValues (sponges : List (DuplexSponge V)) : List (DuplexSponge (ZMod p)) := sponges.map DuplexSponge.value

/-! ## One call -/

theorem index_sponge_mirrors (sponges : List (DuplexSponge V)) (i : Nat) :
    Mirrors (index (spongeValues sponges) i : Outcome (DuplexSponge (ZMod p)))
      (liftM (index sponges i : Outcome (DuplexSponge V)) : Gadget _) fun s vs => vs.value = s :=
  index_mirrors DuplexSponge.value sponges i

/-- In a circuit a call returns the variables of what it returns natively, and leaves the
sponges of the same states and modes. -/
theorem PoseidonSpongeVar.call_mirrors [Fact p.Prime] [LawfulFpVar p V] [LawfulFpVarConvert p B V]
    {D : Duplex Outcome (ZMod p)} {G : Duplex Gadget V} (hDG : DuplexMirrors D G) (sponges : List (DuplexSponge V))
    (c : SpongeCall V B Boolean) :
    Mirrors (PoseidonSponge.call D (spongeValues sponges) c.value) (call G sponges c)
      fun r vr => (vr.1.value, spongeValues vr.2) = r := by
  cases c with
  | absorb i input =>
    refine (index_sponge_mirrors sponges i).bind_eq fun self => ?_
    refine input.toSpongeFieldElements_mirrors.bind_eq fun elems => ?_
    refine (absorb_mirrors hDG self elems).bind_eq fun self => ?_
    exact .pure (by rw [spongeValues, List.map_set]; rfl)
  | squeezeFieldElements i n =>
    refine (index_sponge_mirrors sponges i).bind_eq fun self => ?_
    rw [PoseidonSponge.squeezeFieldElements_self]
    refine (squeezeFieldElements_mirrors hDG self n).bind ?_
    rintro _ ⟨elements, self⟩ rfl
    exact .pure (by rw [spongeValues, List.map_set]; rfl)
  | squeezeBits i n =>
    refine (index_sponge_mirrors sponges i).bind_eq fun self => ?_
    refine (squeezeBits_mirrors hDG self n).bind ?_
    rintro _ ⟨bits, self⟩ rfl
    exact .pure (by rw [spongeValues, List.map_set]; rfl)
  | squeezeBytes i n =>
    refine (index_sponge_mirrors sponges i).bind_eq fun self => ?_
    refine (squeezeBytes_mirrors hDG self n).bind ?_
    rintro _ ⟨bytes, self⟩ rfl
    exact .pure (by rw [spongeValues, List.map_set]; rfl)
  | fork i domain =>
    refine (index_sponge_mirrors sponges i).bind_eq fun self => ?_
    refine (fork_mirrors hDG self domain).bind_eq fun newSponge => ?_
    exact .pure (by rw [spongeValues, List.map_append]; rfl)

end

/-! ## Native runs -/

/-- The call is on one of `n` sponges, and it uses bytes only where a field element has
room for one. -/
def SpongeCall.Admissible {V B L : Type} (p n : Nat) : SpongeCall V B L → Prop
  | .absorb i (.bytes _) => i < n ∧ 9 ≤ modulusBitSize p
  | .absorb i _ => i < n
  | .squeezeFieldElements i _ => i < n
  | .squeezeBits i _ => i < n
  | .squeezeBytes i _ => i < n ∧ 9 ≤ modulusBitSize p
  | .fork i _ => i < n ∧ 9 ≤ modulusBitSize p

/-- The number of sponges after a call. -/
def SpongeCall.count {V B L : Type} (n : Nat) : SpongeCall V B L → Nat
  | .fork _ _ => n + 1
  | _ => n

/-- Every call of a run that starts with `n` sponges is admissible. -/
def AdmissibleRun {V B L : Type} (p : Nat) : Nat → List (SpongeCall V B L) → Prop
  | _, [] => True
  | n, c :: cs => c.Admissible p n ∧ AdmissibleRun p (c.count n) cs

section

variable {p : Nat} [hp : Fact p.Prime] {D : Duplex Outcome (ZMod p)}

/-- The sponges are valid. -/
def AllValid (D : Duplex Outcome (ZMod p)) (sponges : List (DuplexSponge (ZMod p))) : Prop :=
  ∀ s ∈ sponges, s.Valid D

omit hp in
theorem AllValid.set {sponges : List (DuplexSponge (ZMod p))} (h : AllValid D sponges) {s : DuplexSponge (ZMod p)}
    (hs : s.Valid D) (i : Nat) : AllValid D (sponges.set i s) := fun x hx => by
  rcases List.mem_or_eq_of_mem_set hx with hx | rfl
  · exact h x hx
  · exact hs

namespace PoseidonSponge

theorem exists_toSpongeFieldElements {input : AbsorbInput (ZMod p) UInt8 Bool} {n i : Nat}
    (h : (SpongeCall.absorb i input).Admissible p n) : i < n ∧ ∃ elems, input.toSpongeFieldElements = .ok elems := by
  cases input with
  | elements batch => exact ⟨h, batch, by rw [AbsorbInput.toSpongeFieldElements, fieldCast_self]; rfl⟩
  | bytes batch => exact ⟨h.1, _, Absorb.toFieldElements_eq (Absorb.maxSize_pos h.2) _⟩
  | booleans batch => exact ⟨h, _, rfl⟩

omit hp in
theorem exists_squeezeBits_valid (hD : D.Total) (hr : 0 < D.rate) {self : DuplexSponge (ZMod p)} (hs : self.Valid D)
    (n : Nat) : ∃ r, squeezeBits D self n = .ok r ∧ r.2.Valid D := by
  obtain ⟨elements, self', h, -⟩ := exists_squeezeNativeFieldElements hD hr hs
    ((n + (modulusBitSize p - 1) - 1) / (modulusBitSize p - 1))
  exact ⟨_, by rw [squeezeBits_eq, h]; rfl, squeezeNativeFieldElements_valid hD.keepsWidth hr hs h⟩

omit hp in
theorem exists_squeezeBytes (hD : D.Total) (hr : 0 < D.rate) (h9 : 9 ≤ modulusBitSize p)
    {self : DuplexSponge (ZMod p)} (hs : self.Valid D) (n : Nat) :
    ∃ r, squeezeBytes D self n = .ok r ∧ r.2.Valid D := by
  have hpos : 0 < (modulusBitSize p - 1) / 8 := Absorb.maxSize_pos h9
  obtain ⟨elements, self', h, -⟩ := exists_squeezeNativeFieldElements hD hr hs
    ((n + (modulusBitSize p - 1) / 8 - 1) / ((modulusBitSize p - 1) / 8))
  refine ⟨((elements.map fun x => (toBytesLe x).take ((modulusBitSize p - 1) / 8)).flatten.take n, self'), ?_,
    squeezeNativeFieldElements_valid hD.keepsWidth hr hs h⟩
  rw [squeezeBytes, usizeSub_of_le (by omega), Except.ok_bind, usizeDiv, if_neg hpos.ne', Except.ok_bind, h,
    Except.ok_bind]
  simp only [Except.mapM_eq_map fun x _ => slice_toBytesLe x, Except.ok_bind]
  rfl

omit hp in
theorem exists_fork (hD : D.Total) (hr : 0 < D.rate) (h9 : 9 ≤ modulusBitSize p) {self : DuplexSponge (ZMod p)}
    (hs : self.Valid D) (domain : List UInt8) : ∃ s, fork D self domain = .ok s ∧ s.Valid D := by
  obtain ⟨s, h, hvalid⟩ := exists_absorb hD hr hs (Absorb.packed p _)
  exact ⟨s, by rw [fork, Absorb.forkElements, Absorb.batchToSpongeFieldElements,
    Absorb.toFieldElements_eq (Absorb.maxSize_pos h9), Except.ok_bind, h], hvalid⟩

/-- An admissible call returns, and leaves valid sponges. -/
theorem exists_call (hD : D.Total) (hr : 0 < D.rate) {sponges : List (DuplexSponge (ZMod p))}
    (hs : AllValid D sponges) {c : SpongeCall (ZMod p) UInt8 Bool} (hc : c.Admissible p sponges.length) :
    ∃ r, call D sponges c = .ok r ∧ AllValid D r.2 ∧ r.2.length = c.count sponges.length := by
  cases c with
  | absorb i input =>
    obtain ⟨hi, elems, helems⟩ := exists_toSpongeFieldElements hc
    obtain ⟨self', h, hvalid⟩ := exists_absorb hD hr (hs _ (List.getElem_mem hi)) elems
    refine ⟨(.unit, sponges.set i self'), ?_, hs.set hvalid i, List.length_set⟩
    rw [call, index_of_lt hi, Except.ok_bind, helems, Except.ok_bind, h]
    rfl
  | squeezeFieldElements i n =>
    obtain ⟨elements, self', h, -⟩ := exists_squeezeNativeFieldElements hD hr (hs _ (List.getElem_mem hc)) n
    refine ⟨(.elements elements, sponges.set i self'), ?_,
      hs.set (squeezeNativeFieldElements_valid hD.keepsWidth hr (hs _ (List.getElem_mem hc)) h) i, List.length_set⟩
    rw [call, index_of_lt hc, Except.ok_bind, squeezeFieldElements_self, h]
    rfl
  | squeezeBits i n =>
    obtain ⟨⟨bits, self'⟩, h, hvalid⟩ := exists_squeezeBits_valid hD hr (hs _ (List.getElem_mem hc)) n
    refine ⟨(.bits bits, sponges.set i self'), ?_, hs.set hvalid i, List.length_set⟩
    rw [call, index_of_lt hc, Except.ok_bind, h]
    rfl
  | squeezeBytes i n =>
    obtain ⟨⟨bytes, self'⟩, h, hvalid⟩ := exists_squeezeBytes hD hr hc.2 (hs _ (List.getElem_mem hc.1)) n
    refine ⟨(.bytes bytes, sponges.set i self'), ?_, hs.set hvalid i, List.length_set⟩
    rw [call, index_of_lt hc.1, Except.ok_bind, h]
    rfl
  | fork i domain =>
    obtain ⟨newSponge, h, hvalid⟩ := exists_fork hD hr hc.2 (hs _ (List.getElem_mem hc.1)) domain
    refine ⟨(.unit, sponges ++ [newSponge]), ?_, fun s hmem => ?_, List.length_append⟩
    · rw [call, index_of_lt hc.1, Except.ok_bind, h]
      rfl
    · rcases List.mem_append.mp hmem with hmem | hmem
      · exact hs s hmem
      · rwa [List.mem_singleton.mp hmem]

theorem exists_trace (hD : D.Total) (hr : 0 < D.rate) {sponges : List (DuplexSponge (ZMod p))}
    (hs : AllValid D sponges) {calls : List (SpongeCall (ZMod p) UInt8 Bool)}
    (hc : AdmissibleRun p sponges.length calls) : ∃ rs, trace (call D) sponges calls = .ok rs := by
  induction calls generalizing sponges with
  | nil => exact ⟨[], rfl⟩
  | cons c calls ih =>
    obtain ⟨r, h, hvalid, hlen⟩ := exists_call hD hr hs hc.1
    obtain ⟨rs, hrs⟩ := ih hvalid (hlen ▸ hc.2)
    exact ⟨r :: rs, by rw [trace, h, Except.ok_bind, hrs]; rfl⟩

end PoseidonSponge

end

/-! ## Refinement -/

section

variable {p : Nat} {B V : Type} [FpVar p V] [UInt8Var B] [FpVarConvert p B V]

omit [FpVarConvert p B V] in
theorem SpongeCall.admissible_value {n : Nat} {c : SpongeCall V B Boolean} :
    c.value.Admissible p n ↔ c.Admissible p n := by
  cases c with
  | absorb i input => cases input <;> exact Iff.rfl
  | _ => exact Iff.rfl

omit [FpVarConvert p B V] in
theorem AdmissibleRun.value {n : Nat} {calls : List (SpongeCall V B Boolean)} (h : AdmissibleRun p n calls) :
    AdmissibleRun p n (calls.map SpongeCall.value) := by
  induction calls generalizing n with
  | nil => trivial
  | cons c calls ih =>
    refine ⟨SpongeCall.admissible_value.mpr h.1, ?_⟩
    have hcount : c.value.count n = c.count n := by cases c <;> rfl
    rw [hcount]
    exact ih h.2

/-- What the calls of a run return in a circuit, and the states and modes of the sponges
after each of them. -/
def traceValues (rs : List (SpongeOutput V B Boolean × List (DuplexSponge V))) :
    List (SpongeOutput (ZMod p) UInt8 Bool × List (DuplexSponge (ZMod p))) :=
  rs.map (Prod.map SpongeOutput.value spongeValues)

/-- Accepted parameters: after every call of a run that starts with a new sponge, the
sponges of the circuit have the states and modes of the native sponges, and what it
returned has the native values. The native run returns. -/
theorem trace_refines [Fact p.Prime] [LawfulFpVar p V] [LawfulFpVarConvert p B V]
    {fullRounds partialRounds alpha : Nat} {mds ark : List (List (ZMod p))} {rate capacity : Nat}
    {config : PoseidonConfig (ZMod p)}
    (h : PoseidonConfig.new fullRounds partialRounds alpha mds ark rate capacity = .ok config) (hr : 1 ≤ rate)
    (calls : List (SpongeCall V B Boolean)) :
    Mirrors (trace (PoseidonSponge.call config.duplex) [.new config.duplex] (calls.map SpongeCall.value))
        (trace (PoseidonSpongeVar.call (PoseidonSpongeVar.duplex config))
          [.new (PoseidonSpongeVar.duplex config : Duplex Gadget V)] calls)
        (fun rs rsVar => traceValues rsVar = rs) ∧
      (AdmissibleRun p 1 calls → ∃ rs, trace (PoseidonSponge.call config.duplex) [.new config.duplex]
        (calls.map SpongeCall.value) = .ok rs) := by
  obtain ⟨rfl, haccepted⟩ := PoseidonConfig.new_eq_ok.mp h
  have hnew (config : PoseidonConfig (ZMod p)) :
      spongeValues [.new (PoseidonSpongeVar.duplex config : Duplex Gadget V)] = [.new config.duplex] := by
    rw [spongeValues, List.map_singleton, DuplexSponge.value, DuplexSponge.map, DuplexSponge.new, List.map_replicate,
      LawfulFpVar.value_zero]
    rfl
  refine ⟨?_, fun hcalls => ?_⟩
  · rw [← hnew]
    exact Mirrors.trace (PoseidonSpongeVar.call_mirrors (PoseidonSpongeVar.duplex_mirrors _)) _ calls
  · exact PoseidonSponge.exists_trace (PoseidonConfig.duplex_total haccepted hr) hr
      (fun s hs => List.mem_singleton.mp hs ▸ new_valid _) hcalls.value

end

/-- Parameters over a field whose elements have room for a byte. -/
def byteConfig : PoseidonConfig (ZMod 257) where
  fullRounds := 1
  partialRounds := 1
  alpha := 3
  ark := [[1, 0, -1], [0, 1, 1]]
  mds := [[1, 1, 0], [0, 1, 1], [1, 0, 1]]
  rate := 2
  capacity := 1

/-- A run with each call, on a sponge and on its fork. -/
def byteCalls : List (SpongeCall (Assigned (ZMod 257)) (Assigned UInt8) Boolean) :=
  [.absorb 0 (.elements [.var 1, .constant (-1)]), .fork 0 [1], .absorb 1 (.bytes [.var 7]), .squeezeBytes 1 3,
    .absorb 0 (.booleans [.var true]), .squeezeBits 0 20, .squeezeFieldElements 0 3]

theorem trace_refines_byteConfig :
    ∃ rs, trace (PoseidonSponge.call byteConfig.duplex) [.new byteConfig.duplex]
        (byteCalls.map SpongeCall.value) = .ok rs ∧
      Computes (trace (PoseidonSpongeVar.call (PoseidonSpongeVar.duplex byteConfig))
        [.new (PoseidonSpongeVar.duplex byteConfig : Duplex Gadget (Assigned (ZMod 257)))] byteCalls)
        fun rsVar => traceValues rsVar = rs := by
  have hbytes : 9 ≤ modulusBitSize 257 := by decide +kernel
  have hnew : PoseidonConfig.new 1 1 3 byteConfig.mds byteConfig.ark 2 1 = .ok byteConfig := rfl
  have h257 : Fact (Nat.Prime 257) := ⟨by norm_num⟩
  obtain ⟨hmirrors, hexists⟩ := trace_refines hnew (Nat.le_add_left 1 1) byteCalls
  obtain ⟨rs, hrs⟩ := hexists ⟨Nat.one_pos, ⟨Nat.one_pos, hbytes⟩, ⟨Nat.one_lt_two, hbytes⟩, ⟨Nat.one_lt_two, hbytes⟩,
    Nat.two_pos, Nat.two_pos, Nat.two_pos, trivial⟩
  exact ⟨rs, hrs, hmirrors rs hrs⟩

end CryptoPrimitives.Sponge
