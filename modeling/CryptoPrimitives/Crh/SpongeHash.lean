import CryptoPrimitives.Sponge.AbsorbGadget
import CryptoPrimitives.Sponge.Reference
import CryptoPrimitives.Sponge.RescueRuns

/-!
# Hashing with a sponge

`crh/poseidon` and `crh/rescue`, which run the same code over their sponges: `evaluate`
absorbs one list and `compress` two elements one after the other. Where all inputs are
constants the gadgets call the native hash, and `compress` calls it on a list of two; else
they run the sponge on variables, among which may be constants.

* `absorbAndSqueeze_pair`: two elements are absorbed as a list of two.
* `Poseidon.evaluate_computes`, `Poseidon.compress_computes`: the values of the gadgets over
  Poseidon; `Rescue.evaluate_realizes`, `Rescue.compress_realizes`: those over Rescue.
* `gadgets_eq_native`: with accepted parameters and any inputs they are the native hashes.
-/

namespace CryptoPrimitives

open Circuit (Builds Extends Fixed Realizes fixed_list)
open CircuitFpVar (eval)
open Sponge
open Synthesis (Computes Mirrors)

/-- `v.cs().is_none()`, which is so for constants. -/
class Cs (V : Type) where
  csIsNone : V → Bool

open Cs (csIsNone)

/-- The inputs are absorbed one after the other, and then an element is squeezed. -/
def absorbAndSqueeze {m : Type → Type} [Monad m] [MonadLiftT Outcome m] {S V : Type} (absorb : S → List V → m S)
    (squeezeFieldElements : S → Nat → m (List V × S)) (sponge : S) (inputs : List (List V)) : m V := do
  let sponge ← inputs.foldlM absorb sponge
  let (res, _) ← squeezeFieldElements sponge 1
  liftM (index res 0 : Outcome V)

section

variable {S V : Type} {absorb : S → List V → Outcome S}
  {squeezeFieldElements : S → Nat → Outcome (List V × S)}

/-- Calls that keep an invariant and return, return a hash. -/
theorem exists_absorbAndSqueeze {P : S → Prop} (habsorb : ∀ s xs, P s → ∃ s', absorb s xs = .ok s' ∧ P s')
    (hsqueeze : ∀ s, P s → ∃ res s', squeezeFieldElements s 1 = .ok (res, s') ∧ res.length = 1) {s : S} (hs : P s)
    (inputs : List (List V)) : ∃ x, absorbAndSqueeze absorb squeezeFieldElements s inputs = .ok x := by
  obtain ⟨s₁, habsorbed, hs₁⟩ := Except.exists_foldlM (fun s xs _ => habsorb s xs) hs
  obtain ⟨res, s₂, hsqueezed, hlength⟩ := hsqueeze s₁ hs₁
  refine ⟨res[0], ?_⟩
  rw [absorbAndSqueeze, habsorbed, Except.ok_bind, hsqueezed]
  exact index_of_lt (by omega)

/-- A sponge that absorbs two elements in a row as one list hashes them so. -/
theorem absorbAndSqueeze_pair {s : S} {left right : V}
    (h : (absorb s [left] >>= fun s => absorb s [right]) = absorb s [left, right]) :
    absorbAndSqueeze absorb squeezeFieldElements s [[left], [right]] =
      absorbAndSqueeze absorb squeezeFieldElements s [[left, right]] := by
  have hpair : [[left], [right]].foldlM absorb s = [[left, right]].foldlM absorb s := by
    simp only [List.foldlM_cons, List.foldlM_nil, bind_pure]
    exact h
  rw [absorbAndSqueeze, absorbAndSqueeze, hpair]

end

/-! ## Poseidon -/

namespace Poseidon

variable {p : Nat}

/-- `absorb` of elements of the sponge's field. -/
def absorb (D : Duplex Outcome (ZMod p)) (sponge : DuplexSponge (ZMod p)) (input : List (ZMod p)) :
    Outcome (DuplexSponge (ZMod p)) := do
  let elems ← unwrapOption (fieldCast p input)
  PoseidonSponge.absorb D sponge elems

/-- `CRH::evaluate`. -/
def CRH.evaluate (parameters : PoseidonConfig (ZMod p)) (input : List (ZMod p)) : Outcome (ZMod p) :=
  absorbAndSqueeze (absorb parameters.duplex) (PoseidonSponge.squeezeFieldElements p parameters.duplex)
    (.new parameters.duplex) [input]

/-- `TwoToOneCRH::compress`. -/
def TwoToOneCRH.compress (parameters : PoseidonConfig (ZMod p)) (leftInput rightInput : ZMod p) :
    Outcome (ZMod p) :=
  absorbAndSqueeze (absorb parameters.duplex) (PoseidonSponge.squeezeFieldElements p parameters.duplex)
    (.new parameters.duplex) [[leftInput], [rightInput]]

section

variable {V : Type} [FpVar p V] [Cs V]

/-- `CRHGadget::evaluate`. -/
def CRHGadget.evaluate (parameters : PoseidonConfig (ZMod p)) (input : List V) : Gadget V :=
  if input.all csIsNone then do
    let constantInput := input.map FpVar.value
    let x ← liftM (CRH.evaluate parameters constantInput)
    pure (FpVar.constant x)
  else
    let G : Duplex Gadget V := PoseidonSpongeVar.duplex parameters
    absorbAndSqueeze (PoseidonSponge.absorb G) (PoseidonSpongeVar.squeezeFieldElements G) (.new G) [input]

/-- `TwoToOneCRHGadget::compress`. -/
def TwoToOneCRHGadget.compress (parameters : PoseidonConfig (ZMod p)) (leftInput rightInput : V) : Gadget V :=
  if csIsNone leftInput && csIsNone rightInput then do
    let x ← liftM (CRH.evaluate parameters [FpVar.value leftInput, FpVar.value rightInput])
    pure (FpVar.constant x)
  else
    let G : Duplex Gadget V := PoseidonSpongeVar.duplex parameters
    absorbAndSqueeze (PoseidonSponge.absorb G) (PoseidonSpongeVar.squeezeFieldElements G) (.new G)
      [[leftInput], [rightInput]]

end

variable [Fact p.Prime]

theorem absorb_eq (D : Duplex Outcome (ZMod p)) (sponge : DuplexSponge (ZMod p)) (input : List (ZMod p)) :
    absorb D sponge input = PoseidonSponge.absorb D sponge input := by
  rw [absorb, PoseidonSponge.fieldCast_self]
  rfl

theorem exists_hash {parameters : PoseidonConfig (ZMod p)} (h : parameters.Accepted) (hr : 0 < parameters.rate)
    (inputs : List (List (ZMod p))) :
    ∃ x, absorbAndSqueeze (absorb parameters.duplex) (PoseidonSponge.squeezeFieldElements p parameters.duplex)
      (.new parameters.duplex) inputs = .ok x := by
  have hD := PoseidonConfig.duplex_total h hr
  refine exists_absorbAndSqueeze (P := fun s : DuplexSponge (ZMod p) => s.Valid parameters.duplex) (fun s xs hs => ?_)
    (fun s hs => ?_) (new_valid _) inputs
  · rw [absorb_eq]
    exact PoseidonSponge.exists_absorb hD hr hs xs
  · rw [PoseidonSponge.squeezeFieldElements_self]
    exact PoseidonSponge.exists_squeezeNativeFieldElements hD hr hs 1

/-- The native two-to-one hash is the hash of a list of two. -/
theorem compress_eq_evaluate {parameters : PoseidonConfig (ZMod p)} (hr : 0 < parameters.rate)
    (leftInput rightInput : ZMod p) :
    TwoToOneCRH.compress parameters leftInput rightInput = CRH.evaluate parameters [leftInput, rightInput] := by
  refine absorbAndSqueeze_pair ?_
  simp only [absorb_eq]
  exact PoseidonSponge.absorb_append parameters.permute_keepsWidth hr (new_valid _) [leftInput] [rightInput]

variable {V : Type} [FpVar p V] [LawfulFpVar p V]

/-- A sponge of variables hashes as one of their values. -/
theorem absorbAndSqueeze_mirrors (parameters : PoseidonConfig (ZMod p)) (inputs : List (List V)) :
    Mirrors (absorbAndSqueeze (absorb parameters.duplex) (PoseidonSponge.squeezeFieldElements p parameters.duplex)
        (.new parameters.duplex) (inputs.map (List.map FpVar.value)))
      (absorbAndSqueeze (PoseidonSponge.absorb (PoseidonSpongeVar.duplex parameters))
        (PoseidonSpongeVar.squeezeFieldElements (PoseidonSpongeVar.duplex parameters))
        (.new (PoseidonSpongeVar.duplex parameters : Duplex Gadget V)) inputs)
      fun x v => FpVar.value v = x := by
  have hDG : DuplexMirrors parameters.duplex (PoseidonSpongeVar.duplex parameters : Duplex Gadget V) :=
    PoseidonSpongeVar.duplex_mirrors parameters
  have hnew : (DuplexSponge.new (PoseidonSpongeVar.duplex parameters : Duplex Gadget V)).value =
      DuplexSponge.new parameters.duplex := by
    simp only [DuplexSponge.value, DuplexSponge.map, DuplexSponge.new, List.map_replicate, LawfulFpVar.value_zero]
    rfl
  have habsorb : ∀ s vs, DuplexSponge.value vs = s → ∀ input : List V,
      Mirrors (absorb parameters.duplex s (input.map FpVar.value))
        (PoseidonSponge.absorb (PoseidonSpongeVar.duplex parameters) vs input) fun s vs => vs.value = s := by
    rintro _ vs rfl input
    rw [absorb_eq]
    exact PoseidonSpongeVar.absorb_mirrors hDG vs input
  refine (Mirrors.foldlM habsorb inputs hnew).bind_eq fun sponge => ?_
  rw [PoseidonSponge.squeezeFieldElements_self]
  refine (PoseidonSpongeVar.squeezeFieldElements_mirrors hDG sponge 1).bind ?_
  rintro _ ⟨res, sponge⟩ rfl
  exact index_mirrors FpVar.value res 0

omit [Fact p.Prime] in
/-- Constants are hashed natively. -/
theorem computes_constant {x : Outcome (ZMod p)} {y : ZMod p} (h : x = .ok y) :
    Computes (do
      let x ← liftM x
      pure (FpVar.constant x) : Gadget V) fun v => FpVar.value v = y :=
  computes_liftM_bind h (.pure (LawfulFpVar.value_constant y))

variable [Cs V]

theorem evaluate_computes {parameters : PoseidonConfig (ZMod p)} (input : List V) {x : ZMod p}
    (h : CRH.evaluate parameters (input.map FpVar.value) = .ok x) :
    Computes (CRHGadget.evaluate parameters input) fun v => FpVar.value v = x := by
  unfold CRHGadget.evaluate
  split
  · exact computes_constant h
  · exact absorbAndSqueeze_mirrors parameters [input] x h

theorem compress_computes {parameters : PoseidonConfig (ZMod p)} (hr : 0 < parameters.rate) (leftInput rightInput : V)
    {x : ZMod p} (h : TwoToOneCRH.compress parameters (FpVar.value leftInput) (FpVar.value rightInput) = .ok x) :
    Computes (TwoToOneCRHGadget.compress parameters leftInput rightInput) fun v => FpVar.value v = x := by
  unfold TwoToOneCRHGadget.compress
  split
  · rw [compress_eq_evaluate hr] at h
    exact computes_constant h
  · exact absorbAndSqueeze_mirrors parameters [[leftInput], [rightInput]] x h

end Poseidon

/-! ## Rescue -/

/-- Constants have one value under every assignment. -/
class LawfulCs (p : outParam Nat) (V : Type) [CircuitFpVar p V] [Cs V] : Prop where
  eval_of_csIsNone {v : V} (h : csIsNone v = true) (ρ ρ' : Nat → ZMod p) : eval ρ v = eval ρ' v

instance {p : Nat} : Cs (LinearVar p) where
  csIsNone
    | .constant _ => true
    | .var _ _ => false

instance {p : Nat} : LawfulCs p (LinearVar p) where
  eval_of_csIsNone {v} h _ _ := by
    cases v with
    | constant x => rfl
    | var offset terms => cases h

namespace Rescue

variable {p : Nat}

/-- `absorb` of elements of the sponge's field. -/
def absorb (D : Duplex Outcome (ZMod p)) (sponge : DuplexSponge (ZMod p)) (input : List (ZMod p)) :
    Outcome (DuplexSponge (ZMod p)) := do
  let elems ← unwrapOption (fieldCast p input)
  RescueSponge.absorb D sponge elems

/-- `RescueSponge::squeeze_field_elements` of elements of the sponge's field. -/
def squeezeFieldElements (D : Duplex Outcome (ZMod p)) (sponge : DuplexSponge (ZMod p)) (numElements : Nat) :
    Outcome (List (ZMod p) × DuplexSponge (ZMod p)) := do
  let (result, sponge) ← RescueSponge.squeezeNativeFieldElements D sponge numElements
  let cast ← unwrapOption (fieldCast p result)
  pure (cast, sponge)

/-- `CRH::evaluate`. -/
def CRH.evaluate (parameters : RescueConfig (ZMod p)) (input : List (ZMod p)) : Outcome (ZMod p) :=
  absorbAndSqueeze (absorb parameters.duplex) (squeezeFieldElements parameters.duplex) (.new parameters.duplex) [input]

/-- `TwoToOneCRH::compress`. -/
def TwoToOneCRH.compress (parameters : RescueConfig (ZMod p)) (leftInput rightInput : ZMod p) : Outcome (ZMod p) :=
  absorbAndSqueeze (absorb parameters.duplex) (squeezeFieldElements parameters.duplex) (.new parameters.duplex)
    [[leftInput], [rightInput]]

section

variable {V : Type} [CircuitFpVar p V] [Cs V] [CircuitConstant p V]
  (predicates : String → Option (ZMod p → ZMod p → Prop))

/-- `CRHGadget::evaluate`. -/
def CRHGadget.evaluate (parameters : RescueConfig (ZMod p)) (input : List V) : CircuitGadget p V :=
  if input.all csIsNone then do
    let constantInput ← input.mapM circuitValue
    let x ← liftM (CRH.evaluate parameters constantInput)
    pure (CircuitConstant.constant x)
  else
    let G : Duplex (CircuitGadget p) V := RescueSpongeVar.duplex predicates parameters
    absorbAndSqueeze (RescueSpongeVar.absorb G) (RescueSpongeVar.squeezeFieldElements G) (.new G) [input]

/-- `TwoToOneCRHGadget::compress`. -/
def TwoToOneCRHGadget.compress (parameters : RescueConfig (ZMod p)) (leftInput rightInput : V) :
    CircuitGadget p V :=
  if csIsNone leftInput && csIsNone rightInput then do
    let constantInput ← [leftInput, rightInput].mapM circuitValue
    let x ← liftM (CRH.evaluate parameters constantInput)
    pure (CircuitConstant.constant x)
  else
    let G : Duplex (CircuitGadget p) V := RescueSpongeVar.duplex predicates parameters
    absorbAndSqueeze (RescueSpongeVar.absorb G) (RescueSpongeVar.squeezeFieldElements G) (.new G)
      [[leftInput], [rightInput]]

end

section

variable [Fact p.Prime]

theorem absorb_eq (D : Duplex Outcome (ZMod p)) (sponge : DuplexSponge (ZMod p)) (input : List (ZMod p)) :
    absorb D sponge input = RescueSponge.absorb D sponge input := by
  rw [absorb, PoseidonSponge.fieldCast_self]
  rfl

theorem squeezeFieldElements_eq (D : Duplex Outcome (ZMod p)) (sponge : DuplexSponge (ZMod p)) (n : Nat) :
    squeezeFieldElements D sponge n = RescueSponge.squeezeNativeFieldElements D sponge n := by
  rw [squeezeFieldElements]
  cases RescueSponge.squeezeNativeFieldElements D sponge n with
  | error e => rfl
  | ok r =>
    simp only [Except.ok_bind, PoseidonSponge.fieldCast_self]
    rfl

theorem exists_hash {parameters : RescueConfig (ZMod p)} (h : parameters.Accepted) (hr : 0 < parameters.rate)
    (inputs : List (List (ZMod p))) :
    ∃ x, absorbAndSqueeze (absorb parameters.duplex) (squeezeFieldElements parameters.duplex)
      (.new parameters.duplex) inputs = .ok x := by
  have hD := RescueConfig.duplex_total h
  refine exists_absorbAndSqueeze (P := fun s : DuplexSponge (ZMod p) => s.Valid parameters.duplex) (fun s xs hs => ?_)
    (fun s hs => ?_) (new_valid _) inputs
  · rw [absorb_eq]
    obtain ⟨s', habsorb⟩ := RescueSponge.exists_absorb hD hr hs xs
    exact ⟨s', habsorb, RescueSponge.absorb_valid hD.keepsWidth hr hs habsorb⟩
  · rw [squeezeFieldElements_eq]
    obtain ⟨⟨res, s'⟩, hsqueeze⟩ := RescueSponge.exists_squeeze hD hr hs 1
    exact ⟨res, s', hsqueeze, RescueSponge.length_squeeze hD.keepsWidth hr hs hsqueeze⟩

/-- The native two-to-one hash is the hash of a list of two. -/
theorem compress_eq_evaluate {parameters : RescueConfig (ZMod p)} (hr : 0 < parameters.rate)
    (leftInput rightInput : ZMod p) :
    TwoToOneCRH.compress parameters leftInput rightInput = CRH.evaluate parameters [leftInput, rightInput] := by
  refine absorbAndSqueeze_pair ?_
  simp only [absorb_eq]
  exact RescueSponge.absorb_append parameters.permute_keepsWidth hr (new_valid _) [leftInput] [rightInput]

variable {V : Type} [CircuitFpVar p V] [LawfulCircuitFpVar p V]
  {predicates : String → Option (ZMod p → ZMod p → Prop)} {parameters : RescueConfig (ZMod p)}

/-- A sponge of variables hashes as one of their values. -/
theorem absorbAndSqueeze_realizes (hi : RescueSpongeVar.Inverse predicates parameters) (h : parameters.Accepted)
    {w : List (ZMod p)} {inputs : List (List V)}
    (hinputs : ∀ input ∈ inputs, ∀ v ∈ input, Fixed w fun ρ => eval ρ v) :
    Realizes w (absorbAndSqueeze (RescueSpongeVar.absorb (RescueSpongeVar.duplex predicates parameters))
        (RescueSpongeVar.squeezeFieldElements (RescueSpongeVar.duplex predicates parameters))
        (.new (RescueSpongeVar.duplex predicates parameters : Duplex (CircuitGadget p) V)) inputs)
      (fun ρ => absorbAndSqueeze (absorb parameters.duplex) (squeezeFieldElements parameters.duplex)
        (.new parameters.duplex) (inputs.map (List.map (eval ρ)))) eval := by
  have hDG : DuplexRealizes parameters.duplex
      (RescueSpongeVar.duplex predicates parameters : Duplex (CircuitGadget p) V) :=
    RescueSpongeVar.duplex_realizes hi h
  have hnew (ρ : Nat → ZMod p) :
      (DuplexSponge.new (RescueSpongeVar.duplex predicates parameters : Duplex (CircuitGadget p) V)).map (eval ρ) =
        DuplexSponge.new parameters.duplex := by
    simp only [DuplexSponge.map, DuplexSponge.new, List.map_replicate, LawfulCircuitFpVar.eval_zero]
    rfl
  have hfixed : Fixed w fun ρ =>
      (DuplexSponge.new (RescueSpongeVar.duplex predicates parameters : Duplex (CircuitGadget p) V)).map (eval ρ) := by
    simp only [hnew]
    exact Circuit.fixed_const w _
  have habsorb : Realizes w
      (inputs.foldlM (RescueSpongeVar.absorb (RescueSpongeVar.duplex predicates parameters))
        (.new (RescueSpongeVar.duplex predicates parameters : Duplex (CircuitGadget p) V)))
      (fun ρ => (inputs.map (List.map (eval ρ))).foldlM (absorb parameters.duplex) (.new parameters.duplex))
      fun ρ s => s.map (eval ρ) := by
    have hloop : Realizes w
        (inputs.foldlM (RescueSpongeVar.absorb (RescueSpongeVar.duplex predicates parameters))
          (.new (RescueSpongeVar.duplex predicates parameters : Duplex (CircuitGadget p) V))) _
        fun ρ s => s.map (eval ρ) :=
      Realizes.foldlM (f := fun ρ s (input : List V) => absorb parameters.duplex s (input.map (eval ρ)))
        (fun input hinput w' s hw hs => by
          simp only [absorb_eq]
          exact absorb_realizes hDG hs ((fixed_list.mpr (hinputs input hinput)).mono hw)) hfixed
    exact hloop.congr fun ρ => by rw [List.foldlM_map, hnew]
  refine habsorb.bind fun sponge w₁ hw₁ hs => ?_
  simp only [squeezeFieldElements_eq]
  refine (squeezeFieldElements_realizes hDG hs 1).bind fun r w₂ hw₂ hr => ?_
  exact realizes_liftM (fun ρ => index_map (eval ρ) r.1 0) fun v hv =>
    fixed_list.mp (hr.map Prod.fst) v (List.mem_of_getElem? (index_eq_ok.mp hv))

section

variable [Cs V] [LawfulCs p V] [CircuitConstant p V] [LawfulCircuitConstant p V]

omit [Fact p.Prime] [LawfulCircuitFpVar p V] [Cs V] [LawfulCs p V] in
/-- A native result, as a constant. -/
theorem realizes_liftM_constant (w : List (ZMod p)) (x : Outcome (ZMod p)) :
    Realizes w (do
      let x ← liftM x
      pure (CircuitConstant.constant x) : CircuitGadget p V) (fun _ => x) eval := by
  have hconstant (w : List (ZMod p)) (x : ZMod p) :
      Realizes w (pure (CircuitConstant.constant x) : CircuitGadget p V) (fun _ => (.ok x : Outcome _)) eval :=
    .pure (by simp only [LawfulCircuitConstant.eval_constant]; exact Circuit.fixed_const w x)
      fun ρ => by rw [LawfulCircuitConstant.eval_constant]
  have h := (realizes_self w x).bind (h := fun _ x => .ok x) fun x w' _ _ => hconstant w' x
  exact h.congr fun _ => (bind_pure x).symm

omit [Fact p.Prime] [LawfulCircuitFpVar p V] in
/-- Constants are hashed natively. -/
theorem realizes_constant {w : List (ZMod p)} {input : List V} (hconstant : ∀ v ∈ input, csIsNone v = true)
    (hinput : Fixed w fun ρ => input.map (eval ρ)) :
    Realizes w (do
      let constantInput ← input.mapM circuitValue
      let x ← liftM (CRH.evaluate parameters constantInput)
      pure (CircuitConstant.constant x) : CircuitGadget p V)
      (fun ρ => CRH.evaluate parameters (input.map (eval ρ))) eval := by
  have hvalue : ∀ v ∈ input, ∀ w', w <+: w' → (Fixed w' fun ρ => eval ρ v) →
      Realizes w' (circuitValue v : CircuitGadget p (ZMod p)) (fun ρ => (.ok (eval ρ v) : Outcome _)) fun _ x => x :=
    fun v hv w' _ _ =>
      ((Circuit.assigned_builds_const (LawfulCs.eval_of_csIsNone (hconstant v hv))).mono
        (fun w'' x _ _ _ => Circuit.fixed_const w'' x) fun _ _ h => h.symm).realizes
  have hvalues := Realizes.mapM (f := fun _ x => .ok x) (fixed_list.mp hinput) hvalue
  have hbind := hvalues.bind (h := fun _ xs => CRH.evaluate parameters xs) fun xs w' _ _ => by
    rw [List.map_id']
    exact realizes_liftM_constant (V := V) w' (CRH.evaluate parameters xs)
  refine hbind.congr fun ρ => ?_
  rw [Except.mapM_eq_map (f := fun x => .ok x) fun x _ => rfl, Except.ok_bind, List.map_id']

theorem evaluate_realizes (hi : RescueSpongeVar.Inverse predicates parameters) (h : parameters.Accepted)
    {w : List (ZMod p)} {input : List V} (hinput : Fixed w fun ρ => input.map (eval ρ)) :
    Realizes w (CRHGadget.evaluate predicates parameters input)
      (fun ρ => CRH.evaluate parameters (input.map (eval ρ))) eval := by
  unfold CRHGadget.evaluate
  split
  · rename_i hall
    exact realizes_constant (List.all_eq_true.mp hall) hinput
  · exact absorbAndSqueeze_realizes hi h (List.forall_mem_singleton.mpr (fixed_list.mp hinput))

theorem compress_realizes (hi : RescueSpongeVar.Inverse predicates parameters) (h : parameters.Accepted)
    (hr : 0 < parameters.rate) {w : List (ZMod p)} {leftInput rightInput : V}
    (hinput : Fixed w fun ρ => [leftInput, rightInput].map (eval ρ)) :
    Realizes w (TwoToOneCRHGadget.compress predicates parameters leftInput rightInput)
      (fun ρ => TwoToOneCRH.compress parameters (eval ρ leftInput) (eval ρ rightInput)) eval := by
  unfold TwoToOneCRHGadget.compress
  split
  · rename_i hall
    rw [Bool.and_eq_true] at hall
    simp only [compress_eq_evaluate hr]
    exact realizes_constant (by simpa using hall) hinput
  · have hboth := fixed_list.mp hinput
    have hinputs : ∀ input ∈ [[leftInput], [rightInput]], ∀ v ∈ input, Fixed w fun ρ => eval ρ v := by
      simpa using hboth
    exact absorbAndSqueeze_realizes hi h hinputs

end

end

end Rescue

/-! ## The gadgets -/

/-- `FpVar` and `FpVar::Constant` of assigned variables. -/
instance {p : Nat} : Cs (Assigned (ZMod p)) where
  csIsNone
    | .constant _ => true
    | .var _ => false

/-- With accepted parameters and a positive rate, whatever inputs are constants and whatever
are variables: the gadgets over Poseidon return the native hashes of the values, with all
their constraints satisfied; those over Rescue return them too, and whatever satisfies their
constraints has the native hash. -/
theorem gadgets_eq_native {p : Nat} [Fact p.Prime] :
    (∀ {fullRounds partialRounds alpha : Nat} {mds ark : List (List (ZMod p))} {rate capacity : Nat}
      {config : PoseidonConfig (ZMod p)},
      PoseidonConfig.new fullRounds partialRounds alpha mds ark rate capacity = .ok config → 1 ≤ rate →
      ∀ {V : Type} [FpVar p V] [LawfulFpVar p V] [Cs V],
        (∀ input : List V, ∃ x, Poseidon.CRH.evaluate config (input.map FpVar.value) = .ok x ∧
          Computes (Poseidon.CRHGadget.evaluate config input) fun v => FpVar.value v = x) ∧
        ∀ left right : V, ∃ x,
          Poseidon.TwoToOneCRH.compress config (FpVar.value left) (FpVar.value right) = .ok x ∧
          Computes (Poseidon.TwoToOneCRHGadget.compress config left right) fun v => FpVar.value v = x) ∧
    ∀ {rounds alpha alphaInv : Nat} {mds arc : List (List (ZMod p))} {rate capacity : Nat}
      {config : RescueConfig (ZMod p)},
      RescueConfig.new rounds alpha alphaInv mds arc rate capacity = .ok config → 1 ≤ rate →
      RescueSpongeVar.InverseExponents p alpha alphaInv →
      ∀ {predicates : String → Option (ZMod p → ZMod p → Prop)},
        (∀ holds, predicates RESCUE_PREDICATE = some holds → ∀ x y, holds x y ↔ y = x ^ 5) →
      ∀ {V : Type} [CircuitFpVar p V] [LawfulCircuitFpVar p V] [Cs V] [LawfulCs p V] [CircuitConstant p V]
        [LawfulCircuitConstant p V] {w : List (ZMod p)},
        (∀ input : List V, (Fixed w fun ρ => input.map (eval ρ)) →
          (∀ ρ, ∃ x, Rescue.CRH.evaluate config (input.map (eval ρ)) = .ok x) ∧
          Builds w (Rescue.CRHGadget.evaluate predicates config input) (fun w' v => Fixed w' fun ρ => eval ρ v)
            fun ρ v => Rescue.CRH.evaluate config (input.map (eval ρ)) = .ok (eval ρ v)) ∧
        ∀ left right : V, (Fixed w fun ρ => [left, right].map (eval ρ)) →
          (∀ ρ, ∃ x, Rescue.TwoToOneCRH.compress config (eval ρ left) (eval ρ right) = .ok x) ∧
          Builds w (Rescue.TwoToOneCRHGadget.compress predicates config left right)
            (fun w' v => Fixed w' fun ρ => eval ρ v)
            fun ρ v => Rescue.TwoToOneCRH.compress config (eval ρ left) (eval ρ right) = .ok (eval ρ v) := by
  constructor
  · intro _ _ _ _ _ rate _ config h hr V _ _ _
    obtain ⟨rfl, haccepted⟩ := PoseidonConfig.new_eq_ok.mp h
    refine ⟨fun input => ?_, fun left right => ?_⟩
    · obtain ⟨x, hx⟩ := Poseidon.exists_hash haccepted hr [input.map FpVar.value]
      exact ⟨x, hx, Poseidon.evaluate_computes input hx⟩
    · obtain ⟨x, hx⟩ := Poseidon.exists_hash haccepted hr [[FpVar.value left], [FpVar.value right]]
      exact ⟨x, hx, Poseidon.compress_computes (by exact hr) left right hx⟩
  · intro _ _ _ _ _ rate _ config h hr hinv predicates hpredicate V _ _ _ _ _ _ w
    obtain ⟨rfl, haccepted⟩ := RescueConfig.new_eq_ok.mp h
    refine ⟨fun input hinput => ?_, fun left right hinput => ?_⟩
    · have hok (ρ : Nat → ZMod p) := Rescue.exists_hash haccepted hr [input.map (eval ρ)]
      exact ⟨hok, Rescue.evaluate_realizes ⟨hinv, hpredicate⟩ haccepted hinput fun ρ _ => hok ρ⟩
    · have hok (ρ : Nat → ZMod p) := Rescue.exists_hash haccepted hr [[eval ρ left], [eval ρ right]]
      exact ⟨hok, Rescue.compress_realizes ⟨hinv, hpredicate⟩ haccepted hr hinput fun ρ _ => hok ρ⟩

/-- Two variables over a field of seven elements. -/
def variablePair : LinearVar 7 × LinearVar 7 := (.var 0 [(1, 0)], .var 0 [(1, 1)])

/-- Over Poseidon a constant and a variable, over Rescue no input and two variables. -/
theorem gadgets_eq_native_small :
    (∃ x, Poseidon.TwoToOneCRH.compress smallConfig (FpVar.value (Assigned.constant (1 : ZMod 5)))
        (FpVar.value (Assigned.var (3 : ZMod 5))) = .ok x ∧
      Computes (Poseidon.TwoToOneCRHGadget.compress smallConfig (Assigned.constant (1 : ZMod 5))
        (Assigned.var (3 : ZMod 5))) fun v => FpVar.value v = x) ∧
    Builds [] (Rescue.CRHGadget.evaluate degree5 degree5Config ([] : List (LinearVar 7)))
      (fun w' v => Fixed w' fun ρ => eval ρ v)
      (fun ρ v => Rescue.CRH.evaluate degree5Config (([] : List (LinearVar 7)).map (eval ρ)) = .ok (eval ρ v)) ∧
    Builds [2, 3] (Rescue.TwoToOneCRHGadget.compress degree5 degree5Config variablePair.1 variablePair.2)
      (fun w' v => Fixed w' fun ρ => eval ρ v)
      (fun ρ v => Rescue.TwoToOneCRH.compress degree5Config (eval ρ variablePair.1) (eval ρ variablePair.2) =
        .ok (eval ρ v)) := by
  have hposeidon := new_smallConfigOf 5
  have hrescue := new_degree5ConfigOf 7 5
  have hinv : RescueSpongeVar.InverseExponents 7 5 5 := ⟨4, rfl⟩
  have hvars : Fixed [2, 3] fun ρ => [variablePair.1, variablePair.2].map (eval ρ) := by
    intro ρ ρ' hρ hρ'
    have h₀ : ρ 0 = ρ' 0 := (hρ 0 2 rfl).trans (hρ' 0 2 rfl).symm
    have h₁ : ρ 1 = ρ' 1 := (hρ 1 3 rfl).trans (hρ' 1 3 rfl).symm
    simp only [variablePair, List.map_cons, List.map_nil, eval, LinearVar.eval, h₀, h₁]
  have : Fact (Nat.Prime 5) := ⟨by decide⟩
  have : Fact (Nat.Prime 7) := ⟨by decide⟩
  refine ⟨(gadgets_eq_native.1 hposeidon (by decide)).2 _ _,
    ((gadgets_eq_native.2 hrescue le_rfl hinv (fun _ => degree5_holds)).1 [] (Circuit.fixed_const [] [])).2,
    ((gadgets_eq_native.2 hrescue le_rfl hinv (fun _ => degree5_holds)).2 _ _ hvars).2⟩

end CryptoPrimitives
