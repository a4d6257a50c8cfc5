import CryptoPrimitives.Framework.Circuit
import CryptoPrimitives.Framework.DoubleAndAdd
import CryptoPrimitives.Gadget.Boolean
import CryptoPrimitives.Rust.PrimeField

/-!
# What the gadgets use of `FpVar<F>` in a constraint system

`CircuitFpVar p V`: the type `V` has the operations of the variables over the field of `p`
elements, which emit their constraints in a constraint system. `LawfulCircuitFpVar`: under
every assignment that satisfies these constraints, and only there, they compute the field
operations they name. `LinearVar`: linear combinations of the variables.
-/

namespace CryptoPrimitives

open Circuit (Builds Extends Fixed Realizes Satisfies emit)

/-- The gadgets whose constraints are kept. -/
abbrev CircuitGadget (p : Nat) := Circuit SynthesisFault (ZMod p)

instance {p : Nat} : MonadLift Outcome (CircuitGadget p) where
  monadLift
    | .ok x => pure x
    | .error f => Circuit.fail (.native f)

/-- The native code, run on what stands for its data. -/
theorem realizes_liftM {p : Nat} {α β : Type} {w : List (ZMod p)} {x : Outcome β} {f : (Nat → ZMod p) → Outcome α}
    {ev : (Nat → ZMod p) → β → α} (hf : ∀ ρ, f ρ = ev ρ <$> x) (hx : ∀ y, x = .ok y → Fixed w fun ρ => ev ρ y) :
    Realizes w (liftM x : CircuitGadget p β) f ev := fun hok => by
  cases x with
  | ok y => exact .pure (hx y rfl) hf
  | error e =>
    obtain ⟨a, ha⟩ := hok _ (Circuit.extends_getD w)
    rw [hf] at ha
    exact nomatch ha

/-- The native code, run on the same data. -/
theorem realizes_self {p : Nat} {α : Type} (w : List (ZMod p)) (x : Outcome α) :
    Realizes w (liftM x : CircuitGadget p α) (fun _ => x) fun _ y => y :=
  realizes_liftM (fun _ => (id_map x).symm) fun y _ => Circuit.fixed_const w y

/-- A slice of variables. -/
theorem slice_realizes {p : Nat} {α β : Type} {w : List (ZMod p)} {ev : (Nat → ZMod p) → β → α} {xs : List β}
    (hxs : Fixed w fun ρ => xs.map (ev ρ)) (start stop : Nat) :
    Realizes w (liftM (slice xs start stop : Outcome (List β)) : CircuitGadget p (List β))
      (fun ρ => (slice (xs.map (ev ρ)) start stop : Outcome (List α))) fun ρ ys => ys.map (ev ρ) := by
  refine realizes_liftM (fun ρ => slice_map (ev ρ) xs start stop) fun ys h => Circuit.fixed_list.mpr fun y hy => ?_
  obtain ⟨-, rfl⟩ := ite_raise_eq_ok.mp h
  exact Circuit.fixed_list.mp hxs y (List.mem_of_mem_drop (List.mem_of_mem_take hy))

/-- Native code that returns a value, and then a gadget. -/
theorem builds_liftM_bind {p : Nat} {α β : Type} {w : List (ZMod p)} {x : Outcome α} {a : α} {k : α → CircuitGadget p β}
    {H : List (ZMod p) → β → Prop} {S : (Nat → ZMod p) → β → Prop} (hx : x = .ok a) (h : Builds w (k a) H S) :
    Builds w (liftM x >>= k) H S := by
  rw [hx]
  exact h

/-- The operations of `FpVar<F>` that the gadgets use. -/
class CircuitFpVar (p : outParam Nat) (V : Type) extends Add V, Zero V where
  /-- The value of a variable under an assignment. -/
  eval : (Nat → ZMod p) → V → ZMod p
  /-- `FpVar::Var`, and not `FpVar::Constant`. -/
  isVar : V → Bool
  newWitness : ZMod p → CircuitGadget p V
  addConstant : V → ZMod p → V
  mulConstant : V → ZMod p → V
  powByConstant : V → Nat → CircuitGadget p V
  enforceEqual : V → V → CircuitGadget p Unit

section

variable {p : Nat} {V : Type} [CircuitFpVar p V]

open CircuitFpVar (eval)

/-- `v.value()`. -/
def circuitValue (v : V) : CircuitGadget p (ZMod p) := Circuit.assigned fun ρ => eval ρ v

/-- `cs.enforce_constraint_arity_2`, where `predicates` are those registered with `cs`. -/
def enforceConstraintArity2 (predicates : String → Option (ZMod p → ZMod p → Prop)) (name : String) (v w : V) :
    CircuitGadget p Unit :=
  match predicates name with
  | some holds => emit fun ρ => holds (eval ρ v) (eval ρ w)
  | none => Circuit.fail (.err .unsatisfiable)

theorem enforceConstraintArity2_builds {predicates : String → Option (ZMod p → ZMod p → Prop)} {name : String}
    {holds : ZMod p → ZMod p → Prop} (hname : predicates name = some holds) {w : List (ZMod p)} {u v : V}
    (h : ∀ ρ, Extends w ρ → holds (eval ρ u) (eval ρ v)) :
    Builds w (enforceConstraintArity2 predicates name u v) (fun w' _ => w' = w) fun ρ _ =>
      holds (eval ρ u) (eval ρ v) := by
  rw [enforceConstraintArity2, hname]
  exact Circuit.emit_builds h

end

/-- The operations compute what they name. -/
class LawfulCircuitFpVar (p : outParam Nat) (V : Type) [CircuitFpVar p V] : Prop where
  eval_zero (ρ : Nat → ZMod p) : CircuitFpVar.eval ρ (0 : V) = 0
  eval_add (ρ : Nat → ZMod p) (u v : V) :
    CircuitFpVar.eval ρ (u + v) = CircuitFpVar.eval ρ u + CircuitFpVar.eval ρ v
  eval_addConstant (ρ : Nat → ZMod p) (v : V) (x : ZMod p) :
    CircuitFpVar.eval ρ (CircuitFpVar.addConstant v x) = CircuitFpVar.eval ρ v + x
  eval_mulConstant (ρ : Nat → ZMod p) (v : V) (x : ZMod p) :
    CircuitFpVar.eval ρ (CircuitFpVar.mulConstant v x) = CircuitFpVar.eval ρ v * x
  newWitness_builds (w : List (ZMod p)) (x : ZMod p) :
    Builds w (CircuitFpVar.newWitness x : CircuitGadget p V)
      (fun w' v => CircuitFpVar.isVar v = true ∧ ∀ ρ, Extends w' ρ → CircuitFpVar.eval ρ v = x) fun _ _ => True
  powByConstant_builds {w : List (ZMod p)} {v : V} (hv : Fixed w fun ρ => CircuitFpVar.eval ρ v) (n : Nat) :
    Builds w (CircuitFpVar.powByConstant v n) (fun w' u => Fixed w' fun ρ => CircuitFpVar.eval ρ u) fun ρ u =>
      CircuitFpVar.eval ρ u = CircuitFpVar.eval ρ v ^ n
  enforceEqual_builds {w : List (ZMod p)} {u v : V}
    (h : ∀ ρ, Extends w ρ → CircuitFpVar.eval ρ u = CircuitFpVar.eval ρ v) :
    Builds w (CircuitFpVar.enforceEqual u v) (fun _ _ => True) fun ρ _ =>
      CircuitFpVar.eval ρ u = CircuitFpVar.eval ρ v

/-- `FpVar::Constant`. -/
class CircuitConstant (p : outParam Nat) (V : Type) [CircuitFpVar p V] where
  constant : ZMod p → V

class LawfulCircuitConstant (p : outParam Nat) (V : Type) [CircuitFpVar p V] [CircuitConstant p V] : Prop where
  eval_constant (ρ : Nat → ZMod p) (x : ZMod p) : CircuitFpVar.eval ρ (CircuitConstant.constant x : V) = x

/-! ## Linear combinations -/

/-- A constant, or a linear combination of variables and a constant. -/
inductive LinearVar (p : Nat) where
  | constant (x : ZMod p)
  | var (offset : ZMod p) (terms : List (ZMod p × Nat))

namespace LinearVar

variable {p : Nat}

def eval (ρ : Nat → ZMod p) : LinearVar p → ZMod p
  | constant x => x
  | var offset terms => offset + (terms.map fun term => term.1 * ρ term.2).sum

def add : LinearVar p → LinearVar p → LinearVar p
  | constant x, constant y => constant (x + y)
  | constant x, var y terms => var (x + y) terms
  | var x terms, constant y => var (x + y) terms
  | var x terms, var y terms' => var (x + y) (terms ++ terms')

def mulConstant (v : LinearVar p) (x : ZMod p) : LinearVar p :=
  match v with
  | constant y => constant (y * x)
  | var y terms => var (y * x) (terms.map fun term => (term.1 * x, term.2))

/-- A variable of its own. -/
def newWitness (x : ZMod p) : CircuitGadget p (LinearVar p) := do
  let i ← Circuit.allocate x
  pure (var 0 [(1, i)])

def mul : LinearVar p → LinearVar p → CircuitGadget p (LinearVar p)
  | constant x, v => pure (v.mulConstant x)
  | var x terms, constant y => pure ((var x terms).mulConstant y)
  | var x terms, var y terms' => do
    let product ← Circuit.assigned fun ρ => (var x terms).eval ρ * (var y terms').eval ρ
    let w ← newWitness product
    emit fun ρ => (var x terms).eval ρ * (var y terms').eval ρ = w.eval ρ
    pure w

/-- The bits of an exponent, without leading zeros. -/
def exponentBits (n : Nat) : List Bool := ((List.range (n.log2 + 1)).map n.testBit).reverse.dropWhile (!·)

/-- Square and multiply. -/
def powByConstant (v : LinearVar p) (n : Nat) : CircuitGadget p (LinearVar p) :=
  (exponentBits n).foldlM (fun res bit => do
    let res ← mul res res
    if bit then mul res v else pure res) (constant 1)

def enforceEqual : LinearVar p → LinearVar p → CircuitGadget p Unit
  | constant x, constant y => if x = y then pure () else Circuit.fail (.err .unsatisfiable)
  | u, v => emit fun ρ => u.eval ρ = v.eval ρ

theorem eval_add (ρ : Nat → ZMod p) (u v : LinearVar p) : (u.add v).eval ρ = u.eval ρ + v.eval ρ := by
  cases u with
  | constant x =>
    cases v with
    | constant y => rfl
    | var y terms => exact add_assoc x y _
  | var x terms =>
    cases v with
    | constant y => exact add_right_comm x y _
    | var y terms' =>
      simp only [add, eval, List.map_append, List.sum_append]
      exact add_add_add_comm x y _ _

theorem eval_mulConstant (ρ : Nat → ZMod p) (v : LinearVar p) (x : ZMod p) :
    (v.mulConstant x).eval ρ = v.eval ρ * x := by
  cases v with
  | constant y => rfl
  | var y terms =>
    have hterms : ((terms.map fun term => (term.1 * x, term.2)).map fun term => term.1 * ρ term.2) =
        (terms.map fun term => term.1 * ρ term.2).map (· * x) := by
      rw [List.map_map, List.map_map]
      exact List.map_congr_left fun term _ => mul_right_comm term.1 x _
    simp only [mulConstant, eval]
    rw [hterms, List.sum_map_mul_right, List.map_id', add_mul]

theorem newWitness_builds (w : List (ZMod p)) (x : ZMod p) :
    Builds w (newWitness x) (fun w' v => (∃ i, v = var 0 [(1, i)]) ∧ ∀ ρ, Extends w' ρ → v.eval ρ = x)
      fun _ _ => True := by
  refine (Circuit.allocate_builds w x).bind fun i w' hw hi _ => .pure ⟨⟨i, rfl⟩, fun ρ hρ => ?_⟩ fun _ _ => trivial
  obtain ⟨rfl, rfl⟩ := hi
  have hvalue := hρ w.length x (by rw [List.getElem?_append_right le_rfl, Nat.sub_self]; rfl)
  simp [eval, hvalue]

/-- A variable for each value. -/
theorem mapM_newWitness_builds (w xs : List (ZMod p)) :
    Builds w (xs.mapM newWitness) (fun w' vs => ∀ ρ, Extends w' ρ → vs.map (LinearVar.eval ρ) = xs) fun _ _ => True := by
  refine (Builds.mapM (H := fun w x (v : LinearVar p) => ∀ ρ, Extends w ρ → v.eval ρ = x) (S := fun _ _ _ => True)
    (fun _ _ _ _ hw h ρ hρ => h ρ (hρ.of_prefix hw)) fun x _ w' _ => (newWitness_builds w' x).mono
      (fun _ _ _ _ h => h.2) fun _ _ _ => trivial).mono (fun w' vs _ _ hvalues ρ hρ => ?_) fun _ _ _ => trivial
  rw [← List.forall₂_eq_eq_eq, List.forall₂_map_left_iff]
  exact hvalues.flip.imp fun v x h => h ρ hρ

theorem mul_builds {w : List (ZMod p)} {u v : LinearVar p} (hu : Fixed w fun ρ => u.eval ρ)
    (hv : Fixed w fun ρ => v.eval ρ) :
    Builds w (mul u v) (fun w' r => Fixed w' fun ρ => r.eval ρ) fun ρ r => r.eval ρ = u.eval ρ * v.eval ρ := by
  have hconstant (v : LinearVar p) (hv : Fixed w fun ρ => v.eval ρ) (x : ZMod p) :
      Fixed w fun ρ => (v.mulConstant x).eval ρ := by
    simp only [eval_mulConstant]
    exact hv.map (· * x)
  cases u with
  | constant x => exact .pure (hconstant v hv x) fun ρ => by rw [eval_mulConstant]; exact mul_comm _ _
  | var x terms =>
    cases v with
    | constant y => exact .pure (hconstant (var x terms) hu y) fun ρ => eval_mulConstant ρ _ y
    | var y terms' =>
      refine (Circuit.assigned_builds (hu.map₂ hv (· * ·))).bind fun product w₁ _ ⟨hw₁, hvalue⟩ _ => ?_
      subst hw₁
      refine (newWitness_builds w₁ product).bind fun r w₂ hw₂ ⟨_, hr⟩ _ => ?_
      have hfixed : Fixed w₂ fun ρ => r.eval ρ := fun ρ ρ' hρ hρ' => (hr ρ hρ).trans (hr ρ' hρ').symm
      refine (Circuit.emit_builds fun ρ hρ => ?_).bind fun _ w₃ hw₃ _ _ => ?_
      · rw [hvalue ρ (hρ.of_prefix hw₂), hr ρ hρ]
      · exact .pure (hfixed.mono hw₃) fun ρ hrow _ _ => hrow.symm

theorem foldl_exponentBits (n : Nat) (x : ZMod p) :
    (exponentBits n).foldl (fun res bit => if bit then res * res * x else res * res) 1 = x ^ n := by
  have hbits := DoubleAndAdd.foldl_msbFirst_dropWhile ((List.range (n.log2 + 1)).map n.testBit).reverse
    (Additive.ofMul x)
  rw [List.reverse_reverse, Digits.ofBits_testBit, Nat.mod_eq_of_lt Nat.lt_log2_self] at hbits
  exact hbits

theorem powByConstant_builds {w : List (ZMod p)} {v : LinearVar p} (hv : Fixed w fun ρ => v.eval ρ) (n : Nat) :
    Builds w (powByConstant v n) (fun w' u => Fixed w' fun ρ => u.eval ρ) fun ρ u => u.eval ρ = v.eval ρ ^ n := by
  let f (ρ : Nat → ZMod p) (res : ZMod p) (bit : Bool) : Outcome (ZMod p) :=
    pure (if bit then res * res * v.eval ρ else res * res)
  have hstep (bit : Bool) (_ : bit ∈ exponentBits n) (w' : List (ZMod p)) (res : LinearVar p) (hw : w <+: w')
      (hres : Fixed w' fun ρ => res.eval ρ) :
      Realizes w' (do
        let res ← mul res res
        if bit then mul res v else pure res) (fun ρ => f ρ (res.eval ρ) bit) fun ρ u => u.eval ρ := by
    have hsquare : Realizes w' (mul res res) (fun ρ => (.ok (res.eval ρ * res.eval ρ) : Outcome _))
        fun ρ u => u.eval ρ := (mul_builds hres hres).realizes
    refine hsquare.bind (h := fun ρ square => .ok (if bit then square * v.eval ρ else square))
      fun square w'' hw' hs => ?_
    cases bit with
    | true => exact (mul_builds hs (hv.mono (hw.trans hw'))).realizes
    | false => exact .pure hs fun _ => rfl
  have hloop := Realizes.foldlM hstep (s := constant 1) (Circuit.fixed_const w 1)
  refine (hloop.congr fun ρ => ?_).builds
  show Except.ok (v.eval ρ ^ n) = (exponentBits n).foldlM (f ρ) 1
  rw [List.foldlM_pure, foldl_exponentBits]
  rfl

theorem enforceEqual_builds {w : List (ZMod p)} {u v : LinearVar p}
    (h : ∀ ρ, Extends w ρ → u.eval ρ = v.eval ρ) :
    Builds w (enforceEqual u v) (fun _ _ => True) fun ρ _ => u.eval ρ = v.eval ρ := by
  have hemit : Builds w (emit fun ρ => u.eval ρ = v.eval ρ : CircuitGadget p Unit) (fun _ _ => True)
      fun ρ _ => u.eval ρ = v.eval ρ :=
    (Circuit.emit_builds h).mono (fun _ _ _ _ _ => trivial) fun _ _ hρ => hρ
  cases u with
  | constant x =>
    cases v with
    | constant y =>
      have hxy : x = y := h _ (Circuit.extends_getD w)
      rw [enforceEqual, if_pos hxy]
      exact .pure trivial fun _ => hxy
    | var y terms => exact hemit
  | var x terms => cases v <;> exact hemit

instance : CircuitFpVar p (LinearVar p) where
  add := add
  zero := constant 0
  eval := eval
  isVar
    | constant _ => false
    | var _ _ => true
  newWitness := newWitness
  addConstant v x := v.add (constant x)
  mulConstant := mulConstant
  powByConstant := powByConstant
  enforceEqual := enforceEqual

instance : LawfulCircuitFpVar p (LinearVar p) where
  eval_zero _ := rfl
  eval_add := eval_add
  eval_addConstant ρ v x := eval_add ρ v (constant x)
  eval_mulConstant := eval_mulConstant
  newWitness_builds w x := (newWitness_builds w x).mono (fun _ _ _ _ ⟨⟨_, hv⟩, hvalue⟩ => ⟨by rw [hv]; rfl, hvalue⟩)
    fun _ _ _ => trivial
  powByConstant_builds := powByConstant_builds
  enforceEqual_builds := enforceEqual_builds

instance : CircuitConstant p (LinearVar p) := ⟨constant⟩

instance : LawfulCircuitConstant p (LinearVar p) := ⟨fun _ _ => rfl⟩

end LinearVar

end CryptoPrimitives
