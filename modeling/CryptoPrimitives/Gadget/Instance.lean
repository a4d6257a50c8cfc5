import CryptoPrimitives.Gadget.Field

/-!
# Instance variables

The variables of a circuit that its verifier assigns. `InstanceGadget` keeps the
assignment to them; `Allocates g inputs P` says that `g` allocates `inputs` after those
there are and returns a result with `P`. It composes along sequences and over lists.
-/

namespace CryptoPrimitives

open Synthesis (Computes)

/-- How the gadgets see that an `FpVar<F>` is allocated. -/
class FpVarAlloc (p : outParam Nat) (V : Type) [FpVar p V] where
  /-- `AllocatedFp::new_input`, as an `FpVar`. -/
  newInput : ZMod p → Gadget V
  /-- `v.cs() == ConstraintSystemRef::None`. -/
  csIsNone : V → Bool

/-- Constants have no constraint system, and variables have one. -/
class LawfulFpVarAlloc (p : outParam Nat) (V : Type) [FpVar p V] [FpVarAlloc p V] : Prop where
  newInput_computes (x : ZMod p) : Computes (FpVarAlloc.newInput x : Gadget V) fun v =>
    FpVar.value v = x ∧ FpVarAlloc.csIsNone v = false
  csIsNone_constant (x : ZMod p) : FpVarAlloc.csIsNone (FpVar.constant x : V) = true

instance {p : Nat} : FpVarAlloc p (Assigned (ZMod p)) where
  newInput x := pure (.var x)
  csIsNone
    | .constant _ => true
    | .var _ => false

instance {p : Nat} : LawfulFpVarAlloc p (Assigned (ZMod p)) where
  newInput_computes _ := .pure ⟨rfl, rfl⟩
  csIsNone_constant _ := rfl

/-- Gadgets that allocate instance variables: the state is `instance_assignment`. -/
abbrev InstanceGadget (p : Nat) := StateT (List (ZMod p)) Gadget

namespace InstanceGadget

variable {p : Nat}

/-- `FpVar::new_input`. -/
def newInput {V : Type} [FpVar p V] [FpVarAlloc p V] (x : ZMod p) : InstanceGadget p V := do
  modify (· ++ [x])
  liftM (FpVarAlloc.newInput x : Gadget V)

variable {α β : Type}

/-- `g` allocates `inputs` and returns a result with `P`. -/
def Allocates (g : InstanceGadget p α) (inputs : List (ZMod p)) (P : α → Prop) : Prop :=
  ∀ assigned, Computes (g.run assigned) fun r => r.2 = assigned ++ inputs ∧ P r.1

theorem Allocates.pure {x : α} {P : α → Prop} (h : P x) :
    Allocates (Pure.pure x : InstanceGadget p α) [] P := fun assigned =>
  .pure ⟨(List.append_nil assigned).symm, h⟩

theorem Allocates.bind {g : InstanceGadget p α} {f : α → InstanceGadget p β} {inputs inputs' : List (ZMod p)}
    {P : α → Prop} {Q : β → Prop} (hg : Allocates g inputs P) (hf : ∀ x, P x → Allocates (f x) inputs' Q) :
    Allocates (g >>= f) (inputs ++ inputs') Q := fun assigned => by
  rw [StateT.run_bind]
  refine (hg assigned).bind ?_
  rintro ⟨x, _⟩ ⟨rfl, hx⟩
  rw [← List.append_assoc]
  exact hf x hx (assigned ++ inputs)

/-- After a gadget that allocates none. -/
theorem Allocates.lift_bind {g : Gadget α} {f : α → InstanceGadget p β} {inputs : List (ZMod p)} {P : α → Prop}
    {Q : β → Prop} (hg : Computes g P) (hf : ∀ x, P x → Allocates (f x) inputs Q) :
    Allocates ((liftM g : InstanceGadget p α) >>= f) inputs Q := fun assigned => by
  show Computes ((g >>= fun x => Pure.pure (x, assigned)) >>= fun r => (f r.1).run r.2) _
  rw [bind_assoc]
  refine hg.bind fun x hx => ?_
  rw [pure_bind]
  exact hf x hx assigned

theorem Allocates.lift {g : Gadget α} {P : α → Prop} (h : Computes g P) :
    Allocates (liftM g : InstanceGadget p α) [] P := fun assigned => by
  show Computes (g >>= fun x => Pure.pure (x, assigned)) _
  exact h.bind fun x hx => .pure ⟨(List.append_nil assigned).symm, hx⟩

/-- A last step outside the circuit. -/
theorem Allocates.bind_pure {g : InstanceGadget p α} {f : α → β} {inputs : List (ZMod p)} {P : α → Prop}
    {Q : β → Prop} (hg : Allocates g inputs P) (hf : ∀ x, P x → Q (f x)) :
    Allocates (g >>= fun x => Pure.pure (f x)) inputs Q := by
  rw [← List.append_nil inputs]
  exact hg.bind fun x hx => .pure (hf x hx)

theorem newInput_allocates {V : Type} [FpVar p V] [FpVarAlloc p V] [LawfulFpVarAlloc p V] (x : ZMod p) :
    Allocates (newInput x : InstanceGadget p V) [x] fun v => FpVar.value v = x := fun assigned => by
  show Computes (FpVarAlloc.newInput x >>= fun v => Pure.pure (v, assigned ++ [x])) _
  exact (LawfulFpVarAlloc.newInput_computes x).bind fun v hv => .pure ⟨rfl, hv.1⟩

/-- A gadget run on each entry of a list, whose result has a value that the entry
determines. -/
theorem Allocates.mapM_map {γ : Type} {f : α → InstanceGadget p β} {inputs : α → List (ZMod p)} {value : β → γ}
    {g : α → γ} {xs : List α} (h : ∀ x ∈ xs, Allocates (f x) (inputs x) fun y => value y = g x) :
    Allocates (xs.mapM f) (xs.flatMap inputs) fun ys => ys.map value = xs.map g := by
  induction xs with
  | nil => exact .pure rfl
  | cons x xs ih =>
    rw [List.mapM_cons, List.flatMap_cons]
    refine (h x List.mem_cons_self).bind fun y hy => ?_
    refine (ih fun x hx => h x (List.mem_cons_of_mem _ hx)).bind_pure fun ys hys => ?_
    rw [List.map_cons, List.map_cons, hy, hys]

end InstanceGadget

end CryptoPrimitives
