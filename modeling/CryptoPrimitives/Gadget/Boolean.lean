import CryptoPrimitives.Framework.Synthesis
import CryptoPrimitives.Rust.Outcome

/-!
# What the gadgets use of `ark-relations` and `ark-r1cs-std`

The errors and modes of synthesis, and `Boolean<F>` by the value it has. A gadget
may also panic, as the native code it calls: `SynthesisFault`. The other types of
variables are parameters of the gadgets; `Assigned` can stand for each of them.
-/

namespace CryptoPrimitives

open Synthesis (Computes Mirrors Rejects)

/-- `SynthesisError`, as far as the gadgets raise it. -/
inductive SynthesisError where
  | assignmentMissing
  | unsatisfiable
deriving DecidableEq, Repr

/-- Why a gadget returns no variable. -/
inductive SynthesisFault where
  | err (e : SynthesisError)
  | native (f : Fault)
deriving DecidableEq, Repr

instance : Faults SynthesisFault := ⟨.native⟩

abbrev Gadget := Synthesis SynthesisFault

/-- A gadget panics where the code it calls does. -/
instance : MonadLift Outcome Gadget where
  monadLift
    | .ok x => pure x
    | .error f => Synthesis.fail (.native f)

theorem computes_liftM {α : Type} {x : Outcome α} {a : α} {P : α → Prop} (hx : x = .ok a) (h : P a) :
    Computes (liftM x : Gadget α) P := by
  rw [hx]
  exact Computes.pure h

/-- Native code that returns a value, and then a gadget. -/
theorem computes_liftM_bind {α β : Type} {x : Outcome α} {a : α} {k : α → Gadget β} {P : β → Prop} (hx : x = .ok a)
    (h : Computes (k a) P) : Computes (liftM x >>= k) P :=
  (computes_liftM hx rfl).bind fun b (hb : a = b) => by rwa [← hb]

theorem rejects_liftM {α : Type} {x : Outcome α} {f : Fault} (hx : x = .error f) : Rejects (liftM x : Gadget α) := by
  rw [hx]
  exact Rejects.fail (SynthesisFault.native f)

/-- Native code, and a gadget that returns nothing after it. -/
theorem rejects_liftM_bind {α β : Type} {x : Outcome α} {k : α → Gadget β} (h : ∀ a, x = .ok a → Rejects (k a)) :
    Rejects (liftM x >>= k) := by
  cases hx : x with
  | error f => exact (rejects_liftM rfl).bind k
  | ok a => exact (computes_liftM rfl rfl).bind_rejects fun b (hb : a = b) => hb ▸ h a hx

section

variable {α β : Type} {c : Bool} {message : String} {k : Unit → Gadget β}

/-- Assertions that hold. -/
theorem computes_assert_bind {P : β → Prop} (hc : c = true) (h : Computes (k ()) P) :
    Computes (liftM (assert c message : Outcome Unit) >>= k) P :=
  computes_liftM_bind (assert_eq_ok.mpr hc) h

theorem computes_assertEq_bind [DecidableEq α] {a b : α} {P : β → Prop} (hab : a = b) (h : Computes (k ()) P) :
    Computes (liftM (assertEq a b : Outcome Unit) >>= k) P :=
  computes_liftM_bind (assertEq_eq_ok.mpr hab) h

end

theorem mirrors_liftM {α β : Type} {x : Outcome α} {y : Outcome β} {R : α → β → Prop}
    (h : ∀ a, x = .ok a → ∃ b, y = .ok b ∧ R a b) : Mirrors x (liftM y : Gadget β) R := fun a ha => by
  obtain ⟨b, hy, hb⟩ := h a ha
  exact computes_liftM hy hb

/-- The native code itself, run in a gadget. -/
theorem mirrors_liftM_self {α : Type} (x : Outcome α) : Mirrors x (liftM x : Gadget α) Eq :=
  mirrors_liftM fun a h => ⟨a, h, rfl⟩

theorem mirrors_self_bind {α β γ : Type} {x : Outcome α} {f : α → Outcome β} {k : α → Gadget γ} {R : β → γ → Prop}
    (h : ∀ a, Mirrors (f a) (k a) R) : Mirrors (x >>= f) (liftM x >>= k) R :=
  (mirrors_liftM_self x).bind fun a b (hab : a = b) => by
    rw [← hab]
    exact h a

/-- Entries of the values of variables, and slices of them. -/
theorem index_mirrors {α β : Type} (f : α → β) (xs : List α) (i : Nat) :
    Mirrors (index (xs.map f) i : Outcome β) (liftM (index xs i : Outcome α) : Gadget α) fun y v => f v = y :=
  mirrors_liftM fun y h => by rwa [index_map, Except.map_eq_ok] at h

theorem slice_mirrors {α β : Type} (f : α → β) (xs : List α) (start stop : Nat) :
    Mirrors (slice (xs.map f) start stop : Outcome (List β)) (liftM (slice xs start stop : Outcome _) : Gadget _)
      fun ys vs => vs.map f = ys :=
  mirrors_liftM fun ys h => by rwa [slice_map, Except.map_eq_ok] at h

/-- `AllocationMode`. -/
inductive AllocationMode where
  | constant
  | input
  | witness
deriving DecidableEq, Repr

/-- `Boolean<F>`: a constant, or a variable with the value assigned to it. -/
inductive Boolean where
  | constant (b : Bool)
  | var (b : Bool)
deriving DecidableEq, Repr

namespace Boolean

/-- `Boolean::TRUE`. -/
def TRUE : Boolean := constant true

def value : Boolean → Bool
  | constant b => b
  | var b => b

@[simp] theorem value_TRUE : TRUE.value = true := rfl

/-- `Boolean::new_variable`. A variable is constrained to 0 or 1. -/
def newVariable (b : Bool) : AllocationMode → Gadget Boolean
  | .constant => pure (constant b)
  | _ => do
    Synthesis.enforce (b == true || b == false)
    pure (var b)

/-- `EqGadget::enforce_equal`. Two constants that differ are an error. -/
def enforceEqual : Boolean → Boolean → Gadget Unit
  | constant a, constant b => if a = b then pure () else Synthesis.fail (.err .unsatisfiable)
  | a, b => Synthesis.enforce (a.value == b.value)

/-- `&`. -/
def and : Boolean → Boolean → Boolean
  | constant false, _ => constant false
  | constant true, b => b
  | var _, constant false => constant false
  | var a, constant true => var a
  | var a, var b => var (a && b)

@[simp] theorem value_and (a b : Boolean) : (a.and b).value = (a.value && b.value) := by
  cases a with
  | constant a => cases a <;> rfl
  | var a =>
    cases b with
    | constant b => cases b <;> simp [and, value]
    | var b => rfl

theorem newVariable_computes (b : Bool) (mode : AllocationMode) :
    Synthesis.Computes (newVariable b mode) fun v => v.value = b := by
  cases mode with
  | constant => exact .pure rfl
  | _ => exact (Synthesis.Computes.enforce (by cases b <;> rfl)).bind fun _ _ => .pure rfl

/-- The constraint of `enforce_equal` holds exactly for equal values. -/
theorem enforceEqual_run (a b : Boolean) (s : Bool) :
    (enforceEqual a b).run s = .ok ((), true) ↔ s = true ∧ a.value = b.value := by
  have hvar (a b : Bool) :
      (Synthesis.enforce (a == b) : Gadget Unit).run s = .ok ((), true) ↔ s = true ∧ a = b := by
    rw [show (Synthesis.enforce (a == b) : Gadget Unit).run s = .ok ((), s && (a == b)) from rfl]
    simp
  cases a with
  | constant a =>
    cases b with
    | constant b =>
      by_cases h : a = b
      · rw [enforceEqual, if_pos h]
        show (.ok ((), s) : Except SynthesisFault _) = .ok ((), true) ↔ s = true ∧ a = b
        simp [h]
      · rw [enforceEqual, if_neg h]
        show (.error _ : Except SynthesisFault _) = .ok ((), true) ↔ s = true ∧ a = b
        simp [h]
    | var b => exact hvar a b
  | var a => cases b <;> exact hvar a _

end Boolean

/-! ## Assigned variables -/

/-- A constant, or a variable with the value assigned to it: the plainest type of
variables that a gadget can run on. -/
inductive Assigned (α : Type) where
  | constant (x : α)
  | var (x : α)

namespace Assigned

variable {α β γ : Type}

def value : Assigned α → α
  | constant x => x
  | var x => x

/-- An operation on a value; it leads from a constant to a constant. -/
def map (f : α → β) : Assigned α → Assigned β
  | constant x => constant (f x)
  | var x => var (f x)

def map₂ (f : α → β → γ) : Assigned α → Assigned β → Assigned γ
  | constant x, constant y => constant (f x y)
  | v, w => var (f v.value w.value)

@[simp] theorem value_map (f : α → β) (v : Assigned α) : (v.map f).value = f v.value := by
  cases v <;> rfl

@[simp] theorem value_map₂ (f : α → β → γ) (v : Assigned α) (w : Assigned β) :
    (v.map₂ f w).value = f v.value w.value := by
  cases v <;> cases w <;> rfl

end Assigned

end CryptoPrimitives
