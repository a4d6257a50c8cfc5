import CryptoPrimitives.Gadget.BooleanVar

/-!
# Instance variables in a constraint system

The variables of a circuit that its verifier assigns. `InstanceCircuit` keeps those that
are allocated; `Records w g H S` says that `g` allocates some after those there are, and
what it builds with them. It composes along sequences (`Records.bind`) and over lists
(`Records.mapM`).
-/

namespace CryptoPrimitives

open Circuit (Builds Extends)
open CircuitFpVar (eval)

/-- Circuits that allocate instance variables: the state are these. -/
abbrev InstanceCircuit (p : Nat) (V : Type) := StateT (List V) (CircuitGadget p)

namespace InstanceCircuit

variable {p : Nat} {V α β : Type}

/-- `FpVar::new_input`. -/
def newInput [CircuitFpVar p V] [CircuitFpVarBits p V] (x : ZMod p) : InstanceCircuit p V V := do
  let v ← liftM (CircuitFpVarBits.newInput x : CircuitGadget p V)
  modify (· ++ [v])
  pure v

/-- What `g` builds, with the instance variables that it adds. -/
def Records (w : List (ZMod p)) (g : InstanceCircuit p V α) (H : List (ZMod p) → α → List V → Prop)
    (S : (Nat → ZMod p) → α → List V → Prop) : Prop :=
  ∀ inputs, Builds w (g.run inputs) (fun w' r => ∃ added, r.2 = inputs ++ added ∧ H w' r.1 added)
    fun ρ r => ∃ added, r.2 = inputs ++ added ∧ S ρ r.1 added

section

variable {w : List (ZMod p)} {g : InstanceCircuit p V α} {k : α → InstanceCircuit p V β}
  {H : List (ZMod p) → α → List V → Prop} {H' : List (ZMod p) → β → List V → Prop}
  {S : (Nat → ZMod p) → α → List V → Prop} {S' : (Nat → ZMod p) → β → List V → Prop}

theorem Records.pure {x : α} (hH : H w x []) (hS : ∀ ρ, S ρ x []) :
    Records w (Pure.pure x : InstanceCircuit p V α) H S := fun inputs =>
  Builds.pure (x := (x, inputs)) ⟨[], (List.append_nil inputs).symm, hH⟩ fun ρ =>
    ⟨[], (List.append_nil inputs).symm, hS ρ⟩

theorem Records.bind (hg : Records w g H S)
    (hk : ∀ x added w', w <+: w' → H w' x added → (∀ ρ, Extends w' ρ → S ρ x added) →
      Records w' (k x) (fun w'' y added' => H' w'' y (added ++ added'))
        fun ρ y added' => S ρ x added → S' ρ y (added ++ added')) :
    Records w (g >>= k) H' S' := fun inputs => by
  rw [StateT.run_bind]
  refine (hg inputs).bind ?_
  intro r w' hw h hS
  obtain ⟨x, outputs⟩ := r
  obtain ⟨added, rfl, hx⟩ := h
  have hcancel (ρ : Nat → ZMod p) (h : ∃ added', inputs ++ added = inputs ++ added' ∧ S ρ x added') : S ρ x added := by
    obtain ⟨added', heq, hx⟩ := h
    rwa [List.append_cancel_left heq]
  refine (hk x added w' hw hx (fun ρ hρ => hcancel ρ (hS ρ hρ)) (inputs ++ added)).mono ?_ ?_
  · intro w'' r _ _ h
    obtain ⟨added', hadded', hy⟩ := h
    exact ⟨added ++ added', by rw [hadded', List.append_assoc], hy⟩
  · intro ρ r h hx
    obtain ⟨added', hadded', hy⟩ := h
    exact ⟨added ++ added', by rw [hadded', List.append_assoc], hy (hcancel ρ hx)⟩

/-- After a gadget that allocates none. -/
theorem Records.lift_bind {g : CircuitGadget p α} {H : List (ZMod p) → α → Prop} {S : (Nat → ZMod p) → α → Prop}
    (hg : Builds w g H S)
    (hk : ∀ x w', w <+: w' → H w' x → (∀ ρ, Extends w' ρ → S ρ x) →
      Records w' (k x) H' fun ρ y added => S ρ x → S' ρ y added) :
    Records w ((liftM g : InstanceCircuit p V α) >>= k) H' S' := fun inputs => by
  show Builds w ((g >>= fun x => Pure.pure (x, inputs)) >>= fun r => (k r.1).run r.2) _ _
  rw [bind_assoc]
  refine hg.bind fun x w' hw hx hS => ?_
  rw [pure_bind]
  refine (hk x w' hw hx hS inputs).mono (fun _ _ _ _ h => h) ?_
  intro ρ r h hx
  obtain ⟨added, hadded, hy⟩ := h
  exact ⟨added, hadded, hy hx⟩

/-- Native code that returns a value, and then a gadget. -/
theorem records_liftM_bind {x : Outcome α} {a : α} (hx : x = .ok a) (h : Records w (k a) H' S') :
    Records w ((liftM x : InstanceCircuit p V α) >>= k) H' S' := by
  rw [hx]
  exact h

/-- Circuits that add an instance variable each, run on each entry of a list. -/
theorem Records.mapM {k : α → InstanceCircuit p V β} {H : List (ZMod p) → α → V → Prop}
    {S : (Nat → ZMod p) → α → β → V → Prop} {xs : List α}
    (hmono : ∀ w₁ w₂ x v, w₁ <+: w₂ → H w₁ x v → H w₂ x v)
    (h : ∀ x ∈ xs, ∀ w', w <+: w' → Records w' (k x) (fun w'' _ added => ∃ v, added = [v] ∧ H w'' x v)
      fun ρ y added => ∃ v, added = [v] ∧ S ρ x y v) :
    Records w (xs.mapM k) (fun w' _ added => List.Forall₂ (H w') xs added) fun ρ ys added =>
      List.Forall₂ (fun y r => S ρ r.1 y r.2) ys (xs.zip added) := by
  induction xs generalizing w with
  | nil => exact .pure .nil fun _ => .nil
  | cons x xs ih =>
    rw [List.mapM_cons]
    refine (h x List.mem_cons_self w (List.prefix_refl w)).bind ?_
    intro y first w₁ hw₁ hfirst _
    obtain ⟨v, rfl, hv⟩ := hfirst
    refine (ih fun z hz w₂ hw₂ => h z (List.mem_cons_of_mem _ hz) w₂ (hw₁.trans hw₂)).bind ?_
    intro ys added w₂ hw₂ hadded _
    refine .pure ?_ ?_
    · rw [List.append_nil]
      exact .cons (hmono _ _ _ _ hw₂ hv) hadded
    · intro ρ hys hfirst
      obtain ⟨v', heq, hy⟩ := hfirst
      obtain rfl := List.singleton_inj.mp heq
      rw [List.append_nil]
      exact .cons hy hys

theorem newInput_records [CircuitFpVar p V] [CircuitFpVarBits p V] [LawfulCircuitFpVarBits p V] (w : List (ZMod p))
    (x : ZMod p) :
    Records w (newInput x : InstanceCircuit p V V)
      (fun w' v added => added = [v] ∧ ∀ ρ, Extends w' ρ → eval ρ v = x) fun _ v added => added = [v] := by
  unfold newInput
  refine .lift_bind (LawfulCircuitFpVarBits.newInput_builds w x) fun v w' _ hv _ inputs => ?_
  exact Builds.pure (x := (v, inputs ++ [v])) ⟨[v], rfl, rfl, hv⟩ fun _ => ⟨[v], rfl, fun _ => rfl⟩

end

end InstanceCircuit

end CryptoPrimitives
