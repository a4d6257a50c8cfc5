import CryptoPrimitives.Framework.Circuit
import CryptoPrimitives.Framework.Synthesis

/-!
# Runs of calls in constraint systems

Calls on a state one after the other, each of which is a circuit.

* `Run.spec`: calls that keep an invariant and mean native calls make up runs that keep it and mean native runs.
* `Run.exists_of_ready`: where the invariant holds, any calls that are admissible can follow.
-/

namespace Circuit

variable {ε ε' F κ κ' ο ο' σ σ' : Type}

/-- The runs of `call` from the values `w` and the state `s` to those after the run: the calls, the constraints they
emit, and what each returns with the state after it. Between calls, other circuits may assign further variables. -/
inductive Run (call : σ → κ → Circuit ε F (ο × σ)) (Admissible : List F → κ → Prop) :
    List F → σ → List κ → List (Constraint F) → List (ο × σ) → List F → σ → Prop where
  | done {w : List F} {s : σ} : Run call Admissible w s [] [] [] w s
  | assign {w w₁ w' : List F} {s s' : σ} {calls : List κ} {emitted : List (Constraint F)} {results : List (ο × σ)}
      (assigned : w <+: w₁) (rest : Run call Admissible w₁ s calls emitted results w' s') :
      Run call Admissible w s calls emitted results w' s'
  | call {w w₁ w' : List F} {s s' : σ} {c : κ} {calls : List κ} {constraints emitted₁ emitted : List (Constraint F)}
      {r : ο × σ} {results : List (ο × σ)} (admissible : Admissible w c)
      (head : (call s c).run ⟨w, constraints⟩ = .ok (r, ⟨w₁, constraints ++ emitted₁⟩))
      (rest : Run call Admissible w₁ r.2 calls emitted results w' s') :
      Run call Admissible w s (c :: calls) (emitted₁ ++ emitted) (r :: results) w' s'

/-- An admissible call keeps `Ready`, and under every assignment that satisfies what it emits, it is a call of
`native` on what the assignment makes of the state, the call and the result. -/
structure Means (call : σ → κ → Circuit ε F (ο × σ)) (Admissible : List F → κ → Prop) (Ready : List F → σ → Prop)
    (native : σ' → κ' → Except ε' (ο' × σ')) (stateAt : (Nat → F) → σ → σ') (callAt : (Nat → F) → κ → κ')
    (outputAt : (Nat → F) → ο → ο') : Prop where
  admissible_mono {w w' : List F} {c : κ} (hw : w <+: w') (h : Admissible w c) : Admissible w' c
  ready_mono {w w' : List F} {s : σ} (hw : w <+: w') (h : Ready w s) : Ready w' s
  builds {w : List F} {s : σ} {c : κ} (hs : Ready w s) (hc : Admissible w c) :
    Builds w (call s c) (fun w' r => Ready w' r.2) fun ρ r =>
      native (stateAt ρ s) (callAt ρ c) = .ok (outputAt ρ r.1, stateAt ρ r.2)

section

variable {call : σ → κ → Circuit ε F (ο × σ)} {Admissible : List F → κ → Prop} {Ready : List F → σ → Prop}
  {native : σ' → κ' → Except ε' (ο' × σ')} {stateAt : (Nat → F) → σ → σ'} {callAt : (Nat → F) → κ → κ'}
  {outputAt : (Nat → F) → ο → ο'} {w w' : List F} {s s' : σ} {calls : List κ} {emitted : List (Constraint F)}
  {results : List (ο × σ)}

/-- The values assigned in a run satisfy what it emits, and whatever satisfies that gives the native run. -/
theorem Run.spec (hmeans : Means call Admissible Ready native stateAt callAt outputAt)
    (hrun : Run call Admissible w s calls emitted results w' s') (hs : Ready w s) :
    w <+: w' ∧ Ready w' s' ∧ (∀ ρ, Extends w' ρ → Satisfies ρ emitted) ∧ ∀ ρ, Satisfies ρ emitted →
      trace native (stateAt ρ s) (calls.map (callAt ρ)) = .ok (results.map (Prod.map (outputAt ρ) (stateAt ρ))) := by
  induction hrun with
  | done => exact ⟨List.prefix_refl _, hs, fun _ _ => nofun, fun _ _ => rfl⟩
  | assign assigned rest ih =>
    obtain ⟨hw, hready, hhonest, hsound⟩ := ih (hmeans.ready_mono assigned hs)
    exact ⟨assigned.trans hw, hready, hhonest, hsound⟩
  | call admissible head rest ih =>
    obtain ⟨hw, hready, hhonest, hsound⟩ := (hmeans.builds hs admissible).of_run head
    obtain ⟨hw', hready', hhonest', hsound'⟩ := ih hready
    refine ⟨hw.trans hw', hready', fun ρ hρ => ?_, fun ρ hρ => ?_⟩
    · exact satisfies_append.mpr ⟨hhonest ρ (hρ.of_prefix hw'), hhonest' ρ hρ⟩
    · obtain ⟨hρ, hρ'⟩ := satisfies_append.mp hρ
      rw [List.map_cons, trace, hsound ρ hρ, Except.ok_bind, hsound' ρ hρ']
      rfl

/-- Calls that are admissible can follow. -/
theorem Run.exists_of_ready (hmeans : Means call Admissible Ready native stateAt callAt outputAt) (hs : Ready w s)
    (hcalls : ∀ c ∈ calls, Admissible w c) :
    ∃ emitted results w' s', Run call Admissible w s calls emitted results w' s' := by
  induction calls generalizing w s with
  | nil => exact ⟨[], [], w, s, .done⟩
  | cons c calls ih =>
    obtain ⟨hc, hcalls⟩ := List.forall_mem_cons.mp hcalls
    obtain ⟨r, w₁, emitted₁, hrun, hw, hready, -⟩ := hmeans.builds hs hc []
    obtain ⟨emitted, results, w', s', hrest⟩ := ih hready fun c hc => hmeans.admissible_mono hw (hcalls c hc)
    exact ⟨emitted₁ ++ emitted, r :: results, w', s', .call hc hrun hrest⟩

end

end Circuit
