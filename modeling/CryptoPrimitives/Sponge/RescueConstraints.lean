import CryptoPrimitives.Gadget.Circuit
import CryptoPrimitives.Sponge.Rescue
import Mathlib.FieldTheory.Finite.Basic

/-!
# The gadget of the Rescue permutation

`rescue/constraints.rs`, over variables `V` with the operations of `FpVar<F>`. The output of
an inverse S-box is a variable of its own, which only its power is constrained with:

* `pow_pow_inverse`: inverse exponents undo each other, so that the power determines it;
* `applySBox_realizes`: both branches of `apply_s_box` apply the S-box of the native code;
* `permute_realizes`: what satisfies the constraints of `permute` permutes.
-/

namespace CryptoPrimitives.Sponge

open Circuit (Builds Extends Fixed Realizes fixed_list)
open CircuitFpVar (eval isVar newWitness addConstant mulConstant powByConstant enforceEqual)

/-- `RESCUE_PREDICATE`. -/
def RESCUE_PREDICATE : String := "Deg5-Mul"

namespace RescueSpongeVar

section

variable {p : Nat} {V : Type} [CircuitFpVar p V] (predicates : String → Option (ZMod p → ZMod p → Prop))
  (parameters : RescueConfig (ZMod p))

/-- The loop body of a forward pass with the predicate. -/
def forwardPredicate (stateItem : V) : CircuitGadget p V :=
  if isVar stateItem then do
    let value ← circuitValue stateItem
    let newStateItem ← newWitness (value ^ parameters.alpha)
    if isVar newStateItem then do
      enforceConstraintArity2 predicates RESCUE_PREDICATE stateItem newStateItem
      pure newStateItem
    else Circuit.fail (.err .assignmentMissing)
  else powByConstant stateItem parameters.alpha

/-- The loop body of an inverse pass with the predicate, whose arguments change places. -/
def inversePredicate (stateItem : V) : CircuitGadget p V :=
  if isVar stateItem then do
    let value ← circuitValue stateItem
    let newStateItem ← newWitness (value ^ parameters.alphaInv)
    if isVar newStateItem then do
      enforceConstraintArity2 predicates RESCUE_PREDICATE newStateItem stateItem
      pure newStateItem
    else Circuit.fail (.err .assignmentMissing)
  else powByConstant stateItem parameters.alphaInv

/-- The loop body of an inverse pass without the predicate. -/
def inverseWitness (alpha : Nat) (stateItem : V) : CircuitGadget p V := do
  let value ← circuitValue stateItem
  let output ← newWitness (value ^ parameters.alphaInv)
  let expectedInput ← powByConstant output alpha
  enforceEqual expectedInput stateItem
  pure output

/-- `apply_s_box`. -/
def applySBox (state : List V) (alpha : Nat) (isForwardPass : Bool) : CircuitGadget p (List V) :=
  if alpha = 5 ∧ (predicates RESCUE_PREDICATE).isSome then
    if isForwardPass then state.mapM (forwardPredicate predicates parameters)
    else state.mapM (inversePredicate predicates parameters)
  else if isForwardPass then state.mapM fun stateItem => powByConstant stateItem parameters.alpha
  else state.mapM (inverseWitness parameters alpha)

/-- `apply_ark`. -/
def applyArk (state : List V) (roundKey : List (ZMod p)) : CircuitGadget p (List V) :=
  state.zipIdx.mapM fun entry => do
    let key ← liftM (index roundKey entry.2 : Outcome (ZMod p))
    pure (addConstant entry.1 key)

/-- `apply_mds`. -/
def applyMds (state : List V) : CircuitGadget p (List V) :=
  (List.range state.length).mapM fun i =>
    state.zipIdx.foldlM (fun cur entry => do
      let row ← liftM (index parameters.mds i : Outcome (List (ZMod p)))
      let coefficient ← liftM (index row entry.2 : Outcome (ZMod p))
      pure (cur + mulConstant entry.1 coefficient)) 0

/-- A round of `permute`, with its key and number. -/
def round (state : List V) (entry : List (ZMod p) × Nat) : CircuitGadget p (List V) := do
  let state ← applySBox predicates parameters state parameters.alpha (!(entry.2 % 2 == 0))
  let state ← applyMds parameters state
  applyArk state entry.1

/-- `RescueSpongeVar::permute`. -/
def permute (state : List V) : CircuitGadget p (List V) := do
  let first ← liftM (index parameters.arc 0 : Outcome (List (ZMod p)))
  let state ← applyArk state first
  let roundKeys ← liftM (slice parameters.arc 1 parameters.arc.length : Outcome (List (List (ZMod p))))
  roundKeys.zipIdx.foldlM (round predicates parameters) state

/-- The permutation the gadget of these parameters is over. -/
def duplex : Duplex (CircuitGadget p) V := ⟨parameters.rate, parameters.capacity, permute predicates parameters⟩

end

/-! ## The S-box -/

section

variable {p : Nat} [Fact p.Prime] {V : Type} [CircuitFpVar p V] [LawfulCircuitFpVar p V]
  {predicates : String → Option (ZMod p → ZMod p → Prop)} {parameters : RescueConfig (ZMod p)}

/-- The exponents are inverse modulo `p - 1`: their product is one more than a multiple of it. -/
def InverseExponents (p m n : Nat) : Prop := ∃ k, m * n = (p - 1) * k + 1

theorem InverseExponents.symm {p m n : Nat} (h : InverseExponents p m n) : InverseExponents p n m := by
  rwa [InverseExponents, mul_comm]

/-- A congruence says so, but for zero exponents over the field of two elements. -/
theorem inverseExponents_iff {p m n : Nat} (hp : 2 < p) : InverseExponents p m n ↔ m * n ≡ 1 [MOD p - 1] := by
  constructor
  · rintro ⟨k, hk⟩
    rw [hk, Nat.ModEq, Nat.mul_add_mod]
  · intro h
    have hpos : 1 ≤ m * n := by
      by_contra hzero
      rw [Nat.ModEq, show m * n = 0 by omega, Nat.zero_mod, Nat.mod_eq_of_lt (by omega)] at h
      exact absurd h zero_ne_one
    obtain ⟨k, hk⟩ := (Nat.modEq_iff_dvd' hpos).mp h.symm
    exact ⟨k, by omega⟩

/-- Inverse exponents undo each other, also on zero. -/
theorem pow_pow_inverse {m n : Nat} (h : InverseExponents p m n) (x : ZMod p) : (x ^ m) ^ n = x := by
  obtain ⟨k, hk⟩ := h
  rw [← pow_mul, hk]
  by_cases hx : x = 0
  · rw [hx, zero_pow (Nat.succ_ne_zero _)]
  · rw [pow_succ, pow_mul, ZMod.pow_card_sub_one_eq_one hx, one_pow, one_mul]

/-- The S-boxes of these parameters are inverse, and the predicate is the power 5. -/
structure Inverse (predicates : String → Option (ZMod p → ZMod p → Prop)) (parameters : RescueConfig (ZMod p)) :
    Prop where
  exponents : InverseExponents p parameters.alpha parameters.alphaInv
  predicate_iff (holds : ZMod p → ZMod p → Prop) (h : predicates RESCUE_PREDICATE = some holds) (x y : ZMod p) :
    holds x y ↔ y = x ^ 5

variable (hi : Inverse predicates parameters) {w : List (ZMod p)} {stateItem : V}
  (hv : Fixed w fun ρ => eval ρ stateItem)

include hi in
theorem Inverse.pow_alpha (x : ZMod p) : (x ^ parameters.alphaInv) ^ parameters.alpha = x :=
  pow_pow_inverse hi.exponents.symm x

include hi in
theorem Inverse.eq_pow_alphaInv {x y : ZMod p} (h : x = y ^ parameters.alpha) : y = x ^ parameters.alphaInv := by
  rw [h, pow_pow_inverse hi.exponents]

omit [Fact p.Prime] in
include hv in
/-- A new witness, assigned what `f` makes of the value of an item. -/
theorem newWitness_value_builds {f : ZMod p → ZMod p} {k : V → CircuitGadget p V} {H : List (ZMod p) → V → Prop}
    {S : (Nat → ZMod p) → V → Prop}
    (hk : ∀ w' y, w <+: w' → isVar y = true → (Fixed w' fun ρ => eval ρ y) →
      (∀ ρ, Extends w' ρ → eval ρ y = f (eval ρ stateItem)) → Builds w' (k y) H S) :
    Builds w (do
      let value ← circuitValue stateItem
      let y ← newWitness (f value)
      k y) H S := by
  refine (Circuit.assigned_builds hv).bind fun value w₁ _ ⟨hw₁, hvalue⟩ _ => ?_
  subst hw₁
  refine (LawfulCircuitFpVar.newWitness_builds w₁ _).bind fun y w₂ hw₂ ⟨hvar, hy⟩ _ => ?_
  have hfixed : Fixed w₂ fun ρ => eval ρ y := fun ρ ρ' hρ hρ' => (hy ρ hρ).trans (hy ρ' hρ').symm
  refine (hk w₂ y hw₂ hvar hfixed fun ρ hρ => ?_).mono (fun _ _ _ _ h => h) fun _ _ h _ _ => h
  rw [hy ρ hρ, hvalue ρ (hρ.of_prefix hw₂)]

include hv in
/-- A loop body with the predicate on `x` and `y` of the new witness, where it says that
the new item is a power of the old one. -/
theorem predicateWitness_builds {holds : ZMod p → ZMod p → Prop} (hholds : predicates RESCUE_PREDICATE = some holds)
    {e : Nat} (x y : V → V)
    (hrow : ∀ ρ item, holds (eval ρ (x item)) (eval ρ (y item)) ↔ eval ρ item = eval ρ stateItem ^ e) :
    Builds w (if isVar stateItem then do
        let value ← circuitValue stateItem
        let newStateItem ← newWitness (value ^ e)
        if isVar newStateItem then do
          enforceConstraintArity2 predicates RESCUE_PREDICATE (x newStateItem) (y newStateItem)
          pure newStateItem
        else Circuit.fail (.err .assignmentMissing)
      else powByConstant stateItem e) (fun w' item => Fixed w' fun ρ => eval ρ item) fun ρ item =>
      eval ρ item = eval ρ stateItem ^ e := by
  split
  · refine newWitness_value_builds hv fun w₁ item _ hvar hfixed hitem => ?_
    rw [if_pos hvar]
    refine (enforceConstraintArity2_builds hholds fun ρ hρ => ?_).bind fun _ w₂ hw₂ _ _ => ?_
    · exact (hrow ρ item).mpr (hitem ρ hρ)
    · exact .pure (hfixed.mono hw₂) fun ρ hholds => (hrow ρ item).mp hholds
  · exact LawfulCircuitFpVar.powByConstant_builds hv _

include hi hv in
theorem forwardPredicate_builds {holds : ZMod p → ZMod p → Prop} (hholds : predicates RESCUE_PREDICATE = some holds)
    (halpha : parameters.alpha = 5) :
    Builds w (forwardPredicate predicates parameters stateItem) (fun w' y => Fixed w' fun ρ => eval ρ y) fun ρ y =>
      eval ρ y = eval ρ stateItem ^ parameters.alpha := by
  have hmeans := hi.predicate_iff holds hholds
  rw [← halpha] at hmeans
  exact predicateWitness_builds hv hholds (fun _ => stateItem) (fun y => y) fun ρ y => hmeans _ _

include hi hv in
theorem inversePredicate_builds {holds : ZMod p → ZMod p → Prop} (hholds : predicates RESCUE_PREDICATE = some holds)
    (halpha : parameters.alpha = 5) :
    Builds w (inversePredicate predicates parameters stateItem) (fun w' y => Fixed w' fun ρ => eval ρ y) fun ρ y =>
      eval ρ y = eval ρ stateItem ^ parameters.alphaInv := by
  have hmeans := hi.predicate_iff holds hholds
  rw [← halpha] at hmeans
  -- the predicate says that the old item is the power of the new one
  refine predicateWitness_builds hv hholds (fun y => y) (fun _ => stateItem) fun ρ y => ?_
  rw [hmeans]
  constructor
  · exact hi.eq_pow_alphaInv
  · intro hy
    rw [hy, hi.pow_alpha]

include hi hv in
theorem inverseWitness_builds :
    Builds w (inverseWitness parameters parameters.alpha stateItem) (fun w' y => Fixed w' fun ρ => eval ρ y) fun ρ y =>
      eval ρ y = eval ρ stateItem ^ parameters.alphaInv := by
  refine newWitness_value_builds hv fun w₁ y _ _ hfixed hy => ?_
  refine (LawfulCircuitFpVar.powByConstant_builds hfixed _).bind fun expected w₂ hw₂ _ hexpected => ?_
  refine (LawfulCircuitFpVar.enforceEqual_builds fun ρ hρ => ?_).bind fun _ w₃ hw₃ _ _ => ?_
  · rw [hexpected ρ hρ, hy ρ (hρ.of_prefix hw₂), hi.pow_alpha]
  · refine .pure (hfixed.mono (hw₂.trans hw₃)) fun ρ hequal hpower => hi.eq_pow_alphaInv ?_
    rw [← hequal, hpower]

include hi in
/-- Both branches apply the S-box of the native code. -/
theorem applySBox_realizes {state : List V} (hs : Fixed w fun ρ => state.map (eval ρ)) (round : Nat) :
    Realizes w (applySBox predicates parameters state parameters.alpha (!(round % 2 == 0)))
      (fun ρ => (.ok (parameters.applySBox (state.map (eval ρ)) round) : Outcome _)) fun ρ s => s.map (eval ρ) := by
  -- what each entry becomes, all entries become
  have hmap (k : V → CircuitGadget p V) (e : Nat)
      (hk : ∀ w v, (Fixed w fun ρ => eval ρ v) → Builds w (k v) (fun w' y => Fixed w' fun ρ => eval ρ y) fun ρ y =>
        eval ρ y = eval ρ v ^ e) :
      Realizes w (state.mapM k) (fun ρ => (.ok ((state.map (eval ρ)).map (· ^ e)) : Outcome _))
        fun ρ s => s.map (eval ρ) := by
    have hmapM : Realizes w (state.mapM k) (fun ρ => (state.map (eval ρ)).mapM fun x => (.ok (x ^ e) : Outcome _))
        fun ρ s => s.map (eval ρ) :=
      Realizes.mapM (fixed_list.mp hs) fun v _ w' _ hv => (hk w' v hv).realizes
    exact hmapM.congr fun ρ => (Except.mapM_eq_map fun x _ => rfl).symm
  have hpow (w : List (ZMod p)) (v : V) (hv : Fixed w fun ρ => eval ρ v) :=
    LawfulCircuitFpVar.powByConstant_builds hv parameters.alpha
  rw [applySBox]
  by_cases hround : round % 2 = 0
  · simp only [RescueConfig.applySBox, hround, beq_self_eq_true, Bool.not_true, Bool.false_eq_true, if_false, if_true]
    split
    · rename_i hbranch
      obtain ⟨holds, hholds⟩ := Option.isSome_iff_exists.mp hbranch.2
      exact hmap _ _ fun w v hv => inversePredicate_builds hi hv hholds hbranch.1
    · exact hmap _ _ fun w v hv => inverseWitness_builds hi hv
  · simp only [RescueConfig.applySBox, hround, Bool.not_eq_true', beq_eq_false_iff_ne, ne_eq, not_false_eq_true,
      if_false, if_true]
    split
    · rename_i hbranch
      obtain ⟨holds, hholds⟩ := Option.isSome_iff_exists.mp hbranch.2
      exact hmap _ _ fun w v hv => forwardPredicate_builds hi hv hholds hbranch.1
    · exact hmap _ _ hpow

/-! ## The permutation -/

omit [Fact p.Prime] [LawfulCircuitFpVar p V] in
theorem fixed_zipIdx {state : List V} (hs : Fixed w fun ρ => state.map (eval ρ)) :
    ∀ entry ∈ state.zipIdx, Fixed w fun ρ => Prod.map (eval ρ) id entry := fun entry hentry ρ ρ' hρ hρ' =>
  Prod.ext (fixed_list.mp hs entry.1 (List.fst_mem_of_mem_zipIdx hentry) ρ ρ' hρ hρ') rfl

omit [Fact p.Prime] in
theorem applyArk_realizes {state : List V} (hs : Fixed w fun ρ => state.map (eval ρ)) {row : Nat}
    {keys : List (ZMod p)} (hrow : parameters.arc[row]? = some keys) :
    Realizes w (applyArk state keys) (fun ρ => parameters.applyArc (state.map (eval ρ)) row) fun ρ s =>
      s.map (eval ρ) := by
  have hnative (ρ : Nat → ZMod p) : parameters.applyArc (state.map (eval ρ)) row =
      (state.zipIdx.map (Prod.map (eval ρ) id)).mapM (fun entry => index keys entry.2 >>= fun key =>
        pure (entry.1 + key) : ZMod p × Nat → Outcome (ZMod p)) := by
    simp only [RescueConfig.applyArc, addRow, List.zipIdx_map, index_eq_ok.mpr hrow, Except.ok_bind]
  refine Realizes.congr (Realizes.mapM (fixed_zipIdx hs) fun entry _ w' _ hentry => ?_) hnative
  refine (realizes_self w' (index keys entry.2)).bind fun key w'' hw hkey => ?_
  refine .pure ?_ fun ρ => ?_
  · simp only [LawfulCircuitFpVar.eval_addConstant]
    exact (hentry.mono hw).map fun e => e.1 + key
  · rw [LawfulCircuitFpVar.eval_addConstant]
    rfl

omit [Fact p.Prime] in
theorem applyMds_realizes {state : List V} (hs : Fixed w fun ρ => state.map (eval ρ)) :
    Realizes w (applyMds parameters state) (fun ρ => parameters.applyMds (state.map (eval ρ))) fun ρ s =>
      s.map (eval ρ) := by
  have hnative (ρ : Nat → ZMod p) : parameters.applyMds (state.map (eval ρ)) =
      ((List.range state.length).map id).mapM (fun i => state.zipIdx.foldlM (fun cur entry =>
        index parameters.mds i >>= fun row => index row entry.2 >>= fun coefficient =>
          pure (cur + eval ρ entry.1 * coefficient)) (eval ρ (0 : V)) : Nat → Outcome (ZMod p)) := by
    simp only [RescueConfig.applyMds, mulMatrix, List.zipIdx_map, List.length_map, List.map_id, List.foldlM_map,
      LawfulCircuitFpVar.eval_zero]
    rfl
  refine Realizes.congr (Realizes.mapM (fun i _ => Circuit.fixed_const w i) fun i _ w₁ hw₁ _ => ?_) hnative
  have hzero : Fixed w₁ fun ρ => eval ρ (0 : V) := by
    simp only [LawfulCircuitFpVar.eval_zero]
    exact Circuit.fixed_const w₁ 0
  refine Realizes.foldlM (fun entry hentry w₂ cur hw₂ hcur => ?_) hzero
  refine (realizes_self w₂ (index parameters.mds i)).bind fun row w₃ hw₃ _ => ?_
  refine (realizes_self w₃ (index row entry.2)).bind fun coefficient w₄ hw₄ _ => ?_
  have hv : Fixed w fun ρ => eval ρ entry.1 := fixed_list.mp hs _ (List.fst_mem_of_mem_zipIdx hentry)
  refine .pure ?_ fun ρ => ?_
  · simp only [LawfulCircuitFpVar.eval_add, LawfulCircuitFpVar.eval_mulConstant]
    exact (hcur.mono (hw₃.trans hw₄)).map₂ (hv.mono (hw₁.trans (hw₂.trans (hw₃.trans hw₄)))) fun x y =>
      x + y * coefficient
  · rw [LawfulCircuitFpVar.eval_add, LawfulCircuitFpVar.eval_mulConstant]
    rfl

include hi in
theorem round_realizes {state : List V} (hs : Fixed w fun ρ => state.map (eval ρ)) {keys : List (ZMod p)} {i : Nat}
    (hkeys : parameters.arc[i + 1]? = some keys) :
    Realizes w (round predicates parameters state (keys, i)) (fun ρ => parameters.round (state.map (eval ρ)) i)
      fun ρ s => s.map (eval ρ) := by
  refine (applySBox_realizes hi hs i).bind (h := fun _ s => parameters.applyMds s >>= fun s =>
    parameters.applyArc s (i + 1)) fun state w₁ _ hs => ?_
  refine (applyMds_realizes hs).bind fun state w₂ _ hs => ?_
  exact applyArk_realizes hs hkeys

include hi in
/-- What satisfies the constraints of `permute` permutes. -/
theorem permute_realizes (hrounds : parameters.rounds * 2 + 1 = parameters.arc.length) {state : List V}
    (hs : Fixed w fun ρ => state.map (eval ρ)) :
    Realizes w (permute predicates parameters state) (fun ρ => parameters.permute (state.map (eval ρ))) fun ρ s =>
      s.map (eval ρ) := by
  obtain ⟨first, rest, harc⟩ : ∃ first rest, parameters.arc = first :: rest := by
    cases harc : parameters.arc with
    | nil => rw [harc, List.length_nil] at hrounds; omega
    | cons first rest => exact ⟨first, rest, rfl⟩
  have hnative (ρ : Nat → ZMod p) : parameters.permute (state.map (eval ρ)) =
      parameters.applyArc (state.map (eval ρ)) 0 >>= fun s =>
        rest.zipIdx.foldlM (fun s entry => parameters.round s entry.2) s := by
    have hrange : List.range (parameters.arc.length - 1) = rest.zipIdx.map Prod.snd := by
      rw [List.zipIdx_map_snd, harc, List.length_cons, Nat.add_sub_cancel, List.range_eq_range']
    rw [RescueConfig.permute, (assertEq_eq_ok (u := ())).mpr hrounds, Except.ok_bind, hrange]
    simp only [List.foldlM_map]
  have hfirst : (liftM (index parameters.arc 0 : Outcome (List (ZMod p))) : CircuitGadget p _) = pure first := by
    rw [harc]
    rfl
  have hrest : (liftM (slice parameters.arc 1 parameters.arc.length : Outcome (List (List (ZMod p)))) :
      CircuitGadget p _) = pure rest := by
    rw [harc, slice_of_le (by simp) le_rfl]
    simp
    rfl
  refine Realizes.congr ?_ hnative
  rw [permute, hfirst, pure_bind]
  refine (applyArk_realizes hs (by rw [harc]; rfl)).bind fun state w₁ _ hs => ?_
  rw [hrest, pure_bind]
  refine Realizes.foldlM (fun entry hentry w₂ s _ hs => ?_) hs
  refine round_realizes hi hs ?_
  rw [harc, List.getElem?_cons_succ]
  exact List.mem_zipIdx_iff_getElem?.mp hentry

end

end RescueSpongeVar

end CryptoPrimitives.Sponge
