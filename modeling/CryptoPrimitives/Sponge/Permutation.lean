import CryptoPrimitives.Sponge.Poseidon
import CryptoPrimitives.Sponge.RescueRuns
import Mathlib.LinearAlgebra.Matrix.NonsingularInverse

/-!
# The permutations of the sponges

A state is the list of the entries of a vector, so that a step of a round which is a bijection of
vectors is one of states (`bijects_of_vector`).

* `addRow_bijects`, `mulMatrix_bijects`, `map_pow_bijects`, `set_pow_bijects`: the steps of the rounds.
* `permute_bijective`: so both permutations are bijections, for any numbers of rounds, where a partial
  round has an entry to change.
-/

namespace CryptoPrimitives.Sponge

open Except (Bijects)
open RescueSpongeVar (InverseExponents inverseExponents_iff pow_pow_inverse)

section

variable {F : Type} {w : Nat}

/-- States are vectors. -/
theorem bijects_of_vector {f : List F → Outcome (List F)} {φ : (Fin w → F) → Fin w → F} (hφ : φ.Bijective)
    (h : ∀ v, f (List.ofFn v) = .ok (List.ofFn (φ v))) : Bijects f fun state => state.length = w := by
  have hvector {state : List F} (hs : state.length = w) : ∃ v : Fin w → F, List.ofFn v = state := by
    subst hs
    exact ⟨fun i => state[i], List.ofFn_getElem⟩
  refine ⟨fun x hx => ?_, fun x y hx hy heq => ?_, fun y hy => ?_⟩
  · obtain ⟨v, rfl⟩ := hvector hx
    exact ⟨_, List.length_ofFn, h v⟩
  · obtain ⟨v, rfl⟩ := hvector hx
    obtain ⟨u, rfl⟩ := hvector hy
    rw [h, h, Except.ok.injEq] at heq
    rw [hφ.injective (List.ofFn_injective heq)]
  · obtain ⟨u, rfl⟩ := hvector hy
    obtain ⟨v, rfl⟩ := hφ.surjective u
    exact ⟨List.ofFn v, List.length_ofFn, h v⟩

end

/-! ## The steps of a round -/

section

variable {F : Type} [CommRing F] {w : Nat}

/-- A table as a matrix. -/
def toMatrix (w : Nat) (mds : List (List F)) : Matrix (Fin w) (Fin w) F :=
  Matrix.of fun i j => (mds.getD i []).getD j 0

theorem addRow_bijects {table : List (List F)} {row : Nat} {keys : List F} (hrow : table[row]? = some keys)
    (hl : keys.length = w) : Bijects (addRow table · row) fun state => state.length = w := by
  refine bijects_of_vector (φ := fun v i => v i + keys.getD i 0) ?_ fun v => ?_
  · exact (Equiv.addRight fun i : Fin w => keys.getD i 0).bijective
  · rw [addRow, zipIdx_mapM_index hrow (· + ·) (hl.trans List.length_ofFn.symm)]
    congr 1
    refine List.ext_getElem (by simp [hl]) fun i h₁ h₂ => ?_
    rw [List.getElem_zipWith, List.getElem_ofFn, List.getElem_ofFn, List.getD_eq_getElem]

/-- The inner loop of the product adds up the terms of a row. -/
theorem foldlM_row {matrix : List (List F)} {i : Nat} {row : List F} (hrow : matrix[i]? = some row)
    {entries : List (F × Nat)} (h : ∀ entry ∈ entries, entry.2 < row.length) (cur : F) :
    entries.foldlM (fun cur entry => do
      let row ← index matrix i
      let coefficient ← index row entry.2
      pure (cur + entry.1 * coefficient)) cur =
    (.ok (cur + (entries.map fun entry => entry.1 * row.getD entry.2 0).sum) : Outcome F) := by
  induction entries generalizing cur with
  | nil => rw [List.map_nil, List.sum_nil, add_zero]; rfl
  | cons entry entries ih =>
    rw [List.foldlM_cons, index_eq_ok.mpr hrow, Except.ok_bind, index_getD (h entry List.mem_cons_self) 0,
      Except.ok_bind, Except.pure_eq_ok, Except.ok_bind, ← index_eq_ok.mpr hrow,
      ih fun e he => h e (List.mem_cons_of_mem _ he), List.map_cons, List.sum_cons, add_assoc]

theorem mulMatrix_ofFn {matrix : List (List F)} (hl : matrix.length = w) (hw : ∀ row ∈ matrix, row.length = w)
    (v : Fin w → F) : mulMatrix matrix (List.ofFn v) = .ok (List.ofFn ((toMatrix w matrix).mulVec v)) := by
  rw [mulMatrix, List.length_ofFn, Except.mapM_range_eq_ok 0]
  refine ⟨List.length_ofFn, fun i hi => ?_⟩
  have hrow : matrix[i]? = some matrix[i] := List.getElem?_eq_getElem (hl ▸ hi)
  have hlength := hw _ (List.getElem_mem (hl ▸ hi : i < matrix.length))
  have hterms : (List.ofFn v).zipIdx.map (fun entry => entry.1 * matrix[i].getD entry.2 0) =
      List.ofFn fun j => v j * matrix[i].getD j 0 := by
    refine List.ext_getElem (by simp) fun j h₁ h₂ => ?_
    simp
  rw [foldlM_row hrow fun entry hentry => by
      have := lt_of_mem_zipIdx hentry
      rwa [List.length_ofFn, ← hlength] at this]
  rw [hterms, zero_add, List.sum_ofFn, List.getD_eq_getElem _ _ (by rwa [List.length_ofFn]), List.getElem_ofFn]
  refine congrArg _ (Finset.sum_congr rfl fun j _ => ?_)
  show v j * matrix[i].getD j 0 = (matrix.getD i []).getD j 0 * v j
  rw [mul_comm, List.getD_eq_getElem matrix _ (hl ▸ hi)]

theorem mulMatrix_bijects {matrix : List (List F)} (hl : matrix.length = w) (hw : ∀ row ∈ matrix, row.length = w)
    (hunit : IsUnit (toMatrix w matrix)) : Bijects (mulMatrix matrix) fun state => state.length = w := by
  refine bijects_of_vector (φ := (toMatrix w matrix).mulVec) ?_ fun v => ?_
  · exact ⟨Matrix.mulVec_injective_of_isUnit hunit, Matrix.mulVec_surjective_iff_isUnit.mpr hunit⟩
  · exact mulMatrix_ofFn hl hw v

theorem map_pow_bijects {n : Nat} (hpow : Function.Bijective fun x : F => x ^ n) :
    Bijects (fun state : List F => (.ok (state.map (· ^ n)) : Outcome (List F))) fun state => state.length = w := by
  refine bijects_of_vector (Function.Bijective.piMap fun _ => hpow) fun v => ?_
  rw [List.map_ofFn]
  rfl

theorem set_pow_bijects {n : Nat} (hpow : Function.Bijective fun x : F => x ^ n) (hw : 0 < w) :
    Bijects (fun state : List F => do
      let first ← index state 0
      (pure (state.set 0 (first ^ n)) : Outcome (List F))) fun state => state.length = w := by
  refine bijects_of_vector (φ := Pi.map fun i x => if i.val = 0 then x ^ n else x)
    (Function.Bijective.piMap fun i => ?_) fun v => ?_
  · by_cases hi : i.val = 0
    · simp only [hi, if_true]
      exact hpow
    · simp only [hi, if_false]
      exact Function.bijective_id
  · have hlt : 0 < (List.ofFn v).length := by rwa [List.length_ofFn]
    rw [index_of_lt hlt, Except.ok_bind, Except.pure_eq_ok]
    refine congrArg _ (List.ext_getElem (by simp) fun i h₁ h₂ => ?_)
    simp only [List.getElem_set, List.getElem_ofFn, Pi.map_apply]
    by_cases hi : i = 0
    · subst hi
      rfl
    · rw [if_neg (Ne.symm hi), if_neg hi]

end

/-! ## The permutations -/

variable {p : Nat} [Fact p.Prime]

/-- A power with an inverse exponent is a bijection. -/
theorem pow_bijective {m n : Nat} (h : InverseExponents p m n) : Function.Bijective fun x : ZMod p => x ^ m :=
  Function.bijective_iff_has_inverse.mpr ⟨fun x => x ^ n, pow_pow_inverse h, pow_pow_inverse h.symm⟩

/-- An exponent coprime to `p - 1` has an inverse exponent, but 0 over the field of two elements. -/
theorem exists_inverseExponents {alpha : Nat} (h : Nat.Coprime alpha (p - 1)) (h2 : p = 2 → 0 < alpha) :
    ∃ n, InverseExponents p alpha n := by
  have hp := (Fact.out : p.Prime).two_le
  rcases Nat.eq_or_lt_of_le hp with rfl | hlt
  · have halpha := h2 rfl
    exact ⟨1, alpha - 1, by omega⟩
  · obtain ⟨n, -, hn⟩ := Nat.exists_mul_mod_eq_one_of_coprime h (show 1 < p - 1 by omega)
    refine ⟨n, (inverseExponents_iff hlt).mpr ?_⟩
    rw [Nat.ModEq, hn, Nat.mod_eq_of_lt (by omega)]

theorem PoseidonConfig.round_bijects {config : PoseidonConfig (ZMod p)} (h : config.Accepted)
    (hmds : IsUnit (toMatrix (config.rate + config.capacity) config.mds)) {n : Nat}
    (hn : InverseExponents p config.alpha n) {isFullRound : Bool} {i : Nat}
    (hi : i < config.fullRounds + config.partialRounds)
    (hw : isFullRound = false → 0 < config.rate + config.capacity) :
    Bijects (config.round isFullRound · i) fun state => state.length = config.rate + config.capacity := by
  have hrow : i < config.ark.length := h.length_ark ▸ hi
  refine (addRow_bijects (List.getElem?_eq_getElem hrow) (h.width_ark _ (List.getElem_mem hrow))).bind ?_
  refine Bijects.bind ?_ (mulMatrix_bijects h.length_mds h.width_mds hmds)
  cases isFullRound with
  | true => exact map_pow_bijects (pow_bijective hn)
  | false => exact set_pow_bijects (pow_bijective hn) (hw rfl)

theorem PoseidonConfig.permute_bijects {config : PoseidonConfig (ZMod p)} (h : config.Accepted)
    (hmds : IsUnit (toMatrix (config.rate + config.capacity) config.mds)) {n : Nat}
    (hn : InverseExponents p config.alpha n)
    (hw : 0 < config.rate + config.capacity ∨ config.partialRounds = 0) :
    Bijects config.permute fun state => state.length = config.rate + config.capacity := by
  have hrounds (isFullRound : Bool) (start count : Nat)
      (hlast : start + count ≤ config.fullRounds + config.partialRounds)
      (hfirst : isFullRound = false → 0 < count → 0 < config.rate + config.capacity) :
      Bijects (fun state => (List.range' start count).foldlM (config.round isFullRound) state)
        fun state => state.length = config.rate + config.capacity :=
    Bijects.foldlM fun i hi => by
      have := List.mem_range'_1.mp hi
      exact PoseidonConfig.round_bijects h hmds hn (by omega) fun hpartial => hfirst hpartial (by omega)
  refine (hrounds true 0 (config.fullRounds / 2) (by omega) nofun).bind ?_
  refine (hrounds false (config.fullRounds / 2) config.partialRounds (by omega) fun _ hcount => ?_).bind ?_
  · exact hw.resolve_right (by omega)
  · exact hrounds true _ _ (by omega) nofun

theorem RescueConfig.permute_bijects {config : RescueConfig (ZMod p)} (h : config.Accepted)
    (hmds : IsUnit (toMatrix (config.rate + config.capacity) config.mds))
    (hinv : InverseExponents p config.alpha config.alphaInv) :
    Bijects config.permute fun state => state.length = config.rate + config.capacity := by
  have harc {i : Nat} (hi : i < config.arc.length) :
      Bijects (config.applyArc · i) fun state => state.length = config.rate + config.capacity :=
    addRow_bijects (List.getElem?_eq_getElem hi) (h.width_arc _ (List.getElem_mem hi))
  have hround : ∀ i ∈ List.range (config.arc.length - 1),
      Bijects (config.round · i) fun state => state.length = config.rate + config.capacity := fun i hi => by
    have hlt := List.mem_range.mp hi
    have hbox : Bijects (fun state => (.ok (config.applySBox state i) : Outcome _))
        fun state => state.length = config.rate + config.capacity := by
      unfold RescueConfig.applySBox
      split
      · exact map_pow_bijects (pow_bijective hinv.symm)
      · exact map_pow_bijects (pow_bijective hinv)
    exact hbox.bind ((mulMatrix_bijects h.length_mds h.width_mds hmds).bind (harc (by omega)))
  have hassert : assertEq (config.rounds * 2 + 1) config.arc.length = (.ok () : Outcome Unit) :=
    assertEq_eq_ok.mpr (by rw [h.length_arc, Nat.mul_comm])
  have hfirst : 0 < config.arc.length := by
    rw [h.length_arc]
    omega
  refine ((harc hfirst).bind (Bijects.foldlM hround)).congr fun state _ => ?_
  rw [RescueConfig.permute, hassert, Except.ok_bind]

/-- For every accepted configuration with an invertible matrix and exponents as the field asks for them, and any
numbers of full, partial and Rescue rounds, the permutation takes the states of the sponge's width to each other,
one to one. A partial round asks for a width that is not zero, and the field of two elements for exponents that
are not. -/
theorem permute_bijective :
    (∀ config : PoseidonConfig (ZMod p), config.Accepted →
      IsUnit (toMatrix (config.rate + config.capacity) config.mds) → Nat.Coprime config.alpha (p - 1) →
      (p = 2 → 0 < config.alpha) → (0 < config.rate + config.capacity ∨ config.partialRounds = 0) →
      Bijects config.permute fun state => state.length = config.rate + config.capacity) ∧
    ∀ config : RescueConfig (ZMod p), config.Accepted →
      IsUnit (toMatrix (config.rate + config.capacity) config.mds) →
      config.alpha * config.alphaInv ≡ 1 [MOD p - 1] → (p = 2 → 0 < config.alpha ∧ 0 < config.alphaInv) →
      Bijects config.permute fun state => state.length = config.rate + config.capacity := by
  refine ⟨fun config h hmds hcoprime h2 hw => ?_, fun config h hmds hinv h2 => ?_⟩
  · obtain ⟨n, hn⟩ := exists_inverseExponents hcoprime h2
    exact PoseidonConfig.permute_bijects h hmds hn hw
  · refine RescueConfig.permute_bijects h hmds ?_
    rcases Nat.eq_or_lt_of_le (Fact.out : p.Prime).two_le with rfl | hlt
    · have hpos := Nat.mul_pos (h2 rfl).1 (h2 rfl).2
      exact ⟨config.alpha * config.alphaInv - 1, by omega⟩
    · exact (inverseExponents_iff hlt).mpr hinv

omit [Fact p.Prime] in
theorem isUnit_smallConfig : IsUnit (toMatrix 3 smallConfig.mds) :=
  IsUnit.of_mul_eq_one (toMatrix 3 smallConfig.mds) (by decide)

omit [Fact p.Prime] in
theorem isUnit_degree5Config : IsUnit (toMatrix 2 degree5Config.mds) :=
  IsUnit.of_mul_eq_one (toMatrix 2 [[1, -1], [0, 1]]) (by decide)

omit [Fact p.Prime] in
/-- The small parameters of both sponges. -/
theorem permute_bijective_small :
    (Bijects smallConfig.permute fun state => state.length = 3) ∧
      Bijects degree5Config.permute fun state => state.length = 2 := by
  have h5 : Fact (Nat.Prime 5) := ⟨by decide⟩
  have h7 : Fact (Nat.Prime 7) := ⟨by decide⟩
  exact ⟨(permute_bijective (p := 5)).1 smallConfig (smallConfigOf_accepted 5) isUnit_smallConfig (by decide) nofun
    (.inl (by decide)), (permute_bijective (p := 7)).2 degree5Config (degree5ConfigOf_accepted 7 5)
      isUnit_degree5Config (by decide) nofun⟩

omit [Fact p.Prime] in
/-- A partial round on no entries panics, and over the field of two elements the exponent 0 is coprime to 1. -/
theorem permute_not_bijective :
    let empty : PoseidonConfig (ZMod 5) := ⟨0, 1, 3, [[]], [], 0, 0⟩
    let constant : PoseidonConfig (ZMod 2) := ⟨1, 0, 0, [[0]], [[1]], 1, 0⟩
    (PoseidonConfig.new 0 1 3 [] [[]] 0 0 = .ok empty ∧ IsUnit (toMatrix 0 empty.mds) ∧ Nat.Coprime 3 (5 - 1) ∧
      empty.permute [] = .error (.panic .indexOutOfBounds) ∧ ¬ Bijects empty.permute fun state => state.length = 0) ∧
    (PoseidonConfig.new 1 0 0 [[1]] [[0]] 1 0 = .ok constant ∧ IsUnit (toMatrix 1 constant.mds) ∧
      Nat.Coprime 0 (2 - 1) ∧ constant.permute [0] = constant.permute [1] ∧
      ¬ Bijects constant.permute fun state => state.length = 1) := by
  intro empty constant
  have hpanic : empty.permute [] = .error (.panic .indexOutOfBounds) := by decide
  have hconstant : constant.permute [0] = constant.permute [1] := by decide
  refine ⟨⟨rfl, isUnit_of_subsingleton _, by decide, hpanic, fun h => ?_⟩,
    rfl, IsUnit.of_mul_eq_one (toMatrix 1 constant.mds) (by decide), by decide, hconstant, fun h => ?_⟩
  · obtain ⟨y, -, hy⟩ := h.total [] rfl
    rw [hpanic] at hy
    cases hy
  · exact absurd (h.injective [0] [1] rfl rfl hconstant) (by decide)

end CryptoPrimitives.Sponge
