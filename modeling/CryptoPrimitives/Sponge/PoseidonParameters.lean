import CryptoPrimitives.Framework.Cauchy
import CryptoPrimitives.Rust.Collections
import CryptoPrimitives.Rust.PrimeField
import CryptoPrimitives.Sponge.GrainLfsr
import CryptoPrimitives.Sponge.Poseidon

/-!
# The generated Poseidon parameters

The field elements that `sponge/poseidon/grain_lfsr.rs` draws, and the round constants and the
matrix that `sponge/poseidon/traits.rs` makes of them.

* `findPoseidonArkAndMds_shape`: one row for each round, and a square matrix.
* `accepted_of_getDefault`: so `PoseidonConfig::new` accepts the parameters.
* `nonsingularMinors_of_nodup`: the matrix is a Cauchy matrix, and so is each of its minors.
-/

namespace CryptoPrimitives

open PrimeField (modulusBitSize fromBitsLe fromBigint fromLeBytesModOrder inverse)

namespace PoseidonGrainLFSR

/-- The loop that samples until a number is below the modulus, with fuel for each sample. -/
def rejectionSample (p fuel : Nat) : Nat → PoseidonGrainLFSR → Outcome (ZMod p × PoseidonGrainLFSR)
  | 0, _ => raise .diverge
  | samples + 1, self => do
    let (bits, self) ← self.getBits fuel self.primeNumBits
    let bigint := fromBitsLe p bits.reverse
    match fromBigint p bigint with
    | some f => pure (f, self)
    | none => rejectionSample p fuel samples self

/-- `get_field_elements_rejection_sampling`. -/
def getFieldElementsRejectionSampling (p fuel : Nat) (self : PoseidonGrainLFSR) (numElems : Nat) :
    Outcome (List (ZMod p) × PoseidonGrainLFSR) := do
  assertEq (modulusBitSize p) self.primeNumBits
  draws (rejectionSample p fuel fuel) numElems self

/-- The byte of up to 8 bits, the least significant one first. -/
def packByte (chunk : List Bool) : UInt8 :=
  chunk.zipIdx.foldl (fun result (bit, i) => result ||| (bit.toUInt8 <<< UInt8.ofNat i)) 0

/-- `get_field_elements_mod_p`. -/
def getFieldElementsModP (p fuel : Nat) (self : PoseidonGrainLFSR) (numElems : Nat) :
    Outcome (List (ZMod p) × PoseidonGrainLFSR) := do
  assertEq (modulusBitSize p) self.primeNumBits
  draws (fun self => do
    let (bits, self) ← self.getBits fuel self.primeNumBits
    let bytes := (chunks 8 bits.reverse).map packByte
    pure (fromLeBytesModOrder p bytes, self)) numElems self

theorem length_draws {α : Type} {draw : PoseidonGrainLFSR → Outcome (α × PoseidonGrainLFSR)} {n : Nat}
    {self self' : PoseidonGrainLFSR} {res : List α} (h : draws draw n self = .ok (res, self')) : res.length = n := by
  induction n generalizing self res with
  | zero =>
    obtain ⟨rfl, -⟩ := Prod.mk.inj (Except.ok.inj h)
    rfl
  | succ n ih =>
    simp only [draws, Except.bind_eq_ok] at h
    obtain ⟨⟨x, self₁⟩, -, ⟨xs, self₂⟩, hxs, h⟩ := h
    obtain ⟨rfl, rfl⟩ := Prod.mk.inj (Except.ok.inj h)
    rw [List.length_cons, ih hxs]

theorem mem_draws {α : Type} {draw : PoseidonGrainLFSR → Outcome (α × PoseidonGrainLFSR)} {n : Nat}
    {self self' : PoseidonGrainLFSR} {res : List α} (h : draws draw n self = .ok (res, self')) {x : α} (hx : x ∈ res) :
    ∃ lfsr lfsr', draw lfsr = .ok (x, lfsr') := by
  induction n generalizing self res with
  | zero =>
    obtain ⟨rfl, -⟩ := Prod.mk.inj (Except.ok.inj h)
    exact nomatch hx
  | succ n ih =>
    simp only [draws, Except.bind_eq_ok] at h
    obtain ⟨⟨y, self₁⟩, hy, ⟨ys, self₂⟩, hys, h⟩ := h
    obtain ⟨rfl, rfl⟩ := Prod.mk.inj (Except.ok.inj h)
    rcases List.mem_cons.mp hx with rfl | hx
    · exact ⟨_, _, hy⟩
    · exact ih hys hx

end PoseidonGrainLFSR

namespace Sponge

open PoseidonGrainLFSR (draws length_draws mem_draws)

/-- What `find_poseidon_ark_and_mds` draws: the round constants, `xs` and `ys`. -/
def drawArkXsYs (p fuel primeBits rate fullRounds partialRounds skipMatrices : Nat) :
    Outcome (List (List (ZMod p)) × List (ZMod p) × List (ZMod p)) := do
  let width ← usizeAdd rate 1
  let lfsr := PoseidonGrainLFSR.new false primeBits width fullRounds partialRounds
  let rounds ← usizeAdd fullRounds partialRounds
  let (ark, lfsr) ← draws (fun lfsr => lfsr.getFieldElementsRejectionSampling p fuel width) rounds lfsr
  let (_, lfsr) ← draws (fun lfsr => do
    let numElems ← usizeMul 2 width
    lfsr.getFieldElementsModP p fuel numElems) skipMatrices lfsr
  let (xs, lfsr) ← lfsr.getFieldElementsModP p fuel width
  let (ys, _) ← lfsr.getFieldElementsModP p fuel width
  pure (ark, xs, ys)

/-- The loops that fill `mds`. Each entry is written once, in this order. -/
def fillMds {p : Nat} (xs ys : List (ZMod p)) (width : Nat) : Outcome (List (List (ZMod p))) :=
  (List.range width).mapM fun i => (List.range width).mapM fun j => do
    let x ← index xs i
    let y ← index ys j
    unwrapOption (inverse (x + y))

/-- `find_poseidon_ark_and_mds`. -/
def findPoseidonArkAndMds (p fuel primeBits rate fullRounds partialRounds skipMatrices : Nat) :
    Outcome (List (List (ZMod p)) × List (List (ZMod p))) := do
  let (ark, xs, ys) ← drawArkXsYs p fuel primeBits rate fullRounds partialRounds skipMatrices
  let mds ← fillMds xs ys (rate + 1)
  pure (ark, mds)

/-- `PoseidonDefaultConfigEntry`. -/
structure PoseidonDefaultConfigEntry where
  rate : Nat
  alpha : Nat
  fullRounds : Nat
  partialRounds : Nat
  skipMatrices : Nat

/-- The constants of `PoseidonDefaultConfig`. -/
structure PoseidonDefaultConfig where
  paramsOptForConstraints : Vector PoseidonDefaultConfigEntry 7
  paramsOptForWeights : Vector PoseidonDefaultConfigEntry 7

/-- The loop of `get_default_poseidon_parameters_internal` over the entries. -/
def findDefault (p fuel rate : Nat) : List PoseidonDefaultConfigEntry → Outcome (Option (PoseidonConfig (ZMod p)))
  | [] => pure none
  | param :: params =>
    if param.rate = rate then do
      let (ark, mds) ← findPoseidonArkAndMds p fuel (modulusBitSize p) rate param.fullRounds param.partialRounds
        param.skipMatrices
      pure (some {
        fullRounds := param.fullRounds
        partialRounds := param.partialRounds
        alpha := param.alpha
        ark
        mds
        rate := param.rate
        capacity := 1 })
    else findDefault p fuel rate params

/-- `get_default_poseidon_parameters_internal`. -/
def getDefaultPoseidonParametersInternal (p fuel : Nat) (P : PoseidonDefaultConfig) (rate : Nat)
    (optimizedForWeights : Bool) : Outcome (Option (PoseidonConfig (ZMod p))) :=
  let paramsSet := if !optimizedForWeights then P.paramsOptForConstraints else P.paramsOptForWeights
  findDefault p fuel rate paramsSet.toList

/-! ## Shapes -/

section

variable {p fuel primeBits rate fullRounds partialRounds skipMatrices : Nat}

theorem length_rejectionSampling {lfsr lfsr' : PoseidonGrainLFSR} {numElems : Nat} {res : List (ZMod p)}
    (h : lfsr.getFieldElementsRejectionSampling p fuel numElems = .ok (res, lfsr')) : res.length = numElems := by
  obtain ⟨-, -, h⟩ := Except.bind_eq_ok.mp h
  exact length_draws h

theorem length_modP {lfsr lfsr' : PoseidonGrainLFSR} {numElems : Nat} {res : List (ZMod p)}
    (h : lfsr.getFieldElementsModP p fuel numElems = .ok (res, lfsr')) : res.length = numElems := by
  obtain ⟨-, -, h⟩ := Except.bind_eq_ok.mp h
  exact length_draws h

theorem drawArkXsYs_shape {ark : List (List (ZMod p))} {xs ys : List (ZMod p)}
    (h : drawArkXsYs p fuel primeBits rate fullRounds partialRounds skipMatrices = .ok (ark, xs, ys)) :
    ark.length = fullRounds + partialRounds ∧ (∀ row ∈ ark, row.length = rate + 1) ∧ xs.length = rate + 1 ∧
      ys.length = rate + 1 := by
  simp only [drawArkXsYs, Except.bind_eq_ok, usizeAdd_eq_ok] at h
  obtain ⟨width, ⟨-, rfl⟩, rounds, ⟨-, rfl⟩, ⟨ark', lfsr₁⟩, hark, ⟨_, lfsr₂⟩, -, ⟨xs', lfsr₃⟩, hxs, ⟨ys', lfsr₄⟩, hys,
    h⟩ := h
  simp only [Except.pure_eq_ok, Except.ok.injEq, Prod.mk.injEq] at h
  obtain ⟨rfl, rfl, rfl⟩ := h
  refine ⟨length_draws hark, fun row hrow => ?_, length_modP hxs, length_modP hys⟩
  obtain ⟨_, _, hdraw⟩ := mem_draws hark hrow
  exact length_rejectionSampling hdraw

theorem inverse_eq_some {x y : ZMod p} : inverse x = some y ↔ x ≠ 0 ∧ x⁻¹ = y := by
  unfold inverse
  split <;> simp [*]

/-- The matrix holds the inverses of the sums, none of which is zero. -/
theorem fillMds_eq_ok {xs ys : List (ZMod p)} {width : Nat} {mds : List (List (ZMod p))}
    (h : fillMds xs ys width = .ok mds) :
    mds.length = width ∧ (∀ row ∈ mds, row.length = width) ∧
      ∀ i < width, ∀ j < width, xs.getD i 0 + ys.getD j 0 ≠ 0 ∧
        (mds.getD i []).getD j 0 = (xs.getD i 0 + ys.getD j 0)⁻¹ := by
  obtain ⟨hlength, hrows⟩ := (Except.mapM_range_eq_ok []).mp h
  refine ⟨hlength, fun row hmem => ?_, fun i hi j hj => ?_⟩
  · obtain ⟨i, hi, rfl⟩ := List.mem_iff_getElem.mp hmem
    have hrow := hrows i (hlength ▸ hi)
    rw [List.getD_eq_getElem _ _ hi] at hrow
    exact ((Except.mapM_range_eq_ok 0).mp hrow).1
  · have hentry := ((Except.mapM_range_eq_ok 0).mp (hrows i hi)).2 j hj
    simp only [Except.bind_eq_ok, index_eq_ok, unwrapOption_eq_ok, inverse_eq_some] at hentry
    obtain ⟨x, hx, y, hy, hne, heq⟩ := hentry
    have hxi : xs.getD i 0 = x := by rw [List.getD_eq_getElem?_getD, hx, Option.getD_some]
    have hyj : ys.getD j 0 = y := by rw [List.getD_eq_getElem?_getD, hy, Option.getD_some]
    rw [hxi, hyj]
    exact ⟨hne, heq.symm⟩

theorem findPoseidonArkAndMds_eq_ok {ark mds : List (List (ZMod p))} :
    findPoseidonArkAndMds p fuel primeBits rate fullRounds partialRounds skipMatrices = .ok (ark, mds) ↔
      ∃ xs ys, drawArkXsYs p fuel primeBits rate fullRounds partialRounds skipMatrices = .ok (ark, xs, ys) ∧
        fillMds xs ys (rate + 1) = .ok mds := by
  simp only [findPoseidonArkAndMds, Except.bind_eq_ok, Prod.exists, Except.pure_eq_ok, Except.ok.injEq,
    Prod.mk.injEq]
  constructor
  · rintro ⟨ark', xs, ys, hdraw, mds', hfill, rfl, rfl⟩
    exact ⟨xs, ys, hdraw, hfill⟩
  · rintro ⟨xs, ys, hdraw, hfill⟩
    exact ⟨ark, xs, ys, hdraw, mds, hfill, rfl, rfl⟩

theorem findPoseidonArkAndMds_shape {ark mds : List (List (ZMod p))}
    (h : findPoseidonArkAndMds p fuel primeBits rate fullRounds partialRounds skipMatrices = .ok (ark, mds)) :
    ark.length = fullRounds + partialRounds ∧ (∀ row ∈ ark, row.length = rate + 1) ∧ mds.length = rate + 1 ∧
      ∀ row ∈ mds, row.length = rate + 1 := by
  obtain ⟨xs, ys, hdraw, hfill⟩ := findPoseidonArkAndMds_eq_ok.mp h
  obtain ⟨hark, hrows, -, -⟩ := drawArkXsYs_shape hdraw
  obtain ⟨hmds, hwidth, -⟩ := fillMds_eq_ok hfill
  exact ⟨hark, hrows, hmds, hwidth⟩

/-- `PoseidonConfig::new` accepts the generated parameters. -/
theorem accepted_of_getDefault {P : PoseidonDefaultConfig} {optimizedForWeights : Bool}
    {config : PoseidonConfig (ZMod p)}
    (h : getDefaultPoseidonParametersInternal p fuel P rate optimizedForWeights = .ok (some config)) :
    config.Accepted := by
  have hfind {params : List PoseidonDefaultConfigEntry} (h : findDefault p fuel rate params = .ok (some config)) :
      config.Accepted := by
    induction params with
    | nil => exact nomatch Except.ok.inj h
    | cons param params ih =>
      unfold findDefault at h
      split at h
      · rename_i hrate
        obtain ⟨⟨ark, mds⟩, hfound, h⟩ := Except.bind_eq_ok.mp h
        obtain ⟨hark, hrows, hmds, hwidth⟩ := findPoseidonArkAndMds_shape hfound
        obtain rfl := Option.some.inj (Except.ok.inj h)
        exact ⟨hark, by rwa [hrate], by rwa [hrate], by rwa [hrate]⟩
      · exact ih h
  exact hfind h

end

/-! ## Minors -/

/-- Every square matrix of some rows and some columns is nonsingular. -/
def NonsingularMinors {F : Type} [CommRing F] (mds : List (List F)) : Prop :=
  ∀ (n : Nat) (rows columns : Fin n → Nat), rows.Injective → columns.Injective →
    (∀ i, rows i < mds.length) → (∀ j, columns j < mds.length) →
    (Matrix.of fun i j => (mds.getD (rows i) []).getD (columns j) 0).det ≠ 0

section

variable {p : Nat} [Fact p.Prime]

/-- Distinct positions of a list without duplicates hold distinct entries. -/
theorem getD_injective {xs : List (ZMod p)} (h : xs.Nodup) {n : Nat} {f : Fin n → Nat} (hf : f.Injective)
    (hlt : ∀ i, f i < xs.length) : Function.Injective fun i => xs.getD (f i) 0 := fun i j heq => by
  simp only [List.getD_eq_getElem _ _ (hlt _)] at heq
  exact hf ((h.getElem_inj_iff).mp heq)

theorem nonsingularMinors_of_nodup {xs ys : List (ZMod p)} {width : Nat} {mds : List (List (ZMod p))}
    (h : fillMds xs ys width = .ok mds) (hlx : xs.length = width) (hly : ys.length = width) (hx : xs.Nodup)
    (hy : ys.Nodup) : NonsingularMinors mds := by
  obtain ⟨hlength, -, hentries⟩ := fillMds_eq_ok h
  intro n rows columns hrows hcolumns hr hc
  rw [hlength] at hr hc
  have hcauchy := Cauchy.det_cauchy_ne_zero (getD_injective hx hrows (by rwa [hlx]))
    (getD_injective hy hcolumns (by rwa [hly])) fun i j => (hentries _ (hr i) _ (hc j)).1
  rw [show (fun i j => (mds.getD (rows i) []).getD (columns j) 0) = fun i j => _ from
    funext fun i => funext fun j => (hentries _ (hr i) _ (hc j)).2]
  exact hcauchy

/-- For every prime field: the generated round constants are one row of `rate + 1` elements for each round, and
the matrix is square, so that `PoseidonConfig::new` accepts the default parameters; and where the sampled `xs`
and the sampled `ys` are without duplicates, every minor of the matrix is nonsingular. -/
theorem findPoseidonArkAndMds_wellFormed :
    (∀ fuel primeBits rate fullRounds partialRounds skipMatrices (ark mds : List (List (ZMod p))),
      findPoseidonArkAndMds p fuel primeBits rate fullRounds partialRounds skipMatrices = .ok (ark, mds) →
      ark.length = fullRounds + partialRounds ∧ (∀ row ∈ ark, row.length = rate + 1) ∧
      mds.length = rate + 1 ∧ (∀ row ∈ mds, row.length = rate + 1) ∧
      ∃ xs ys, drawArkXsYs p fuel primeBits rate fullRounds partialRounds skipMatrices = .ok (ark, xs, ys) ∧
        (xs.Nodup → ys.Nodup → NonsingularMinors mds)) ∧
    ∀ fuel P rate optimizedForWeights (config : PoseidonConfig (ZMod p)),
      getDefaultPoseidonParametersInternal p fuel P rate optimizedForWeights = .ok (some config) →
      PoseidonConfig.new config.fullRounds config.partialRounds config.alpha config.mds config.ark config.rate
        config.capacity = .ok config := by
  refine ⟨fun fuel primeBits rate fullRounds partialRounds skipMatrices ark mds h => ?_,
    fun fuel P rate optimizedForWeights config h => ?_⟩
  · obtain ⟨hark, hrows, hmds, hwidth⟩ := findPoseidonArkAndMds_shape h
    obtain ⟨xs, ys, hdraw, hfill⟩ := findPoseidonArkAndMds_eq_ok.mp h
    obtain ⟨-, -, hxs, hys⟩ := drawArkXsYs_shape hdraw
    exact ⟨hark, hrows, hmds, hwidth, xs, ys, hdraw, nonsingularMinors_of_nodup hfill hxs hys⟩
  · exact PoseidonConfig.new_eq_ok.mpr ⟨rfl, accepted_of_getDefault h⟩

end

/-- Parameters of rate 1 over the field of seven elements. -/
theorem findPoseidonArkAndMds_wellFormed_seven :
    findPoseidonArkAndMds 7 80 3 1 1 1 1 = .ok ([[1, 1], [4, 4]], [[5, 2], [2, 3]]) ∧
      NonsingularMinors ([[5, 2], [2, 3]] : List (List (ZMod 7))) := by
  have hdraw : drawArkXsYs 7 80 3 1 1 1 1 = .ok ([[1, 1], [4, 4]], [1, 2], [2, 3]) := by decide +kernel
  have hfill : fillMds ([1, 2] : List (ZMod 7)) [2, 3] (1 + 1) = .ok [[5, 2], [2, 3]] := by decide +kernel
  have hxs : ([1, 2] : List (ZMod 7)).Nodup := by decide
  have hys : ([2, 3] : List (ZMod 7)).Nodup := by decide
  have : Fact (Nat.Prime 7) := ⟨by decide⟩
  have hfind : findPoseidonArkAndMds 7 80 3 1 1 1 1 = .ok ([[1, 1], [4, 4]], [[5, 2], [2, 3]]) :=
    findPoseidonArkAndMds_eq_ok.mpr ⟨[1, 2], [2, 3], hdraw, hfill⟩
  obtain ⟨-, -, -, -, xs, ys, hdraw', hminors⟩ := (findPoseidonArkAndMds_wellFormed (p := 7)).1 80 3 1 1 1 1 _ _ hfind
  rw [hdraw, Except.ok.injEq, Prod.mk.injEq, Prod.mk.injEq] at hdraw'
  obtain ⟨-, rfl, rfl⟩ := hdraw'
  exact ⟨hfind, hminors hxs hys⟩

end Sponge

end CryptoPrimitives
