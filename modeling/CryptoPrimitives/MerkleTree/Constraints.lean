import CryptoPrimitives.MerkleTree.Path
import CryptoPrimitives.Gadget.Boolean

/-!
# The path gadget of `merkle_tree/constraints.rs`

`ConfigGadget` holds the variables and the gadgets the path is generic in, and
`ConfigGadget.ValueCorrect` what is asked of them: where the native call returns
a digest, the gadget returns a variable with that value and records constraints
that hold.

* `newVariable_computes`: an allocated path has the digests of the native path
  and the bits of its index (`PathVar.Represents`).
* `calculateRoot_computes`: such a path computes the final node of
  `Path::verify`.
* `gadgetAgrees_iff`: `position_list` shifts a `usize` by up to the length of
  `auth_path`, so the agreement ends at 63 siblings. The paths of a tree are
  shorter, and `update_leaf` on them is `update`.
-/

namespace CryptoPrimitives.Merkle

open Synthesis (Computes)
open HashTree (PathRun anc)

variable {P : Config}

/-- `position_list`, whose shifts panic from 64 on. -/
def Path.positionList {ε : Type} [Faults ε] (self : Path P) : Except ε (List Bool) := do
  let bits ← (List.range (self.authPath.length + 1)).mapM fun i => do
    let shifted ← usizeShr self.leafIndex i
    pure (shifted &&& 1 != 0)
  pure bits.reverse

theorem Path.positionList_eq {ε : Type} [Faults ε] (self : Path P) (h : self.authPath.length < usizeBits) :
    (self.positionList : Except ε (List Bool)) =
      .ok ((List.range (self.authPath.length + 1)).map self.leafIndex.testBit).reverse := by
  have hbit : ∀ i ∈ List.range (self.authPath.length + 1),
      (usizeShr self.leafIndex i >>= fun shifted => pure (shifted &&& 1 != 0) : Except ε Bool) =
        .ok (self.leafIndex.testBit i) := fun i hi => by
    have hi : i < usizeBits := lt_of_le_of_lt (Nat.le_of_lt_succ (List.mem_range.mp hi)) h
    rw [show (usizeShr self.leafIndex i : Except ε Nat) = .ok (self.leafIndex >>> i) from
      usizeShr_eq_ok.mpr ⟨hi, rfl⟩, Except.ok_bind, Except.pure_eq_ok, Nat.testBit, Nat.and_comm]
  rw [positionList, Except.mapM_eq_map hbit]
  rfl

theorem Path.positionList_ne_ok {ε : Type} [Faults ε] (self : Path P) (h : usizeBits ≤ self.authPath.length)
    (bits : List Bool) : (self.positionList : Except ε (List Bool)) ≠ .ok bits := by
  intro heq
  rw [positionList, Except.bind_eq_ok] at heq
  obtain ⟨ys, hys, -⟩ := heq
  obtain ⟨hl, hf⟩ := List.forall₂_iff_get.mp (Except.mapM_eq_ok.mp hys)
  rw [List.length_range] at hl
  have hlast := hf self.authPath.length (by rw [List.length_range]; omega) (by omega)
  simp only [List.get_eq_getElem, List.getElem_range, Except.bind_eq_ok, usizeShr_eq_ok] at hlast
  obtain ⟨_, ⟨hlt, -⟩, -⟩ := hlast
  exact Nat.not_lt.mpr h hlt

/-- `ConfigGadget`, with `value()` for each kind of variable. -/
structure ConfigGadget (P : Config) where
  Leaf : Type
  LeafDigest : Type
  /-- `TwoToOneHash::InputVar`. -/
  InputVar : Type
  InnerDigest : Type
  /-- The `ParametersVar` of the leaf hash. -/
  LeafParam : Type
  /-- The `ParametersVar` of the two-to-one hash. -/
  TwoToOneParam : Type
  leafValue : Leaf → P.Leaf
  leafDigestValue : LeafDigest → P.LeafDigest
  inputValue : InputVar → P.TwoToOneInput
  innerDigestValue : InnerDigest → P.InnerDigest
  leafParamValue : LeafParam → P.LeafParam
  twoToOneParamValue : TwoToOneParam → P.TwoToOneParam
  /-- `LeafDigest::new_variable`. -/
  leafDigestNewVariable : P.LeafDigest → AllocationMode → Gadget LeafDigest
  /-- `InnerDigest::new_variable`. -/
  innerDigestNewVariable : P.InnerDigest → AllocationMode → Gadget InnerDigest
  /-- `Boolean::select` of leaf digests. -/
  leafDigestSelect : Boolean → LeafDigest → LeafDigest → Gadget LeafDigest
  /-- `Boolean::select` of inner digests. -/
  innerDigestSelect : Boolean → InnerDigest → InnerDigest → Gadget InnerDigest
  /-- `InnerDigest::is_eq`. -/
  innerDigestIsEq : InnerDigest → InnerDigest → Gadget Boolean
  /-- `LeafHash::evaluate`. -/
  leafHashEvaluate : LeafParam → Leaf → Gadget LeafDigest
  /-- `LeafInnerConverter::convert`. -/
  convert : LeafDigest → Gadget InputVar
  /-- `TwoToOneHash::evaluate`. -/
  evaluate : TwoToOneParam → InputVar → InputVar → Gadget InnerDigest
  /-- `TwoToOneHash::compress`. -/
  compress : TwoToOneParam → InnerDigest → InnerDigest → Gadget InnerDigest

/-- The gadgets compute, on values, what they stand for. -/
structure ConfigGadget.ValueCorrect (PG : ConfigGadget P) : Prop where
  leafDigestNewVariable : ∀ x mode,
    Computes (PG.leafDigestNewVariable x mode) fun v => PG.leafDigestValue v = x
  innerDigestNewVariable : ∀ n mode,
    Computes (PG.innerDigestNewVariable n mode) fun v => PG.innerDigestValue v = n
  leafDigestSelect : ∀ b x y, Computes (PG.leafDigestSelect b x y) fun v =>
    PG.leafDigestValue v = PG.leafDigestValue (if b.value then x else y)
  innerDigestSelect : ∀ b x y, Computes (PG.innerDigestSelect b x y) fun v =>
    PG.innerDigestValue v = PG.innerDigestValue (if b.value then x else y)
  innerDigestIsEq : ∀ x y, Computes (PG.innerDigestIsEq x y) fun b =>
    b.value = (PG.innerDigestValue x == PG.innerDigestValue y)
  leafHashEvaluate : ∀ param leaf y,
    P.leafHashEvaluate (PG.leafParamValue param) (PG.leafValue leaf) = .ok y →
      Computes (PG.leafHashEvaluate param leaf) fun v => PG.leafDigestValue v = y
  convert : ∀ x y, P.convert (PG.leafDigestValue x) = .ok y →
    Computes (PG.convert x) fun v => PG.inputValue v = y
  evaluate : ∀ param l r y,
    P.evaluate (PG.twoToOneParamValue param) (PG.inputValue l) (PG.inputValue r) = .ok y →
      Computes (PG.evaluate param l r) fun v => PG.innerDigestValue v = y
  compress : ∀ param l r y,
    P.compress (PG.twoToOneParamValue param) (PG.innerDigestValue l) (PG.innerDigestValue r) = .ok y →
      Computes (PG.compress param l r) fun v => PG.innerDigestValue v = y

variable {PG : ConfigGadget P}

/-- `PathVar`: the branching bits and the siblings from the root down, without
the leaf's own. -/
structure PathVar (PG : ConfigGadget P) where
  path : List Boolean
  authPath : List PG.InnerDigest
  leafSibling : PG.LeafDigest
  leafIsRightChild : Boolean

namespace PathVar

/-- `PathVar::new_variable`. -/
def newVariable (PG : ConfigGadget P) (f : Except SynthesisError (Path P)) (mode : AllocationMode) :
    Gadget (PathVar PG) :=
  match f with
  | .error e => Synthesis.fail (.err e)
  | .ok val => do
    let leafSibling ← PG.leafDigestNewVariable val.leafSiblingHash mode
    let leafPositionBit ← Boolean.newVariable (val.leafIndex &&& 1 == 1) mode
    let posList ← (val.positionList : Except SynthesisFault (List Bool))
    let path ← (posList.take (posList.length - 1)).mapM (Boolean.newVariable · mode)
    let authPath ← val.authPath.mapM (PG.innerDigestNewVariable · mode)
    pure { path, authPath, leafSibling, leafIsRightChild := leafPositionBit }

/-- One step of the loop of `calculate_root`. -/
def calculateLevel (twoToOneParams : PG.TwoToOneParam) (currHash : PG.InnerDigest)
    (level : Boolean × PG.InnerDigest) : Gadget PG.InnerDigest := do
  let (bit, sibling) := level
  let leftHash ← PG.innerDigestSelect bit sibling currHash
  let rightHash ← PG.innerDigestSelect bit currHash sibling
  PG.compress twoToOneParams leftHash rightHash

/-- `PathVar::calculate_root`. -/
def calculateRoot (self : PathVar PG) (leafParams : PG.LeafParam) (twoToOneParams : PG.TwoToOneParam)
    (leaf : PG.Leaf) : Gadget PG.InnerDigest := do
  let claimedLeafHash ← PG.leafHashEvaluate leafParams leaf
  let leafSiblingHash := self.leafSibling
  let leftHash ← PG.leafDigestSelect self.leafIsRightChild leafSiblingHash claimedLeafHash
  let rightHash ← PG.leafDigestSelect self.leafIsRightChild claimedLeafHash leafSiblingHash
  let leftHash ← PG.convert leftHash
  let rightHash ← PG.convert rightHash
  let currHash ← PG.evaluate twoToOneParams leftHash rightHash
  (self.path.reverse.zip self.authPath.reverse).foldlM (calculateLevel twoToOneParams) currHash

/-- `PathVar::verify_membership`. -/
def verifyMembership (self : PathVar PG) (leafParams : PG.LeafParam) (twoToOneParams : PG.TwoToOneParam)
    (root : PG.InnerDigest) (leaf : PG.Leaf) : Gadget Boolean := do
  let expectedRoot ← self.calculateRoot leafParams twoToOneParams leaf
  PG.innerDigestIsEq expectedRoot root

/-- `PathVar::update_leaf`. -/
def updateLeaf (self : PathVar PG) (leafParams : PG.LeafParam) (twoToOneParams : PG.TwoToOneParam)
    (oldRoot : PG.InnerDigest) (oldLeaf newLeaf : PG.Leaf) : Gadget PG.InnerDigest := do
  let isMember ← self.verifyMembership leafParams twoToOneParams oldRoot oldLeaf
  isMember.enforceEqual .TRUE
  self.calculateRoot leafParams twoToOneParams newLeaf

/-- `PathVar::update_and_check`. -/
def updateAndCheck (self : PathVar PG) (leafParams : PG.LeafParam) (twoToOneParams : PG.TwoToOneParam)
    (oldRoot newRoot : PG.InnerDigest) (oldLeaf newLeaf : PG.Leaf) : Gadget Boolean := do
  let actualNewRoot ← self.updateLeaf leafParams twoToOneParams oldRoot oldLeaf newLeaf
  PG.innerDigestIsEq actualNewRoot newRoot

/-! ## Allocation -/

/-- A path gadget has the digests of a path and the bits of its index. -/
structure Represents (v : PathVar PG) (p : Path P) : Prop where
  leafSibling : PG.leafDigestValue v.leafSibling = p.leafSiblingHash
  authPath : v.authPath.map PG.innerDigestValue = p.authPath
  leafIsRightChild : v.leafIsRightChild.value = p.leafIndex.testBit 0
  path : v.path.map Boolean.value =
    ((List.range p.authPath.length).map fun j => p.leafIndex.testBit (j + 1)).reverse

/-- Gadgets that allocate the digests of a path allocate the path. -/
theorem newVariable_computes_of {p : Path P} (h : p.authPath.length < usizeBits) {mode : AllocationMode}
    {X : PG.LeafDigest → Prop} {N : PG.InnerDigest → Prop}
    (hleaf : Computes (PG.leafDigestNewVariable p.leafSiblingHash mode) fun v =>
      PG.leafDigestValue v = p.leafSiblingHash ∧ X v)
    (hinner : ∀ n ∈ p.authPath, Computes (PG.innerDigestNewVariable n mode) fun v =>
      PG.innerDigestValue v = n ∧ N v) :
    Computes (newVariable PG (.ok p) mode) fun v => v.Represents p ∧ X v.leafSibling ∧ ∀ n ∈ v.authPath, N n := by
  refine hleaf.bind fun leafSibling hleaf => ?_
  refine (Boolean.newVariable_computes _ mode).bind fun leafPositionBit hbit => ?_
  refine (Computes.lift (p := (· = _)) (p.positionList_eq h) rfl).bind fun posList hpos => ?_
  refine (Computes.mapM_map fun b _ => Boolean.newVariable_computes b mode).bind fun path hpath => ?_
  refine (Computes.mapM hinner).bind fun authPath hauth => ?_
  rw [List.map_id'] at hpath
  have hvalues : authPath.map PG.innerDigestValue = p.authPath := by
    rw [← List.forall₂_eq_eq_eq, List.forall₂_map_left_iff]
    exact hauth.flip.imp fun _ _ h => h.1
  refine .pure ⟨⟨hleaf.1, hvalues, ?_, ?_⟩, hleaf.2, fun n hn => ?_⟩
  · rw [hbit, Nat.and_one_is_mod, Nat.testBit_zero]
    rfl
  · have hdrop : posList.take (posList.length - 1) =
        ((List.range p.authPath.length).map fun j => p.leafIndex.testBit (j + 1)).reverse := by
      rw [hpos, ← List.dropLast_eq_take, List.range_succ_eq_map, List.map_cons, List.reverse_cons,
        List.dropLast_concat, List.map_map]
      rfl
    rw [← hdrop, hpath]
  · obtain ⟨i, hi, rfl⟩ := List.mem_iff_getElem.mp hn
    exact (hauth.get (hauth.length_eq ▸ hi) hi).2

theorem newVariable_computes (hPG : PG.ValueCorrect) (p : Path P) (h : p.authPath.length < usizeBits)
    (mode : AllocationMode) : Computes (newVariable PG (.ok p) mode) fun v => v.Represents p :=
  (newVariable_computes_of (X := fun _ => True) (N := fun _ => True) h
    ((hPG.leafDigestNewVariable _ mode).mono fun _ hv => ⟨hv, trivial⟩)
    fun n _ => (hPG.innerDigestNewVariable n mode).mono fun _ hv => ⟨hv, trivial⟩).mono fun _ hv => hv.1

/-- A bit selects as the parity does that it stands for. -/
theorem ite_testBit_zero {α : Type} (i : Nat) (x y : α) :
    (if i.testBit 0 then y else x) = if i % 2 = 0 then x else y := by
  rw [Nat.testBit_zero]
  rcases Nat.mod_two_eq_zero_or_one i with h | h <;> simp [h]

/-- Entry `j` of the reversed lists is the bit and the sibling of the level `j`
above the leaf's parent. -/
theorem Represents.level {v : PathVar PG} {p : Path P} (h : v.Represents p) {j : Nat} {bit : Boolean}
    {sibling : PG.InnerDigest} (hlevel : (v.path.reverse.zip v.authPath.reverse)[j]? = some (bit, sibling)) :
    j < p.authPath.length ∧ bit.value = (p.leafIndex / 2 ^ (j + 1)).testBit 0 ∧
      PG.innerDigestValue sibling = p.siblingAt (p.authPath.length - j) := by
  obtain ⟨hbit, hsib⟩ := List.getElem?_zip_eq_some.mp hlevel
  have hj : j < p.authPath.length := by
    have hlt := (List.getElem?_eq_some_iff.mp hsib).1
    rwa [List.length_reverse, ← List.length_map (f := PG.innerDigestValue), h.authPath] at hlt
  refine ⟨hj, ?_, ?_⟩
  · have hget := congrArg (·.reverse[j]?) h.path
    simp only [← List.map_reverse, List.reverse_reverse, List.getElem?_map, hbit, Option.map_some,
      List.getElem?_range hj, Option.some.injEq] at hget
    rw [hget, ← Nat.shiftRight_eq_div_pow, Nat.testBit_shiftRight, Nat.add_zero]
  · have hget := congrArg (·.reverse[j]?) h.authPath
    simp only [← List.map_reverse, List.getElem?_map, hsib, Option.map_some,
      List.getElem?_reverse hj] at hget
    rw [Path.siblingAt, List.getD_eq_getElem?_getD,
      show p.authPath.length - j - 1 = p.authPath.length - 1 - j by omega, ← hget, Option.getD_some]

theorem Represents.length_zip {v : PathVar PG} {p : Path P} (h : v.Represents p) :
    (v.path.reverse.zip v.authPath.reverse).length = p.authPath.length := by
  have hpath := congrArg List.length h.path
  have hauth := congrArg List.length h.authPath
  simp only [List.length_map, List.length_reverse, List.length_range] at hpath hauth
  rw [List.length_zip, List.length_reverse, List.length_reverse, hpath, hauth, Nat.min_self]

/-- An allocated path computes the final node of its native path. -/
theorem calculateRoot_computes (hPG : PG.ValueCorrect) {self : PathVar PG} {p : Path P}
    (h : self.Represents p) {leafParams : PG.LeafParam} {twoToOneParams : PG.TwoToOneParam} {leaf : PG.Leaf}
    {n : P.InnerDigest} (hn : p.finalNode (PG.leafParamValue leafParams)
      (PG.twoToOneParamValue twoToOneParams) (PG.leafValue leaf) = .ok n) :
    Computes (self.calculateRoot leafParams twoToOneParams leaf) fun v => PG.innerDigestValue v = n := by
  obtain ⟨x, hx, run, ⟨hbottom, hinner⟩, rfl⟩ := Path.finalNode_eq_ok.mp hn
  rw [HashTree.bottomAt_eq] at hbottom
  obtain ⟨l, hl, hbottom⟩ := Except.bind_eq_ok.mp hbottom
  obtain ⟨r, hr, hbottom⟩ := Except.bind_eq_ok.mp hbottom
  refine (hPG.leafHashEvaluate _ _ x hx).bind fun claimedLeafHash hclaimed => ?_
  refine (hPG.leafDigestSelect _ _ _).bind fun left hleft => ?_
  refine (hPG.leafDigestSelect _ _ _).bind fun right hright => ?_
  rw [apply_ite PG.leafDigestValue, hclaimed, h.leafSibling, h.leafIsRightChild, ite_testBit_zero]
    at hleft hright
  refine (hPG.convert left l (by rw [hleft]; exact hl)).bind fun left hleft => ?_
  refine (hPG.convert right r (by rw [hright]; exact hr)).bind fun right hright => ?_
  refine (hPG.evaluate _ left right (run p.authPath.length) (by rw [hleft, hright]; exact hbottom)).bind
    fun currHash hcurr => ?_
  have hlen := h.length_zip
  -- after `j` levels the gadget is at depth `k - j` of the path
  have hrun : Computes ((self.path.reverse.zip self.authPath.reverse).foldlM
      (calculateLevel twoToOneParams) currHash) _ :=
    Computes.foldlM (I := fun j v => PG.innerDigestValue v = run (p.authPath.length - j))
      (fun j level hlevel curr hcurr => ?_) hcurr
  · rwa [hlen, Nat.sub_self] at hrun
  · obtain ⟨bit, sibling⟩ := level
    obtain ⟨hj, hbit, hsib⟩ := h.level hlevel
    have hstep := hinner (p.authPath.length - (j + 1)) (by omega)
    rw [HashTree.innerAt_eq, show p.authPath.length - (j + 1) + 1 = p.authPath.length - j by omega, anc,
      show p.authPath.length + 1 - (p.authPath.length - j) = j + 1 by omega] at hstep
    refine (hPG.innerDigestSelect _ _ _).bind fun left hleft => ?_
    refine (hPG.innerDigestSelect _ _ _).bind fun right hright => ?_
    rw [apply_ite PG.innerDigestValue, hcurr, hsib, hbit, ite_testBit_zero] at hleft hright
    exact hPG.compress _ left right _ (by rw [hleft, hright]; exact hstep)

/-- `verify_membership` compares the final node with the root. -/
theorem verifyMembership_computes (hPG : PG.ValueCorrect) {self : PathVar PG} {p : Path P}
    (h : self.Represents p) {leafParams : PG.LeafParam} {twoToOneParams : PG.TwoToOneParam} {leaf : PG.Leaf}
    {n : P.InnerDigest} (hn : p.finalNode (PG.leafParamValue leafParams)
      (PG.twoToOneParamValue twoToOneParams) (PG.leafValue leaf) = .ok n) (root : PG.InnerDigest) :
    Computes (self.verifyMembership leafParams twoToOneParams root leaf) fun b =>
      b.value = (n == PG.innerDigestValue root) := by
  refine (calculateRoot_computes hPG h hn).bind fun expectedRoot hroot => ?_
  have heq := hPG.innerDigestIsEq expectedRoot root
  rwa [hroot] at heq

/-- `update_leaf` computes the root for the new leaf, and its constraint asks that
the old leaf leads to the old root. -/
theorem updateLeaf_run (hPG : PG.ValueCorrect) {self : PathVar PG} {p : Path P}
    (h : self.Represents p) {leafParams : PG.LeafParam} {twoToOneParams : PG.TwoToOneParam}
    {oldLeaf newLeaf : PG.Leaf} {n n' : P.InnerDigest}
    (hold : p.finalNode (PG.leafParamValue leafParams) (PG.twoToOneParamValue twoToOneParams)
      (PG.leafValue oldLeaf) = .ok n)
    (hnew : p.finalNode (PG.leafParamValue leafParams) (PG.twoToOneParamValue twoToOneParams)
      (PG.leafValue newLeaf) = .ok n') (oldRoot : PG.InnerDigest) :
    ((∃ v, (self.updateLeaf leafParams twoToOneParams oldRoot oldLeaf newLeaf).run true = .ok (v, true)) ↔
      n = PG.innerDigestValue oldRoot) ∧
    ∀ v, (self.updateLeaf leafParams twoToOneParams oldRoot oldLeaf newLeaf).run true = .ok (v, true) →
      PG.innerDigestValue v = n' := by
  obtain ⟨b, hb, hvalue⟩ := verifyMembership_computes hPG h hold oldRoot true
  have hrun : ∀ v, (self.updateLeaf leafParams twoToOneParams oldRoot oldLeaf newLeaf).run true = .ok (v, true) ↔
      n = PG.innerDigestValue oldRoot ∧
        (self.calculateRoot leafParams twoToOneParams newLeaf).run true = .ok (v, true) := fun v => by
    have hcalc : ∀ s, (self.calculateRoot leafParams twoToOneParams newLeaf).run s = .ok (v, true) → s = true :=
      fun s hs => by
        obtain ⟨x, hx, -⟩ := calculateRoot_computes hPG h hnew s
        rw [hx] at hs
        exact (Prod.ext_iff.mp (Except.ok.inj hs)).2
    have henforce := b.enforceEqual_run .TRUE true
    rw [hvalue, Boolean.value_TRUE, beq_iff_eq] at henforce
    rw [updateLeaf, StateT.run_bind, hb, Except.ok_bind, StateT.run_bind, Except.bind_eq_ok]
    constructor
    · rintro ⟨⟨⟨⟩, s⟩, hs, hv⟩
      obtain rfl := hcalc s hv
      exact ⟨(henforce.mp hs).2, hv⟩
    · rintro ⟨heq, hv⟩
      exact ⟨((), true), henforce.mpr ⟨rfl, heq⟩, hv⟩
  obtain ⟨x, hx, hxn⟩ := calculateRoot_computes hPG h hnew true
  refine ⟨⟨fun ⟨v, hv⟩ => ((hrun v).mp hv).1, fun heq => ⟨x, (hrun x).mpr ⟨heq, hx⟩⟩⟩, fun v hv => ?_⟩
  obtain ⟨-, hv⟩ := (hrun v).mp hv
  rw [hx, Except.ok.injEq, Prod.mk.injEq] at hv
  rw [← hv.1, hxn]

end PathVar

/-! ## Agreement with the native path -/

/-- The gadget allocated from a path computes what the path computes. -/
def Path.GadgetAgrees (PG : ConfigGadget P) (leafParams : PG.LeafParam) (twoToOneParams : PG.TwoToOneParam)
    (self : Path P) : Prop :=
  ∀ mode s, ∃ pathVar, (PathVar.newVariable PG (.ok self) mode).run s = .ok (pathVar, s) ∧
    ∀ leaf root, ∃ n v b,
      self.finalNode (PG.leafParamValue leafParams) (PG.twoToOneParamValue twoToOneParams)
        (PG.leafValue leaf) = .ok n ∧
      (pathVar.calculateRoot leafParams twoToOneParams leaf).run s = .ok (v, s) ∧ PG.innerDigestValue v = n ∧
      (pathVar.verifyMembership leafParams twoToOneParams root leaf).run s = .ok (b, s) ∧
      (b.value = true ↔ self.verify (PG.leafParamValue leafParams) (PG.twoToOneParamValue twoToOneParams)
        (PG.innerDigestValue root) (PG.leafValue leaf) = .ok true)

/-- The gadget allocated from the proof of leaf `i` accepts the leaves its native
path accepts, and computes the root of the tree updated at `i`. -/
def MerkleTree.GadgetUpdates (PG : ConfigGadget P) (leafParams : PG.LeafParam)
    (twoToOneParams : PG.TwoToOneParam) (t : MerkleTree P) (i : Nat) : Prop :=
  ∃ proof, t.generateProof i = .ok proof ∧ ∀ mode s, ∃ pathVar,
    (PathVar.newVariable PG (.ok proof) mode).run s = .ok (pathVar, s) ∧
    ∀ oldRoot oldLeaf newLeaf,
      ((∃ v, (pathVar.updateLeaf leafParams twoToOneParams oldRoot oldLeaf newLeaf).run true = .ok (v, true)) ↔
        proof.verify (PG.leafParamValue leafParams) (PG.twoToOneParamValue twoToOneParams)
          (PG.innerDigestValue oldRoot) (PG.leafValue oldLeaf) = .ok true) ∧
      ∀ v, (pathVar.updateLeaf leafParams twoToOneParams oldRoot oldLeaf newLeaf).run true = .ok (v, true) →
        (t.update i (PG.leafValue newLeaf)).2 = .ok () ∧
        (t.update i (PG.leafValue newLeaf)).1.root = .ok (PG.innerDigestValue v)

section

variable {leafParams : PG.LeafParam} {twoToOneParams : PG.TwoToOneParam}

theorem Path.exists_finalNode (self : Path P) {leafHashParams : P.LeafParam} {twoToOneParams : P.TwoToOneParam}
    (hs : P.HashesSucceed leafHashParams twoToOneParams) (leaf : P.Leaf) :
    ∃ n, self.finalNode leafHashParams twoToOneParams leaf = .ok n := by
  obtain ⟨x, hx⟩ := hs.leafHash leaf
  obtain ⟨run, hrun⟩ : ∃ run, PathRun _ self.siblingAt self.authPath.length self.leafSiblingHash
    self.leafIndex x run := hs.total.exists_pathRun
  exact ⟨run 0, Path.finalNode_eq_ok.mpr ⟨x, hx, run, hrun, rfl⟩⟩

theorem Path.gadgetAgrees_of_lt (hPG : PG.ValueCorrect)
    (hs : P.HashesSucceed (PG.leafParamValue leafParams) (PG.twoToOneParamValue twoToOneParams))
    (self : Path P) (h : self.authPath.length < usizeBits) :
    self.GadgetAgrees PG leafParams twoToOneParams := fun mode s => by
  obtain ⟨pathVar, hnew, hrep⟩ := PathVar.newVariable_computes hPG self h mode s
  refine ⟨pathVar, hnew, fun leaf root => ?_⟩
  obtain ⟨n, hn⟩ := self.exists_finalNode hs (PG.leafValue leaf)
  obtain ⟨v, hv, hvalue⟩ := PathVar.calculateRoot_computes hPG hrep hn s
  obtain ⟨b, hb, hbvalue⟩ := PathVar.verifyMembership_computes hPG hrep hn root s
  refine ⟨n, v, b, hn, hv, hvalue, hb, ?_⟩
  rw [hbvalue, Path.verify_eq_ok]
  constructor
  · exact fun heq => ⟨n, hn, heq⟩
  · rintro ⟨n', hn', heq⟩
    rwa [Except.ok.inj (hn.symm.trans hn')]

theorem Path.lt_of_gadgetAgrees {self : Path P} (h : self.GadgetAgrees PG leafParams twoToOneParams) :
    self.authPath.length < usizeBits := by
  by_contra hlen
  obtain ⟨pathVar, hnew, -⟩ := h .witness true
  rw [PathVar.newVariable] at hnew
  simp only [StateT.run_bind, Except.bind_eq_ok] at hnew
  obtain ⟨_, -, _, -, ⟨posList, _⟩, hpos, -⟩ := hnew
  obtain ⟨bits, hbits, -⟩ := Except.bind_eq_ok.mp hpos
  exact self.positionList_ne_ok (Nat.le_of_not_lt hlen) bits hbits

theorem MerkleTree.gadgetUpdates (hPG : PG.ValueCorrect)
    (hs : P.HashesSucceed (PG.leafParamValue leafParams) (PG.twoToOneParamValue twoToOneParams))
    {t : MerkleTree P} (ht : t.Reachable) (hl : t.leafHashParam = PG.leafParamValue leafParams)
    (hp : t.twoToOneHashParam = PG.twoToOneParamValue twoToOneParams) {i : Nat}
    (hi : i < t.leafNodes.length) : t.GadgetUpdates PG leafParams twoToOneParams i := by
  obtain ⟨hvalid, hlt⟩ := ht.invariant
  obtain ⟨proof, hproof, -, hlen, -⟩ := generateProof_eq hvalid hi
  have hshort : proof.authPath.length < usizeBits := by
    obtain ⟨k, hk, hlk, -⟩ := hvalid.depth
    rw [hlk] at hlt
    have := (Nat.pow_lt_pow_iff_right (show 1 < 2 by decide)).mp hlt
    omega
  refine ⟨proof, hproof, fun mode s => ?_⟩
  obtain ⟨pathVar, hnew, hrep⟩ := PathVar.newVariable_computes hPG proof hshort mode s
  refine ⟨pathVar, hnew, fun oldRoot oldLeaf newLeaf => ?_⟩
  obtain ⟨n, hn⟩ := proof.exists_finalNode hs (PG.leafValue oldLeaf)
  -- the final node for the new leaf is the root of the updated tree
  obtain ⟨x, hx⟩ := hs.leafHash (PG.leafValue newLeaf)
  rw [← hl] at hx
  obtain ⟨t', hr⟩ := exists_rebuilt hvalid (by rwa [hl, hp]) i x
  have hfinal := finalNode_of_generateProof hvalid hi hproof hx hr
  rw [hl, hp] at hfinal
  obtain ⟨hupdate, -⟩ := updates_of_rebuilt hvalid hi hx hr
  obtain ⟨hiff, hvalue⟩ := PathVar.updateLeaf_run hPG hrep hn hfinal oldRoot
  refine ⟨hiff.trans ?_, fun v hv => ?_⟩
  · rw [Path.verify_eq_ok]
    constructor
    · exact fun heq => ⟨n, hn, beq_iff_eq.mpr heq⟩
    · rintro ⟨n', hn', heq⟩
      rw [Except.ok.inj (hn.symm.trans hn'), beq_iff_eq.mp heq]
  · rw [hupdate, hvalue v hv, (newWithLeafDigest_eq_ok.mp hr).1.root_eq]
    exact ⟨rfl, rfl⟩

/-- The gadget agrees with exactly the paths whose index can be shifted to each of
their levels, so with every path of a tree. -/
theorem gadgetAgrees_iff (hPG : PG.ValueCorrect)
    (hs : P.HashesSucceed (PG.leafParamValue leafParams) (PG.twoToOneParamValue twoToOneParams)) :
    (∀ path : Path P, path.GadgetAgrees PG leafParams twoToOneParams ↔ path.authPath.length ≤ 63) ∧
      ∀ t : MerkleTree P, t.Reachable → t.leafHashParam = PG.leafParamValue leafParams →
        t.twoToOneHashParam = PG.twoToOneParamValue twoToOneParams →
        ∀ i < t.leafNodes.length, t.GadgetUpdates PG leafParams twoToOneParams i := by
  refine ⟨fun path => ⟨fun h => Nat.le_of_lt_succ (Path.lt_of_gadgetAgrees h), fun h => ?_⟩, ?_⟩
  · exact path.gadgetAgrees_of_lt hPG hs (Nat.lt_succ_of_le h)
  · exact fun t ht hl hp i hi => t.gadgetUpdates hPG hs ht hl hp hi

end

/-- The gadgets of the free hash: each variable is its value. -/
abbrev freeGadget : ConfigGadget freeConfig where
  Leaf := Nat
  LeafDigest := Term
  InputVar := Term
  InnerDigest := Term
  LeafParam := Unit
  TwoToOneParam := Unit
  leafValue n := n
  leafDigestValue x := x
  inputValue x := x
  innerDigestValue x := x
  leafParamValue _ := ()
  twoToOneParamValue _ := ()
  leafDigestNewVariable x _ := pure x
  innerDigestNewVariable x _ := pure x
  leafDigestSelect b x y := pure (if b.value then x else y)
  innerDigestSelect b x y := pure (if b.value then x else y)
  innerDigestIsEq x y := pure (.var (x == y))
  leafHashEvaluate _ n := pure (.leaf n)
  convert x := pure x
  evaluate _ l r := pure (.node l r)
  compress _ l r := pure (.node l r)

theorem freeGadget_valueCorrect : freeGadget.ValueCorrect where
  leafDigestNewVariable _ _ := .pure rfl
  innerDigestNewVariable _ _ := .pure rfl
  leafDigestSelect _ _ _ := .pure rfl
  innerDigestSelect _ _ _ := .pure rfl
  innerDigestIsEq _ _ := .pure rfl
  leafHashEvaluate _ _ _ h := .pure (Except.ok.inj h)
  convert _ _ h := .pure (Except.ok.inj h)
  evaluate _ _ _ _ h := .pure (Except.ok.inj h)
  compress _ _ _ _ h := .pure (Except.ok.inj h)

theorem gadgetAgrees_iff_free :
    (∀ path : Path freeConfig, path.GadgetAgrees freeGadget () () ↔ path.authPath.length ≤ 63) ∧
      ∀ t : MerkleTree freeConfig, t.Reachable → t.leafHashParam = () → t.twoToOneHashParam = () →
        ∀ i < t.leafNodes.length, t.GadgetUpdates freeGadget () () i :=
  gadgetAgrees_iff freeGadget_valueCorrect freeConfig_hashesSucceed

/-- A path of 64 siblings is accepted, and cannot be allocated. -/
theorem newVariable_not_agrees :
    let path : Path freeConfig := ⟨.leaf 1, List.replicate 64 (.leaf 2), 0⟩
    (∃ R, path.verify () () R 0 = .ok true) ∧
      (PathVar.newVariable freeGadget (.ok path) .witness).run true = .error (.native (.panic .overflow)) ∧
      ¬ path.GadgetAgrees freeGadget () () := by
  intro path
  have hnew : (PathVar.newVariable freeGadget (.ok path) .witness).run true =
      .error (.native (.panic .overflow)) := by rfl
  refine ⟨?_, hnew, fun h => ?_⟩
  · obtain ⟨n, hn⟩ := path.exists_finalNode freeConfig_hashesSucceed 0
    exact ⟨n, Path.verify_eq_ok.mpr ⟨n, hn, beq_self_eq_true n⟩⟩
  · obtain ⟨pathVar, hok, -⟩ := h .witness true
    rw [hnew] at hok
    cases hok

end CryptoPrimitives.Merkle
