import CryptoPrimitives.MerkleTree.BatchProof

/-!
# Verification of any batch proof

A prover chooses everything in a `CoPath`. `Settles x p`: a part of `verify` makes it return
`false`, or returns a value with `p`. All of them do so (`settles_leafLevel`,
`settles_innerLevels`), with as many levels as the tree is high.

* `verify_returns_iff`: so `verify` returns a boolean for every expected tree height from 2 to 64,
  unless the tree height in the proof is below 2, which it asserts not to be.
-/

namespace CryptoPrimitives.Merkle

variable {P : Config}

/-- `x` makes `verify` return `false`, or returns a value with `p`: it does not stop with a fault. -/
def Settles {α : Type} (x : Except Exit α) (p : α → Prop) : Prop := x = reject ∨ ∃ a, x = .ok a ∧ p a

namespace Settles

variable {α β σ : Type} {p : α → Prop} {q : β → Prop}

theorem rejected : Settles (reject : Except Exit α) p := .inl rfl

theorem ok {a : α} (h : p a) : Settles (.ok a) p := .inr ⟨a, rfl, h⟩

theorem bind {x : Except Exit α} {f : α → Except Exit β} (hx : Settles x p) (hf : ∀ a, p a → Settles (f a) q) :
    Settles (x >>= f) q := by
  obtain rfl | ⟨a, rfl, ha⟩ := hx
  · exact .rejected
  · exact hf a ha

/-- A loop settles where each of its steps does, and keeps what they keep. -/
theorem foldlM {f : σ → α → Except Exit σ} {inv : σ → Prop} {xs : List α}
    (step : ∀ s, ∀ x ∈ xs, inv s → Settles (f s x) inv) {s : σ} (hs : inv s) : Settles (xs.foldlM f s) inv := by
  induction xs generalizing s with
  | nil => exact .ok hs
  | cons x xs ih =>
    rw [List.foldlM_cons]
    refine (step s x List.mem_cons_self hs).bind fun s' hs' => ?_
    exact ih (fun s y hy => step s y (List.mem_cons_of_mem _ hy)) hs'

end Settles

namespace CoPath

/-! ## Leaves -/

theorem settles_absorbSibling (leafLevel : BTreeMap P.LeafDigest) (sibling : Nat × P.LeafDigest) :
    Settles (absorbSibling leafLevel sibling) fun _ => True := by
  unfold absorbSibling
  split
  · split
    · exact .rejected
    · exact .ok trivial
  · exact .ok trivial

theorem settles_leafLevel (self : CoPath P) {leafHashParams : P.LeafParam}
    (hs : ∀ leaf, ∃ x, P.leafHashEvaluate leafHashParams leaf = .ok x) (leaves : List P.Leaf) :
    Settles (self.leafLevel leafHashParams leaves) fun _ => True := by
  by_cases hl : self.leafIndexes.length = leaves.length
  · obtain ⟨ingested, hingested⟩ := exists_ingestLeaves hs hl BTreeMap.new
    simp only [leafLevel, hingested, computeNeededLeafSiblings_eq, Except.ok_bind, absorbLeafCopath]
    split
    · exact .rejected
    · exact .foldlM (fun m sibling _ _ => settles_absorbSibling m sibling) trivial
  · rw [leafLevel_of_ne hs hl]
    exact .rejected

/-! ## Inner levels -/

section

variable {D n : Nat} {indexes : List Nat}

theorem settles_insert {levels : Levels P} {d : Nat} (hn : levels.length = n) (hd : d < n) (p : Nat)
    (x : P.InnerDigest) : Settles (levels.insert d p x) fun levels' => levels'.length = n := by
  obtain ⟨levels', h⟩ := Levels.exists_insert (p := p) (x := x) (show d < levels.length by omega)
  rw [h]
  exact .ok ((Levels.insert_spec h).1.trans hn)

theorem settles_consumeSibling {d : Nat} (hd : d < n) (state : Levels P × List P.InnerDigest) (sibling : Nat)
    (hn : state.1.length = n) : Settles (consumeSibling d state sibling) fun state' => state'.1.length = n := by
  unfold consumeSibling
  split
  · exact .rejected
  · refine (settles_insert hn hd sibling _).bind fun levels hlevels => ?_
    exact .ok hlevels

theorem settles_consumeInnerCopath (copath : List P.InnerDigest) {levels : Levels P} (hn : levels.length = n)
    (hD : D ≤ n) :
    Settles (consumeInnerCopath D (computeOnPath D indexes) copath levels) fun levels' => levels'.length = n := by
  have hdepth : ∀ d ∈ List.range' 1 (D - 1), d ≤ D ∧ d < n := fun d hd => by
    have := List.mem_range'_1.mp hd
    omega
  have hlevel : ∀ state : Levels P × List P.InnerDigest, ∀ d ∈ List.range' 1 (D - 1), state.1.length = n →
      Settles (consumeLevel (computeOnPath D indexes) state d) fun state' => state'.1.length = n := by
    intro state d hd hstate
    rw [consumeLevel, index_computeOnPath (hdepth d hd).1, Except.ok_bind]
    exact .foldlM (fun s sibling _ hs => settles_consumeSibling (hdepth d hd).2 s sibling hs) hstate
  rw [consumeInnerCopath]
  refine (Settles.foldlM hlevel (s := (levels, copath)) hn).bind fun state hstate => ?_
  obtain ⟨levels', rest⟩ := state
  simp only
  split
  · exact .ok hstate
  · exact .rejected

theorem settles_hashParent {α : Type} {children : BTreeMap α} {hash : α → α → Except Error P.InnerDigest}
    (hs : ∀ l r, ∃ x, hash l r = .ok x) {d p : Nat} (hu : 2 * p + 1 < 2 ^ usizeBits) {levels : Levels P}
    (hn : levels.length = n) (hd : d < n) :
    Settles (hashParent children hash d levels p) fun levels' => levels'.length = n := by
  rw [hashParent_of_lt hu]
  split
  · rename_i l r _ _
    obtain ⟨x, hx⟩ := hs l r
    rw [hx, unwrap_ok, Except.ok_bind]
    exact settles_insert hn hd p x
  · exact .rejected

variable {twoToOneParams : P.TwoToOneParam}

theorem settles_hashLevel (hs : ∀ l r, ∃ x, P.compress twoToOneParams l r = .ok x)
    (hu : ∀ i ∈ indexes, i < 2 ^ usizeBits) {levels : Levels P} (hn : levels.length = n) {d : Nat} (hd : d < D)
    (hdn : d + 1 < n) :
    Settles (hashLevel (computeOnPath D indexes) twoToOneParams levels (d + 1)) fun levels' => levels'.length = n := by
  rw [hashLevel_eq (getElem?_computeOnPath hd.le) (by omega)]
  refine .foldlM (fun s p hp hs' => ?_) hn
  exact settles_hashParent hs (child_lt_of_onPath hu hd ((mem_onLevel hd.le).mp hp)) hs' (by omega)

theorem settles_innerLevels (self : CoPath P) (hh : 2 ≤ self.treeHeight) (hs : (P.hashing twoToOneParams).Total)
    (hu : ∀ i ∈ self.leafIndexes, i < 2 ^ usizeBits) (leafLevel : BTreeMap P.LeafDigest) :
    Settles (self.innerLevels twoToOneParams leafLevel) fun levels => levels.length = self.treeHeight := by
  obtain ⟨k, hk⟩ : ∃ k, self.treeHeight = k + 2 := ⟨self.treeHeight - 2, by omega⟩
  have hu' : ∀ i ∈ btreeSet self.leafIndexes, i < 2 ^ usizeBits := fun i hi => hu i (mem_btreeSet.mp hi)
  simp only [innerLevels, hk, show k + 2 - 1 = k + 1 by omega]
  refine (settles_consumeInnerCopath self.innerCopath List.length_replicate (by omega)).bind fun levels hlevels => ?_
  -- the bottom layer
  have hbottom : Settles (verifyAndHashBottomLayer (k + 1) (computeOnPath (k + 1) (btreeSet self.leafIndexes))
      leafLevel twoToOneParams levels) fun levels' => levels'.length = k + 2 := by
    rw [verifyAndHashBottomLayer, Nat.add_sub_cancel, index_computeOnPath (Nat.le_succ k), Except.ok_bind]
    refine .foldlM (fun s p hp hs' => ?_) hlevels
    have hon := (mem_onLevel (Nat.le_succ k)).mp hp
    exact settles_hashParent hs.bottom (child_lt_of_onPath hu' (Nat.lt_succ_self k) hon) hs' (by omega)
  refine hbottom.bind fun levels hlevels => ?_
  refine .foldlM (fun s d hd hs' => ?_) hlevels
  have hd := List.mem_range'_1.mp (List.mem_reverse.mp hd)
  obtain ⟨d, rfl⟩ : ∃ e, d = e + 1 := ⟨d - 1, by omega⟩
  exact settles_hashLevel hs.inner hu' hs' (by omega) (by omega)

end

/-! ## The verifier -/

section

variable {self : CoPath P} {leafHashParams : P.LeafParam} {twoToOneParams : P.TwoToOneParam}

theorem verify_of_height_lt (hne : self.leafIndexes ≠ []) (hh : self.treeHeight < 2) (rootHash : P.InnerDigest)
    (expectedTreeHeight : Nat) (leaves : List P.Leaf) :
    self.verify leafHashParams twoToOneParams rootHash expectedTreeHeight leaves =
      raise (.panic (.assertion "tree_height must be >= 2")) := by
  have hempty : (!self.leafIndexes.isEmpty) = true := by simpa using hne
  have hheight : decide (2 ≤ self.treeHeight) = false := decide_eq_false (by omega)
  simp only [verify, hempty, hheight, assert, if_true, Except.ok_bind]
  rfl

theorem exists_verify (hne : self.leafIndexes ≠ []) (hh : 2 ≤ self.treeHeight)
    (hs : P.HashesSucceed leafHashParams twoToOneParams) (hu : ∀ i ∈ self.leafIndexes, i < 2 ^ usizeBits)
    (rootHash : P.InnerDigest) (expectedTreeHeight : Nat) (leaves : List P.Leaf) :
    ∃ b, self.verify leafHashParams twoToOneParams rootHash expectedTreeHeight leaves = .ok b := by
  have hempty : (!self.leafIndexes.isEmpty) = true := by simpa using hne
  have hlevels := (self.settles_leafLevel hs.leafHash leaves).bind fun m _ =>
    self.settles_innerLevels hh hs.total hu m
  simp only [verify, hempty, hh, decide_true, assert, if_true, Except.ok_bind]
  split
  · exact ⟨false, rfl⟩
  · obtain hrejected | ⟨levels, hok, hlen⟩ := hlevels
    · rw [hrejected]
      exact ⟨false, rfl⟩
    · simp only [hok, index_of_lt (show 0 < levels.length by omega), Except.ok_bind]
      split
      · exact ⟨_, rfl⟩
      · exact ⟨false, rfl⟩

/-- Whatever indexes and digests a batch proof of some leaves holds, `verify` returns a boolean for
every root, every expected tree height from 2 to 64 and all leaves, exactly when the tree height in
the proof is at least 2. Below, it panics with the message of its assertion. -/
theorem verify_returns_iff (hne : self.leafIndexes ≠ []) (hs : P.HashesSucceed leafHashParams twoToOneParams)
    (hu : ∀ i ∈ self.leafIndexes, i < 2 ^ usizeBits) (rootHash : P.InnerDigest) :
    ∀ expectedTreeHeight, 2 ≤ expectedTreeHeight → expectedTreeHeight ≤ 64 → ∀ leaves : List P.Leaf,
      ((∃ b, self.verify leafHashParams twoToOneParams rootHash expectedTreeHeight leaves = .ok b) ↔
        2 ≤ self.treeHeight) ∧
      (self.treeHeight < 2 → self.verify leafHashParams twoToOneParams rootHash expectedTreeHeight leaves =
        raise (.panic (.assertion "tree_height must be >= 2"))) := by
  -- Proofs of other heights are refused before `compute_on_path`, so the bounds keep the levels that
  -- it allocates few: a `vec!` of `usize::MAX` levels would panic, which no list of the model does.
  intro expectedTreeHeight _ _ leaves
  refine ⟨⟨fun ⟨b, hb⟩ => ?_, fun hh => exists_verify hne hh hs hu rootHash expectedTreeHeight leaves⟩,
    fun hh => verify_of_height_lt hne hh rootHash expectedTreeHeight leaves⟩
  by_contra hh
  rw [verify_of_height_lt hne (by omega)] at hb
  exact raise_ne_ok hb

/-- The indexes are far out of range and the copaths empty. -/
theorem verify_returns_iff_free :
    let proof : CoPath freeConfig := ⟨3, [], [], [2 ^ 64 - 1, 0]⟩
    ((∃ b, proof.verify () () (.leaf 0) 3 [1, 2] = .ok b) ↔ 2 ≤ proof.treeHeight) ∧
      (proof.treeHeight < 2 →
        proof.verify () () (.leaf 0) 3 [1, 2] = raise (.panic (.assertion "tree_height must be >= 2"))) := by
  intro proof
  have hu : ∀ i ∈ proof.leafIndexes, i < 2 ^ usizeBits := by decide
  exact verify_returns_iff (List.cons_ne_nil _ _) freeConfig_hashesSucceed hu (.leaf 0) 3 (by decide) (by decide) [1, 2]

/-- A tree height of 1 in the proof stops the verifier. -/
theorem verify_panics :
    let proof : CoPath freeConfig := ⟨1, [], [], [0]⟩
    proof.leafIndexes ≠ [] ∧ ¬ ∃ b, proof.verify () () (.leaf 0) 3 [0] = .ok b :=
  ⟨List.cons_ne_nil _ _, nofun⟩

end

end CoPath

end CryptoPrimitives.Merkle
