import CryptoPrimitives.MerkleTree.Tree
import CryptoPrimitives.Rust.Collections

/-!
# Batch proofs

`compute_on_path`, `CoPath::verify` with its helpers, and
`generate_multi_proof`, in this order. `verify` is split where it stops: the
opened and sibling leaves (`leafLevel`), the digests of the levels above
(`innerLevels`), and the comparison of the root.

* `computeOnPath_spec`: level `d` holds, in ascending order, the positions at
  depth `d` above the indexes.
* `computeOnPath_eq_union`: so the levels are the union of the paths to the root, and
  closed under parents.
-/

namespace CryptoPrimitives.Merkle

open Except (bind_eq_ok)
open HashTree (OnPath anc anc_self anc_succ anc_half)

variable {P : Config}

/-! ## The on-path sets -/

/-- The inner loop of `compute_on_path`: one index at each depth up to the root. -/
def pushPath : Nat → Nat → List (List Nat) → List (List Nat)
  | 0, idx, pathSets => pathSets.modify 0 (· ++ [idx])
  | depth + 1, idx, pathSets => pushPath depth (idx >>> 1) (pathSets.modify (depth + 1) (· ++ [idx]))

/-- `compute_on_path`, of the elements of a `BTreeSet`. -/
def computeOnPath (depthLeaves : Nat) (indexes : List Nat) : List (List Nat) :=
  let pathSets := indexes.foldl (fun pathSets leafIndex => pushPath depthLeaves leafIndex pathSets)
    (List.replicate (depthLeaves + 1) [])
  pathSets.map fun levelVec => dedup (sortUnstable levelVec)

theorem getElem?_pushPath (D idx : Nat) (pathSets : List (List Nat)) (d : Nat) :
    (pushPath D idx pathSets)[d]? =
      (fun level => if d ≤ D then level ++ [anc D idx d] else level) <$> pathSets[d]? := by
  induction D generalizing idx pathSets with
  | zero =>
    rw [pushPath, List.getElem?_modify]
    by_cases h : d = 0
    · subst h
      simp only [anc_self, if_true, Nat.le_refl]
    · simp only [if_neg (Ne.symm h), show ¬ d ≤ 0 by omega, if_false]
  | succ D ih =>
    rw [pushPath, ih, List.getElem?_modify]
    by_cases h : d = D + 1
    · subst h
      simp only [anc_self, if_true, Nat.le_refl, show ¬ D + 1 ≤ D by omega, if_false, id_map']
    · by_cases hd : d ≤ D
      · simp only [if_neg (Ne.symm h), id_map', hd, show d ≤ D + 1 by omega, if_true, Nat.shiftRight_one,
          anc_half idx hd]
      · simp only [if_neg (Ne.symm h), id_map', hd, show ¬ d ≤ D + 1 by omega, if_false]

theorem getElem?_pushPaths {D d : Nat} (hd : d ≤ D) (indexes : List Nat) (pathSets : List (List Nat)) :
    (indexes.foldl (fun pathSets leafIndex => pushPath D leafIndex pathSets) pathSets)[d]? =
      (· ++ indexes.map (anc D · d)) <$> pathSets[d]? := by
  induction indexes generalizing pathSets with
  | nil => simp
  | cons idx indexes ih =>
    rw [List.foldl_cons, ih, getElem?_pushPath, ← comp_map]
    simp only [if_pos hd, List.map_cons, Function.comp_def, List.append_assoc, List.singleton_append]

/-- The levels of `compute_on_path`: the positions above the indexes, each once, in
ascending order. -/
theorem computeOnPath_spec {D d : Nat} (hd : d ≤ D) (indexes : List Nat) :
    ∃ level, (computeOnPath D indexes)[d]? = some level ∧ level.Pairwise (· < ·) ∧
      ∀ p, p ∈ level ↔ OnPath D indexes d p := by
  refine ⟨dedup (sortUnstable (indexes.map (anc D · d))), ?_, pairwise_sortDedup _, fun p => ?_⟩
  · rw [computeOnPath, List.getElem?_map, getElem?_pushPaths hd,
      List.getElem?_replicate_of_lt (Nat.lt_succ_of_le hd)]
    rfl
  · rw [mem_sortDedup, List.mem_map]
    rfl

theorem length_pushPath (D idx : Nat) (pathSets : List (List Nat)) :
    (pushPath D idx pathSets).length = pathSets.length := by
  induction D generalizing idx pathSets with
  | zero => exact List.length_modify ..
  | succ D ih => rw [pushPath, ih, List.length_modify]

theorem length_computeOnPath (D : Nat) (indexes : List Nat) : (computeOnPath D indexes).length = D + 1 := by
  have hpaths (pathSets : List (List Nat)) :
      (indexes.foldl (fun pathSets leafIndex => pushPath D leafIndex pathSets) pathSets).length = pathSets.length := by
    induction indexes generalizing pathSets with
    | nil => rfl
    | cons idx indexes ih => rw [List.foldl_cons, ih, length_pushPath]
  rw [computeOnPath, List.length_map, hpaths, List.length_replicate]

/-- Every position above the indexes has a child above them. -/
theorem exists_child_of_onPath {D d p : Nat} {indexes : List Nat} (hd : d < D) (h : OnPath D indexes d p) :
    OnPath D indexes (d + 1) (2 * p) ∨ OnPath D indexes (d + 1) (2 * p + 1) := by
  obtain ⟨i, hi, rfl⟩ := h
  have hparent := anc_succ i hd
  rcases Nat.mod_two_eq_zero_or_one (anc D i (d + 1)) with heven | hodd
  · exact .inl ⟨i, hi, by omega⟩
  · exact .inr ⟨i, hi, by omega⟩

/-- For every depth and every set of leaf indexes: each level has the positions above the indexes, in ascending
order, and a binary search in it finds these. The parent of each of them is in the level above, and a child in the
level below. -/
theorem computeOnPath_eq_union (D : Nat) (indexes : List Nat) :
    (computeOnPath D indexes).length = D + 1 ∧
    (∀ d ≤ D, ∃ level, (computeOnPath D indexes)[d]? = some level ∧ level.Pairwise (· < ·) ∧
      (∀ p, p ∈ level ↔ ∃ i ∈ indexes, p = i >>> (D - d)) ∧ ∀ p, binarySearch level p = true ↔ p ∈ level) ∧
    ∀ d < D, ∃ above below, (computeOnPath D indexes)[d]? = some above ∧
      (computeOnPath D indexes)[d + 1]? = some below ∧ (∀ p ∈ below, p >>> 1 ∈ above) ∧
      ∀ p ∈ above, 2 * p ∈ below ∨ 2 * p + 1 ∈ below := by
  refine ⟨length_computeOnPath D indexes, fun d hd => ?_, fun d hd => ?_⟩
  · obtain ⟨level, hlevel, hsorted, hmem⟩ := computeOnPath_spec hd indexes
    refine ⟨level, hlevel, hsorted, fun p => ?_, fun p => ?_⟩
    · rw [hmem, OnPath]
      simp only [anc, Nat.shiftRight_eq_div_pow, eq_comm]
    · rw [binarySearch_eq hsorted, decide_eq_true_eq]
  · obtain ⟨above, habove, -, hmem⟩ := computeOnPath_spec hd.le indexes
    obtain ⟨below, hbelow, -, hmem'⟩ := computeOnPath_spec (Nat.succ_le_of_lt hd) indexes
    refine ⟨above, below, habove, hbelow, fun p hp => ?_, fun p hp => ?_⟩
    · rw [hmem, Nat.shiftRight_one]
      exact ((hmem' p).mp hp).parent hd
    · rw [hmem', hmem']
      exact exists_child_of_onPath hd ((hmem p).mp hp)

/-- The siblings of the indexes of a level that are not in it, in the order of the
level. -/
def neededSiblings (level : List Nat) : List Nat :=
  level.filterMap fun pathIdx =>
    let siblingIdx := pathIdx ^^^ 1
    if binarySearch level siblingIdx then none else some siblingIdx

/-! ## Verification -/

/-- `CoPath`. -/
structure CoPath (P : Config) where
  treeHeight : Nat
  leafCopath : List P.LeafDigest
  innerCopath : List P.InnerDigest
  leafIndexes : List Nat

/-- How a part of `CoPath::verify` stops: it makes `verify` return `false`, or with
a fault. -/
inductive Exit where
  | rejected
  | fault (f : Fault)

instance : Faults Exit := ⟨.fault⟩

/-- `return false`. -/
def reject {α : Type} : Except Exit α := .error .rejected

@[simp] theorem reject_ne_ok {α : Type} {x : α} : (reject : Except Exit α) ≠ .ok x := nofun

/-- The maps of the inner levels, by depth. -/
abbrev Levels (P : Config) := List (BTreeMap P.InnerDigest)

/-- `inner_levels[depth].insert(idx, digest)`. -/
def Levels.insert (levels : Levels P) (depth idx : Nat) (digest : P.InnerDigest) :
    Except Exit (Levels P) := do
  let level ← index levels depth
  pure (levels.set depth (level.insert idx digest))

namespace CoPath

/-- `CoPath::ingest_leaves`, with the map so far. -/
def ingestLeaves (leafHashParams : P.LeafParam) :
    List Nat → List P.Leaf → BTreeMap P.LeafDigest → Except Exit (BTreeMap P.LeafDigest)
  | [], [], leafLevel => pure leafLevel
  | [], _ :: _, _ => reject
  | _ :: _, [], _ => reject
  | idx :: leafIndexes, leaf :: leaves, leafLevel => do
    let leafHash ← unwrap (P.leafHashEvaluate leafHashParams leaf)
    ingestLeaves leafHashParams leafIndexes leaves (leafLevel.insert idx leafHash)

/-- `CoPath::compute_needed_leaf_siblings`. -/
def computeNeededLeafSiblings (leafDepth : Nat) (onPath : List (List Nat)) : Except Exit (List Nat) := do
  let level ← index onPath leafDepth
  pure (sortUnstable (neededSiblings level))

/-- One step of `CoPath::absorb_leaf_copath`. -/
def absorbSibling (leafLevel : BTreeMap P.LeafDigest) (sibling : Nat × P.LeafDigest) :
    Except Exit (BTreeMap P.LeafDigest) :=
  match leafLevel.get sibling.1 with
  | some existing =>
    if existing ≠ sibling.2 then reject else pure (leafLevel.insert sibling.1 sibling.2)
  | none => pure (leafLevel.insert sibling.1 sibling.2)

/-- `CoPath::absorb_leaf_copath`. -/
def absorbLeafCopath (expectedLeafCoset : List Nat) (providedLeafCopath : List P.LeafDigest)
    (leafLevel : BTreeMap P.LeafDigest) : Except Exit (BTreeMap P.LeafDigest) :=
  if expectedLeafCoset.length ≠ providedLeafCopath.length then reject
  else (expectedLeafCoset.zip providedLeafCopath).foldlM absorbSibling leafLevel

/-- The leaf digests `verify` works with: those of the opened leaves, and the leaf
copath. -/
def leafLevel (self : CoPath P) (leafHashParams : P.LeafParam) (leaves : List P.Leaf) :
    Except Exit (BTreeMap P.LeafDigest) := do
  let leafDepth := self.treeHeight - 1
  let leafLevel ← ingestLeaves leafHashParams self.leafIndexes leaves BTreeMap.new
  let onPath := computeOnPath leafDepth (btreeSet self.leafIndexes)
  let expectedLeafCoset ← computeNeededLeafSiblings leafDepth onPath
  absorbLeafCopath expectedLeafCoset self.leafCopath leafLevel

/-- The next digest of the inner copath, for one sibling. -/
def consumeSibling (depth : Nat) (state : Levels P × List P.InnerDigest) (siblingIdx : Nat) :
    Except Exit (Levels P × List P.InnerDigest) :=
  match state.2 with
  | [] => reject
  | digest :: copath => do
    let levels ← state.1.insert depth siblingIdx digest
    pure (levels, copath)

/-- The digests of the needed siblings of one level. -/
def consumeLevel (onPath : List (List Nat)) (state : Levels P × List P.InnerDigest) (depth : Nat) :
    Except Exit (Levels P × List P.InnerDigest) := do
  let level ← index onPath depth
  (neededSiblings level).foldlM (consumeSibling depth) state

/-- Consume `inner_copath`, at the depths from 1 up to the leaves, all of it. -/
def consumeInnerCopath (leafDepth : Nat) (onPath : List (List Nat)) (innerCopath : List P.InnerDigest)
    (innerLevels : Levels P) : Except Exit (Levels P) := do
  let (levels, copath) ← (List.range' 1 (leafDepth - 1)).foldlM (consumeLevel onPath)
    (innerLevels, innerCopath)
  if copath.isEmpty then pure levels else reject

/-- Hash the two children of a parent and insert the digest at its depth. -/
def hashParent {α : Type} (children : BTreeMap α) (hash : α → α → Except Error P.InnerDigest)
    (parentDepth : Nat) (innerLevels : Levels P) (parentIndex : Nat) : Except Exit (Levels P) := do
  let leftIndex ← usizeMul parentIndex 2
  let rightIndex ← usizeMul parentIndex 2 >>= (usizeAdd · 1)
  match children.get leftIndex, children.get rightIndex with
  | some left, some right => do
    let parent ← unwrap (hash left right)
    innerLevels.insert parentDepth parentIndex parent
  | _, _ => reject

/-- `CoPath::verify_and_hash_bottom_layer`. -/
def verifyAndHashBottomLayer (leafDepth : Nat) (onPath : List (List Nat))
    (leafLevel : BTreeMap P.LeafDigest) (twoToOneParams : P.TwoToOneParam) (innerLevels : Levels P) :
    Except Exit (Levels P) := do
  let parents ← index onPath (leafDepth - 1)
  parents.foldlM (hashParent leafLevel (P.evaluateConverted twoToOneParams) (leafDepth - 1)) innerLevels

/-- The loop of `CoPath::verify_and_hash_inner_chain` at one depth. -/
def hashLevel (onPath : List (List Nat)) (twoToOneParams : P.TwoToOneParam) (innerLevels : Levels P)
    (depth : Nat) : Except Exit (Levels P) := do
  let parents ← index onPath (depth - 1)
  parents.foldlM (fun innerLevels parentIndex => do
    let children ← index innerLevels depth
    hashParent children (P.compress twoToOneParams) (depth - 1) innerLevels parentIndex) innerLevels

/-- `CoPath::verify_and_hash_inner_chain`. -/
def verifyAndHashInnerChain (leafDepth : Nat) (onPath : List (List Nat))
    (twoToOneParams : P.TwoToOneParam) (innerLevels : Levels P) : Except Exit (Levels P) :=
  (List.range' 1 (leafDepth - 1)).reverse.foldlM (hashLevel onPath twoToOneParams) innerLevels

/-- The inner levels `verify` computes: the inner copath, and the hashes of the
on-path nodes. -/
def innerLevels (self : CoPath P) (twoToOneParams : P.TwoToOneParam)
    (leafLevel : BTreeMap P.LeafDigest) : Except Exit (Levels P) := do
  let leafDepth := self.treeHeight - 1
  let onPath := computeOnPath leafDepth (btreeSet self.leafIndexes)
  let levels ← consumeInnerCopath leafDepth onPath self.innerCopath
    (List.replicate self.treeHeight BTreeMap.new)
  let levels ← verifyAndHashBottomLayer leafDepth onPath leafLevel twoToOneParams levels
  verifyAndHashInnerChain leafDepth onPath twoToOneParams levels

/-- `CoPath::verify`. -/
def verify (self : CoPath P) (leafHashParams : P.LeafParam) (twoToOneParams : P.TwoToOneParam)
    (rootHash : P.InnerDigest) (expectedTreeHeight : Nat) (leaves : List P.Leaf) : Outcome Bool := do
  assert (!self.leafIndexes.isEmpty) "batch proof must contain at least one leaf index"
  assert (decide (2 ≤ self.treeHeight)) "tree_height must be >= 2"
  if self.treeHeight ≠ expectedTreeHeight then pure false
  else
    match self.leafLevel leafHashParams leaves >>= self.innerLevels twoToOneParams with
    | .error .rejected => pure false
    | .error (.fault f) => .error f
    | .ok levels => do
      let level ← index levels 0
      match level.get 0 with
      | some h => pure (h == rootHash)
      | none => pure false

end CoPath

/-! ## Generation -/

namespace MerkleTree

/-- `xs.get(i).ok_or_else(..)`. -/
def getNode {α : Type} (xs : List α) (i : Nat) : Outcome α :=
  match xs[i]? with
  | some x => .ok x
  | none => raise (.err (.incorrectInputLength xs.length))

/-- `MerkleTree::generate_multi_proof`. -/
def generateMultiProof (self : MerkleTree P) (indexes : List Nat) : Outcome (CoPath P) := do
  let indexes := btreeSet indexes
  let d := self.height
  if indexes.isEmpty then
    pure { treeHeight := d, leafCopath := [], innerCopath := [], leafIndexes := [] }
  else
    let leafDepth := d - 1
    let onPath := computeOnPath leafDepth indexes
    let level ← index onPath leafDepth
    let leafCosetIds := sortUnstable (neededSiblings level)
    let leafCopath ← leafCosetIds.mapM (getNode self.leafNodes)
    let innerCopath ← (List.range' 1 (leafDepth - 1)).mapM fun depth => do
      let level ← index onPath depth
      (neededSiblings level).mapM fun siblingIdx =>
        getNode self.nonLeafNodes (levelIndex depth siblingIdx)
    pure { treeHeight := d, leafCopath, innerCopath := innerCopath.flatten, leafIndexes := indexes }

end MerkleTree

end CryptoPrimitives.Merkle
