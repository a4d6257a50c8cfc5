import CryptoPrimitives.MerkleTree.BatchProof
import CryptoPrimitives.MerkleTree.Path

/-!
# A batch of one leaf

* `onLevel_singleton`, `leafCoset_singleton`, `innerCoset_singleton`: the positions on the
  path of one leaf, and beside it.
* `CoPath.verify_singleton`: with the digests of a path, `CoPath::verify` computes the nodes
  of this path, so it returns what `Path::verify` returns. Where a hash fails, both panic.
* `generateMultiProof_singleton`: the batch proof of one leaf holds the digests of the
  path generated for it.
-/

namespace CryptoPrimitives.Merkle

open HashTree (onPath_singleton pairAt pairAt_children apply_children anc anc_succ anc_self anc_parent anc_zero
  xor_one_ne)

variable {P : Config}

/-! ## Positions -/

theorem onLevel_singleton {D d : Nat} (hd : d ≤ D) (i : Nat) : onLevel D [i] d = [anc D i d] :=
  eq_of_pairwise_lt (pairwise_onLevel hd) (List.pairwise_singleton _ _) fun p => by
    rw [mem_onLevel hd, onPath_singleton, List.mem_singleton, eq_comm]

theorem neededSiblings_singleton (p : Nat) : neededSiblings [p] = [p ^^^ 1] := by
  have hne : p ^^^ 1 ∉ [p] := fun h => xor_one_ne p (List.mem_singleton.mp h)
  simp only [neededSiblings, List.filterMap_cons, List.filterMap_nil, binarySearch_eq (List.pairwise_singleton _ _),
    decide_eq_true_eq, if_neg hne]

/-- The digests of a path are its siblings, from the top down. -/
theorem Path.map_siblingAt (self : Path P) :
    (List.range' 1 self.authPath.length).map self.siblingAt = self.authPath := by
  refine List.ext_getElem (by rw [List.length_map, List.length_range']) fun n _ hn => ?_
  rw [List.getElem_map, List.getElem_range', Path.siblingAt, show 1 + 1 * n - 1 = n by omega,
    List.getD_eq_getElem _ _ hn]

namespace CoPath

theorem leafCoset_singleton (D i : Nat) : leafCoset D [i] = [i ^^^ 1] := by
  rw [leafCoset, onLevel_singleton le_rfl, anc_self, neededSiblings_singleton]
  rfl

theorem innerCoset_singleton (D i : Nat) :
    innerCoset D [i] = (List.range' 1 (D - 1)).map fun d => (d, anc D i d ^^^ 1) := by
  rw [innerCoset, List.map_eq_flatMap]
  refine List.flatMap_congr fun d hd => ?_
  have hd := List.mem_range'_1.mp hd
  rw [onLevel_singleton (by omega), neededSiblings_singleton, List.map_singleton]

/-! ## Verification -/

section

variable {k i : Nat} (leafHashParams : P.LeafParam) (twoToOneParams : P.TwoToOneParam)

/-- `g` computes levels with the last of `x` and `nodes` at the root, and panics with the error of `nodes`. -/
def ReachesRoot (nodes : Except Error (List P.InnerDigest)) (x : P.InnerDigest) (g : Except Exit (Levels P)) : Prop :=
  (∀ ys, nodes = .ok ys → ∃ levels, g = .ok levels ∧ levels.node 0 0 = some (ys.getLastD x)) ∧
    ∀ e, nodes = .error e → g = raise (.panic (.unwrapErr e))

/-- A node that is hashed and inserted, and the nodes above it. -/
theorem ReachesRoot.cons {parent : Except Error P.InnerDigest}
    {nodes : P.InnerDigest → Except Error (List P.InnerDigest)} {insert : P.InnerDigest → Except Exit (Levels P)}
    {rest : Levels P → Except Exit (Levels P)}
    (h : ∀ n, ∃ mid, insert n = .ok mid ∧ ReachesRoot (nodes n) n (rest mid)) (x : P.InnerDigest) :
    ReachesRoot (parent >>= fun n => nodes n >>= fun ys => .ok (n :: ys)) x ((unwrap parent >>= insert) >>= rest) := by
  cases parent with
  | error e =>
    refine ⟨fun ys hys => (by cases hys), fun e' he => ?_⟩
    rw [← Except.error.inj he]
    rfl
  | ok n =>
    obtain ⟨mid, hinsert, hok, herr⟩ := h n
    simp only [unwrap_ok, Except.ok_bind, hinsert]
    cases hnodes : nodes n with
    | error e =>
      refine ⟨fun ys hys => (by cases hys), fun e' he => ?_⟩
      rw [← Except.error.inj he]
      exact herr e hnodes
    | ok ys =>
      refine ⟨fun ys' hys => ?_, fun e he => by cases he⟩
      rw [← Except.ok.inj hys, List.getLastD_cons]
      exact hok ys hnodes

/-- The nodes of a path are inserted at their depths, from the bottom up, and the first hash that
fails stops it. -/
theorem chain_singleton {j : Nat} (hj : j ≤ k) (hi : i < 2 ^ (k + 1)) (hu : i < 2 ^ usizeBits)
    {sib : Nat → P.InnerDigest} {levels : Levels P} (hl : j < levels.length) {y : P.InnerDigest}
    (hy : levels.node j (anc (k + 1) i j) = some y)
    (hsib : ∀ d, 0 < d → d ≤ j → levels.node d (anc (k + 1) i d ^^^ 1) = some (sib d)) :
    ReachesRoot ((P.hashing twoToOneParams).climb sib j (anc (k + 1) i j) y) y
      ((List.range' 1 j).reverse.foldlM (hashLevel (computeOnPath (k + 1) [i]) twoToOneParams) levels) := by
  induction j generalizing levels y with
  | zero =>
    refine ⟨fun ys h => ⟨levels, rfl, ?_⟩, fun e h => by cases h⟩
    rw [anc_zero hi] at hy
    rw [hy, ← Except.ok.inj h]
    rfl
  | succ j ih =>
    have hanc : anc (k + 1) i j = anc (k + 1) i (j + 1) / 2 := anc_succ i (by omega)
    have hle : anc (k + 1) i (j + 1) ≤ i := Nat.div_le_self _ _
    have hpow : 2 ^ usizeBits = 2 * 2 ^ 63 := by decide
    -- the parent is hashed from the node and its sibling
    have hstep : hashLevel (computeOnPath (k + 1) [i]) twoToOneParams levels (j + 1) =
        unwrap ((P.hashing twoToOneParams).innerAt (anc (k + 1) i (j + 1)) y (sib (j + 1))) >>= fun n =>
          levels.insert j (anc (k + 1) i j) n := by
      have hchild := apply_children (levels.node (j + 1)) (anc (k + 1) i (j + 1))
      rw [hy, hsib (j + 1) (Nat.succ_pos j) le_rfl, ← hanc, ← apply_ite some, ← apply_ite some] at hchild
      rw [hashLevel_eq (by rw [getElem?_computeOnPath (by omega), onLevel_singleton (by omega)]) hl, List.foldlM_cons,
        hashParent_of_lt (by omega), HashTree.innerAt_eq]
      simp only [Levels.node] at hchild
      simp only [hchild, List.foldlM_nil, bind_pure]
      rfl
    rw [range'_reverse_succ, List.foldlM_cons, hstep, HashTree.Hashing.climb, ← hanc]
    refine .cons (fun n => ?_) y
    obtain ⟨mid, hinsert⟩ := Levels.exists_insert (p := anc (k + 1) i j) (x := n) (show j < levels.length by omega)
    obtain ⟨hlen, -, hnode⟩ := Levels.insert_spec hinsert
    refine ⟨mid, hinsert, ih (by omega) (by omega) ?_ fun d hd0 hd => ?_⟩
    · rw [hnode, if_pos ⟨rfl, rfl⟩]
    · rw [hnode, if_neg (fun h => xor_one_ne _ (h.1 ▸ h.2)), hsib d hd0 (by omega)]

variable {self : CoPath P} {path : Path P}

/-- The map of the leaf digest `x` at position `i` and of its sibling. -/
def leafPair {L : Type} (i : Nat) (x s : L) : BTreeMap L := (BTreeMap.new.insert i x).insert (i ^^^ 1) s

theorem get_leafPair {L : Type} (i : Nat) (x s : L) (q : Nat) : (leafPair i x s).get q = pairAt i x s q := by
  rw [leafPair, BTreeMap.get_insert, BTreeMap.get_insert, BTreeMap.get_new, pairAt]
  by_cases hq : q = i
  · subst hq
    rw [if_neg (xor_one_ne q).symm, if_pos rfl, if_pos rfl]
  · rw [if_neg hq, if_neg hq]

theorem leafLevel_singleton (hindexes : self.leafIndexes = [i]) (hleaf : self.leafCopath = [path.leafSiblingHash])
    (leaf : P.Leaf) :
    self.leafLevel leafHashParams [leaf] = unwrap (P.leafHashEvaluate leafHashParams leaf) >>= fun x =>
      .ok (leafPair i x path.leafSiblingHash) := by
  have hset : btreeSet [i] = [i] := btreeSet_of_pairwise (List.pairwise_singleton _ _)
  simp only [leafLevel, hindexes, hleaf, hset, ingestLeaves, computeNeededLeafSiblings_eq, leafCoset_singleton,
    bind_assoc, Except.ok_bind, Except.pure_eq_ok]
  refine congrArg (_ >>= ·) (funext fun x => ?_)
  have habsorb : absorbSibling (BTreeMap.new.insert i x) (i ^^^ 1, path.leafSiblingHash) =
      .ok (leafPair i x path.leafSiblingHash) := by
    rw [absorbSibling, BTreeMap.get_insert_of_ne (xor_one_ne i), BTreeMap.get_new]
    rfl
  have hlength : [i ^^^ 1].length = [path.leafSiblingHash].length := rfl
  rw [absorbLeafCopath, if_neg (not_not.mpr hlength), List.zip_cons_cons, List.zip_nil_left, List.foldlM_cons, habsorb]
  rfl

/-- The levels computed for one leaf with the digests of a path hold the last node of the path. -/
theorem innerLevels_singleton (hi : i < 2 ^ (k + 1)) (hu : i < 2 ^ usizeBits) (hheight : self.treeHeight = k + 2)
    (hindexes : self.leafIndexes = [i]) (hinner : self.innerCopath = path.authPath)
    (hlen : path.authPath.length = k) (x : P.LeafDigest) :
    ReachesRoot ((P.hashing twoToOneParams).pathNodes path.siblingAt k path.leafSiblingHash i x) default
      (self.innerLevels twoToOneParams (leafPair i x path.leafSiblingHash)) := by
  have hset : btreeSet [i] = [i] := btreeSet_of_pairwise (List.pairwise_singleton _ _)
  have hcopath : self.innerCopath = (innerCoset (k + 1) [i]).map fun s => path.siblingAt s.1 := by
    rw [hinner, innerCoset_singleton, List.map_map, ← path.map_siblingAt, hlen]
    rfl
  obtain ⟨levels, hconsume, hnode⟩ := exists_consumeInnerCopath (D := k + 1) [i] (fun d _ => path.siblingAt d)
    (show k + 1 ≤ (List.replicate (k + 2) (BTreeMap.new : BTreeMap P.InnerDigest)).length by
      rw [List.length_replicate]
      exact Nat.le_succ (k + 1))
  have hlevels := (consumeInnerCopath_sameTop hconsume).1
  rw [List.length_replicate] at hlevels
  have hsib : ∀ d, 0 < d → d ≤ k → levels.node d (anc (k + 1) i d ^^^ 1) = some (path.siblingAt d) := by
    intro d hd0 hd
    rw [hnode, if_pos]
    rw [onLevel_singleton (by omega), neededSiblings_singleton, List.mem_singleton]
    exact ⟨List.mem_range'_1.mpr (by omega), rfl⟩
  have hpow : 2 ^ usizeBits = 2 * 2 ^ 63 := by decide
  have hbottom : hashParent (leafPair i x path.leafSiblingHash) (P.evaluateConverted twoToOneParams) k levels (i / 2) =
      unwrap ((P.hashing twoToOneParams).bottomAt i x path.leafSiblingHash) >>= fun n => levels.insert k (i / 2) n := by
    obtain ⟨hl, hr⟩ := pairAt_children i x path.leafSiblingHash
    rw [← get_leafPair] at hl hr
    rw [hashParent_of_lt (by omega), HashTree.bottomAt_eq, hl, hr]
    rfl
  have hunfold : self.innerLevels twoToOneParams (leafPair i x path.leafSiblingHash) =
      (unwrap ((P.hashing twoToOneParams).bottomAt i x path.leafSiblingHash) >>= fun n => levels.insert k (i / 2) n) >>=
        (List.range' 1 k).reverse.foldlM (hashLevel (computeOnPath (k + 1) [i]) twoToOneParams) := by
    simp only [innerLevels, hheight, show k + 2 - 1 = k + 1 by omega, hindexes, hset, hcopath, hconsume,
      Except.ok_bind, verifyAndHashBottomLayer, Nat.add_sub_cancel, index_computeOnPath (show k ≤ k + 1 by omega),
      onLevel_singleton (show k ≤ k + 1 by omega), anc_parent, List.foldlM_cons, List.foldlM_nil, bind_pure, hbottom]
    rfl
  rw [hunfold, HashTree.Hashing.pathNodes]
  refine .cons (fun n => ?_) default
  obtain ⟨mid, hinsert⟩ := Levels.exists_insert (p := i / 2) (x := n) (show k < levels.length by omega)
  obtain ⟨hmid, -, hnode'⟩ := Levels.insert_spec hinsert
  refine ⟨mid, hinsert, ?_⟩
  rw [← anc_parent]
  refine chain_singleton twoToOneParams le_rfl hi hu (by omega) ?_ fun d hd0 hd => ?_
  · rw [hnode', anc_parent, if_pos ⟨rfl, rfl⟩]
  · rw [hnode', if_neg fun h => ?_, hsib d hd0 hd]
    rw [h.1, anc_parent] at h
    exact xor_one_ne _ h.2

theorem verify_of_fault (hne : self.leafIndexes ≠ []) (hh : 2 ≤ self.treeHeight) {rootHash : P.InnerDigest}
    {leaves : List P.Leaf} {f : Fault}
    (h : self.leafLevel leafHashParams leaves >>= self.innerLevels twoToOneParams = .error (.fault f)) :
    self.verify leafHashParams twoToOneParams rootHash self.treeHeight leaves = .error f := by
  have hempty : (!self.leafIndexes.isEmpty) = true := by simpa using hne
  simp only [verify, hempty, hh, decide_true, assert, if_true, Except.ok_bind, h, ne_eq, not_true, if_false]

/-- A batch proof for one leaf with the digests of a path returns what the path returns. -/
theorem verify_singleton (hi : i < 2 ^ (k + 1)) (hu : i < 2 ^ usizeBits) (hheight : self.treeHeight = k + 2)
    (hindexes : self.leafIndexes = [i]) (hleaf : self.leafCopath = [path.leafSiblingHash])
    (hinner : self.innerCopath = path.authPath) (hlen : path.authPath.length = k) (hindex : path.leafIndex = i)
    (rootHash : P.InnerDigest) (leaf : P.Leaf) :
    self.verify leafHashParams twoToOneParams rootHash self.treeHeight [leaf] =
      path.verify leafHashParams twoToOneParams rootHash leaf := by
  have hne : self.leafIndexes ≠ [] := by rw [hindexes]; exact List.cons_ne_nil _ _
  have hh : 2 ≤ self.treeHeight := by omega
  have hlevel := leafLevel_singleton leafHashParams hindexes hleaf leaf
  rw [Path.verify, Path.finalNode_eq, hlen, hindex]
  cases hx : P.leafHashEvaluate leafHashParams leaf with
  | error e =>
    rw [hx] at hlevel
    exact verify_of_fault leafHashParams twoToOneParams hne hh (by rw [hlevel]; rfl)
  | ok x =>
    rw [hx] at hlevel
    obtain ⟨hok, herr⟩ := innerLevels_singleton twoToOneParams hi hu hheight hindexes hinner hlen x
    rw [Except.ok_bind]
    cases hys : (P.hashing twoToOneParams).pathNodes path.siblingAt k path.leafSiblingHash i x with
    | error e => exact verify_of_fault leafHashParams twoToOneParams hne hh (by rw [hlevel]; exact herr e hys)
    | ok ys =>
      obtain ⟨levels, hlevels, hroot⟩ := hok ys hys
      exact verify_of_levels hne hh rfl hlevel hlevels hroot

end

end CoPath

/-! ## Generated proofs -/

namespace MerkleTree

/-- The batch proof for one index holds the digests of the path for it, and returns the same for
every root and leaf. -/
theorem generateMultiProof_singleton {t : MerkleTree P} (ht : t.Reachable) {i : Nat} (hi : i < t.leafNodes.length) :
    ∃ batch path, t.generateMultiProof [i] = .ok batch ∧ t.generateProof i = .ok path ∧
      batch.leafCopath = [path.leafSiblingHash] ∧ batch.innerCopath = path.authPath ∧
      ∀ leafHashParams twoToOneParams rootHash leaf,
        batch.verify leafHashParams twoToOneParams rootHash t.height [leaf] =
          path.verify leafHashParams twoToOneParams rootHash leaf := by
  obtain ⟨ht, hsize⟩ := ht.invariant
  obtain ⟨k, hk, hl, -⟩ := ht.depth
  obtain ⟨path, hpath, hindex, hlen, hsibling, hsib⟩ := generateProof_eq ht hi
  have hset : btreeSet [i] = [i] := btreeSet_of_pairwise (List.pairwise_singleton _ _)
  have hbatch := generateMultiProof_eq ht (List.cons_ne_nil i []) (by simpa using hi)
  rw [hset] at hbatch
  have hleaf : (CoPath.ofLabelling t.height [i] t.leafAt t.nodeAt).leafCopath = [path.leafSiblingHash] := by
    rw [CoPath.ofLabelling, hset, CoPath.leafCoset_singleton, hsibling]
    rfl
  have hinner : (CoPath.ofLabelling t.height [i] t.leafAt t.nodeAt).innerCopath = path.authPath := by
    rw [CoPath.ofLabelling, hset, CoPath.innerCoset_singleton, List.map_map, ← Path.map_siblingAt, hlen,
      Nat.sub_sub]
    refine List.map_congr_left fun d hd => ?_
    have hd := List.mem_range'_1.mp hd
    rw [hsib d (by omega) (by omega)]
    rfl
  refine ⟨_, path, hbatch, hpath, hleaf, hinner, fun leafHashParams twoToOneParams rootHash leaf => ?_⟩
  exact CoPath.verify_singleton leafHashParams twoToOneParams (hl ▸ hi) (lt_trans hi hsize) hk rfl hleaf hinner
    (by omega) hindex rootHash leaf

theorem generateMultiProof_singleton_free :
    ∃ batch path, freeTree.generateMultiProof [2] = .ok batch ∧ freeTree.generateProof 2 = .ok path ∧
      batch.leafCopath = [path.leafSiblingHash] ∧ batch.innerCopath = path.authPath ∧
      ∀ leafHashParams twoToOneParams rootHash leaf,
        batch.verify leafHashParams twoToOneParams rootHash 3 [leaf] =
          path.verify leafHashParams twoToOneParams rootHash leaf :=
  generateMultiProof_singleton freeTree_reachable (by decide)

end MerkleTree

end CryptoPrimitives.Merkle
