import CryptoPrimitives.MerkleTree.CoPathLevels
import CryptoPrimitives.MerkleTree.Update

/-!
# What a batch proof proves

* `generateMultiProof_eq`: a generated proof holds the digests of the needed
  siblings.
* `generateMultiProof_verify_iff`: it accepts leaves for the root of the tree
  rebuilt with them, and for no other.
* `verify_sound`: a batch proof accepted for the root of a tree holds the tree's
  leaf digests at its indexes, or exhibits a collision (`CoPath.Collides`).
* `batchBinding_iff`: so it opens the given leaves, unless an index is repeated
  with another leaf or some, but not all, indexes are out of range.
-/

namespace CryptoPrimitives.Merkle

open Except (bind_eq_ok)
open MerkleTree (newWithLeafDigest)
open HashTree (IsTree Opening OnPath onPath_leaf anc anc_zero half_lt xor_one_lt xor_one_xor_one)

variable {P : Config}

namespace CoPath

section

variable {self : CoPath P} {leafHashParams : P.LeafParam} {twoToOneParams : P.TwoToOneParam}
  {rootHash : P.InnerDigest} {height : Nat} {leaves : List P.Leaf}

theorem verify_of_levels (hne : self.leafIndexes ≠ []) (hh : 2 ≤ self.treeHeight)
    (heq : self.treeHeight = height) {m : BTreeMap P.LeafDigest}
    (hm : self.leafLevel leafHashParams leaves = .ok m) {levels : Levels P}
    (hlevels : self.innerLevels twoToOneParams m = .ok levels) {n : P.InnerDigest}
    (hn : levels.node 0 0 = some n) :
    self.verify leafHashParams twoToOneParams rootHash height leaves = .ok (n == rootHash) := by
  have hempty : (!self.leafIndexes.isEmpty) = true := by simpa using hne
  obtain ⟨level, rest, rfl⟩ : ∃ level rest, levels = level :: rest := by
    cases levels with
    | nil => exact nomatch hn
    | cons level rest => exact ⟨level, rest, rfl⟩
  have hget : level.get 0 = some n := hn
  simp only [verify, hempty, heq ▸ hh, decide_true, assert, if_true, Except.ok_bind, hm, hlevels, heq,
    not_true, if_false, ne_eq]
  rw [index_of_lt (Nat.succ_pos _), Except.ok_bind, List.getElem_cons_zero, hget]
  rfl

theorem verify_of_rejected (hne : self.leafIndexes ≠ []) (hh : 2 ≤ self.treeHeight)
    (hm : self.leafLevel leafHashParams leaves = reject) :
    self.verify leafHashParams twoToOneParams rootHash height leaves = .ok false := by
  have hempty : (!self.leafIndexes.isEmpty) = true := by simpa using hne
  simp only [verify, hempty, hh, decide_true, assert, if_true, Except.ok_bind, hm]
  split <;> rfl

theorem verify_eq_ok_true
    (h : self.verify leafHashParams twoToOneParams rootHash height leaves = .ok true) :
    self.leafIndexes ≠ [] ∧ 2 ≤ self.treeHeight ∧ self.treeHeight = height ∧ ∃ m levels,
      self.leafLevel leafHashParams leaves = .ok m ∧ self.innerLevels twoToOneParams m = .ok levels ∧
        levels.node 0 0 = some rootHash := by
  simp only [verify, bind_eq_ok, assert_eq_ok, decide_eq_true_eq, exists_and_left, exists_const] at h
  obtain ⟨hempty, hh, h⟩ := h
  split at h
  · cases h
  · rename_i heq
    split at h
    · cases h
    · cases h
    · rename_i levels hlevels
      obtain ⟨m, hm, hlevels⟩ := bind_eq_ok.mp hlevels
      obtain ⟨level, hlevel, h⟩ := bind_eq_ok.mp h
      rw [index_eq_ok] at hlevel
      split at h
      · rename_i n hn
        refine ⟨by simpa using hempty, hh, not_not.mp heq, m, levels, hm, hlevels, ?_⟩
        rw [Levels.node, List.getD_eq_getElem?_getD, hlevel, Option.getD_some, hn,
          beq_iff_eq.mp (Except.ok.inj h)]
      · cases h

/-- With the values of a tree at the siblings, and in `m` at the leaves, the levels hold the
tree's root and exhibit no collision. -/
theorem exists_innerLevels_exact {k : Nat} (hk : self.treeHeight = k + 2)
    (hs : P.HashesSucceed leafHashParams twoToOneParams) (hu : ∀ i ∈ self.leafIndexes, i < 2 ^ usizeBits)
    {leaf : Nat → P.LeafDigest} {node sib : Nat → Nat → P.InnerDigest}
    (ht : IsTree (P.hashing twoToOneParams) k leaf node) {m : BTreeMap P.LeafDigest}
    (hm : ∀ q, OnPath (k + 1) self.leafIndexes k (q / 2) → ∃ x, m.get q = some x ∧
      (q < 2 ^ (k + 1) → x = leaf q))
    (hc : self.innerCopath = (innerCoset (k + 1) (btreeSet self.leafIndexes)).map fun s => sib s.1 s.2)
    (hsib : ∀ d < k, ∀ q < 2 ^ (d + 1), ¬ OnPath (k + 1) self.leafIndexes (d + 1) q →
      sib (d + 1) q = node (d + 1) q) :
    ∃ levels, self.innerLevels twoToOneParams m = .ok levels ∧
      (OnPath (k + 1) self.leafIndexes 0 0 → levels.node 0 0 = some (node 0 0)) ∧
      ¬ Opening.Collides (P.hashing twoToOneParams) k (OnPath (k + 1) self.leafIndexes) m.get levels.node
        leaf node := by
  obtain ⟨levels, h, hnode⟩ := exists_innerLevels hk hs.total hu
    (fun q hq => let ⟨x, hx, _⟩ := hm q hq; ⟨x, hx⟩) sib hc
  obtain ⟨hexact, hno⟩ := (innerLevels_opening hk h).1.exact ht
    (fun q hlt hq => by
      obtain ⟨x, hx, hxq⟩ := hm q hq
      rw [hx, hxq hlt])
    (fun d hd q hlt hq hq' => by rw [hnode d hd q hq hq', hsib d hd q hlt hq'])
  exact ⟨levels, h, fun hroot => hexact 0 (Nat.zero_le k) 0 Nat.one_pos hroot, hno⟩

end

end CoPath

/-! ## Generated proofs -/

namespace MerkleTree

theorem getNode_eq_ok {α : Type} {xs : List α} {i : Nat} {x : α} (h : xs[i]? = some x) :
    getNode xs i = .ok x := by
  rw [getNode, h]

/-- `generate_multi_proof` looks up the nodes of the copath, in their order. -/
theorem generateMultiProof_mapM (t : MerkleTree P) {indexes : List Nat} (hne : indexes ≠ []) :
    t.generateMultiProof indexes = (do
      let leafCopath ← (CoPath.leafCoset (t.height - 1) (btreeSet indexes)).mapM (getNode t.leafNodes)
      let innerCopath ← (CoPath.innerCoset (t.height - 1) (btreeSet indexes)).mapM fun s =>
        getNode t.nonLeafNodes (levelIndex s.1 s.2)
      pure ⟨t.height, leafCopath, innerCopath, btreeSet indexes⟩) := by
  have hempty : (btreeSet indexes).isEmpty = false := by
    obtain ⟨i, hi⟩ := List.exists_mem_of_ne_nil _ hne
    exact List.isEmpty_eq_false_iff_exists_mem.mpr ⟨i, mem_btreeSet.mpr hi⟩
  have hlevel : (List.range' 1 (t.height - 1 - 1)).mapM (fun depth => do
        let level ← index (computeOnPath (t.height - 1) (btreeSet indexes)) depth
        (neededSiblings level).mapM fun siblingIdx => getNode t.nonLeafNodes (levelIndex depth siblingIdx)) =
      (List.range' 1 (t.height - 1 - 1)).mapM fun depth =>
        ((neededSiblings (onLevel (t.height - 1) (btreeSet indexes) depth)).map (depth, ·)).mapM fun s =>
          getNode t.nonLeafNodes (levelIndex s.1 s.2) := by
    refine Except.mapM_congr fun depth hd => ?_
    have hd := List.mem_range'_1.mp hd
    rw [index_computeOnPath (by omega), Except.ok_bind, List.mapM_map]
    rfl
  simp only [generateMultiProof, hempty, Bool.false_eq_true, if_false, index_computeOnPath le_rfl, Except.ok_bind]
  rw [CoPath.innerCoset, Except.mapM_flatMap, hlevel, ← CoPath.leafCoset]
  simp only [bind_map_left]

/-- A generated proof holds the digests of the needed siblings. -/
theorem generateMultiProof_eq {t : MerkleTree P} (ht : t.Valid) {indexes : List Nat} (hne : indexes ≠ [])
    (hi : ∀ i ∈ indexes, i < t.leafNodes.length) :
    t.generateMultiProof indexes =
      .ok (CoPath.ofLabelling t.height (btreeSet indexes) t.leafAt t.nodeAt) := by
  obtain ⟨k, hk, hl, hn, -⟩ := ht.depth
  rw [hl] at hi
  have hlt : ∀ i ∈ btreeSet indexes, i < 2 ^ (k + 1) := fun i h => hi i (mem_btreeSet.mp h)
  have hleaf : (CoPath.leafCoset (k + 1) (btreeSet indexes)).mapM (getNode t.leafNodes) =
      .ok ((CoPath.leafCoset (k + 1) (btreeSet indexes)).map t.leafAt) := by
    refine Except.mapM_eq_map fun q hq => getNode_eq_ok (getElem?_getD ?_)
    rw [hl, ← xor_one_xor_one q]
    exact xor_one_lt (hlt _ (CoPath.mem_leafCoset.mp hq).1)
  have hinner : ((CoPath.innerCoset (k + 1) (btreeSet indexes)).mapM fun s =>
        getNode t.nonLeafNodes (levelIndex s.1 s.2)) =
      .ok ((CoPath.innerCoset (k + 1) (btreeSet indexes)).map fun s => t.nodeAt s.1 s.2) := by
    refine Except.mapM_eq_map fun s hs => ?_
    obtain ⟨hd, hq⟩ := CoPath.mem_innerCoset.mp hs
    have hd := List.mem_range'_1.mp hd
    rw [mem_neededSiblings (pairwise_onLevel (by omega)), mem_onLevel (by omega)] at hq
    have hlt := hq.1.lt hlt (by omega)
    refine getNode_eq_ok (getElem?_nodesAt hn (by omega) ?_)
    rw [show s.1 = s.1 - 1 + 1 by omega] at hlt ⊢
    rw [← xor_one_xor_one s.2]
    exact xor_one_lt hlt
  rw [generateMultiProof_mapM t hne, hk, show k + 2 - 1 = k + 1 by omega, hleaf, Except.ok_bind, hinner, Except.ok_bind,
    CoPath.ofLabelling, btreeSet_of_pairwise (pairwise_btreeSet indexes)]
  rfl

/-- The tree with new leaf digests at some indexes, built from all its leaf digests. -/
def rebuiltWith (t : MerkleTree P) (leafIndexes : List Nat) (digests : List P.LeafDigest) :
    Outcome (MerkleTree P) :=
  newWithLeafDigest t.leafHashParam t.twoToOneHashParam
    (applyWrites t.leafNodes (leafIndexes.zip digests))

theorem exists_rebuiltWith {t : MerkleTree P} (ht : t.Valid)
    (hs : P.HashesSucceed t.leafHashParam t.twoToOneHashParam) (leafIndexes : List Nat)
    (digests : List P.LeafDigest) : ∃ t', t.rebuiltWith leafIndexes digests = .ok t' :=
  ht.exists_rebuild hs (length_applyWrites ..)

/-- Writing the leaf digests that are there changes nothing. -/
theorem rebuiltWith_self {t : MerkleTree P} (ht : t.Valid) {leafIndexes : List Nat}
    (hn : leafIndexes.Nodup) (hi : ∀ i ∈ leafIndexes, i < t.leafNodes.length) :
    t.rebuiltWith leafIndexes (leafIndexes.map t.leafAt) = .ok t := by
  refine newWithLeafDigest_eq_ok.mpr ⟨ht, List.ext_getElem? fun p => ?_, rfl, rfl⟩
  rw [← List.map_prod_left_eq_zip]
  have hfst : (leafIndexes.map fun i => (i, t.leafAt i)).map Prod.fst = leafIndexes := by
    rw [List.map_map]
    exact List.map_id' leafIndexes
  by_cases hp : p ∈ leafIndexes
  · have hmem : (p, t.leafAt p) ∈ leafIndexes.map fun i => (i, t.leafAt i) := List.mem_map.mpr ⟨p, hp, rfl⟩
    rw [getElem?_applyWrites_of_mem (hfst.symm ▸ hn) hmem (hi p hp)]
    exact getElem?_getD (hi p hp)
  · rw [getElem?_applyWrites_of_notMem _ (hfst.symm ▸ hp)]

/-- What writing some leaf digests changes: the leaves, and the nodes above them. -/
theorem rebuiltWith_spec {t t' : MerkleTree P} (ht : t.Valid) {k : Nat} (hk : t.height = k + 2)
    {leafIndexes : List Nat} (hn : leafIndexes.Nodup) (hi : ∀ i ∈ leafIndexes, i < t.leafNodes.length)
    {digests : List P.LeafDigest} (hlen : leafIndexes.length = digests.length)
    (hr : t.rebuiltWith leafIndexes digests = .ok t') :
    IsTree (P.hashing t.twoToOneHashParam) k t'.leafAt t'.nodeAt ∧
      (∀ i x, (i, x) ∈ leafIndexes.zip digests → t'.leafAt i = x) ∧
      (∀ p, p ∉ leafIndexes → t'.leafAt p = t.leafAt p) ∧
      ∀ d ≤ k, ∀ p < 2 ^ d, ¬ OnPath (k + 1) leafIndexes d p → t'.nodeAt d p = t.nodeAt d p := by
  have hl : t.leafNodes.length = 2 ^ (k + 1) := by rw [ht.length_leafNodes, hk]; rfl
  obtain ⟨ht', hleaf', -, hparam⟩ := newWithLeafDigest_eq_ok.mp hr
  have htree' := ht'.isTree_of_length (by rw [hleaf', length_applyWrites, hl])
  rw [hparam] at htree'
  have hfst : (leafIndexes.zip digests).map Prod.fst = leafIndexes := List.map_fst_zip (le_of_eq hlen)
  have hon : ∀ i x, (i, x) ∈ leafIndexes.zip digests → t'.leafAt i = x := by
    intro i x hmem
    have hwritten := getElem?_applyWrites_of_mem (hfst.symm ▸ hn) hmem (hi i (List.of_mem_zip hmem).1)
    rw [leafAt, hleaf', List.getD_eq_getElem?_getD, hwritten, Option.getD_some]
  have hoff : ∀ p, p ∉ leafIndexes → t'.leafAt p = t.leafAt p := by
    intro p hp
    rw [leafAt, hleaf', List.getD_eq_getElem?_getD,
      getElem?_applyWrites_of_notMem _ (hfst.symm ▸ hp), ← List.getD_eq_getElem?_getD]
    rfl
  refine ⟨htree', hon, hoff, (ht.isTree_of_length hl).congr_off htree' (A := OnPath (k + 1) leafIndexes)
    (fun d hd p h => h.parent (by omega)) (fun p _ hp => hoff p (mt onPath_leaf.mpr hp))⟩

/-- A generated proof recomputes the root of the tree with the given leaves. -/
theorem verify_generateMultiProof {t t' : MerkleTree P} (ht : t.Reachable) {indexes : List Nat}
    (hne : indexes ≠ []) (hi : ∀ i ∈ indexes, i < t.leafNodes.length)
    (hs : P.HashesSucceed t.leafHashParam t.twoToOneHashParam) {proof : CoPath P}
    (hproof : proof = .ofLabelling t.height (btreeSet indexes) t.leafAt t.nodeAt) {leaves : List P.Leaf}
    (hlen : proof.leafIndexes.length = leaves.length) {digests : List P.LeafDigest}
    (hd : leaves.mapM (P.leafHashEvaluate t.leafHashParam) = .ok digests)
    (hr : t.rebuiltWith proof.leafIndexes digests = .ok t') (R : P.InnerDigest) :
    proof.verify t.leafHashParam t.twoToOneHashParam R t.height leaves = .ok (t'.nodeAt 0 0 == R) := by
  obtain ⟨ht, hsize⟩ := ht.invariant
  have hheight : proof.treeHeight = t.height := by rw [hproof]; rfl
  have hindexes : proof.leafIndexes = btreeSet indexes := by rw [hproof]; rfl
  obtain ⟨k, hk, hl, -⟩ := ht.depth
  have hlt : ∀ i ∈ proof.leafIndexes, i < t.leafNodes.length := fun i h =>
    hi i (mem_btreeSet.mp (hindexes ▸ h))
  obtain ⟨htree', hwritten, hoff, hcongr⟩ := rebuiltWith_spec ht hk (hindexes ▸ nodup_btreeSet indexes) hlt
    (hlen.trans (Except.length_mapM hd).symm) hr
  obtain ⟨m, hm, hsib⟩ := CoPath.exists_leafLevel hs.leafHash hlen t.leafAt (by rw [hproof]; rfl)
  have hon : ∀ i ∈ proof.leafIndexes, m.get i = some (t'.leafAt i) := by
    intro i hmem
    obtain ⟨leaf, x, hzip, hx, hget⟩ := (CoPath.leafLevel_spec hm).2 i hmem
    rw [hget, hwritten i x (Except.mem_zip_of_mapM hd hzip hx)]
  have hleaves : ∀ q, OnPath (k + 1) proof.leafIndexes k (q / 2) → ∃ x, m.get q = some x ∧
      (q < 2 ^ (k + 1) → x = t'.leafAt q) := by
    intro q hq
    by_cases hqi : q ∈ proof.leafIndexes
    · exact ⟨_, hon q hqi, fun _ => rfl⟩
    · have hsibling := onPath_leaf.mp (hq.sibling (Nat.lt_succ_self k) (mt onPath_leaf.mp hqi))
      exact ⟨_, hsib q hsibling hqi, fun _ => (hoff q hqi).symm⟩
  have hinnerCopath : proof.innerCopath =
      (CoPath.innerCoset (k + 1) (btreeSet proof.leafIndexes)).map fun s => t.nodeAt s.1 s.2 := by
    rw [hproof, CoPath.ofLabelling, hk]
    rfl
  obtain ⟨levels, hlevels, hroot, -⟩ := CoPath.exists_innerLevels_exact (hheight.trans hk) hs
    (fun i h => lt_trans (hlt i h) hsize) htree' hleaves hinnerCopath
    (fun d hd q hq hqA => (hcongr (d + 1) hd q hq hqA).symm)
  have hne' : proof.leafIndexes ≠ [] := by
    obtain ⟨i, his⟩ := List.exists_mem_of_ne_nil _ hne
    exact List.ne_nil_of_mem (hindexes.symm ▸ mem_btreeSet.mpr his)
  obtain ⟨i, his⟩ := List.exists_mem_of_ne_nil _ hne'
  exact CoPath.verify_of_levels hne' (by omega) hheight hm hlevels
    (hroot ⟨i, his, anc_zero (hl ▸ hlt i his)⟩)

/-- A proof generated by any tree a caller can hold, for any indexes in range, accepts
leaves for a root exactly when there is a leaf for each distinct index and the root
is that of the tree rebuilt with them. So it accepts the current leaves for the
current root. -/
theorem generateMultiProof_verify_iff {t : MerkleTree P} (ht : t.Reachable) {indexes : List Nat}
    (hne : indexes ≠ []) (hi : ∀ i ∈ indexes, i < t.leafNodes.length)
    (hs : P.HashesSucceed t.leafHashParam t.twoToOneHashParam) :
    ∃ proof, t.generateMultiProof indexes = .ok proof ∧
      (proof.leafIndexes.Pairwise (· < ·) ∧ ∀ i, i ∈ proof.leafIndexes ↔ i ∈ indexes) ∧
      (∀ R leaves, ∃ accepted,
        proof.verify t.leafHashParam t.twoToOneHashParam R t.height leaves = .ok accepted ∧
        (accepted = true ↔ leaves.length = indexes.dedup.length ∧ ∃ digests t',
          leaves.mapM (P.leafHashEvaluate t.leafHashParam) = .ok digests ∧
          newWithLeafDigest t.leafHashParam t.twoToOneHashParam
            (applyWrites t.leafNodes (proof.leafIndexes.zip digests)) = .ok t' ∧ t'.root = .ok R)) ∧
      ∀ R leaves, leaves.mapM (P.leafHashEvaluate t.leafHashParam) =
          .ok (proof.leafIndexes.map t.leafAt) → t.root = .ok R →
        proof.verify t.leafHashParam t.twoToOneHashParam R t.height leaves = .ok true := by
  obtain ⟨proof, hproof⟩ : ∃ proof, proof = CoPath.ofLabelling t.height (btreeSet indexes) t.leafAt t.nodeAt :=
    ⟨_, rfl⟩
  have hheight : proof.treeHeight = t.height := by rw [hproof]; rfl
  have hindexes : proof.leafIndexes = btreeSet indexes := by rw [hproof]; rfl
  refine ⟨proof, hproof ▸ generateMultiProof_eq ht.valid hne hi,
    hindexes ▸ ⟨pairwise_btreeSet _, fun i => mem_btreeSet⟩, fun R leaves => ?_, fun R leaves hd hR => ?_⟩
  · rw [← length_btreeSet, ← hindexes]
    obtain ⟨digests, hd⟩ := Except.exists_mapM fun leaf (_ : leaf ∈ leaves) => hs.leafHash leaf
    by_cases hlen : proof.leafIndexes.length = leaves.length
    · obtain ⟨t', hr⟩ := exists_rebuiltWith ht.valid hs proof.leafIndexes digests
      have hroot := (newWithLeafDigest_eq_ok.mp hr).1.root_eq
      refine ⟨_, verify_generateMultiProof ht hne hi hs hproof hlen hd hr R, ?_⟩
      rw [beq_iff_eq]
      constructor
      · intro h
        exact ⟨hlen.symm, digests, t', hd, hr, by rw [hroot, h]⟩
      · rintro ⟨-, digests', t'', hd', hr', hR⟩
        obtain rfl := Except.ok.inj (hd.symm.trans hd')
        obtain rfl := Except.ok.inj (hr.symm.trans hr')
        exact Except.ok.inj (hroot.symm.trans hR)
    · refine ⟨false, CoPath.verify_of_rejected ?_ (hheight ▸ ht.valid.two_le_height)
        (CoPath.leafLevel_of_ne hs.leafHash hlen), ?_⟩
      · obtain ⟨i, his⟩ := List.exists_mem_of_ne_nil _ hne
        exact List.ne_nil_of_mem (hindexes.symm ▸ mem_btreeSet.mpr his)
      · exact ⟨nofun, fun h => absurd h.1.symm hlen⟩
  · have hlen : proof.leafIndexes.length = leaves.length := by
      rw [(Except.mapM_eq_ok.mp hd).length_eq, List.length_map]
    have hr := rebuiltWith_self ht.valid (hindexes ▸ nodup_btreeSet indexes)
      (fun i h => hi i (mem_btreeSet.mp (hindexes ▸ h)))
    rw [verify_generateMultiProof ht hne hi hs hproof hlen hd hr R,
      beq_iff_eq.mpr (Except.ok.inj (ht.valid.root_eq.symm.trans hR))]

theorem generateMultiProof_verify_iff_free :
    ∃ proof, freeTree.generateMultiProof [2, 0, 2] = .ok proof ∧
      (proof.leafIndexes.Pairwise (· < ·) ∧ ∀ i, i ∈ proof.leafIndexes ↔ i ∈ [2, 0, 2]) ∧
      (∀ R leaves, ∃ accepted, proof.verify () () R 3 leaves = .ok accepted ∧
        (accepted = true ↔ leaves.length = [2, 0, 2].dedup.length ∧ ∃ digests t',
          leaves.mapM (freeConfig.leafHashEvaluate ()) = .ok digests ∧
          newWithLeafDigest () () (applyWrites freeTree.leafNodes (proof.leafIndexes.zip digests)) =
            .ok t' ∧ t'.root = .ok R)) ∧
      ∀ R leaves, leaves.mapM (freeConfig.leafHashEvaluate ()) =
          .ok (proof.leafIndexes.map freeTree.leafAt) → freeTree.root = .ok R →
        proof.verify () () R 3 leaves = .ok true :=
  generateMultiProof_verify_iff freeTree_reachable (by decide) (by decide) freeConfig_hashesSucceed

end MerkleTree

/-! ## Binding -/

namespace CoPath

/-- A position of the tree at which the levels of `verify` and the tree hash distinct
children to the same digest. -/
def Collides (self : CoPath P) (t : MerkleTree P) (leaves : List P.Leaf) : Prop :=
  ∃ m levels, self.leafLevel t.leafHashParam leaves = .ok m ∧
    self.innerLevels t.twoToOneHashParam m = .ok levels ∧
    Opening.Collides (P.hashing t.twoToOneHashParam) (self.treeHeight - 2)
      (OnPath (self.treeHeight - 1) self.leafIndexes) m.get levels.node t.leafAt t.nodeAt

theorem Collides.collision {self : CoPath P} {t : MerkleTree P} {leaves : List P.Leaf}
    (h : self.Collides t leaves) : (P.hashing t.twoToOneHashParam).Collision := by
  obtain ⟨m, levels, -, -, h⟩ := h
  exact Opening.Collides.collision h

/-- An accepted batch proof has some index in range, and at each such index the tree's
digest of one of the leaves given for it. -/
theorem verify_sound {self : CoPath P} {t : MerkleTree P} (ht : t.Valid) {R : P.InnerDigest}
    (hR : t.root = .ok R) {leaves : List P.Leaf}
    (hv : self.verify t.leafHashParam t.twoToOneHashParam R t.height leaves = .ok true) :
    (self.leafIndexes.length = leaves.length ∧ (∃ i ∈ self.leafIndexes, i < t.leafNodes.length) ∧
      ∀ i ∈ self.leafIndexes, i < t.leafNodes.length → ∃ leaf, (i, leaf) ∈ self.leafIndexes.zip leaves ∧
        P.leafHashEvaluate t.leafHashParam leaf = .ok (t.leafAt i)) ∨ self.Collides t leaves := by
  obtain ⟨k, hk, hl, -, htree⟩ := ht.depth
  obtain ⟨-, -, hheight, m, levels, hm, hlevels, hroot⟩ := verify_eq_ok_true hv
  rw [hk] at hheight
  obtain ⟨hopening, hnone⟩ := innerLevels_opening hheight hlevels
  rw [ht.root_eq, Except.ok.injEq] at hR
  rw [← hR] at hroot
  obtain ⟨hlen, hspec⟩ := leafLevel_spec hm
  obtain ⟨-, hleaf⟩ | hc := hopening.sound htree (fun d hd p h => h.parent (by omega)) hroot
  · refine .inl ⟨hlen, ?_, fun i hi hlt => ?_⟩
    · by_contra hno
      refine nomatch hroot.symm.trans (hnone ?_)
      rintro ⟨i, hi, hanc⟩
      refine hno ⟨i, hi, ?_⟩
      rw [hl]
      exact (Nat.div_eq_zero_iff.mp hanc).resolve_left (Nat.two_pow_pos _).ne'
    · obtain ⟨leaf, x, hzip, hx, hget⟩ := hspec i hi
      rw [hleaf i (hl ▸ hlt) (onPath_leaf.mpr hi), Option.some.injEq] at hget
      exact ⟨leaf, hzip, hget ▸ hx⟩
  · refine .inr ⟨m, levels, hm, hlevels, ?_⟩
    rw [hheight]
    exact hc

/-- What an accepted batch proof says: each of its leaves is in the tree, at its
index. -/
def OpensLeaves (P : Config) (leafHashParam : P.LeafParam) (twoToOneHashParam : P.TwoToOneParam)
    (height : Nat) (leafIndexes : List Nat) (leaves : List P.Leaf) : Prop :=
  ∀ leafDigests t, newWithLeafDigest leafHashParam twoToOneHashParam leafDigests = .ok t →
    t.height = height → ∀ proof : CoPath P, proof.leafIndexes = leafIndexes →
    ∀ R, t.root = .ok R → proof.verify leafHashParam twoToOneHashParam R height leaves = .ok true →
      (∀ k i : Nat, leafIndexes[k]? = some i → i < leafDigests.length ∧ ∃ leaf x, leaves[k]? = some leaf ∧
        P.leafHashEvaluate leafHashParam leaf = .ok x ∧ t.leafNodes[i]? = some x) ∨
      proof.Collides t leaves

/-- The indexes are in range, and equal indexes have equal leaf digests. -/
def IndexesAgree (P : Config) (leafHashParam : P.LeafParam) (height : Nat) (leafIndexes : List Nat)
    (leaves : List P.Leaf) : Prop :=
  (∀ i ∈ leafIndexes, i < 2 ^ (height - 1)) ∧ ∀ i leaf leaf', (i, leaf) ∈ leafIndexes.zip leaves →
    (i, leaf') ∈ leafIndexes.zip leaves →
    P.leafHashEvaluate leafHashParam leaf = P.leafHashEvaluate leafHashParam leaf'

/-- The verifier rejects by itself, since there is another number of leaves than indexes
or no index in range, or the indexes agree. -/
def RejectsOrAgrees (P : Config) (leafHashParam : P.LeafParam) (height : Nat) (leafIndexes : List Nat)
    (leaves : List P.Leaf) : Prop :=
  leaves.length ≠ leafIndexes.length ∨ (∀ i ∈ leafIndexes, 2 ^ (height - 1) ≤ i) ∨
    IndexesAgree P leafHashParam height leafIndexes leaves

section

variable {leafHashParam : P.LeafParam} {twoToOneHashParam : P.TwoToOneParam} {height : Nat}
  {leafIndexes : List Nat} {leaves : List P.Leaf}

theorem opensLeaves_of_rejectsOrAgrees (h : RejectsOrAgrees P leafHashParam height leafIndexes leaves) :
    OpensLeaves P leafHashParam twoToOneHashParam height leafIndexes leaves := by
  rintro leafDigests t hbuilt rfl proof rfl R hR hv
  obtain ⟨ht, rfl, rfl, rfl⟩ := MerkleTree.newWithLeafDigest_eq_ok.mp hbuilt
  refine (verify_sound ht hR hv).imp (fun hsound k i hki => ?_) id
  obtain ⟨hlen, ⟨i₀, hi₀, hlt₀⟩, hopen⟩ := hsound
  rw [ht.length_leafNodes] at hlt₀ hopen ⊢
  have hmem := List.mem_of_getElem? hki
  obtain ⟨hrange, hagree⟩ := (h.resolve_left (fun hne => hne hlen.symm)).resolve_left
    (fun hout => Nat.not_lt.mpr (hout i₀ hi₀) hlt₀)
  obtain ⟨leaf', hzip', hx⟩ := hopen i hmem (hrange i hmem)
  have hk : k < leaves.length := hlen ▸ (List.getElem?_eq_some_iff.mp hki).1
  have hzip : (i, leaves[k]) ∈ proof.leafIndexes.zip leaves :=
    List.mem_iff_getElem?.mpr ⟨k, List.getElem?_zip_eq_some.mpr ⟨hki, List.getElem?_eq_getElem hk⟩⟩
  refine ⟨hrange i hmem, leaves[k], t.leafAt i, List.getElem?_eq_getElem hk, ?_, ?_⟩
  · rw [hagree i _ _ hzip hzip', hx]
  · exact getElem?_getD (ht.length_leafNodes ▸ hrange i hmem)

/-- The leaf digests `verify` keeps for the indexes. -/
def keptDigest (ingested : BTreeMap P.LeafDigest) (i : Nat) : P.LeafDigest := (ingested.get i).getD default

/-- The batch proof made from the kept digests, and nodes over them, is accepted for the root
of a tree with these leaf digests. -/
theorem exists_verify_keptDigest (hs : P.HashesSucceed leafHashParam twoToOneHashParam)
    {k : Nat} (hu : ∀ i ∈ leafIndexes, i < 2 ^ usizeBits) {i₀ : Nat} (hi₀ : i₀ ∈ leafIndexes)
    (hlt₀ : i₀ < 2 ^ (k + 1)) {ingested : BTreeMap P.LeafDigest}
    (hingested : ingestLeaves leafHashParam leafIndexes leaves .new = .ok ingested) :
    ∃ leafDigests t, newWithLeafDigest leafHashParam twoToOneHashParam leafDigests = .ok t ∧
      t.height = k + 2 ∧ (∀ i < 2 ^ (k + 1), t.leafNodes[i]? = some (keptDigest ingested i)) ∧
      ∃ (proof : CoPath P) (R : P.InnerDigest), proof.leafIndexes = leafIndexes ∧ t.root = .ok R ∧
      proof.verify leafHashParam twoToOneHashParam R (k + 2) leaves = .ok true ∧
      ¬ proof.Collides t leaves := by
  obtain ⟨node, hbottom, hinner⟩ := hs.total.exists_nodes k (keptDigest ingested)
  have hdigests : ((List.range (2 ^ (k + 1))).map (keptDigest ingested)).length = 2 ^ (k + 1) := by
    rw [List.length_map, List.length_range]
  obtain ⟨t, ht, hk⟩ := MerkleTree.exists_newWithLeafDigest hs hdigests
  obtain ⟨hvalid, hleafNodes, rfl, rfl⟩ := MerkleTree.newWithLeafDigest_eq_ok.mp ht
  obtain ⟨k', hk', hl, -, htree⟩ := hvalid.depth
  obtain rfl : k = k' := by omega
  have hget : ∀ i < 2 ^ (k + 1), t.leafNodes[i]? = some (keptDigest ingested i) := fun i hi => by
    rw [hleafNodes, List.getElem?_map, List.getElem?_range hi]
    rfl
  have hleafAt : ∀ i < 2 ^ (k + 1), t.leafAt i = keptDigest ingested i := fun i hi => by
    rw [MerkleTree.leafAt, List.getD_eq_getElem?_getD, hget i hi, Option.getD_some]
  have hforest : IsTree (P.hashing t.twoToOneHashParam) k (keptDigest ingested) node :=
    ⟨fun p _ => hbottom p, fun d hd p _ => hinner d hd p⟩
  have hnodeAt := hforest.unique htree hleafAt
  obtain ⟨proof, hproof⟩ : ∃ proof, proof = ofLabelling (k + 2) leafIndexes (keptDigest ingested) node :=
    ⟨_, rfl⟩
  have hindexes : proof.leafIndexes = leafIndexes := by rw [hproof]; rfl
  rw [← hindexes] at hu hi₀ hingested
  obtain ⟨hlen, -, hon⟩ := ingestLeaves_spec hingested
  obtain ⟨m, hm, hsib⟩ := exists_leafLevel hs.leafHash hlen (keptDigest ingested)
    (show proof.leafCopath = _ by rw [hproof]; rfl)
  obtain ⟨ingested', hingested', hkept⟩ := leafLevel_ingested hm
  obtain rfl := Except.ok.inj (hingested.symm.trans hingested')
  have hleaves : ∀ q, OnPath (k + 1) proof.leafIndexes k (q / 2) → ∃ x, m.get q = some x ∧
      (q < 2 ^ (k + 1) → x = t.leafAt q) := by
    intro q hq
    by_cases hqi : q ∈ proof.leafIndexes
    · obtain ⟨leaf, x, -, -, hx⟩ := hon q hqi
      refine ⟨x, by rw [hkept q hqi, hx], fun hlt => ?_⟩
      rw [hleafAt q hlt, keptDigest, hx, Option.getD_some]
    · have hsibling := onPath_leaf.mp (hq.sibling (Nat.lt_succ_self k) (mt onPath_leaf.mp hqi))
      exact ⟨_, hsib q hsibling hqi, fun hlt => (hleafAt q hlt).symm⟩
  obtain ⟨levels, hlevels, hroot, hno⟩ := exists_innerLevels_exact (show proof.treeHeight = k + 2 by
    rw [hproof]; rfl) hs hu htree hleaves (show proof.innerCopath = _ by rw [hproof]; rfl)
    (fun d hd q hq _ => (hnodeAt (d + 1) hd q hq).symm)
  have hheight : proof.treeHeight = k + 2 := by rw [hproof]; rfl
  refine ⟨_, t, ht, hk, hget, proof, _, hindexes, hvalid.root_eq, ?_, ?_⟩
  · rw [verify_of_levels (List.ne_nil_of_mem hi₀) (by omega) hheight hm hlevels
      (hroot ⟨i₀, hi₀, anc_zero hlt₀⟩), beq_self_eq_true]
  · rintro ⟨m', levels', hm', hlevels', hc⟩
    obtain rfl := Except.ok.inj (hm.symm.trans hm')
    obtain rfl := Except.ok.inj (hlevels.symm.trans hlevels')
    rw [hheight] at hc
    exact hno hc

/-- Any other indexes and leaves are accepted for some tree that does not hold them. -/
theorem indexesAgree_of_opensLeaves (hs : P.HashesSucceed leafHashParam twoToOneHashParam)
    (hh : 2 ≤ height) (hu : ∀ i ∈ leafIndexes, i < 2 ^ usizeBits)
    (hlen : leafIndexes.length = leaves.length) {i₀ : Nat} (hi₀ : i₀ ∈ leafIndexes)
    (hlt₀ : i₀ < 2 ^ (height - 1))
    (h : OpensLeaves P leafHashParam twoToOneHashParam height leafIndexes leaves) :
    IndexesAgree P leafHashParam height leafIndexes leaves := by
  obtain ⟨k, rfl⟩ : ∃ k, height = k + 2 := ⟨height - 2, by omega⟩
  obtain ⟨ingested, hingested⟩ := exists_ingestLeaves hs.leafHash hlen .new
  obtain ⟨leafDigests, t, ht, hk, hget, proof, R, hindexes, hR, hv, hno⟩ :=
    exists_verify_keptDigest hs hu hi₀ hlt₀ hingested
  have hopen := (h leafDigests t ht hk proof hindexes R hR hv).resolve_right hno
  obtain ⟨hvalid, rfl, -, -⟩ := MerkleTree.newWithLeafDigest_eq_ok.mp ht
  rw [hvalid.length_leafNodes, hk] at hopen
  refine ⟨fun i hi => ?_, fun i leaf leaf' hzip hzip' => ?_⟩
  · obtain ⟨n, hn⟩ := List.mem_iff_getElem?.mp hi
    exact (hopen n i hn).1
  · have hdigest : ∀ leaf, (i, leaf) ∈ leafIndexes.zip leaves → ∃ x,
        P.leafHashEvaluate leafHashParam leaf = .ok x ∧ t.leafNodes[i]? = some x := by
      intro leaf hzip
      obtain ⟨n, hn⟩ := List.mem_iff_getElem?.mp hzip
      obtain ⟨hi, hleaf⟩ := List.getElem?_zip_eq_some.mp hn
      obtain ⟨-, leaf', x, hleaf', hx, hti⟩ := hopen n i hi
      obtain rfl := Option.some.inj (hleaf.symm.trans hleaf')
      exact ⟨x, hx, hti⟩
    obtain ⟨x, hx, hti⟩ := hdigest leaf hzip
    obtain ⟨x', hx', hti'⟩ := hdigest leaf' hzip'
    rw [hx, hx', Option.some.inj (hti.symm.trans hti')]

/-- A batch proof accepted for the root of a tree of a given height opens every leaf at
its index, up to a collision, when the verifier rejects by itself or the indexes
agree, and in no other case. -/
theorem batchBinding_iff (hh : 2 ≤ height) (hu : ∀ i ∈ leafIndexes, i < 2 ^ usizeBits) :
    (RejectsOrAgrees P leafHashParam height leafIndexes leaves →
      OpensLeaves P leafHashParam twoToOneHashParam height leafIndexes leaves) ∧
    (P.HashesSucceed leafHashParam twoToOneHashParam →
      OpensLeaves P leafHashParam twoToOneHashParam height leafIndexes leaves →
      RejectsOrAgrees P leafHashParam height leafIndexes leaves) := by
  refine ⟨opensLeaves_of_rejectsOrAgrees, fun hs h => ?_⟩
  by_cases hlen : leafIndexes.length = leaves.length
  · by_cases hin : ∃ i ∈ leafIndexes, i < 2 ^ (height - 1)
    · obtain ⟨i₀, hi₀, hlt₀⟩ := hin
      exact .inr (.inr (indexesAgree_of_opensLeaves hs hh hu hlen hi₀ hlt₀ h))
    · exact .inr (.inl fun i hi => Nat.le_of_not_lt fun hlt => hin ⟨i, hi, hlt⟩)
  · exact .inl (Ne.symm hlen)

theorem batchBinding_iff_free :
    (RejectsOrAgrees freeConfig () 3 [0, 2] [0, 2] → OpensLeaves freeConfig () () 3 [0, 2] [0, 2]) ∧
    (freeConfig.HashesSucceed () () → OpensLeaves freeConfig () () 3 [0, 2] [0, 2] →
      RejectsOrAgrees freeConfig () 3 [0, 2] [0, 2]) :=
  @batchBinding_iff freeConfig () () 3 [0, 2] [0, 2] (by decide) (by decide)

/-- For the tree of four leaves, a leaf 7 is accepted at the first of two indexes 0, and
a leaf at index 4. -/
theorem verify_not_batchBinding :
    let repeated : CoPath freeConfig := ⟨3, [.leaf 1], [.node (.leaf 2) (.leaf 3)], [0, 0]⟩
    let mixed : CoPath freeConfig := ⟨3, [.leaf 1, .leaf 5], [.node (.leaf 2) (.leaf 3), .leaf 6], [0, 4]⟩
    newWithLeafDigest () () freeTree.leafNodes = .ok freeTree ∧ ¬ (freeConfig.hashing ()).Collision ∧
      ∃ R, freeTree.root = .ok R ∧
        (repeated.verify () () R 3 [7, 0] = .ok true ∧
          freeConfig.leafHashEvaluate () 7 ≠ .ok (freeTree.leafAt 0)) ∧
        mixed.verify () () R 3 [0, 4] = .ok true ∧ ¬ 4 < freeTree.leafNodes.length :=
  ⟨rfl, freeConfig_not_collision, _, rfl, ⟨by decide, by decide⟩, by decide, by decide⟩

end

end CoPath

end CryptoPrimitives.Merkle
