import CryptoPrimitives.MerkleTree.BatchProof

/-!
# Batch proofs are canonical

Two batch proofs of the same indexes, accepted for the same root, are compared from the root
down: where the parents are equal, so are the children, or the hash has a collision there
(`Conflict`). Each digest of a copath is a child of an on-path node, so it is compared too.

* `verify_canonical`: the leaf digests and the copaths of the two proofs are the same, digest
  by digest, or the two-to-one hash has a collision between the two verifications.
-/

namespace CryptoPrimitives.Merkle

open HashTree (Opening OnPath onPath_leaf anc_zero xor_one_half)

variable {P : Config}

/-- Two distinct pairs of inputs of the two-to-one hash with the same digest. -/
inductive Config.TwoToOneCollision (P : Config) (param : P.TwoToOneParam) : Prop where
  | evaluate {l r l' r' : P.TwoToOneInput} {n : P.InnerDigest} : (l, r) ≠ (l', r') →
      P.evaluate param l r = .ok n → P.evaluate param l' r' = .ok n → P.TwoToOneCollision param
  | compress {l r l' r' n : P.InnerDigest} : (l, r) ≠ (l', r') → P.compress param l r = .ok n →
      P.compress param l' r' = .ok n → P.TwoToOneCollision param

/-- The converter gives distinct leaf digests distinct inputs of the two-to-one hash. -/
def Config.ConvertInjective (P : Config) : Prop := ∀ x x' y, P.convert x = .ok y → P.convert x' = .ok y → x = x'

theorem Config.ConvertInjective.twoToOneCollision (hinj : P.ConvertInjective) {param : P.TwoToOneParam}
    (h : (P.hashing param).Collision) : P.TwoToOneCollision param := by
  cases h with
  | bottom hne h h' =>
    simp only [hashing, evaluateConverted, Except.bind_eq_ok] at h h'
    obtain ⟨x, hx, y, hy, h⟩ := h
    obtain ⟨x', hx', y', hy', h'⟩ := h'
    refine .evaluate (fun heq => hne ?_) h h'
    obtain ⟨rfl, rfl⟩ := Prod.mk.inj heq
    rw [hinj _ _ x hx hx', hinj _ _ y hy hy']
  | inner hne h h' => exact .compress hne h h'

namespace CoPath

/-- A node at which the two verifications hash distinct children to the same digest. -/
def Conflict (self other : CoPath P) (leafHashParams : P.LeafParam) (twoToOneParams : P.TwoToOneParam)
    (leaves otherLeaves : List P.Leaf) : Prop :=
  ∃ m m' levels levels', self.leafLevel leafHashParams leaves = .ok m ∧
    other.leafLevel leafHashParams otherLeaves = .ok m' ∧ self.innerLevels twoToOneParams m = .ok levels ∧
    other.innerLevels twoToOneParams m' = .ok levels' ∧
    Opening.Conflict (P.hashing twoToOneParams) (self.treeHeight - 2)
      (OnPath (self.treeHeight - 1) self.leafIndexes) m.get m'.get levels.node levels'.node

theorem Conflict.collision {self other : CoPath P} {leafHashParams : P.LeafParam} {twoToOneParams : P.TwoToOneParam}
    {leaves otherLeaves : List P.Leaf}
    (h : Conflict self other leafHashParams twoToOneParams leaves otherLeaves) :
    (P.hashing twoToOneParams).Collision := by
  obtain ⟨m, m', levels, levels', -, -, -, -, h⟩ := h
  exact h.collision

/-- The same digests of the leaves and the same copaths. -/
def SameDigests (self other : CoPath P) (leafHashParams : P.LeafParam) (leaves otherLeaves : List P.Leaf) : Prop :=
  (∃ digests, leaves.mapM (P.leafHashEvaluate leafHashParams) = .ok digests ∧
    otherLeaves.mapM (P.leafHashEvaluate leafHashParams) = .ok digests) ∧
  self.leafCopath = other.leafCopath ∧ self.innerCopath = other.innerCopath

section

variable {self other : CoPath P} {leafHashParams : P.LeafParam} {leaves otherLeaves : List P.Leaf} {k : Nat}

/-- Distinct indexes have the digests of the leaves. -/
theorem leafLevel_digests (hn : self.leafIndexes.Nodup) {m : BTreeMap P.LeafDigest}
    (h : self.leafLevel leafHashParams leaves = .ok m) :
    ∃ digests, leaves.mapM (P.leafHashEvaluate leafHashParams) = .ok digests ∧
      digests.map some = self.leafIndexes.map m.get := by
  obtain ⟨ingested, hi, hget⟩ := leafLevel_ingested h
  obtain ⟨digests, hd, hmap⟩ := ingestLeaves_digests hn hi
  exact ⟨digests, hd, hmap.trans (List.map_congr_left fun i hi => (hget i hi).symm)⟩

/-- Levels with the same values below the on-path nodes come from the same digests. -/
theorem sameDigests_of_agree (hk : self.treeHeight = k + 2) (hk' : other.treeHeight = k + 2)
    (hidx : other.leafIndexes = self.leafIndexes) (hn : self.leafIndexes.Nodup) {twoToOneParams : P.TwoToOneParam}
    {m m' : BTreeMap P.LeafDigest} {levels levels' : Levels P}
    (hm : self.leafLevel leafHashParams leaves = .ok m) (hm' : other.leafLevel leafHashParams otherLeaves = .ok m')
    (hl : self.innerLevels twoToOneParams m = .ok levels) (hl' : other.innerLevels twoToOneParams m' = .ok levels')
    (hleaf : ∀ q, OnPath (k + 1) self.leafIndexes k (q / 2) → m.get q = m'.get q)
    (hnode : ∀ d < k, ∀ q, OnPath (k + 1) self.leafIndexes d (q / 2) →
      levels.node (d + 1) q = levels'.node (d + 1) q) :
    SameDigests self other leafHashParams leaves otherLeaves := by
  have hsome {α : Type} {xs ys : List α} (h : xs.map some = ys.map some) : xs = ys :=
    List.map_injective_iff.mpr (Option.some_injective α) h
  have hparent {q : Nat} (hq : OnPath (k + 1) self.leafIndexes (k + 1) q) : OnPath (k + 1) self.leafIndexes k (q / 2) :=
    hq.parent (Nat.lt_succ_self k)
  refine ⟨?_, hsome ?_, hsome ?_⟩
  · obtain ⟨digests, hd, hmap⟩ := leafLevel_digests hn hm
    obtain ⟨digests', hd', hmap'⟩ := leafLevel_digests (hidx ▸ hn) hm'
    rw [hidx] at hmap'
    obtain rfl : digests = digests' := by
      refine hsome (hmap.trans (Eq.trans (List.map_congr_left fun i hi => ?_) hmap'.symm))
      exact hleaf i (hparent (onPath_leaf.mpr hi))
    exact ⟨digests, hd, hd'⟩
  · rw [leafLevel_copath hm, leafLevel_copath hm', hk, hk', hidx]
    refine List.map_congr_left fun q hq => hleaf q ?_
    have hq := hparent (onPath_leaf.mpr (mem_btreeSet.mp (mem_leafCoset.mp hq).1))
    rwa [xor_one_half] at hq
  · rw [innerLevels_copath hk hl, innerLevels_copath hk' hl', hidx]
    refine List.map_congr_left fun s hs => ?_
    obtain ⟨hd, hq⟩ := mem_innerCoset.mp hs
    have hd := List.mem_range'_1.mp hd
    have hon := ((mem_neededSiblings (pairwise_onLevel (by omega))).mp hq).1
    rw [mem_onLevel (by omega), onPath_btreeSet] at hon
    obtain ⟨d, q⟩ := s
    obtain ⟨d, rfl⟩ : ∃ e, d = e + 1 := ⟨d - 1, by omega⟩
    have hq := hon.parent (show d < k + 1 by omega)
    rw [xor_one_half] at hq
    exact hnode d (by omega) q hq

/-- For every root, height and set of indexes: two accepted proofs have the same digests, or
a node of the two verifications exhibits a collision. It is one of the two-to-one hash itself
where the converter is injective. -/
theorem verify_canonical {leafHashParams : P.LeafParam} {twoToOneParams : P.TwoToOneParam} {rootHash : P.InnerDigest}
    {height expectedTreeHeight expectedTreeHeight' : Nat} {indexes : List Nat} (hsorted : indexes.Pairwise (· < ·))
    (hlt : ∀ i ∈ indexes, i < 2 ^ (height - 1)) (hself : self.treeHeight = height ∧ self.leafIndexes = indexes)
    (hother : other.treeHeight = height ∧ other.leafIndexes = indexes)
    (h : self.verify leafHashParams twoToOneParams rootHash expectedTreeHeight leaves = .ok true)
    (h' : other.verify leafHashParams twoToOneParams rootHash expectedTreeHeight' otherLeaves = .ok true) :
    SameDigests self other leafHashParams leaves otherLeaves ∨
      Conflict self other leafHashParams twoToOneParams leaves otherLeaves ∧ (P.hashing twoToOneParams).Collision ∧
        (P.ConvertInjective → P.TwoToOneCollision twoToOneParams) := by
  obtain ⟨rfl, rfl⟩ := hself
  obtain ⟨hheight, hidx⟩ := hother
  obtain ⟨-, hh, -, m, levels, hm, hlevels, hroot⟩ := verify_eq_ok_true h
  obtain ⟨-, -, -, m', levels', hm', hlevels', hroot'⟩ := verify_eq_ok_true h'
  obtain ⟨k, hk⟩ : ∃ k, self.treeHeight = k + 2 := ⟨self.treeHeight - 2, by omega⟩
  have hk' : other.treeHeight = k + 2 := hheight.trans hk
  rw [hk] at hlt
  have ho := (innerLevels_opening hk hlevels).1
  have ho' := (innerLevels_opening hk' hlevels').1
  rw [hidx] at ho'
  have hzero : ∀ p, OnPath (k + 1) self.leafIndexes 0 p → p = 0 := fun p hp => by
    simpa using hp.lt hlt (Nat.zero_le _)
  obtain ⟨hleaf, hnode⟩ | hc := ho.agree ho' (fun d hd p hp => hp.parent (by omega)) hzero (hroot.trans hroot'.symm)
  · exact .inl (sameDigests_of_agree hk hk' hidx (hsorted.imp Nat.ne_of_lt) hm hm' hlevels hlevels' hleaf hnode)
  · refine .inr ⟨⟨m, m', levels, levels', hm, hm', hlevels, hlevels', ?_⟩, hc.collision, fun hinj =>
      hinj.twoToOneCollision hc.collision⟩
    rw [hk]
    exact hc

/-- A configuration whose hashes add numbers. -/
abbrev sumConfig : Config where
  Leaf := Nat
  LeafDigest := Nat
  TwoToOneInput := Nat
  InnerDigest := Nat
  LeafParam := Unit
  TwoToOneParam := Unit
  leafHashEvaluate _ n := .ok n
  convert n := .ok n
  evaluate _ l r := .ok (l + r)
  compress _ l r := .ok (l + r)

/-- Two proofs of the first and the third of four leaves: the root is 6 for both, and the first leaf
and its sibling differ. -/
theorem verify_canonical_sum :
    let proof : CoPath sumConfig := ⟨3, [1, 3], [], [0, 2]⟩
    let other : CoPath sumConfig := ⟨3, [0, 3], [], [0, 2]⟩
    proof.verify () () 6 3 [0, 2] = .ok true ∧ other.verify () () 6 3 [1, 2] = .ok true ∧
      (SameDigests proof other () [0, 2] [1, 2] ∨
        Conflict proof other () () [0, 2] [1, 2] ∧ (sumConfig.hashing ()).Collision ∧
          (sumConfig.ConvertInjective → sumConfig.TwoToOneCollision ())) := by
  intro proof other
  have h : proof.verify () () 6 3 [0, 2] = .ok true := rfl
  have h' : other.verify () () 6 3 [1, 2] = .ok true := rfl
  exact ⟨h, h', verify_canonical (show [0, 2].Pairwise (· < ·) by decide) (show ∀ i ∈ [0, 2], i < 2 ^ (3 - 1) by decide)
    ⟨rfl, rfl⟩ ⟨rfl, rfl⟩ h h'⟩

end

end CoPath

end CryptoPrimitives.Merkle
