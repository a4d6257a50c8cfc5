import CryptoPrimitives.MerkleTree.BatchProof

/-!
# The digests of a batch proof

`copathNodes`: the nodes whose digests a batch proof holds, by depth and position, in the
order of `leaf_copath` and then of `inner_copath`. They are the positions of the library
beside the paths to the opened leaves (`mem_copathNodes`).

* `generateMultiProof_partition`: a generated proof holds the digests of these nodes. No two of
  them are the same, and each leaf that is not opened is below exactly one of them.
-/

namespace CryptoPrimitives.Merkle

open HashTree (Beside onPath_leaf leavesBelow perm_leavesBelow)

variable {P : Config}

namespace CoPath

/-- The nodes whose digests a batch proof holds. -/
def copathNodes (D : Nat) (indexes : List Nat) : List (Nat × Nat) :=
  (leafCoset D indexes).map (D, ·) ++ innerCoset D indexes

variable {D : Nat} {indexes : List Nat}

theorem beside_leaf (hD : 0 < D) {q : Nat} : Beside D indexes D q ↔ q ∈ leafCoset D indexes := by
  rw [mem_leafCoset]
  constructor
  · rintro ⟨-, -, hq, hoff⟩
    rw [onPath_leaf] at hq hoff
    exact ⟨hq, hoff⟩
  · rintro ⟨hq, hoff⟩
    exact ⟨hD, le_rfl, onPath_leaf.mpr hq, mt onPath_leaf.mp hoff⟩

theorem beside_inner {s : Nat × Nat} (hs : s.1 < D) : Beside D indexes s.1 s.2 ↔ s ∈ innerCoset D indexes := by
  rw [mem_innerCoset, List.mem_range'_1, mem_neededSiblings (pairwise_onLevel hs.le), mem_onLevel hs.le,
    mem_onLevel hs.le]
  constructor
  · rintro ⟨hpos, -, hq, hoff⟩
    exact ⟨by omega, hq, hoff⟩
  · rintro ⟨hd, hq, hoff⟩
    exact ⟨by omega, hs.le, hq, hoff⟩

theorem mem_copathNodes (hD : 0 < D) {s : Nat × Nat} : s ∈ copathNodes D indexes ↔ Beside D indexes s.1 s.2 := by
  obtain ⟨d, q⟩ := s
  rw [copathNodes, List.mem_append, List.mem_map]
  constructor
  · rintro (⟨q', hq', h⟩ | h)
    · obtain ⟨rfl, rfl⟩ := Prod.mk.inj h
      exact (beside_leaf hD).mpr hq'
    · have hd := List.mem_range'_1.mp (mem_innerCoset.mp h).1
      exact (beside_inner (by omega)).mpr h
  · intro h
    rcases Nat.lt_or_eq_of_le h.le with hlt | rfl
    · exact .inr ((beside_inner hlt).mp h)
    · exact .inl ⟨q, (beside_leaf hD).mp h, rfl⟩

theorem nodup_copathNodes (hD : 0 < D) : (copathNodes D indexes).Nodup := by
  refine List.nodup_append'.mpr ⟨(nodup_leafCoset D indexes).map (Prod.mk_right_injective D),
    nodup_innerCoset D indexes, fun s hs hs' => ?_⟩
  obtain ⟨q, -, rfl⟩ := List.mem_map.mp hs
  have hd := List.mem_range'_1.mp (mem_innerCoset.mp hs').1
  omega

end CoPath

namespace MerkleTree

open CoPath (leafCoset innerCoset copathNodes ofLabelling mem_leafCoset beside_leaf beside_inner mem_copathNodes
  nodup_copathNodes)

/-- The digests of a generated proof are those of the nodes in the tree. -/
theorem generateMultiProof_nodes {t : MerkleTree P} (ht : t.Valid) {indexes : List Nat} (hne : indexes ≠ [])
    (hi : ∀ i ∈ indexes, i < t.leafNodes.length) :
    ∃ proof, t.generateMultiProof indexes = .ok proof ∧
      proof.leafCopath.map some = (leafCoset (t.height - 1) (btreeSet indexes)).map (t.leafNodes[·]?) ∧
      proof.innerCopath.map some = (innerCoset (t.height - 1) (btreeSet indexes)).map fun s =>
        t.nonLeafNodes[levelIndex s.1 s.2]? := by
  obtain ⟨k, hk, hl, hn, -⟩ := ht.depth
  have hlt : ∀ i ∈ btreeSet indexes, i < 2 ^ (k + 1) := fun i h => hl ▸ hi i (mem_btreeSet.mp h)
  refine ⟨_, generateMultiProof_eq ht hne hi, ?_, ?_⟩
  · rw [ofLabelling, btreeSet_of_pairwise (pairwise_btreeSet indexes), List.map_map, hk]
    refine List.map_congr_left fun q hq => ?_
    have hq := ((beside_leaf (Nat.succ_pos k)).mpr hq).lt hlt
    exact (getElem?_getD (hl ▸ hq)).symm
  · rw [ofLabelling, btreeSet_of_pairwise (pairwise_btreeSet indexes), List.map_map, hk]
    refine List.map_congr_left fun s hs => ?_
    have hd := List.mem_range'_1.mp (CoPath.mem_innerCoset.mp hs).1
    have hq := ((beside_inner (by omega)).mpr hs).lt hlt
    exact (getElem?_nodesAt hn (by omega) hq).symm

/-- For every height and every set of leaves, the nodes whose digests a proof holds are distinct, and
the leaves below them are, with the opened leaves, all leaves, each once. The proofs generated
by the trees of this height hold the digests of these nodes. -/
theorem generateMultiProof_partition {height : Nat} (hh : 2 ≤ height) {indexes : List Nat} (hne : indexes ≠ [])
    (hi : ∀ i ∈ indexes, i < 2 ^ (height - 1)) :
    (copathNodes (height - 1) (btreeSet indexes)).Nodup ∧
    (btreeSet indexes ++ (copathNodes (height - 1) (btreeSet indexes)).flatMap (leavesBelow (height - 1))).Perm
      (List.range (2 ^ (height - 1))) ∧
    ∀ (P : Config) (t : MerkleTree P), t.Reachable → t.height = height →
      ∃ proof, t.generateMultiProof indexes = .ok proof ∧
        proof.leafCopath.map some = (leafCoset (height - 1) (btreeSet indexes)).map (t.leafNodes[·]?) ∧
        proof.innerCopath.map some = (innerCoset (height - 1) (btreeSet indexes)).map fun s =>
          t.nonLeafNodes[levelIndex s.1 s.2]? := by
  have hD : 0 < height - 1 := by omega
  have hset : btreeSet indexes ≠ [] := by
    obtain ⟨i, hmem⟩ := List.exists_mem_of_ne_nil _ hne
    exact List.ne_nil_of_mem (mem_btreeSet.mpr hmem)
  refine ⟨nodup_copathNodes hD, ?_, fun P t ht heq => ?_⟩
  · exact perm_leavesBelow hset (nodup_btreeSet indexes) (fun i h => hi i (mem_btreeSet.mp h)) (nodup_copathNodes hD)
      fun s => mem_copathNodes hD
  · subst heq
    exact generateMultiProof_nodes ht.valid hne fun i h => ht.valid.length_leafNodes ▸ hi i h

theorem generateMultiProof_partition_free :
    (copathNodes 2 (btreeSet [2, 0, 2])).Nodup ∧
    (btreeSet [2, 0, 2] ++ (copathNodes 2 (btreeSet [2, 0, 2])).flatMap (leavesBelow 2)).Perm (List.range 4) ∧
    ∃ proof, freeTree.generateMultiProof [2, 0, 2] = .ok proof ∧ proof.leafCopath = [.leaf 1, .leaf 3] := by
  obtain ⟨hn, hperm, -⟩ := generateMultiProof_partition (show 2 ≤ 3 by decide) (show [2, 0, 2] ≠ [] by decide)
    (by decide)
  exact ⟨hn, hperm, _, rfl, by decide⟩

end MerkleTree

end CryptoPrimitives.Merkle
