import CryptoPrimitives.MerkleTree.CoPathPartition

/-!
# Batch proofs of any indexes

`generate_multi_proof` does not compare the indexes with the number of leaves. It fails when a
digest it needs is not in the array it looks it up in (`generateMultiProof_cases`): the digest
of a leaf, by its index, or of an inner node, by its index in the heap. Past the last node of a
depth the heap goes on with the nodes of the next one, which are then taken for siblings.

* `refusesOutOfRange_iff`: so indexes out of range are refused exactly when a sibling of
  their paths is outside of the array.
-/

namespace CryptoPrimitives.Merkle

open HashTree (Beside)

variable {P : Config}

namespace MerkleTree

open CoPath (leafCoset innerCoset beside_leaf beside_inner)

theorem getNode_cases {α : Type} (xs : List α) (i : Nat) :
    (i < xs.length ∧ ∃ x, getNode xs i = .ok x) ∨
      ¬ i < xs.length ∧ getNode xs i = .error (.err (.incorrectInputLength xs.length)) := by
  rcases Nat.lt_or_ge i xs.length with h | h
  · exact .inl ⟨h, xs[i], getNode_eq_ok (List.getElem?_eq_getElem h)⟩
  · exact .inr ⟨Nat.not_lt.mpr h, by rw [getNode, List.getElem?_eq_none h]; rfl⟩

/-- The position `q` at depth `d` is looked up inside the array of its digests. -/
def Stored (t : MerkleTree P) (d q : Nat) : Prop :=
  if d = t.height - 1 then q < t.leafNodes.length else levelIndex d q < t.nonLeafNodes.length

theorem stored_iff {t : MerkleTree P} (hh : 2 ≤ t.height) {indexes : List Nat} :
    (∀ d q, Beside (t.height - 1) indexes d q → t.Stored d q) ↔
      (∀ q ∈ leafCoset (t.height - 1) (btreeSet indexes), q < t.leafNodes.length) ∧
        ∀ s ∈ innerCoset (t.height - 1) (btreeSet indexes), levelIndex s.1 s.2 < t.nonLeafNodes.length := by
  have hmem : ∀ i, i ∈ btreeSet indexes ↔ i ∈ indexes := fun i => mem_btreeSet
  constructor
  · refine fun h => ⟨fun q hq => ?_, fun s hs => ?_⟩
    · have hq := h _ q ((Beside.congr hmem).mp ((beside_leaf (by omega)).mpr hq))
      rwa [Stored, if_pos rfl] at hq
    · have hd := List.mem_range'_1.mp (CoPath.mem_innerCoset.mp hs).1
      have hs := h _ _ ((Beside.congr hmem).mp ((beside_inner (by omega)).mpr hs))
      rwa [Stored, if_neg (by omega)] at hs
  · rintro ⟨hleaf, hinner⟩ d q hb
    have hb := (Beside.congr hmem).mpr hb
    unfold Stored
    split
    · rename_i hd
      subst hd
      exact hleaf q ((beside_leaf (by omega)).mp hb)
    · rename_i hd
      have hlt := hb.le
      exact hinner (d, q) ((beside_inner (s := (d, q)) (show d < _ by omega)).mp hb)

/-- A proof is generated where all siblings of the paths are stored. Else the generation
fails with the one error it has. -/
theorem generateMultiProof_cases {t : MerkleTree P} (ht : t.Valid) {indexes : List Nat} (hne : indexes ≠ []) :
    ((∀ d q, Beside (t.height - 1) indexes d q → t.Stored d q) ∧ ∃ proof, t.generateMultiProof indexes = .ok proof) ∨
    (¬ (∀ d q, Beside (t.height - 1) indexes d q → t.Stored d q) ∧
      ∃ len, t.generateMultiProof indexes = .error (.err (.incorrectInputLength len))) := by
  rw [stored_iff ht.two_le_height, generateMultiProof_mapM t hne]
  obtain ⟨hleaf, leafCopath, h⟩ | ⟨hleaf, h⟩ := Except.mapM_ok_or (getNode_cases t.leafNodes)
    (leafCoset (t.height - 1) (btreeSet indexes))
  · obtain ⟨hinner, innerCopath, h'⟩ | ⟨hinner, h'⟩ := Except.mapM_ok_or
      (fun s : Nat × Nat => getNode_cases t.nonLeafNodes (levelIndex s.1 s.2))
      (innerCoset (t.height - 1) (btreeSet indexes))
    · exact .inl ⟨⟨hleaf, hinner⟩, _, by rw [h, Except.ok_bind, h']; rfl⟩
    · exact .inr ⟨fun hs => hinner hs.2, _, by rw [h, Except.ok_bind, h']; rfl⟩
  · exact .inr ⟨fun hs => hleaf hs.1, _, by rw [h]; rfl⟩

/-! ## Refusals -/

/-- The copaths of a proof are the digests of the siblings, by depth and position, all of them
positions of the tree. -/
def HoldsSiblings (t : MerkleTree P) (indexes : List Nat) (proof : CoPath P) : Prop :=
  proof.leafCopath.map some = (leafCoset (t.height - 1) (btreeSet indexes)).map (t.leafNodes[·]?) ∧
  proof.innerCopath.map some = (innerCoset (t.height - 1) (btreeSet indexes)).map fun s =>
    if s.2 < 2 ^ s.1 then t.nonLeafNodes[levelIndex s.1 s.2]? else none

/-- Indexes are opened exactly where all of them are in range, and refused else. -/
def RefusesOutOfRange (t : MerkleTree P) (indexes : List Nat) : Prop :=
  ((∃ proof, t.generateMultiProof indexes = .ok proof) ↔ ∀ i ∈ indexes, i < t.leafNodes.length) ∧
  ((¬ ∀ i ∈ indexes, i < t.leafNodes.length) →
    ∃ len, t.generateMultiProof indexes = .error (.err (.incorrectInputLength len))) ∧
  ∀ proof, t.generateMultiProof indexes = .ok proof → t.HoldsSiblings indexes proof

theorem exists_holdsSiblings {t : MerkleTree P} (ht : t.Valid) {indexes : List Nat} (hne : indexes ≠ [])
    (hi : ∀ i ∈ indexes, i < t.leafNodes.length) :
    ∃ proof, t.generateMultiProof indexes = .ok proof ∧ t.HoldsSiblings indexes proof := by
  obtain ⟨proof, h, hleaf, hinner⟩ := generateMultiProof_nodes ht hne hi
  rw [ht.length_leafNodes] at hi
  refine ⟨proof, h, hleaf, hinner.trans (List.map_congr_left fun s hs => ?_)⟩
  have hd := List.mem_range'_1.mp (CoPath.mem_innerCoset.mp hs).1
  have hb := (beside_inner (by omega)).mpr hs
  exact (if_pos (hb.lt fun i h => hi i (mem_btreeSet.mp h))).symm

/-- For every tree and all indexes: they are refused when one is out of range exactly when
one of the siblings of their paths is not stored. -/
theorem refusesOutOfRange_iff {t : MerkleTree P} (ht : t.Reachable) {indexes : List Nat} (hne : indexes ≠ []) :
    t.RefusesOutOfRange indexes ↔
      (∀ i ∈ indexes, i < t.leafNodes.length) ∨ ∃ d q, Beside (t.height - 1) indexes d q ∧ ¬ t.Stored d q := by
  constructor
  · rintro ⟨hok, -, -⟩
    obtain ⟨-, hproof⟩ | ⟨hs, -⟩ := generateMultiProof_cases ht.valid hne
    · exact .inl (hok.mp hproof)
    · right
      push Not at hs
      exact hs
  · rintro (hi | ⟨d, q, hb, hs⟩)
    · obtain ⟨proof, h, hholds⟩ := exists_holdsSiblings ht.valid hne hi
      refine ⟨iff_of_true ⟨proof, h⟩ hi, fun hni => absurd hi hni, fun proof' h' => ?_⟩
      rwa [← Except.ok.inj (h.symm.trans h')]
    · obtain ⟨hall, -⟩ | ⟨-, len, h⟩ := generateMultiProof_cases ht.valid hne
      · exact absurd (hall d q hb) hs
      · have hno : ∀ proof, t.generateMultiProof indexes ≠ .ok proof := fun proof h' => nomatch h.symm.trans h'
        have hi : ¬ ∀ i ∈ indexes, i < t.leafNodes.length := fun hi => by
          obtain ⟨proof, h', -⟩ := exists_holdsSiblings ht.valid hne hi
          exact hno proof h'
        exact ⟨iff_of_false (fun ⟨proof, h'⟩ => hno proof h') hi, fun _ => ⟨len, h⟩,
          fun proof h' => absurd h' (hno proof)⟩

theorem refusesOutOfRange_iff_free :
    freeTree.RefusesOutOfRange [0, 4] ↔
      (∀ i ∈ [0, 4], i < 4) ∨ ∃ d q, Beside 2 [0, 4] d q ∧ ¬ freeTree.Stored d q :=
  refusesOutOfRange_iff freeTree_reachable (List.cons_ne_nil _ _)

/-- Four indexes past the end of a tree of eight leaves. Their paths are beside position 3 at depth 1, at the
index in the heap of position 1 at depth 2, whose digest the proof holds. -/
theorem generateMultiProof_not_refused : ∃ (t : MerkleTree freeConfig) (proof : CoPath freeConfig), t.Reachable ∧
    t.generateMultiProof [8, 9, 10, 11] = .ok proof ∧ proof.innerCopath = [.node (.leaf 2) (.leaf 3)] ∧
    ¬ t.RefusesOutOfRange [8, 9, 10, 11] := by
  have ht : MerkleTree.newWithLeafDigest (P := freeConfig) () () ((List.range 8).map Term.leaf) = .ok _ := rfl
  refine ⟨_, _, .built (by decide) ht, rfl, rfl, fun h => ?_⟩
  have hi := h.1.mp ⟨_, rfl⟩ 8 (by decide)
  exact absurd hi (by decide)

end MerkleTree

end CryptoPrimitives.Merkle
