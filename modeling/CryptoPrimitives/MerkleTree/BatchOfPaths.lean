import CryptoPrimitives.MerkleTree.BatchProof
import CryptoPrimitives.MerkleTree.ProofBinding

/-!
# A batch proof and the paths of its leaves

Both say of each leaf that it is in the tree: `verify_iff_leafAt` for a generated batch proof,
`Path.verify_iff_generateProof` for the paths. `generateMultiProof_verify_iff_paths` compares them.
-/

namespace CryptoPrimitives.Merkle.MerkleTree

/-- Distinct entries are zipped once. -/
theorem eq_of_mem_zip {α β : Type} {xs : List α} {ys : List β} (hn : xs.Nodup) {x : α} {y y' : β}
    (h : (x, y) ∈ xs.zip ys) (h' : (x, y') ∈ xs.zip ys) : y = y' := by
  obtain ⟨j, hj⟩ := List.mem_iff_getElem?.mp h
  obtain ⟨j', hj'⟩ := List.mem_iff_getElem?.mp h'
  obtain ⟨hx, hy⟩ := List.getElem?_zip_eq_some.mp hj
  obtain ⟨hx', hy'⟩ := List.getElem?_zip_eq_some.mp hj'
  obtain rfl := (List.getElem?_inj (List.getElem?_eq_some_iff.mp hx).1 hn).mp (hx.trans hx'.symm)
  exact Option.some.inj (hy.symm.trans hy')

variable {P : Config} {t : MerkleTree P} (ht : t.Reachable)
  (hs : P.HashesSucceed t.leafHashParam t.twoToOneHashParam) {indexes : List Nat} (hne : indexes ≠ [])
  (hi : ∀ i ∈ indexes, i < t.leafNodes.length) {R : P.InnerDigest} (hR : t.root = .ok R)
include ht hs hne hi hR

/-- A generated batch proof is accepted for the root of its tree with the leaves that are in it, and with no others
unless it collides with the tree. -/
theorem verify_iff_leafAt {proof : CoPath P} (hproof : t.generateMultiProof indexes = .ok proof) {leaves : List P.Leaf}
    (hlen : proof.leafIndexes.length = leaves.length) (hc : ¬ proof.Collides t leaves) :
    proof.verify t.leafHashParam t.twoToOneHashParam R t.height leaves = .ok true ↔
      ∀ i leaf, (i, leaf) ∈ proof.leafIndexes.zip leaves →
        P.leafHashEvaluate t.leafHashParam leaf = .ok (t.leafAt i) := by
  rw [generateMultiProof_eq ht.valid hne hi, Except.ok.injEq] at hproof
  have hindexes : proof.leafIndexes = btreeSet indexes := by
    rw [← hproof]
    rfl
  have hn : proof.leafIndexes.Nodup := hindexes ▸ nodup_btreeSet indexes
  have hlt : ∀ i ∈ proof.leafIndexes, i < t.leafNodes.length := fun i h => hi i (mem_btreeSet.mp (hindexes ▸ h))
  constructor
  · intro hv i leaf hzip
    obtain ⟨-, -, hopen⟩ := (CoPath.verify_sound ht.valid hR hv).resolve_right hc
    have hmem := (List.of_mem_zip hzip).1
    obtain ⟨leaf', hzip', hx⟩ := hopen i hmem (hlt i hmem)
    rwa [eq_of_mem_zip hn hzip hzip']
  · intro hall
    have hd : leaves.mapM (P.leafHashEvaluate t.leafHashParam) = .ok (proof.leafIndexes.map t.leafAt) := by
      rw [Except.mapM_eq_ok, List.forall₂_map_right_iff]
      exact (List.forall₂_iff_zip.mpr ⟨hlen, fun {i leaf} => hall i leaf⟩).flip
    have hr := rebuiltWith_self ht.valid hn hlt
    rw [verify_generateMultiProof ht hne hi hs hproof.symm hlen hd hr R,
      beq_iff_eq.mpr (Except.ok.inj (ht.valid.root_eq.symm.trans hR))]

/-- For every tree that a caller can hold and all leaves in it: the batch proof of some indexes is accepted for the
root with a leaf for each of them exactly when the path generated for each index is accepted with its leaf, unless
the batch proof or one of the paths collides with the tree. -/
theorem generateMultiProof_verify_iff_paths :
    ∃ proof, t.generateMultiProof indexes = .ok proof ∧ ∀ leaves, proof.leafIndexes.length = leaves.length →
      ¬ proof.Collides t leaves →
      (∀ i leaf path, (i, leaf) ∈ proof.leafIndexes.zip leaves → t.generateProof i = .ok path → ¬ path.Collides t leaf) →
      (proof.verify t.leafHashParam t.twoToOneHashParam R t.height leaves = .ok true ↔
        ∀ i leaf, (i, leaf) ∈ proof.leafIndexes.zip leaves → ∃ path, t.generateProof i = .ok path ∧
          path.verify t.leafHashParam t.twoToOneHashParam R leaf = .ok true) := by
  have hproof := generateMultiProof_eq ht.valid hne hi
  refine ⟨_, hproof, fun leaves hlen hc hpaths => ?_⟩
  rw [verify_iff_leafAt ht hs hne hi hR hproof hlen hc]
  refine forall₃_congr fun i leaf hzip => ?_
  have hlt : i < t.leafNodes.length := hi i (mem_btreeSet.mp (List.of_mem_zip hzip).1)
  obtain ⟨path, hpath, hindex, hlength, -⟩ := generateProof_eq ht.valid hlt
  constructor
  · exact fun hx => ⟨path, hpath, Path.verify_of_generateProof ht.valid hlt hpath hR hx⟩
  · rintro ⟨path', hpath', hv⟩
    obtain rfl := Except.ok.inj (hpath.symm.trans hpath')
    obtain ⟨-, hx⟩ := (Path.eq_generateProof_or_collides ht.valid hlength (hindex ▸ hlt) hR hv).resolve_right
      (hpaths i leaf path hzip hpath)
    rwa [hindex] at hx

omit ht hs hne hi hR in
/-- The leaves 0 and 2 of four, with any leaves for them. -/
theorem generateMultiProof_verify_iff_paths_free :
    ∃ R, freeTree.root = .ok R ∧ ∃ proof, freeTree.generateMultiProof [2, 0] = .ok proof ∧
      ∀ leaves, proof.leafIndexes.length = leaves.length →
        (proof.verify () () R 3 leaves = .ok true ↔
          ∀ i leaf, (i, leaf) ∈ proof.leafIndexes.zip leaves → ∃ path, freeTree.generateProof i = .ok path ∧
            path.verify () () R leaf = .ok true) := by
  obtain ⟨proof, hproof, h⟩ := generateMultiProof_verify_iff_paths freeTree_reachable freeConfig_hashesSucceed
    (show ([2, 0] : List Nat) ≠ [] by decide) (by decide) rfl
  exact ⟨_, rfl, proof, hproof, fun leaves hlen => h leaves hlen (fun hc => freeConfig_not_collision hc.collision)
    fun _ _ _ _ _ hc => freeConfig_not_collision hc.collision⟩

end CryptoPrimitives.Merkle.MerkleTree
