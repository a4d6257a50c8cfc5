import CryptoPrimitives.MerkleTree.Update

/-!
# Proofs for one leaf

* `finalNode_eq`: `Path::verify` walks the path of the library.
* `generateProof_eq`: the digests of a generated proof.
* `generateProof_verify_iff`: a generated proof accepts a leaf for the root of
  the tree updated with this leaf, and for no other.
* `verify_sound`: a path accepted for the root of a tree opens the leaf at the
  low bits of its index, or exhibits a collision (`Path.Collides`). The bits
  above them are not checked: `positionBinding_iff`.
-/

namespace CryptoPrimitives.Merkle

open Except (bind_eq_ok)
open MerkleTree (newWithLeafDigest)
open HashTree (IsTree PathRun OnPath Opening pairAt onPath_leaf onPath_singleton anc anc_succ anc_self
  anc_half half_lt xor_one_lt pathNodes_eq_ok_iff_run pathRun_mod)

variable {P : Config}

namespace Path

/-- The sibling at a depth. -/
def siblingAt (self : Path P) (d : Nat) : P.InnerDigest := self.authPath.getD (d - 1) default

/-! ## Verification -/

theorem selectLeftRightChild_eq {α : Type} (p : Nat) (x s : α) :
    selectLeftRightChild p x s = (if p % 2 = 0 then x else s, if p % 2 = 0 then s else x) := by
  simp only [selectLeftRightChild, Nat.and_one_is_mod, beq_iff_eq]
  split <;> rfl

theorem verifyLoop_eq (self : Path P) (param : P.TwoToOneParam) {d : Nat}
    (hd : d ≤ self.authPath.length) (x : P.InnerDigest) (p : Nat) :
    (List.range d).reverse.foldlM (self.verifyLevel param) (x, p) =
      unwrap (do
        let ys ← (P.hashing param).climb self.siblingAt d p x
        .ok (ys.getLastD x, p >>> d)) := by
  induction d generalizing x p with
  | zero => rfl
  | succ d ih =>
    have hsib : (index self.authPath d : Outcome P.InnerDigest) = .ok (self.siblingAt (d + 1)) :=
      index_getD (by omega) default
    have hshift : p >>> (d + 1) = (p / 2) >>> d := by
      rw [Nat.add_comm, Nat.shiftRight_add, Nat.shiftRight_one]
    rw [List.range_succ, List.reverse_append, List.reverse_singleton, List.singleton_append,
      List.foldlM_cons]
    simp only [verifyLevel, hsib, Except.ok_bind, selectLeftRightChild_eq, HashTree.Hashing.climb,
      HashTree.innerAt_eq, unwrap_bind, unwrap_ok, bind_assoc, Except.pure_eq_ok, ih (by omega),
      List.getLastD_cons, Nat.shiftRight_one, hshift]
    rfl

/-- `Path::verify` computes the last node of the path. -/
theorem finalNode_eq (self : Path P) (leafHashParams : P.LeafParam) (twoToOneParams : P.TwoToOneParam)
    (leaf : P.Leaf) :
    self.finalNode leafHashParams twoToOneParams leaf = unwrap (do
      let x ← P.leafHashEvaluate leafHashParams leaf
      let ys ← (P.hashing twoToOneParams).pathNodes self.siblingAt self.authPath.length
        self.leafSiblingHash self.leafIndex x
      .ok (ys.getLastD default)) := by
  simp only [finalNode, selectLeftRightChild_eq, verifyLoop_eq self twoToOneParams le_rfl,
    HashTree.Hashing.pathNodes, HashTree.bottomAt_eq, unwrap_bind, bind_assoc, unwrap_ok, Except.ok_bind,
    Except.pure_eq_ok, List.getLastD_cons, Nat.shiftRight_one]
  rfl

theorem finalNode_eq_ok {self : Path P} {leafHashParams : P.LeafParam}
    {twoToOneParams : P.TwoToOneParam} {leaf : P.Leaf} {n : P.InnerDigest} :
    self.finalNode leafHashParams twoToOneParams leaf = .ok n ↔
      ∃ x, P.leafHashEvaluate leafHashParams leaf = .ok x ∧
      ∃ run, PathRun (P.hashing twoToOneParams) self.siblingAt self.authPath.length
        self.leafSiblingHash self.leafIndex x run ∧ run 0 = n := by
  simp only [finalNode_eq, unwrap_eq_ok, bind_eq_ok, pathNodes_eq_ok_iff_run, Except.ok.injEq]
  refine exists_congr fun x => and_congr_right fun _ => ⟨?_, ?_⟩
  · rintro ⟨ys, ⟨run, hrun, rfl⟩, rfl⟩
    exact ⟨run, hrun, by simp [List.getLastD_eq_getLast?, List.getLast?_reverse, List.range_succ_eq_map]⟩
  · rintro ⟨run, hrun, rfl⟩
    exact ⟨_, ⟨run, hrun, rfl⟩, by
      simp [List.getLastD_eq_getLast?, List.getLast?_reverse, List.range_succ_eq_map]⟩

theorem verify_eq_ok {self : Path P} {leafHashParams : P.LeafParam} {twoToOneParams : P.TwoToOneParam}
    {rootHash : P.InnerDigest} {leaf : P.Leaf} {b : Bool} :
    self.verify leafHashParams twoToOneParams rootHash leaf = .ok b ↔
      ∃ n, self.finalNode leafHashParams twoToOneParams leaf = .ok n ∧ (n == rootHash) = b := by
  simp only [verify, bind_eq_ok, Except.pure_eq_ok, Except.ok.injEq]

end Path

/-! ## Generated proofs -/

namespace MerkleTree

theorem authPathLoop_eq {nodes : List P.InnerDigest} {k : Nat} (hn : nodes.length = 2 ^ (k + 1) - 1)
    {d p fuel : Nat} (hd : d ≤ k) (hp : p < 2 ^ d) (hf : levelIndex d p ≤ fuel)
    (acc : List P.InnerDigest) :
    authPathLoop nodes fuel (levelIndex d p) acc =
      .ok (acc ++ ((List.range d).map fun e => nodesAt nodes (e + 1) (anc d p (e + 1) ^^^ 1)).reverse) := by
  induction d generalizing p fuel acc with
  | zero =>
    obtain rfl : p = 0 := by simpa using hp
    unfold authPathLoop
    simp [isRoot]
  | succ d ih =>
    have hpos := levelIndex_pos (d := d) p
    obtain ⟨fuel, rfl⟩ : ∃ f, fuel = f + 1 := ⟨fuel - 1, by omega⟩
    have hmap : ((List.range d).map fun e => nodesAt nodes (e + 1) (anc d (p / 2) (e + 1) ^^^ 1)) =
        (List.range d).map fun e => nodesAt nodes (e + 1) (anc (d + 1) p (e + 1) ^^^ 1) :=
      List.map_congr_left fun e he => by rw [anc_half p (List.mem_range.mp he)]
    unfold authPathLoop
    simp only [isRoot_levelIndex_succ, Bool.false_eq_true, if_false, sibling_levelIndex,
      parent_levelIndex, unwrapOption, index_nodesAt hn hd (xor_one_lt hp), Except.ok_bind,
      ih (by omega) (half_lt hp) (levelIndex_half_le hf), hmap, List.range_succ, List.map_append,
      List.reverse_append, List.map_singleton, anc_self, List.reverse_singleton, List.append_assoc]

/-- A generated proof holds the siblings of the path, from the top down. -/
theorem generateProof_eq {t : MerkleTree P} (ht : t.Valid) {i : Nat} (hi : i < t.leafNodes.length) :
    ∃ proof, t.generateProof i = .ok proof ∧ proof.leafIndex = i ∧
      proof.authPath.length = t.height - 2 ∧ proof.leafSiblingHash = t.leafAt (i ^^^ 1) ∧
      ∀ d, 0 < d → d ≤ t.height - 2 → proof.siblingAt d = t.pathSibling i d := by
  obtain ⟨k, hk, hl, hn, -⟩ := ht.depth
  have hp : i / 2 < 2 ^ k := half_lt (by rw [← hl]; exact hi)
  refine ⟨⟨t.leafAt (i ^^^ 1),
    (List.range k).map fun e => t.nodeAt (e + 1) (anc k (i / 2) (e + 1) ^^^ 1), i⟩, ?_, rfl,
    by rw [List.length_map, List.length_range]; omega, rfl, fun d hd0 hd => ?_⟩
  · simp only [generateProof, computeAuthPath, hl, treeHeight_two_pow, convertIndexToLastLevel_eq]
    rw [show k + 1 + 1 - 1 = k + 1 by omega, parent_levelIndex]
    simp only [unwrapOption, Except.ok_bind, authPathLoop_eq hn le_rfl hp le_rfl [],
      getLeafSiblingHash_eq hl hi, List.nil_append, List.reverse_reverse, Except.pure_eq_ok]
    rfl
  · rw [hk, Nat.add_sub_cancel] at hd
    rw [Path.siblingAt, List.getD_eq_getElem?_getD, List.getElem?_map, List.getElem?_range (by omega),
      Option.map_some, Option.getD_some, show d - 1 + 1 = d by omega, pathSibling_eq hk, anc_half i hd]

/-- A generated proof recomputes the root of the tree with the leaf. -/
theorem finalNode_of_generateProof {t t' : MerkleTree P} (ht : t.Valid) {i : Nat}
    (hi : i < t.leafNodes.length) {proof : Path P} (hproof : t.generateProof i = .ok proof)
    {leaf : P.Leaf} {x : P.LeafDigest} (hx : P.leafHashEvaluate t.leafHashParam leaf = .ok x)
    (hr : t.rebuilt i x = .ok t') :
    proof.finalNode t.leafHashParam t.twoToOneHashParam leaf = .ok (t'.nodeAt 0 0) := by
  obtain ⟨proof', hproof', hindex, hlen, hleaf, hsib⟩ := generateProof_eq ht hi
  obtain rfl := Except.ok.inj (hproof.symm.trans hproof')
  obtain ⟨ys, hys, hroot⟩ := pathNodes_of_rebuilt ht hi hr
  obtain ⟨run, hrun, rfl⟩ := pathNodes_eq_ok_iff_run.mp hys
  refine Path.finalNode_eq_ok.mpr ⟨x, hx, run, ?_, ?_⟩
  · rw [hlen, hleaf, hindex]
    exact hrun.congr hsib
  · rw [List.reverse_reverse, List.getElem?_map, List.getElem?_range (Nat.succ_pos _), Option.map_some] at hroot
    exact Option.some.inj hroot

/-- A proof generated by any tree a caller can hold accepts a leaf for the root of
the tree updated with this leaf, and for no other root: what `check_update`
decides. So it accepts the current leaf for the current root. -/
theorem generateProof_verify_iff {t : MerkleTree P} (ht : t.Reachable) {i : Nat}
    (hi : i < t.leafNodes.length) (hs : P.HashesSucceed t.leafHashParam t.twoToOneHashParam) :
    ∃ proof, t.generateProof i = .ok proof ∧
      (∀ leaf R, (t.update i leaf).2 = .ok () ∧
        ∃ accepted, proof.verify t.leafHashParam t.twoToOneHashParam R leaf = .ok accepted ∧
          (accepted = true ↔ (t.update i leaf).1.root = .ok R) ∧
          (t.checkUpdate i leaf R).2 = .ok accepted) ∧
      ∀ leaf R, P.leafHashEvaluate t.leafHashParam leaf = .ok (t.leafAt i) → t.root = .ok R →
        proof.verify t.leafHashParam t.twoToOneHashParam R leaf = .ok true := by
  have ht := ht.valid
  obtain ⟨proof, hproof, -⟩ := generateProof_eq ht hi
  refine ⟨proof, hproof, fun leaf R => ?_, fun leaf R hx hR => ?_⟩
  · obtain ⟨x, hx⟩ := hs.leafHash leaf
    obtain ⟨t', hr⟩ := exists_rebuilt ht hs i x
    have hroot := (newWithLeafDigest_eq_ok.mp hr).1.root_eq
    have hfinal := finalNode_of_generateProof ht hi hproof hx hr
    obtain ⟨hupdate, hcheckUpdate⟩ := updates_of_rebuilt ht hi hx hr
    have hcheck : (t.checkUpdate i leaf R).2 = .ok (t'.nodeAt 0 0 == R) := by
      rw [hcheckUpdate]
      split
      · rename_i heq
        exact congrArg Except.ok (beq_iff_eq.mpr heq).symm
      · rename_i hne
        exact congrArg Except.ok (beq_eq_false_iff_ne.mpr hne).symm
    refine ⟨by rw [hupdate], _, Path.verify_eq_ok.mpr ⟨_, hfinal, rfl⟩, ?_, hcheck⟩
    rw [hupdate, hroot, beq_iff_eq, Except.ok.injEq]
  · have hfinal := finalNode_of_generateProof ht hi hproof hx (rebuilt_self ht hi)
    rw [ht.root_eq, Except.ok.injEq] at hR
    exact Path.verify_eq_ok.mpr ⟨_, hfinal, beq_iff_eq.mpr hR⟩

theorem generateProof_verify_iff_free :
    ∃ proof, freeTree.generateProof 2 = .ok proof ∧
      (∀ leaf R, (freeTree.update 2 leaf).2 = .ok () ∧
        ∃ accepted, proof.verify () () R leaf = .ok accepted ∧
          (accepted = true ↔ (freeTree.update 2 leaf).1.root = .ok R) ∧
          (freeTree.checkUpdate 2 leaf R).2 = .ok accepted) ∧
      ∀ leaf R, freeConfig.leafHashEvaluate () leaf = .ok (freeTree.leafAt 2) → freeTree.root = .ok R →
        proof.verify () () R leaf = .ok true :=
  generateProof_verify_iff freeTree_reachable (by decide) freeConfig_hashesSucceed

end MerkleTree

/-! ## Position binding -/

namespace Path

/-- A position of the tree on the path at which the path and the tree hash
distinct children to the same digest. -/
def Collides (self : Path P) (t : MerkleTree P) (leaf : P.Leaf) : Prop :=
  ∃ x run, P.leafHashEvaluate t.leafHashParam leaf = .ok x ∧
    PathRun (P.hashing t.twoToOneHashParam) self.siblingAt self.authPath.length self.leafSiblingHash
      self.leafIndex x run ∧
    let i := self.leafIndex % 2 ^ (self.authPath.length + 1)
    Opening.Collides (P.hashing t.twoToOneHashParam) self.authPath.length
      (OnPath (self.authPath.length + 1) [i]) (pairAt i x self.leafSiblingHash)
      (fun d => pairAt (anc (self.authPath.length + 1) i d) (run d) (self.siblingAt d))
      t.leafAt t.nodeAt

theorem Collides.collision {self : Path P} {t : MerkleTree P} {leaf : P.Leaf}
    (h : self.Collides t leaf) : (P.hashing t.twoToOneHashParam).Collision := by
  obtain ⟨x, run, -, -, h⟩ := h
  exact h.collision

/-- A path accepted for the root of a tree opens the tree's leaf at the low bits
of its index. -/
theorem verify_sound {self : Path P} {t : MerkleTree P} (ht : t.Valid)
    (hlen : self.authPath.length = t.height - 2) {R : P.InnerDigest} (hR : t.root = .ok R) {leaf : P.Leaf}
    (hv : self.verify t.leafHashParam t.twoToOneHashParam R leaf = .ok true) :
    P.leafHashEvaluate t.leafHashParam leaf = .ok (t.leafAt (self.leafIndex % 2 ^ (t.height - 1))) ∨
      self.Collides t leaf := by
  obtain ⟨k, hk, -, -, htree⟩ := ht.depth
  rw [hk, Nat.add_sub_cancel] at hlen
  obtain ⟨n, hn, hnR⟩ := verify_eq_ok.mp hv
  obtain ⟨x, hx, run, hrun, rfl⟩ := finalNode_eq_ok.mp hn
  rw [beq_iff_eq] at hnR
  rw [ht.root_eq, Except.ok.injEq, ← hnR] at hR
  have hlt : self.leafIndex % 2 ^ (k + 1) < 2 ^ (k + 1) := Nat.mod_lt _ (Nat.two_pow_pos _)
  have hopen := hlen ▸ (pathRun_mod.mpr hrun).opening
  obtain ⟨-, hleaf⟩ | hc := hopen.sound htree (fun d hd p h => h.parent (by omega))
    (by rw [HashTree.anc_zero hlt, hR]; exact if_pos rfl)
  · have hi := hleaf _ hlt (onPath_leaf.mpr (List.mem_singleton.mpr rfl))
    rw [pairAt, if_pos rfl, Option.some.injEq] at hi
    exact .inl (by rw [hx, hi, hk]; rfl)
  · exact .inr ⟨x, run, hx, hrun, by rw [hlen]; exact hc⟩

/-- What an accepted path says: its leaf is in the tree, at its index. -/
def OpensLeaf (P : Config) (leafHashParam : P.LeafParam) (twoToOneHashParam : P.TwoToOneParam)
    (height leafIndex : Nat) : Prop :=
  ∀ leafDigests t, newWithLeafDigest leafHashParam twoToOneHashParam leafDigests = .ok t →
    t.height = height → ∀ path : Path P, path.authPath.length = height - 2 → path.leafIndex = leafIndex →
    ∀ leaf R, t.root = .ok R → path.verify leafHashParam twoToOneHashParam R leaf = .ok true →
      (leafIndex < 2 ^ (height - 1) ∧ ∃ x, P.leafHashEvaluate leafHashParam leaf = .ok x ∧
        t.leafNodes[leafIndex]? = some x) ∨ path.Collides t leaf

/-- The digests of a path accepted at two indexes. -/
def OpensBoth (P : Config) (leafHashParam : P.LeafParam) (twoToOneHashParam : P.TwoToOneParam)
    (height i j : Nat) : Prop :=
  ∀ leafDigests t, newWithLeafDigest leafHashParam twoToOneHashParam leafDigests = .ok t →
    t.height = height → ∀ path : Path P, path.authPath.length = height - 2 →
    ∀ leaf R, t.root = .ok R →
      Path.verify { path with leafIndex := i } leafHashParam twoToOneHashParam R leaf = .ok true →
      Path.verify { path with leafIndex := j } leafHashParam twoToOneHashParam R leaf = .ok true →
      (∃ x, t.leafNodes[i]? = some x ∧ t.leafNodes[j]? = some x) ∨
        Collides { path with leafIndex := i } t leaf ∨ Collides { path with leafIndex := j } t leaf

theorem opensLeaf_of_lt {leafHashParam : P.LeafParam} {twoToOneHashParam : P.TwoToOneParam}
    {height leafIndex : Nat} (hi : leafIndex < 2 ^ (height - 1)) :
    OpensLeaf P leafHashParam twoToOneHashParam height leafIndex := by
  rintro leafDigests t h rfl path hlen rfl leaf R hR hv
  obtain ⟨ht, rfl, rfl, rfl⟩ := MerkleTree.newWithLeafDigest_eq_ok.mp h
  refine (verify_sound ht hlen hR hv).imp (fun hx => ?_) id
  rw [Nat.mod_eq_of_lt hi] at hx
  exact ⟨hi, _, hx, getElem?_getD (by rw [ht.length_leafNodes]; exact hi)⟩

/-- A path with the digests of the tree's path at the low bits of its index is
accepted, without a collision. -/
theorem verify_of_siblings (self : Path P) {t : MerkleTree P} (ht : t.Valid) {i : Nat}
    (hi : self.leafIndex % 2 ^ (t.height - 1) = i) (hlen : self.authPath.length = t.height - 2)
    (hsib : self.leafSiblingHash = t.leafAt (i ^^^ 1))
    (hs : ∀ d, 0 < d → d ≤ t.height - 2 → self.siblingAt d = t.pathSibling i d) {leaf : P.Leaf}
    (hx : P.leafHashEvaluate t.leafHashParam leaf = .ok (t.leafAt i)) {R : P.InnerDigest}
    (hR : t.root = .ok R) :
    self.verify t.leafHashParam t.twoToOneHashParam R leaf = .ok true ∧ ¬ self.Collides t leaf := by
  obtain ⟨k, hk, -, -, htree⟩ := ht.depth
  rw [MerkleTree.pathSibling_eq hk] at hs
  rw [hk, Nat.add_sub_cancel] at hlen hs
  rw [hk, show k + 2 - 1 = k + 1 by omega] at hi
  have hlt : i < 2 ^ (k + 1) := hi ▸ Nat.mod_lt _ (Nat.two_pow_pos _)
  have hrun := (htree.pathRun hlt).congr hs
  rw [← hsib] at hrun
  constructor
  · rw [← hi, pathRun_mod, hi, ← hlen] at hrun
    refine verify_eq_ok.mpr ⟨_, finalNode_eq_ok.mpr ⟨_, hx, _, hrun, rfl⟩, ?_⟩
    rw [hlen, HashTree.anc_zero hlt, beq_iff_eq]
    exact Except.ok.inj (ht.root_eq.symm.trans hR)
  · rintro ⟨x, run, hx', hrun', hc⟩
    obtain rfl := Except.ok.inj (hx.symm.trans hx')
    rw [← pathRun_mod, hlen, hi, hsib] at hrun'
    simp only [hlen, hi, hsib] at hc
    exact hrun'.not_collides htree hs hc

/-- The path of a tree's leaf is accepted at every index with the same low bits. -/
theorem not_opensLeaf {leafHashParam : P.LeafParam} {twoToOneHashParam : P.TwoToOneParam}
    (hs : P.HashesSucceed leafHashParam twoToOneHashParam) (leaf : P.Leaf) {height leafIndex : Nat}
    (hh : 2 ≤ height) (hi : 2 ^ (height - 1) ≤ leafIndex) :
    ¬ OpensLeaf P leafHashParam twoToOneHashParam height leafIndex := by
  obtain ⟨k, rfl⟩ : ∃ k, height = k + 2 := ⟨height - 2, by omega⟩
  obtain ⟨x, hx⟩ := hs.leafHash leaf
  -- a tree whose leaf digests are all those of `leaf`
  have hl : (List.replicate (2 ^ (k + 1)) x).length = 2 ^ (k + 1) := List.length_replicate
  obtain ⟨t, h, hk⟩ := MerkleTree.exists_newWithLeafDigest hs hl
  obtain ⟨ht, hds, rfl, rfl⟩ := MerkleTree.newWithLeafDigest_eq_ok.mp h
  have hlt : leafIndex % 2 ^ (t.height - 1) < t.leafNodes.length := by
    rw [ht.length_leafNodes]
    exact Nat.mod_lt _ (Nat.two_pow_pos _)
  have hleaf : t.leafAt (leafIndex % 2 ^ (t.height - 1)) = x := by
    have hall : ∀ y ∈ t.leafNodes, y = x := fun y hy => List.eq_of_mem_replicate (hds ▸ hy)
    rw [MerkleTree.leafAt, List.getD_eq_getElem _ _ hlt]
    exact hall _ (List.getElem_mem hlt)
  obtain ⟨proof, -, -, hlen, hsib, hsib'⟩ := MerkleTree.generateProof_eq ht hlt
  obtain ⟨hv, hc⟩ := verify_of_siblings { proof with leafIndex } ht rfl hlen hsib hsib'
    (by rw [hleaf]; exact hx) ht.root_eq
  intro hopens
  obtain ⟨hlow, -⟩ | hcollides := hopens _ t h hk { proof with leafIndex } (by rw [hlen, hk]) rfl leaf _
    ht.root_eq hv
  · exact Nat.not_lt.mpr hi hlow
  · exact hc hcollides

/-- Only the low bits of the index are bound: an accepted path of a tree of a given
height opens the leaf at its index, up to a collision, exactly for the indexes of
that height. Among these no two are accepted for the same digests and leaf
without equal leaf digests, or a collision. -/
theorem positionBinding_iff {leafHashParam : P.LeafParam} {twoToOneHashParam : P.TwoToOneParam}
    (hs : P.HashesSucceed leafHashParam twoToOneHashParam) (leaf : P.Leaf) {height : Nat}
    (hh : 2 ≤ height) (leafIndex : Nat) :
    (OpensLeaf P leafHashParam twoToOneHashParam height leafIndex ↔ leafIndex < 2 ^ (height - 1)) ∧
      ∀ j, leafIndex < 2 ^ (height - 1) → j < 2 ^ (height - 1) →
        OpensBoth P leafHashParam twoToOneHashParam height leafIndex j := by
  refine ⟨⟨fun h => ?_, opensLeaf_of_lt⟩, fun j hi hj => ?_⟩
  · by_contra hi
    exact not_opensLeaf hs leaf hh (Nat.le_of_not_lt hi) h
  · intro leafDigests t h hk path hlen leaf R hR hv hv'
    obtain ⟨-, x, hx, hti⟩ | hc := opensLeaf_of_lt hi leafDigests t h hk
      { path with leafIndex } hlen rfl leaf R hR hv
    · obtain ⟨-, x', hx', htj⟩ | hc := opensLeaf_of_lt hj leafDigests t h hk
        { path with leafIndex := j } hlen rfl leaf R hR hv'
      · obtain rfl := Except.ok.inj (hx.symm.trans hx')
        exact .inl ⟨x, hti, htj⟩
      · exact .inr (.inr hc)
    · exact .inr (.inl hc)

/-- An index of the tree of four leaves, and the first that is not one. -/
theorem positionBinding_iff_free :
    ((OpensLeaf freeConfig () () 3 1 ↔ 1 < 2 ^ (3 - 1)) ∧ OpensBoth freeConfig () () 3 1 2) ∧
      (OpensLeaf freeConfig () () 3 4 ↔ 4 < 2 ^ (3 - 1)) := by
  have hin := positionBinding_iff freeConfig_hashesSucceed 0 (show 2 ≤ 3 by decide) 1
  have hout := positionBinding_iff freeConfig_hashesSucceed 0 (show 2 ≤ 3 by decide) 4
  exact ⟨⟨hin.1, hin.2 2 (by decide) (by decide)⟩, hout.1⟩

/-- The path of leaf 0 is accepted at index 4 of the tree of four leaves. -/
theorem verify_not_positionBinding :
    let path : Path freeConfig := ⟨.leaf 1, [.node (.leaf 2) (.leaf 3)], 4⟩
    newWithLeafDigest () () freeTree.leafNodes = .ok freeTree ∧ path.authPath.length = freeTree.height - 2 ∧
      (∃ R, freeTree.root = .ok R ∧ path.verify () () R 0 = .ok true) ∧
      ¬ path.leafIndex < 2 ^ (freeTree.height - 1) ∧ ¬ (freeConfig.hashing ()).Collision :=
  ⟨rfl, rfl, ⟨_, rfl, by decide⟩, by decide, freeConfig_not_collision⟩

end Path

end CryptoPrimitives.Merkle
