import CryptoPrimitives.Framework.RootBinding
import CryptoPrimitives.MerkleTree.Path

/-!
# Roots and proofs over the life of a tree

* `root_binds`: two trees with the same parameters and the same root are the same, or they exhibit a collision.
* `Path.eq_generateProof_or_collides`: a path accepted for the root of a tree is the proof that the tree generates.
* `agreesOff_runCalls`: calls change the digests at and above the leaves that they write, and no other
  (`agreesOff_of_rebuilt` for one of them).
* `generateProof_runCalls`: so a proof changes only where its path parts from that of a written leaf, and a proof
  from before the calls is accepted after them exactly when it has not changed.
-/

namespace CryptoPrimitives.Merkle

open HashTree (IsTree PathRun OnPath Opening parting sibling_eq_anc_iff onPath_leaf anc_lt lt_of_anc_lt xor_one_lt
  xor_one_ne)

variable {P : Config}

/-! ## The root -/

namespace MerkleTree

/-- A position at which two trees hash distinct children to the same digest. -/
def Conflict (t t' : MerkleTree P) : Prop :=
  IsTree.Conflict (P.hashing t.twoToOneHashParam) (t.height - 2) t.leafAt t'.leafAt t.nodeAt t'.nodeAt

theorem Conflict.collision {t t' : MerkleTree P} (h : t.Conflict t') : (P.hashing t.twoToOneHashParam).Collision :=
  Opening.Collides.collision h

/-- Digests with the same entries. -/
theorem ext_getD {α : Type} [Inhabited α] {xs ys : List α} (hl : xs.length = ys.length)
    (h : ∀ p < xs.length, xs.getD p default = ys.getD p default) : xs = ys := by
  refine List.ext_getElem hl fun p hp hp' => ?_
  rw [← List.getD_eq_getElem _ default hp, ← List.getD_eq_getElem _ default hp']
  exact h p hp

theorem eq_or_conflict {t t' : MerkleTree P} (ht : t.Valid) (ht' : t'.Valid) (hleaf : t.leafHashParam = t'.leafHashParam)
    (htwo : t.twoToOneHashParam = t'.twoToOneHashParam) (hlen : t.leafNodes.length = t'.leafNodes.length)
    (hroot : t.root = t'.root) : t = t' ∨ t.Conflict t' := by
  obtain ⟨k, hk, hl, hn, htree⟩ := ht.depth
  obtain ⟨k', hk', hl', hn', htree'⟩ := ht'.depth
  obtain rfl : k = k' := by
    have := Nat.pow_right_injective (le_refl 2) (hl.symm.trans (hlen.trans hl'))
    omega
  rw [← htwo] at htree'
  rw [ht.root_eq, ht'.root_eq, Except.ok.injEq] at hroot
  rw [Conflict, hk, Nat.add_sub_cancel]
  refine (htree.eq_or_conflict htree' hroot).imp_left fun ⟨hleaves, hnodes⟩ => ?_
  have hleafNodes : t.leafNodes = t'.leafNodes := ext_getD hlen fun p hp => hleaves p (by rwa [← hl])
  have hnonLeafNodes : t.nonLeafNodes = t'.nonLeafNodes := nodes_ext hn hn' hnodes
  obtain ⟨nonLeafNodes, leafNodes, two, leaf, height⟩ := t
  obtain ⟨nonLeafNodes', leafNodes', two', leaf', height'⟩ := t'
  simp only at hleafNodes hnonLeafNodes hleaf htwo hk hk'
  rw [hleafNodes, hnonLeafNodes, hleaf, htwo, hk, hk']

/-- Trees that a caller can hold, with the same parameters and as many leaves, have one root only if they are the
same tree, or collide at a position. -/
theorem root_binds {t t' : MerkleTree P} (ht : t.Reachable) (ht' : t'.Reachable)
    (hleaf : t.leafHashParam = t'.leafHashParam) (htwo : t.twoToOneHashParam = t'.twoToOneHashParam)
    (hlen : t.leafNodes.length = t'.leafNodes.length) (hroot : t.root = t'.root) : t = t' ∨ t.Conflict t' :=
  eq_or_conflict ht.valid ht'.valid hleaf htwo hlen hroot

/-- Trees over the free hash do not collide. -/
theorem root_binds_free : freeTree = (freeTree.update 1 1).1 := by
  have hupdated := freeTree_reachable.updated (.update 1 (1 : freeConfig.Leaf))
  refine (root_binds freeTree_reachable hupdated rfl rfl rfl (by decide)).resolve_right fun h => ?_
  exact freeConfig_not_collision h.collision

end MerkleTree

/-! ## Proofs -/

namespace Path

open MerkleTree

/-- Paths are equal when their digests and indexes are. -/
theorem eq_of_digests {self path : Path P} (hindex : self.leafIndex = path.leafIndex)
    (hsib : self.leafSiblingHash = path.leafSiblingHash) (hlen : self.authPath.length = path.authPath.length)
    (h : ∀ d, 0 < d → d ≤ self.authPath.length → self.siblingAt d = path.siblingAt d) : self = path := by
  have hauth : self.authPath = path.authPath := ext_getD hlen fun d hd => h (d + 1) (Nat.succ_pos d) hd
  obtain ⟨leafSiblingHash, authPath, leafIndex⟩ := self
  obtain ⟨leafSiblingHash', authPath', leafIndex'⟩ := path
  simp only at hindex hsib hauth
  rw [hindex, hsib, hauth]

/-- A path with the siblings of the tree is the generated one. -/
theorem eq_generateProof {self : Path P} {t : MerkleTree P} (ht : t.Valid) (hlen : self.authPath.length = t.height - 2)
    (hi : self.leafIndex < t.leafNodes.length) (hsib : self.leafSiblingHash = t.leafAt (self.leafIndex ^^^ 1))
    (h : ∀ d, 0 < d → d ≤ t.height - 2 → self.siblingAt d = t.pathSibling self.leafIndex d) :
    t.generateProof self.leafIndex = .ok self := by
  obtain ⟨proof, hproof, hindex', hlen', hsib', h'⟩ := generateProof_eq ht hi
  rw [hproof, eq_of_digests hindex' (hsib'.trans hsib.symm) (hlen'.trans hlen.symm) fun d hd0 hd => by
    rw [hlen'] at hd
    rw [h' d hd0 hd, h d hd0 hd]]

/-- A path accepted for the root of a tree is the proof that the tree generates at its index, and its leaf is
there, or it exhibits a collision. -/
theorem eq_generateProof_or_collides {self : Path P} {t : MerkleTree P} (ht : t.Valid)
    (hlen : self.authPath.length = t.height - 2) (hi : self.leafIndex < t.leafNodes.length) {R : P.InnerDigest}
    (hR : t.root = .ok R) {leaf : P.Leaf}
    (hv : self.verify t.leafHashParam t.twoToOneHashParam R leaf = .ok true) :
    (t.generateProof self.leafIndex = .ok self ∧
      P.leafHashEvaluate t.leafHashParam leaf = .ok (t.leafAt self.leafIndex)) ∨ self.Collides t leaf := by
  obtain ⟨k, hk, hl, -, htree⟩ := ht.depth
  have hlen' : self.authPath.length = k := by omega
  have hi' : self.leafIndex < 2 ^ (k + 1) := by rwa [← hl]
  obtain ⟨n, hn, hnR⟩ := verify_eq_ok.mp hv
  obtain ⟨x, hx, run, hrun, rfl⟩ := finalNode_eq_ok.mp hn
  have hroot : run 0 = t.nodeAt 0 0 := by
    rw [beq_iff_eq] at hnR
    rw [hnR]
    exact Except.ok.inj (hR.symm.trans ht.root_eq)
  obtain ⟨hleaf, hsib, h⟩ | hc := PathRun.eq_or_collides htree (hlen' ▸ hrun) hi' hroot
  · refine .inl ⟨eq_generateProof ht hlen hi hsib fun d hd0 hd => ?_, by rw [hx, hleaf]⟩
    rw [pathSibling_eq hk]
    exact h d hd0 (by omega)
  · refine .inr ⟨x, run, hx, hrun, ?_⟩
    simp only [hlen', Nat.mod_eq_of_lt hi']
    exact hc

theorem verify_of_generateProof {self : Path P} {t : MerkleTree P} (ht : t.Valid) {i : Nat}
    (hi : i < t.leafNodes.length) (hproof : t.generateProof i = .ok self) {R : P.InnerDigest} (hR : t.root = .ok R)
    {leaf : P.Leaf} (hx : P.leafHashEvaluate t.leafHashParam leaf = .ok (t.leafAt i)) :
    self.verify t.leafHashParam t.twoToOneHashParam R leaf = .ok true := by
  have hfinal := finalNode_of_generateProof ht hi hproof hx (rebuilt_self ht hi)
  rw [ht.root_eq, Except.ok.injEq] at hR
  exact verify_eq_ok.mpr ⟨_, hfinal, beq_iff_eq.mpr hR⟩

/-- For every tree that a caller can hold: a path of its height, at an index of the tree, is accepted with a leaf
exactly when it is the proof that the tree generates there and the leaf is at that index, unless path and tree
collide. -/
theorem verify_iff_generateProof {t : MerkleTree P} (ht : t.Reachable) {self : Path P}
    (hlen : self.authPath.length = t.height - 2) (hi : self.leafIndex < t.leafNodes.length) {R : P.InnerDigest}
    (hR : t.root = .ok R) {leaf : P.Leaf} (hc : ¬ self.Collides t leaf) :
    self.verify t.leafHashParam t.twoToOneHashParam R leaf = .ok true ↔
      t.generateProof self.leafIndex = .ok self ∧
        P.leafHashEvaluate t.leafHashParam leaf = .ok (t.leafAt self.leafIndex) := by
  refine ⟨fun hv => ?_, fun ⟨hproof, hx⟩ => verify_of_generateProof ht.valid hi hproof hR hx⟩
  exact (eq_generateProof_or_collides ht.valid hlen hi hR hv).resolve_right hc

/-- The proof of leaf 2, with any leaf, at the root of the tree of four leaves. -/
theorem verify_iff_generateProof_free :
    let path : Path freeConfig := ⟨.leaf 3, [.node (.leaf 0) (.leaf 1)], 2⟩
    ∃ R, freeTree.root = .ok R ∧ ∀ leaf, path.verify () () R leaf = .ok true ↔
      freeTree.generateProof 2 = .ok path ∧ freeConfig.leafHashEvaluate () leaf = .ok (freeTree.leafAt 2) :=
  ⟨_, rfl, fun _ => verify_iff_generateProof freeTree_reachable rfl (by decide) rfl
    fun h => freeConfig_not_collision h.collision⟩

end Path

/-! ## Proofs after calls -/

namespace MerkleTree

/-- `t'` has the shape and the parameters of `t`, and its digests at every position that is not above one of the
leaves `I`. -/
structure AgreesOff (I : List Nat) (t t' : MerkleTree P) : Prop where
  height_eq : t'.height = t.height
  leafHashParam_eq : t'.leafHashParam = t.leafHashParam
  twoToOneHashParam_eq : t'.twoToOneHashParam = t.twoToOneHashParam
  length_eq : t'.leafNodes.length = t.leafNodes.length
  leafAt_eq : ∀ p ∉ I, t'.leafAt p = t.leafAt p
  nodeAt_eq : ∀ d ≤ t.height - 2, ∀ p < 2 ^ d, ¬ OnPath (t.height - 1) I d p → t'.nodeAt d p = t.nodeAt d p

theorem AgreesOff.refl (t : MerkleTree P) : AgreesOff [] t t :=
  ⟨rfl, rfl, rfl, rfl, fun _ _ => rfl, fun _ _ _ _ _ => rfl⟩

theorem AgreesOff.trans {I J : List Nat} {t t' t'' : MerkleTree P} (h : AgreesOff I t t') (h' : AgreesOff J t' t'') :
    AgreesOff (I ++ J) t t'' where
  height_eq := h'.height_eq.trans h.height_eq
  leafHashParam_eq := h'.leafHashParam_eq.trans h.leafHashParam_eq
  twoToOneHashParam_eq := h'.twoToOneHashParam_eq.trans h.twoToOneHashParam_eq
  length_eq := h'.length_eq.trans h.length_eq
  leafAt_eq p hp := by
    rw [List.mem_append, not_or] at hp
    rw [h'.leafAt_eq p hp.2, h.leafAt_eq p hp.1]
  nodeAt_eq d hd p hp hoff := by
    have hleft : ¬ OnPath (t.height - 1) I d p := fun ⟨i, hi, heq⟩ => hoff ⟨i, List.mem_append_left J hi, heq⟩
    have hright : ¬ OnPath (t'.height - 1) J d p := fun ⟨i, hi, heq⟩ =>
      hoff ⟨i, List.mem_append_right I hi, by rw [← heq, h.height_eq]⟩
    rw [h'.nodeAt_eq d (by rwa [h.height_eq]) p hp hright, h.nodeAt_eq d hd p hp hleft]

/-- The tree with one leaf digest replaced differs on the path to it only. -/
theorem agreesOff_of_rebuilt {t t' : MerkleTree P} (ht : t.Valid) {i : Nat} {x : P.LeafDigest}
    (h : t.rebuilt i x = .ok t') : AgreesOff [i] t t' := by
  obtain ⟨k, hk, hl, -, htree⟩ := ht.depth
  obtain ⟨ht', hleaf', hleafParam, hparam⟩ := newWithLeafDigest_eq_ok.mp h
  have hl' : t'.leafNodes.length = 2 ^ (k + 1) := by rw [hleaf', List.length_set, hl]
  have htree' := ht'.isTree_of_length hl'
  rw [hparam] at htree'
  have hleaf : ∀ p ∉ [i], t'.leafAt p = t.leafAt p := fun p hp => by
    have hpi : i ≠ p := fun heq => hp (List.mem_singleton.mpr heq.symm)
    rw [leafAt, hleaf', List.getD_eq_getElem?_getD, List.getElem?_set_ne hpi, leafAt, List.getD_eq_getElem?_getD]
  refine ⟨?_, hleafParam, hparam, hl'.trans hl.symm, hleaf, ?_⟩
  · have hpow := Nat.pow_right_injective (le_refl 2) (ht'.length_leafNodes.symm.trans hl')
    have := ht'.two_le_height
    omega
  · rw [hk]
    exact htree.congr_off htree' (fun d hd p h => h.parent (by omega)) fun p _ hp => hleaf p (mt onPath_leaf.mpr hp)

/-- The leaves that calls write. -/
def writtenLeaves (t : MerkleTree P) (calls : List (Call P)) : List Nat := (t.acceptedWrites calls).map Prod.fst

/-- Calls keep the invariant, and change digests only at and above the leaves that they write. -/
theorem agreesOff_runCalls {t : MerkleTree P} (ht : t.Valid) {calls : List (Call P)}
    (hi : ∀ call ∈ calls, call.leafIndex < t.leafNodes.length) :
    (t.runCalls calls).Valid ∧ AgreesOff (t.writtenLeaves calls) t (t.runCalls calls) := by
  induction calls generalizing t with
  | nil => exact ⟨ht, .refl t⟩
  | cons call calls ih =>
    obtain ⟨hcall, hcalls⟩ := List.forall_mem_cons.mp hi
    obtain ⟨x, t', hr, hrun, hw⟩ | ⟨hrun, hw⟩ := call.run_cases ht hcall
    · have hstep := agreesOff_of_rebuilt ht hr
      obtain ⟨hvalid, hrest⟩ := ih (newWithLeafDigest_eq_ok.mp hr).1 (by rwa [hstep.length_eq])
      simp only [writtenLeaves, acceptedWrites, runCalls, hrun, hw, Option.toList_some, List.map_append]
      exact ⟨hvalid, hstep.trans hrest⟩
    · simp only [writtenLeaves, acceptedWrites, runCalls, hrun, hw, Option.toList_none, List.nil_append]
      exact ih ht hcalls

/-- For every run of calls: the proof of leaf `i` keeps its digest at each depth at which no written leaf parts from
`i`, and its leaf sibling unless that leaf is written, so writes to `i` itself do not change it. The proof from before
the calls is accepted after them, with the leaf that is then at `i`, exactly when it is the proof that the tree then
generates, unless it collides with the tree. -/
theorem generateProof_runCalls {t : MerkleTree P} (ht : t.Reachable) {calls : List (Call P)}
    (hcalls : ∀ call ∈ calls, call.leafIndex < t.leafNodes.length) {i : Nat} (hi : i < t.leafNodes.length) :
    ∃ proof proof', t.generateProof i = .ok proof ∧ (t.runCalls calls).generateProof i = .ok proof' ∧
      (∀ d, 0 < d → d ≤ t.height - 2 → (∀ j ∈ t.writtenLeaves calls, j ≠ i → parting (t.height - 1) i j ≠ d) →
        proof'.siblingAt d = proof.siblingAt d) ∧
      (i ^^^ 1 ∉ t.writtenLeaves calls → proof'.leafSiblingHash = proof.leafSiblingHash) ∧
      ((∀ j ∈ t.writtenLeaves calls, j = i) → proof' = proof) ∧
      ∀ leaf R, (t.runCalls calls).root = .ok R →
        P.leafHashEvaluate t.leafHashParam leaf = .ok ((t.runCalls calls).leafAt i) →
        ¬ proof.Collides (t.runCalls calls) leaf →
        (proof.verify t.leafHashParam t.twoToOneHashParam R leaf = .ok true ↔ proof' = proof) := by
  obtain ⟨hvalid, hagrees⟩ := agreesOff_runCalls ht.valid hcalls
  have hi' : i < (t.runCalls calls).leafNodes.length := by rwa [hagrees.length_eq]
  obtain ⟨proof, hproof, hindex, hlen, hsib, hs⟩ := generateProof_eq ht.valid hi
  obtain ⟨proof', hproof', hindex', hlen', hsib', hs'⟩ := generateProof_eq hvalid hi'
  have hlength : proof'.authPath.length = proof.authPath.length := by rw [hlen', hlen, hagrees.height_eq]
  have hlt : i < 2 ^ (t.height - 1) := by rwa [← ht.valid.length_leafNodes]
  have hdigest : ∀ d, 0 < d → d ≤ t.height - 2 →
      (∀ j ∈ t.writtenLeaves calls, j ≠ i → parting (t.height - 1) i j ≠ d) →
      proof'.siblingAt d = proof.siblingAt d := fun d hd0 hd hpart => by
    obtain ⟨d, rfl⟩ : ∃ e, d = e + 1 := ⟨d - 1, by omega⟩
    have hsibling := xor_one_lt (anc_lt hlt (show d + 1 ≤ t.height - 1 by omega))
    rw [hs (d + 1) hd0 hd, hs' (d + 1) hd0 (by rwa [hagrees.height_eq]), pathSibling, pathSibling, hagrees.height_eq]
    refine hagrees.nodeAt_eq (d + 1) hd _ hsibling fun ⟨j, hj, hanc⟩ => ?_
    by_cases hji : j = i
    · subst hji
      exact xor_one_ne _ hanc.symm
    · have hjlt : j < 2 ^ (t.height - 1) := lt_of_anc_lt (by omega) (hanc ▸ hsibling)
      exact hpart j hj hji ((sibling_eq_anc_iff hlt hjlt (Ne.symm hji) (by omega)).mp hanc.symm).symm
  have hleafSibling : i ^^^ 1 ∉ t.writtenLeaves calls → proof'.leafSiblingHash = proof.leafSiblingHash := fun h => by
    rw [hsib', hsib, hagrees.leafAt_eq _ h]
  refine ⟨proof, proof', hproof, hproof', hdigest, hleafSibling, fun hself => ?_, fun leaf R hR hx hc => ?_⟩
  · refine Path.eq_of_digests (hindex'.trans hindex.symm) (hleafSibling fun h => xor_one_ne i (hself _ h)) hlength
      fun d hd0 hd => hdigest d hd0 ?_ fun j hj hji => absurd (hself j hj) hji
    rwa [hlen', hagrees.height_eq] at hd
  · rw [← hagrees.leafHashParam_eq] at hx ⊢
    rw [← hagrees.twoToOneHashParam_eq]
    constructor
    · intro hv
      obtain ⟨hsame, -⟩ := (Path.eq_generateProof_or_collides hvalid (by rw [hlen, hagrees.height_eq])
        (by rwa [hindex]) hR hv).resolve_right hc
      rw [hindex, hproof'] at hsame
      exact Except.ok.inj hsame
    · rintro rfl
      exact Path.verify_of_generateProof hvalid hi' hproof' hR hx

/-- The leaf 0 is written, then 3 is refused. The leaf sibling of 2 stays, and the node above 0 and 1 does not. -/
theorem generateProof_runCalls_free :
    let calls : List (Call freeConfig) := [.update 0 7, .checkUpdate 3 5 (.leaf 0)]
    ∃ proof proof', freeTree.generateProof 2 = .ok proof ∧ (freeTree.runCalls calls).generateProof 2 = .ok proof' ∧
      proof'.leafSiblingHash = proof.leafSiblingHash ∧ proof' ≠ proof ∧
      ∀ R, (freeTree.runCalls calls).root = .ok R → proof.verify () () R 2 ≠ .ok true := by
  intro calls
  have hcalls : ∀ call ∈ calls, call.leafIndex < freeTree.leafNodes.length := by decide
  have hi : 2 < freeTree.leafNodes.length := by decide
  obtain ⟨proof, proof', hproof, hproof', -, hsib, -, hstale⟩ := generateProof_runCalls freeTree_reachable hcalls hi
  have hauth {o : Outcome (Path freeConfig)} {path : Path freeConfig} (h : o = .ok path) :
      o.toOption.map Path.authPath = some path.authPath := by
    rw [h]
    rfl
  have hne : proof' ≠ proof := by
    rintro rfl
    exact absurd ((hauth hproof).trans (hauth hproof').symm) (by decide)
  refine ⟨proof, proof', hproof, hproof', hsib (by decide), hne, fun R hR hv => hne ?_⟩
  exact (hstale 2 R hR rfl fun h => freeConfig_not_collision h.collision).mp hv

end MerkleTree

end CryptoPrimitives.Merkle
