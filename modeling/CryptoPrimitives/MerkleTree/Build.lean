import CryptoPrimitives.MerkleTree.Tree

/-!
# What `new_with_leaf_digest` builds

`Valid t`: the lengths of the two arrays and the hash of every node. The tree
`new_with_leaf_digest` builds is the only valid one with its leaf digests and
parameters (`newWithLeafDigest_eq_ok`): each layer is filled from the layer
below (`hashBottomLayer_eq_ok`, `hashLayer_eq_ok`), and a layer filled later
keeps those below it (`hashLayers_eq_ok`).
-/

namespace CryptoPrimitives.Merkle

open Except (bind_eq_ok mapM_eq_ok pure_eq_ok)
open HashTree (IsTree)

variable {P : Config}

/-- The entry of level order at a depth and position. -/
def nodesAt {α : Type} [Inhabited α] (nodes : List α) (d p : Nat) : α :=
  nodes.getD (levelIndex d p) default

theorem getElem?_nodesAt {α : Type} [Inhabited α] {nodes : List α} {k d p : Nat}
    (hl : nodes.length = 2 ^ (k + 1) - 1) (hd : d ≤ k) (hp : p < 2 ^ d) :
    nodes[levelIndex d p]? = some (nodesAt nodes d p) := by
  have h := levelIndex_lt hd hp
  rw [nodesAt, List.getD_eq_getElem?_getD, List.getElem?_eq_getElem (by omega), Option.getD_some]

theorem index_nodesAt {α : Type} [Inhabited α] {nodes : List α} {k d p : Nat}
    (hl : nodes.length = 2 ^ (k + 1) - 1) (hd : d ≤ k) (hp : p < 2 ^ d) :
    (index nodes (levelIndex d p) : Outcome α) = .ok (nodesAt nodes d p) :=
  index_eq_ok.mpr (getElem?_nodesAt hl hd hp)

/-- Arrays in level order with the same entry at every depth and position are
the same. -/
theorem nodes_ext {α : Type} [Inhabited α] {xs ys : List α} {k : Nat}
    (hx : xs.length = 2 ^ (k + 1) - 1) (hy : ys.length = 2 ^ (k + 1) - 1)
    (h : ∀ d ≤ k, ∀ p < 2 ^ d, nodesAt xs d p = nodesAt ys d p) : xs = ys := by
  refine List.ext_getElem? fun i => ?_
  rcases Nat.lt_or_ge i (2 ^ (k + 1) - 1) with hi | hi
  · obtain ⟨d, hd, p, hp, rfl⟩ := exists_levelIndex hi
    rw [getElem?_nodesAt hx hd hp, getElem?_nodesAt hy hd hp, h d hd p hp]
  · rw [List.getElem?_eq_none (by omega), List.getElem?_eq_none (by omega)]

/-- An array with given entries. -/
theorem exists_nodesAt {α : Type} [Inhabited α] (k : Nat) (node : Nat → Nat → α) :
    ∃ nodes : List α, nodes.length = 2 ^ (k + 1) - 1 ∧
      ∀ d ≤ k, ∀ p < 2 ^ d, nodesAt nodes d p = node d p := by
  refine ⟨(List.range (2 ^ (k + 1) - 1)).map fun i => node (i + 1).log2 (i + 1 - 2 ^ (i + 1).log2),
    by simp, fun d hd p hp => ?_⟩
  have hi := levelIndex_lt hd hp
  have hsucc : levelIndex d p + 1 = 2 ^ d + p := by
    have := Nat.two_pow_pos d
    rw [levelIndex_eq]; omega
  have hlog : (2 ^ d + p).log2 = d :=
    (Nat.log2_eq_iff (by omega)).mpr ⟨by omega, by rw [pow_succ]; omega⟩
  rw [nodesAt, List.getD_eq_getElem?_getD, List.getElem?_map, List.getElem?_range hi, Option.map_some,
    Option.getD_some, hsucc, hlog, Nat.add_sub_cancel_left]

theorem length_splice {α : Type} (xs ys : List α) (i : Nat) (h : xs.length = ys.length) :
    (xs.take i ++ ys.drop i).length = xs.length := by
  simp only [List.length_append, List.length_take, List.length_drop]; omega

/-- Depths above `d` from one array, the others from another. -/
theorem nodesAt_splice {α : Type} [Inhabited α] {xs ys : List α} {k d : Nat}
    (hx : xs.length = 2 ^ (k + 1) - 1) (hd : d ≤ k) :
    ∀ e ≤ k, ∀ p < 2 ^ e, nodesAt (xs.take (levelIndex d 0) ++ ys.drop (levelIndex d 0)) e p =
      if e < d then nodesAt xs e p else nodesAt ys e p := by
  intro e he p hp
  have hi := levelIndex_lt he hp
  have hs : (xs.take (levelIndex d 0)).length = levelIndex d 0 :=
    List.length_take_of_le (by rw [hx]; exact (levelIndex_lt hd (Nat.two_pow_pos d)).le)
  simp only [nodesAt, List.getD_eq_getElem?_getD]
  split
  · rename_i hlt
    have h := Nat.pow_le_pow_right (n := 2) (by decide) hlt
    have hlt' : levelIndex e p < levelIndex d 0 := by
      rw [pow_succ] at h; rw [levelIndex_eq, levelIndex_eq]; omega
    rw [List.getElem?_append_left (by omega), List.getElem?_take_of_lt hlt']
  · rename_i hge
    have h := Nat.pow_le_pow_right (n := 2) (by decide) (Nat.le_of_not_lt hge)
    have hge' : levelIndex d 0 ≤ levelIndex e p := by rw [levelIndex_eq, levelIndex_eq]; omega
    rw [List.getElem?_append_right (by omega), List.getElem?_drop, hs]
    congr 2; omega

theorem getElem?_getD {α : Type} [Inhabited α] {xs : List α} {i : Nat} (h : i < xs.length) :
    xs[i]? = some (xs.getD i default) := by
  rw [List.getD_eq_getElem?_getD, List.getElem?_eq_getElem h, Option.getD_some]

namespace MerkleTree

/-- The leaf digest at a position. -/
def leafAt (t : MerkleTree P) (p : Nat) : P.LeafDigest := t.leafNodes.getD p default

/-- The node at a depth and position. -/
def nodeAt (t : MerkleTree P) (d p : Nat) : P.InnerDigest := nodesAt t.nonLeafNodes d p

/-- The invariant of every tree the source builds and updates. -/
structure Valid (t : MerkleTree P) : Prop where
  two_le_height : 2 ≤ t.height
  length_leafNodes : t.leafNodes.length = 2 ^ (t.height - 1)
  length_nonLeafNodes : t.nonLeafNodes.length = 2 ^ (t.height - 1) - 1
  isTree : IsTree (P.hashing t.twoToOneHashParam) (t.height - 2) t.leafAt t.nodeAt

/-- The invariant, with the depth of the bottom nodes for the height. -/
theorem Valid.depth {t : MerkleTree P} (ht : t.Valid) :
    ∃ k, t.height = k + 2 ∧ t.leafNodes.length = 2 ^ (k + 1) ∧
      t.nonLeafNodes.length = 2 ^ (k + 1) - 1 ∧
      IsTree (P.hashing t.twoToOneHashParam) k t.leafAt t.nodeAt := by
  obtain ⟨hh, hl, hn, ht⟩ := ht
  obtain ⟨k, hk⟩ : ∃ k, t.height = k + 2 := ⟨t.height - 2, by omega⟩
  rw [hk] at hl hn ht
  exact ⟨k, hk, hl, hn, ht⟩

/-- The number of leaves determines the depth. -/
theorem Valid.isTree_of_length {t : MerkleTree P} (ht : t.Valid) {k : Nat} (hl : t.leafNodes.length = 2 ^ (k + 1)) :
    IsTree (P.hashing t.twoToOneHashParam) k t.leafAt t.nodeAt := by
  obtain ⟨k', -, hl', -, htree⟩ := ht.depth
  obtain rfl : k = k' := by
    have := Nat.pow_right_injective (le_refl 2) (hl.symm.trans hl')
    omega
  exact htree

theorem Valid.root_eq {t : MerkleTree P} (ht : t.Valid) : t.root = .ok (t.nodeAt 0 0) := by
  obtain ⟨k, -, -, hn, -⟩ := ht.depth
  exact index_nodesAt hn (Nat.zero_le k) (p := 0) Nat.one_pos

/-! ## Layers -/

section

variable {α : Type} [Inhabited α]

theorem fillSlice_eq_ok {xs ys : List α} {start upper : Nat} {f : Nat → Outcome α} :
    fillSlice xs start upper f = .ok ys ↔
      (start ≤ upper ∧ upper ≤ xs.length) ∧ ys.length = xs.length ∧
      (∀ i < upper - start, f i = .ok (ys.getD (start + i) default)) ∧
      ∀ j, (j < start ∨ upper ≤ j) → ys.getD j default = xs.getD j default := by
  unfold fillSlice
  split <;> [skip; simp_all]
  rename_i h
  simp only [bind_eq_ok, mapM_eq_ok, pure_eq_ok, Except.ok.injEq, h, and_self, true_and]
  have hstart : (xs.take start).length = start := List.length_take_of_le (by omega)
  constructor
  · rintro ⟨level, hlevel, rfl⟩
    have hl : level.length = upper - start := by rw [← hlevel.length_eq, List.length_range]
    refine ⟨by simp; omega, fun i hi => ?_, fun j hj => ?_⟩
    · have := (List.forall₂_iff_get.mp hlevel).2 i (by simpa using hi) (by omega)
      simp only [List.get_eq_getElem, List.getElem_range] at this
      rw [this, List.append_assoc, List.getD_eq_getElem?_getD, List.getElem?_append_right (by omega),
        List.getElem?_append_left (by omega), hstart, Nat.add_sub_cancel_left,
        List.getElem?_eq_getElem (by omega), Option.getD_some]
    · simp only [List.getD_eq_getElem?_getD, List.append_assoc]
      rcases hj with hj | hj
      · rw [List.getElem?_append_left (by omega), List.getElem?_take_of_lt hj]
      · rw [List.getElem?_append_right (by omega), List.getElem?_append_right (by omega),
          List.getElem?_drop]
        congr 2; omega
  · rintro ⟨hl, hf, hk⟩
    refine ⟨(ys.drop start).take (upper - start), List.forall₂_iff_get.mpr ⟨by simp; omega, ?_⟩, ?_⟩
    · intro i h₁ h₂
      simp only [List.length_range] at h₁
      simp only [List.get_eq_getElem, List.getElem_range, List.getElem_take, List.getElem_drop]
      rw [hf i h₁, List.getD_eq_getElem?_getD, List.getElem?_eq_getElem (by omega), Option.getD_some]
    · refine List.ext_getElem (by simp; omega) fun j h₁ h₂ => ?_
      have hj : ∀ j (h : j < ys.length), (j < start ∨ upper ≤ j) → ys[j] = xs.get ⟨j, hl ▸ h⟩ := by
        intro j h hj
        have := hk j hj
        rwa [List.getD_eq_getElem?_getD, List.getD_eq_getElem?_getD, List.getElem?_eq_getElem h,
          List.getElem?_eq_getElem (hl ▸ h), Option.getD_some, Option.getD_some] at this
      simp only [List.append_assoc, List.getElem_append, List.length_take, List.length_drop,
        List.getElem_take, List.getElem_drop]
      split <;> [exact (hj j h₂ (by omega)).symm; skip]
      split
      · congr 1; omega
      · rw [hj j h₂ (by omega)]
        congr 1; omega

/-- Filling the slice of depth `d` writes that depth and keeps the others. -/
theorem fillLayer_eq_ok {k d : Nat} {nodes nodes' : List α} {f : Nat → Outcome α} (hd : d ≤ k)
    (hn : nodes.length = 2 ^ (k + 1) - 1) :
    fillSlice nodes (levelIndex d 0) (leftChild (levelIndex d 0)) f = .ok nodes' ↔
      nodes'.length = nodes.length ∧ (∀ p < 2 ^ d, f p = .ok (nodesAt nodes' d p)) ∧
      ∀ e ≤ k, e ≠ d → ∀ p < 2 ^ e, nodesAt nodes' e p = nodesAt nodes e p := by
  have hpos := Nat.two_pow_pos d
  have hstart : levelIndex d 0 = 2 ^ d - 1 := by rw [levelIndex_eq]; omega
  have hupper : leftChild (levelIndex d 0) = 2 ^ (d + 1) - 1 := by
    rw [leftChild, hstart, pow_succ]; omega
  have hle : 2 ^ (d + 1) ≤ 2 ^ (k + 1) := Nat.pow_le_pow_right (by decide) (by omega)
  have hsize : 2 ^ (d + 1) - 1 - (2 ^ d - 1) = 2 ^ d := by rw [pow_succ]; omega
  have hd' : levelIndex d 0 ≤ 2 ^ (d + 1) - 1 := by rw [hstart, pow_succ]; omega
  rw [fillSlice_eq_ok, hupper]
  simp only [hstart, hsize, show 2 ^ d - 1 ≤ 2 ^ (d + 1) - 1 by omega, hn,
    show 2 ^ (d + 1) - 1 ≤ 2 ^ (k + 1) - 1 by omega, and_self, true_and]
  refine and_congr_right fun hl => and_congr ?_ ⟨fun h e he hne p hp => ?_, fun h j hj => ?_⟩
  · simp only [nodesAt, levelIndex_eq]
  · refine h _ ?_
    have hpe := Nat.two_pow_pos e
    rw [levelIndex_eq]
    rcases Nat.lt_or_gt_of_ne hne with hlt | hlt
    · have := Nat.pow_le_pow_right (n := 2) (by decide) hlt
      rw [pow_succ] at this; omega
    · have := Nat.pow_le_pow_right (n := 2) (by decide) hlt
      rw [pow_succ] at this ⊢; omega
  · rcases Nat.lt_or_ge j (2 ^ (k + 1) - 1) with hjk | hjk
    · obtain ⟨e, he, p, hp, rfl⟩ := exists_levelIndex hjk
      refine h e he (fun hed => ?_) p hp
      subst hed
      rw [levelIndex_eq, pow_succ] at hj; omega
    · rw [List.getD_eq_default _ _ (by omega), List.getD_eq_default _ _ (by omega)]

end

section

variable {param : P.TwoToOneParam} {leafDigests : List P.LeafDigest}
  {nodes nodes' : List P.InnerDigest} {k : Nat}

theorem leftChild_sub (d i : Nat) :
    leftChild (i + levelIndex d 0) - leftChild (levelIndex d 0) = 2 * i := by
  simp only [leftChild]; omega

theorem rightChild_sub (d i : Nat) :
    rightChild (i + levelIndex d 0) - leftChild (levelIndex d 0) = 2 * i + 1 := by
  simp only [leftChild, rightChild]; omega

theorem hashBottomLayer_eq_ok (hd : leafDigests.length = 2 ^ (k + 1))
    (hn : nodes.length = 2 ^ (k + 1) - 1) :
    hashBottomLayer param leafDigests (levelIndex k 0) nodes = .ok nodes' ↔
      nodes'.length = nodes.length ∧
      (∀ p < 2 ^ k, P.evaluateConverted param (leafDigests.getD (2 * p) default)
        (leafDigests.getD (2 * p + 1) default) = .ok (nodesAt nodes' k p)) ∧
      ∀ e ≤ k, e ≠ k → ∀ p < 2 ^ e, nodesAt nodes' e p = nodesAt nodes e p := by
  rw [hashBottomLayer, fillLayer_eq_ok le_rfl hn]
  refine and_congr_right fun _ => and_congr_left fun _ => forall₂_congr fun p hp => ?_
  have hleft : leafDigests[2 * p]? = some (leafDigests.getD (2 * p) default) :=
    getElem?_getD (by rw [hd]; exact HashTree.double_lt hp)
  have hright : leafDigests[2 * p + 1]? = some (leafDigests.getD (2 * p + 1) default) :=
    getElem?_getD (by rw [hd]; exact HashTree.double_succ_lt hp)
  simp only [leftChild_sub, rightChild_sub, bind_eq_ok, index_eq_ok, propagate_eq_ok, hleft, hright,
    Option.some.injEq, exists_eq_left']

theorem hashLayer_eq_ok {d : Nat} (hd : d < k) (hn : nodes.length = 2 ^ (k + 1) - 1) :
    hashLayer param nodes (levelIndex d 0) = .ok nodes' ↔
      nodes'.length = nodes.length ∧
      (∀ p < 2 ^ d, P.compress param (nodesAt nodes (d + 1) (2 * p)) (nodesAt nodes (d + 1) (2 * p + 1)) =
        .ok (nodesAt nodes' d p)) ∧
      ∀ e ≤ k, e ≠ d → ∀ p < 2 ^ e, nodesAt nodes' e p = nodesAt nodes e p := by
  rw [hashLayer, fillLayer_eq_ok hd.le hn]
  refine and_congr_right fun _ => and_congr_left fun _ => forall₂_congr fun p hp => ?_
  have hchild : ∀ q < 2 ^ (d + 1),
      (nodes.drop (leftChild (levelIndex d 0)))[q]? = some (nodesAt nodes (d + 1) q) := fun q hq => by
    rw [List.getElem?_drop, leftChild_levelIndex, ← getElem?_nodesAt hn hd hq]
    simp only [levelIndex_eq]
    congr 1
  simp only [leftChild_sub, rightChild_sub, bind_eq_ok, index_eq_ok, propagate_eq_ok,
    hchild _ (HashTree.double_lt hp), hchild _ (HashTree.double_succ_lt hp), Option.some.injEq,
    exists_eq_left']

/-- The layers above the bottom one, from depth `d - 1` to the root. -/
theorem hashLayers_eq_ok {d : Nat} (hd : d ≤ k) (hn : nodes.length = 2 ^ (k + 1) - 1) :
    ((List.range d).reverse.map (levelIndex · 0)).foldlM (hashLayer param) nodes = .ok nodes' ↔
      nodes'.length = nodes.length ∧
      (∀ e < d, ∀ p < 2 ^ e, P.compress param (nodesAt nodes' (e + 1) (2 * p))
        (nodesAt nodes' (e + 1) (2 * p + 1)) = .ok (nodesAt nodes' e p)) ∧
      ∀ e ≤ k, d ≤ e → ∀ p < 2 ^ e, nodesAt nodes' e p = nodesAt nodes e p := by
  induction d generalizing nodes with
  | zero =>
    simp only [List.range_zero, List.reverse_nil, List.map_nil, List.foldlM_nil, pure_eq_ok,
      Except.ok.injEq, Nat.not_lt_zero, false_implies, implies_true, true_and, Nat.zero_le, true_implies]
    constructor
    · rintro rfl
      exact ⟨rfl, fun _ _ _ _ => rfl⟩
    · rintro ⟨hl, h⟩
      exact (nodes_ext (by omega) hn h).symm
  | succ d ih =>
    rw [List.range_succ, List.reverse_append, List.reverse_singleton, List.singleton_append,
      List.map_cons, List.foldlM_cons, bind_eq_ok]
    constructor
    · rintro ⟨mid, hmid, h⟩
      obtain ⟨hml, hmf, hmk⟩ := (hashLayer_eq_ok hd hn).mp hmid
      obtain ⟨hl, hf, hk⟩ := (ih (Nat.le_of_succ_le hd) (by omega)).mp h
      refine ⟨by omega, fun e he p hp => ?_, fun e hek hde p hp => ?_⟩
      · rcases Nat.lt_succ_iff_lt_or_eq.mp he with he | rfl
        · exact hf e he p hp
        · rw [hk (e + 1) hd (by omega) _ (HashTree.double_lt hp),
            hk (e + 1) hd (by omega) _ (HashTree.double_succ_lt hp),
            hk e (by omega) le_rfl p hp,
            hmk (e + 1) hd (by omega) _ (HashTree.double_lt hp),
            hmk (e + 1) hd (by omega) _ (HashTree.double_succ_lt hp)]
          exact hmf p hp
      · rw [hk e hek (by omega) p hp, hmk e hek (by omega) p hp]
    · rintro ⟨hl, hf, hk⟩
      have hmk := @nodesAt_splice _ _ nodes nodes' k d hn (Nat.le_of_succ_le hd)
      have hml := length_splice nodes nodes' (levelIndex d 0) hl.symm
      refine ⟨_, (hashLayer_eq_ok hd hn).mpr ⟨hml, fun p hp => ?_, fun e he hne p hp => ?_⟩,
        (ih (Nat.le_of_succ_le hd) (by omega)).mpr ⟨by omega, fun e he => hf e (by omega),
          fun e he hde p hp => ?_⟩⟩
      · rw [hmk d (by omega) p hp, if_neg (Nat.lt_irrefl d), ← hk _ hd le_rfl _ (HashTree.double_lt hp),
          ← hk _ hd le_rfl _ (HashTree.double_succ_lt hp)]
        exact hf d (by omega) p hp
      · rw [hmk e he p hp]
        split
        · rfl
        · exact hk e he (by omega) p hp
      · rw [hmk e he p hp, if_neg (by omega)]

end

/-! ## The tree -/

theorem levelIndices_eq (n d : Nat) :
    levelIndices n (levelIndex d 0) = (List.range n).map fun i => levelIndex (d + i) 0 := by
  induction n generalizing d with
  | zero => rfl
  | succ n ih =>
    rw [levelIndices, leftChild_levelIndex, Nat.mul_zero, ih, List.range_succ_eq_map, List.map_cons,
      List.map_map]
    refine congrArg (_ :: ·) (List.map_congr_left fun i _ => ?_)
    simp only [Function.comp_apply]
    congr 1; omega

/-- The bottom layer is popped, and the others are filled from the bottom up. -/
theorem levelIndices_zero (k : Nat) :
    (levelIndices (k + 1) 0).getLast? = some (levelIndex k 0) ∧
      (levelIndices (k + 1) 0).dropLast.reverse = (List.range k).reverse.map (levelIndex · 0) := by
  have h := levelIndices_eq (k + 1) 0
  simp only [levelIndex_zero_zero, Nat.zero_add] at h
  rw [h, List.range_succ, List.map_append, List.map_singleton]
  exact ⟨List.getLast?_concat .., by rw [List.dropLast_concat, List.map_reverse]⟩

/-- A valid tree of height `k + 2`, layer by layer. -/
theorem valid_iff {t : MerkleTree P} {k : Nat} (hk : t.height = k + 2) :
    t.Valid ↔ t.leafNodes.length = 2 ^ (k + 1) ∧ t.nonLeafNodes.length = 2 ^ (k + 1) - 1 ∧
      (∀ p < 2 ^ k, P.evaluateConverted t.twoToOneHashParam (t.leafAt (2 * p)) (t.leafAt (2 * p + 1)) =
        .ok (t.nodeAt k p)) ∧
      ∀ d < k, ∀ p < 2 ^ d, P.compress t.twoToOneHashParam (t.nodeAt (d + 1) (2 * p))
        (t.nodeAt (d + 1) (2 * p + 1)) = .ok (t.nodeAt d p) := by
  constructor
  · rintro ⟨-, hl, hn, ht⟩
    rw [hk] at hl hn ht
    exact ⟨hl, hn, ht.bottom, ht.inner⟩
  · rintro ⟨hl, hn, hb, hi⟩
    exact ⟨by omega, by rw [hk]; exact hl, by rw [hk]; exact hn, by rw [hk]; exact ⟨hb, hi⟩⟩

/-- `new_with_leaf_digest` returns the valid tree with these leaf digests and
parameters, whenever there is one. -/
theorem newWithLeafDigest_eq_ok {leafHashParam : P.LeafParam} {twoToOneHashParam : P.TwoToOneParam}
    {leafDigests : List P.LeafDigest} {t : MerkleTree P} :
    newWithLeafDigest leafHashParam twoToOneHashParam leafDigests = .ok t ↔
      t.Valid ∧ t.leafNodes = leafDigests ∧ t.leafHashParam = leafHashParam ∧
        t.twoToOneHashParam = twoToOneHashParam := by
  simp only [newWithLeafDigest, bind_eq_ok, assert_eq_ok, Bool.and_eq_true, decide_eq_true_eq,
    unwrapOption_eq_ok, pure_eq_ok, Except.ok.injEq, exists_and_left, exists_const]
  constructor
  · rintro ⟨⟨hpow, hlt⟩, start, hstart, nodes₁, h₁, nodes₂, h₂, rfl⟩
    obtain ⟨k, hk⟩ : ∃ k, leafDigests.length = 2 ^ (k + 1) := by
      obtain ⟨j, hj⟩ := isPowerOfTwo_iff.mp hpow
      cases j with
      | zero => rw [hj] at hlt; simp at hlt
      | succ k => exact ⟨k, hj⟩
    rw [hk, treeHeight_two_pow, Nat.add_sub_cancel, (levelIndices_zero k).1, Option.some.injEq] at hstart
    subst hstart
    rw [hk, treeHeight_two_pow, Nat.add_sub_cancel, (levelIndices_zero k).2] at h₂
    rw [hk] at h₁
    obtain ⟨hl₁, hb, -⟩ := (hashBottomLayer_eq_ok hk (by simp)).mp h₁
    rw [List.length_replicate] at hl₁
    obtain ⟨hl₂, hi, hkeep⟩ := (hashLayers_eq_ok le_rfl hl₁).mp h₂
    refine ⟨(valid_iff (k := k) (by simp [hk, treeHeight_two_pow])).mpr
      ⟨hk, by simp only; omega, fun p hp => ?_, hi⟩, rfl, rfl, rfl⟩
    simp only [leafAt, nodeAt]
    rw [hkeep k le_rfl le_rfl p hp]
    exact hb p hp
  · rintro ⟨ht, rfl, rfl, rfl⟩
    obtain ⟨k, hk, -⟩ := ht.depth
    obtain ⟨hl, hn, hb, hi⟩ := (valid_iff hk).mp ht
    have hlt : 1 < 2 ^ (k + 1) := Nat.one_lt_two_pow (by omega)
    have hrep : (List.replicate (2 ^ (k + 1) - 1) (default : P.InnerDigest)).length = 2 ^ (k + 1) - 1 :=
      List.length_replicate
    -- the array between the two loops: the bottom layer of `t` over the initial digests
    refine ⟨⟨isPowerOfTwo_iff.mpr ⟨k + 1, hl⟩, by omega⟩, levelIndex k 0, ?_,
      (List.replicate (2 ^ (k + 1) - 1) default).take (levelIndex k 0) ++
        t.nonLeafNodes.drop (levelIndex k 0), ?_, t.nonLeafNodes, ?_, ?_⟩
    · rw [hl, treeHeight_two_pow]
      exact (levelIndices_zero k).1
    · rw [hl]
      refine (hashBottomLayer_eq_ok hl hrep).mpr ⟨length_splice _ t.nonLeafNodes (levelIndex k 0) (by omega),
        fun p hp => ?_, fun e he hne p hp => ?_⟩
      · rw [nodesAt_splice hrep le_rfl k le_rfl p hp, if_neg (Nat.lt_irrefl k)]
        exact hb p hp
      · rw [nodesAt_splice hrep le_rfl e he p hp, if_pos (by omega)]
    · rw [hl, treeHeight_two_pow, Nat.add_sub_cancel, (levelIndices_zero k).2]
      refine (hashLayers_eq_ok le_rfl (by rw [length_splice _ _ _ (by omega)]; exact hrep)).mpr
        ⟨by rw [length_splice _ _ _ (by omega)]; omega, hi, fun e he hke p hp => ?_⟩
      rw [nodesAt_splice hrep le_rfl e he p hp, if_neg (by omega)]
    · rw [hl, treeHeight_two_pow, ← hk]

/-- Where no hash fails, every power-of-two list of leaf digests has its tree. -/
theorem exists_newWithLeafDigest {leafHashParam : P.LeafParam} {twoToOneHashParam : P.TwoToOneParam}
    (hs : P.HashesSucceed leafHashParam twoToOneHashParam) {k : Nat} {leafDigests : List P.LeafDigest}
    (hl : leafDigests.length = 2 ^ (k + 1)) :
    ∃ t, newWithLeafDigest leafHashParam twoToOneHashParam leafDigests = .ok t ∧ t.height = k + 2 := by
  obtain ⟨node, hb, hi⟩ := hs.total.exists_nodes k (leafDigests.getD · default)
  obtain ⟨nodes, hn, hnodes⟩ := exists_nodesAt k node
  refine ⟨⟨nodes, leafDigests, twoToOneHashParam, leafHashParam, k + 2⟩, newWithLeafDigest_eq_ok.mpr
    ⟨(valid_iff rfl).mpr ⟨hl, hn, fun p hp => ?_, fun d hd p hp => ?_⟩, rfl, rfl, rfl⟩, rfl⟩
  · rw [nodeAt, hnodes k le_rfl p hp]
    exact hb p
  · simp only [nodeAt]
    rw [hnodes d hd.le p hp, hnodes (d + 1) hd _ (HashTree.double_lt hp),
      hnodes (d + 1) hd _ (HashTree.double_succ_lt hp)]
    exact hi d hd p

/-- So it has for other digests of a tree's leaves. -/
theorem Valid.exists_rebuild {t : MerkleTree P} (ht : t.Valid)
    (hs : P.HashesSucceed t.leafHashParam t.twoToOneHashParam) {leafDigests : List P.LeafDigest}
    (hl : leafDigests.length = t.leafNodes.length) :
    ∃ t', newWithLeafDigest t.leafHashParam t.twoToOneHashParam leafDigests = .ok t' := by
  obtain ⟨k, -, hk, -⟩ := ht.depth
  obtain ⟨t', h, -⟩ := exists_newWithLeafDigest hs (hl.trans hk)
  exact ⟨t', h⟩

end MerkleTree

end CryptoPrimitives.Merkle
