import CryptoPrimitives.MerkleTree.Build
import CryptoPrimitives.MerkleTree.FreeHash

/-!
# Updates

* `updatedPath_eq`: `updated_path` recomputes the path of the library from the
  siblings in the tree.
* `writePath_eq`: the loop of the two updates writes that path, and nothing else.
* `updates_cases`: an update is refused and leaves the tree as it was, or it
  returns the valid tree with the new leaf digest.
* `runCalls_eq_rebuild`: after any calls, the tree is the one built from the leaf
  digests with the accepted writes.
* `updates_atomic`: `check_update` writes what `update` writes, when the root is the
  asserted one, and a call that is refused writes nothing.
-/

namespace CryptoPrimitives.Merkle

open Except (bind_eq_ok)
open HashTree (IsTree PathRun OnPath onPath_leaf onPath_singleton anc anc_parent anc_self anc_half
  anc_lt half_lt xor_one_lt xor_one_ne pathNodes_eq_ok_iff_run)

variable {P : Config}

namespace MerkleTree

/-- The sibling at depth `d` of the path to leaf `i`. -/
def pathSibling (t : MerkleTree P) (i d : Nat) : P.InnerDigest :=
  t.nodeAt d (anc (t.height - 1) i d ^^^ 1)

/-- The nodes of the path to leaf `i` with the leaf digest `x`, bottom first. -/
def pathNodes (t : MerkleTree P) (i : Nat) (x : P.LeafDigest) : Except Error (List P.InnerDigest) :=
  (P.hashing t.twoToOneHashParam).pathNodes (t.pathSibling i) (t.height - 2) (t.leafAt (i ^^^ 1)) i x

theorem pathSibling_eq {t : MerkleTree P} {k : Nat} (hk : t.height = k + 2) (i : Nat) :
    t.pathSibling i = fun d => t.nodeAt d (anc (k + 1) i d ^^^ 1) := by
  unfold pathSibling
  rw [hk]
  rfl

/-! ## The path of an update -/

theorem updatedPathLoop_eq {t : MerkleTree P} {k : Nat} (hn : t.nonLeafNodes.length = 2 ^ (k + 1) - 1)
    {d p fuel : Nat} (hd : d ≤ k) (hp : p < 2 ^ d) (hf : levelIndex d p ≤ fuel)
    {sib : Nat → P.InnerDigest} (hs : ∀ e ≤ d, sib e = t.nodeAt e (anc d p e ^^^ 1))
    (acc : List P.InnerDigest) (x : P.InnerDigest) :
    t.updatedPathLoop fuel (levelIndex d p) (acc ++ [x]) =
      propagate (do
        let ys ← (P.hashing t.twoToOneHashParam).climb sib d p x
        .ok (acc ++ [x] ++ ys)) := by
  induction d generalizing p fuel acc x with
  | zero =>
    obtain rfl : p = 0 := by simpa using hp
    unfold updatedPathLoop
    simp [isRoot, HashTree.Hashing.climb]
  | succ d ih =>
    have hpos := levelIndex_pos (d := d) p
    obtain ⟨fuel, rfl⟩ : ∃ f, fuel = f + 1 := ⟨fuel - 1, by omega⟩
    have hsib : (index t.nonLeafNodes (levelIndex (d + 1) (p ^^^ 1)) : Outcome P.InnerDigest) =
        .ok (sib (d + 1)) := by
      rw [index_nodesAt hn hd (xor_one_lt hp), hs (d + 1) le_rfl, anc_self]
      rfl
    have hs' : ∀ e ≤ d, sib e = t.nodeAt e (anc d (p / 2) e ^^^ 1) := fun e he => by
      rw [hs e (by omega), anc_half p he]
    unfold updatedPathLoop
    simp only [isRoot_levelIndex_succ, Bool.false_eq_true, if_false, List.getLast?_concat,
      sibling_levelIndex, parent_levelIndex, isLeftChild_levelIndex, unwrapOption, hsib,
      Except.ok_bind, HashTree.Hashing.climb, propagate_bind, ih (by omega) (half_lt hp) (levelIndex_half_le hf) hs']
    rw [bind_assoc]
    have hstep : (P.hashing t.twoToOneHashParam).innerAt p x (sib (d + 1)) =
        P.compress t.twoToOneHashParam (if (p % 2 == 0) = true then x else sib (d + 1))
          (if (p % 2 == 0) = true then sib (d + 1) else x) := by
      rw [HashTree.innerAt_eq]
      simp only [beq_iff_eq]
      rfl
    rw [hstep]
    split <;> simp only [bind_assoc, propagate_ok, Except.ok_bind, List.append_assoc, List.cons_append,
      List.nil_append]

theorem getLeafSiblingHash_eq {t : MerkleTree P} {n i : Nat} (hl : t.leafNodes.length = 2 ^ (n + 1))
    (hi : i < t.leafNodes.length) : t.getLeafSiblingHash i = .ok (t.leafAt (i ^^^ 1)) := by
  rw [hl] at hi
  have hsib : (index t.leafNodes (i ^^^ 1) : Outcome P.LeafDigest) = .ok (t.leafAt (i ^^^ 1)) :=
    index_getD (by rw [hl]; exact xor_one_lt hi) default
  rw [← hsib, getLeafSiblingHash, xor_one_eq, Nat.and_one_is_mod]
  split <;> rfl

/-- `updated_path` is the path of the library, from the root down. -/
theorem updatedPath_eq {t : MerkleTree P} (ht : t.Valid) {i : Nat} (hi : i < t.leafNodes.length)
    (newLeaf : P.Leaf) :
    t.updatedPath i newLeaf = propagate (do
      let x ← P.leafHashEvaluate t.leafHashParam newLeaf
      let ys ← t.pathNodes i x
      .ok (x, ys.reverse)) := by
  obtain ⟨k, hk, hl, hn, -⟩ := ht.depth
  have hp : i / 2 < 2 ^ k := half_lt (by rw [← hl]; exact hi)
  simp only [updatedPath, getLeafSiblingHash_eq hl hi, convertIndexToLastLevel_eq, hk, propagate_bind,
    Except.ok_bind]
  rw [show k + 2 - 1 = k + 1 by omega, parent_levelIndex]
  simp only [unwrapOption, Except.ok_bind, pathNodes, HashTree.Hashing.pathNodes, hk,
    Nat.add_sub_cancel, propagate_bind, bind_assoc, propagate_ok]
  refine congrArg (_ >>= ·) (funext fun x => ?_)
  have hbottom : (P.hashing t.twoToOneHashParam).bottomAt i x (t.leafAt (i ^^^ 1)) =
      P.evaluateConverted t.twoToOneHashParam (if i &&& 1 = 0 then x else t.leafAt (i ^^^ 1))
        (if i &&& 1 = 0 then t.leafAt (i ^^^ 1) else x) := by
    rw [HashTree.bottomAt_eq, Nat.and_one_is_mod]
    rfl
  have hsib : ∀ e ≤ k, t.pathSibling i e = t.nodeAt e (anc k (i / 2) e ^^^ 1) := fun e he => by
    rw [pathSibling_eq hk, anc_half i he]
  rw [hbottom]
  split <;> refine congrArg (_ >>= ·) (funext fun y => ?_)
  all_goals
    have := updatedPathLoop_eq hn le_rfl hp le_rfl hsib [] y
    simp only [List.nil_append, List.cons_append, propagate_bind, propagate_ok] at this
    rw [this, bind_assoc]
    rfl

/-! ## Writing a path -/

theorem nodesAt_set {α : Type} [Inhabited α] {nodes : List α} {k d p : Nat}
    (hl : nodes.length = 2 ^ (k + 1) - 1) (hd : d ≤ k) (hp : p < 2 ^ d) (x : α) :
    ∀ e ≤ k, ∀ q < 2 ^ e, nodesAt (nodes.set (levelIndex d p) x) e q =
      if e = d ∧ q = p then x else nodesAt nodes e q := by
  intro e he q hq
  have hlt : levelIndex d p < nodes.length := by rw [hl]; exact levelIndex_lt hd hp
  simp only [nodesAt, List.getD_eq_getElem?_getD, List.getElem?_set, hlt, if_true]
  split
  · rename_i h
    obtain ⟨rfl, rfl⟩ := levelIndex_inj hp hq h
    simp
  · rename_i h
    rw [if_neg fun heq => h (by rw [heq.1, heq.2])]

/-- The loop that writes a path, bottom first. -/
theorem writePath_eq {k d p : Nat} (hd : d ≤ k + 1) (hp : p < 2 ^ d) (run : Nat → P.InnerDigest)
    {t : MerkleTree P} (hn : t.nonLeafNodes.length = 2 ^ (k + 1) - 1) :
    ∃ nodes, writePath d (levelIndex d p) ((List.range d).map run) t =
        ({ t with nonLeafNodes := nodes }, .ok ()) ∧ nodes.length = 2 ^ (k + 1) - 1 ∧
      ∀ e ≤ k, ∀ q < 2 ^ e, nodesAt nodes e q = if e < d ∧ q = anc d p e then run e else t.nodeAt e q := by
  induction d generalizing p t with
  | zero =>
    refine ⟨t.nonLeafNodes, rfl, hn, fun e _ q _ => ?_⟩
    rw [if_neg (fun h => Nat.not_lt_zero e h.1)]
    rfl
  | succ d ih =>
    have hpar := half_lt hp
    have hlt : levelIndex d (p / 2) < t.nonLeafNodes.length := by
      rw [hn]; exact levelIndex_lt (by omega) hpar
    obtain ⟨nodes, hw, hl, hnodes⟩ := ih (p := p / 2)
      (t := { t with nonLeafNodes := t.nonLeafNodes.set (levelIndex d (p / 2)) (run d) })
      (by omega) hpar (by simpa using hn)
    refine ⟨nodes, ?_, hl, fun e he q hq => ?_⟩
    · rw [writePath, parent_levelIndex, List.range_succ, List.map_append, List.map_singleton,
        List.getLast?_concat]
      simp only [if_pos hlt, List.dropLast_concat]
      exact hw
    · rw [hnodes e he q hq, nodeAt, nodesAt_set hn (by omega) hpar _ e he q hq]
      rcases Nat.lt_trichotomy e d with hed | rfl | hed
      · rw [anc_half p hed.le]
        simp only [hed, Nat.lt_succ_of_lt hed, hed.ne, true_and, false_and, if_false]
        rfl
      · have ha : p / 2 = anc (e + 1) p e := (anc_parent e p).symm
        simp only [Nat.lt_irrefl, false_and, if_false, true_and, Nat.lt_succ_self, ha]
        rfl
      · simp only [hed.ne', Nat.not_lt.mpr hed.le, Nat.not_lt.mpr (Nat.succ_le_of_lt hed), false_and,
          if_false]
        rfl

/-- The tree with one leaf digest replaced, built from all its leaf digests. -/
def rebuilt (t : MerkleTree P) (i : Nat) (x : P.LeafDigest) : Outcome (MerkleTree P) :=
  newWithLeafDigest t.leafHashParam t.twoToOneHashParam (t.leafNodes.set i x)

theorem exists_rebuilt {t : MerkleTree P} (ht : t.Valid)
    (hs : P.HashesSucceed t.leafHashParam t.twoToOneHashParam) (i : Nat) (x : P.LeafDigest) :
    ∃ t', t.rebuilt i x = .ok t' :=
  ht.exists_rebuild hs List.length_set

/-- Writing the leaf digest that is there changes nothing. -/
theorem rebuilt_self {t : MerkleTree P} (ht : t.Valid) {i : Nat} (hi : i < t.leafNodes.length) :
    t.rebuilt i (t.leafAt i) = .ok t := by
  have hset : t.leafNodes.set i (t.leafAt i) = t.leafNodes := by
    rw [leafAt, List.getD_eq_getElem _ _ hi, List.set_getElem_self]
  exact newWithLeafDigest_eq_ok.mpr ⟨ht, hset.symm, rfl, rfl⟩

/-- The writes of an update give the tree built from the leaf digests, with the
first node of the path as its root. -/
theorem writeLeafAndPath_eq {t : MerkleTree P} (ht : t.Valid) {i : Nat} (hi : i < t.leafNodes.length)
    {x : P.LeafDigest} {ys : List P.InnerDigest} (h : t.pathNodes i x = .ok ys) :
    ∃ t', t.writeLeafAndPath i x ys.reverse = (t', .ok ()) ∧ t.rebuilt i x = .ok t' ∧
      t'.height = t.height ∧ ys.reverse[0]? = some (t'.nodeAt 0 0) := by
  obtain ⟨k, hk, hl, hn, htree⟩ := ht.depth
  have hp : i < 2 ^ (k + 1) := by rw [← hl]; exact hi
  rw [pathNodes, hk, Nat.add_sub_cancel, pathNodes_eq_ok_iff_run] at h
  obtain ⟨run, hrun, rfl⟩ := h
  obtain ⟨nodes, hw, hnl, hnodes⟩ := writePath_eq (t := { t with leafNodes := t.leafNodes.set i x })
    le_rfl hp run hn
  have hnode : ∀ d ≤ k, ∀ q < 2 ^ d,
      nodesAt nodes d q = Function.update (t.nodeAt d) (anc (k + 1) i d) (run d) q := by
    intro d hd q hq
    rw [hnodes d hd q hq, Function.update_apply]
    simp only [Nat.lt_succ_of_le hd, true_and]
    rfl
  have hleaf : ∀ p, (t.leafNodes.set i x).getD p default = Function.update t.leafAt i x p := by
    intro p
    rw [List.getD_eq_getElem?_getD, List.getElem?_set, Function.update_apply]
    simp only [hi, if_true, eq_comm (a := i)]
    split
    · rfl
    · rw [leafAt, List.getD_eq_getElem?_getD]
  have hupd := htree.update (pathSibling_eq hk i ▸ hrun)
  have hvalid : Valid { t with leafNodes := t.leafNodes.set i x, nonLeafNodes := nodes } := by
    refine (valid_iff (by exact hk)).mpr ⟨by simpa using hl, hnl, fun p hp => ?_, fun d hd p hp => ?_⟩
    · simp only [leafAt, nodeAt, hleaf]
      rw [hnode k le_rfl p hp]
      exact hupd.bottom p hp
    · simp only [nodeAt]
      rw [hnode d hd.le p hp, hnode (d + 1) hd _ (HashTree.double_lt hp),
        hnode (d + 1) hd _ (HashTree.double_succ_lt hp)]
      exact hupd.inner d hd p hp
  refine ⟨_, ?_, newWithLeafDigest_eq_ok.mpr ⟨hvalid, rfl, rfl, rfl⟩, rfl, ?_⟩
  · rw [writeLeafAndPath, convertIndexToLastLevel_eq, List.reverse_reverse,
      show t.height - 1 = k + 1 by omega]
    exact hw
  · rw [List.reverse_reverse, List.getElem?_map, List.getElem?_range (Nat.succ_pos k), Option.map_some]
    refine congrArg some ?_
    simp only [nodeAt]
    rw [hnode 0 (Nat.zero_le k) 0 Nat.one_pos, HashTree.anc_zero hp, Function.update_self]

/-- Where the tree with one leaf digest replaced can be built, the path to the
leaf can be computed, and ends in its root. -/
theorem pathNodes_of_rebuilt {t t' : MerkleTree P} (ht : t.Valid) {i : Nat} (hi : i < t.leafNodes.length)
    {x : P.LeafDigest} (h : t.rebuilt i x = .ok t') :
    ∃ ys, t.pathNodes i x = .ok ys ∧ ys.reverse[0]? = some (t'.nodeAt 0 0) := by
  obtain ⟨k, hk, hl, -, htree⟩ := ht.depth
  have hp : i < 2 ^ (k + 1) := by rw [← hl]; exact hi
  obtain ⟨ht', hleaf', -, hparam⟩ := newWithLeafDigest_eq_ok.mp h
  have htree' := ht'.isTree_of_length (by rw [hleaf', List.length_set, hl])
  rw [hparam] at htree'
  have hleaf : ∀ p, p ≠ i → t'.leafAt p = t.leafAt p := fun p hpi => by
    rw [leafAt, hleaf', List.getD_eq_getElem?_getD, List.getElem?_set_ne hpi.symm, leafAt,
      List.getD_eq_getElem?_getD]
  have hoff := htree.congr_off htree' (A := OnPath (k + 1) [i]) (fun d hd p h => h.parent (by omega))
    (fun p _ hpi => hleaf p (by rwa [onPath_leaf, List.mem_singleton] at hpi))
  -- the path of the new tree, whose siblings are those of `t`
  have hrun : PathRun (P.hashing t.twoToOneHashParam) (t.pathSibling i) k (t.leafAt (i ^^^ 1)) i x
      (fun d => t'.nodeAt d (anc (k + 1) i d)) := by
    have h := htree'.pathRun hp
    rw [hleaf _ (xor_one_ne i), show t'.leafAt i = x by
      rw [leafAt, hleaf', List.getD_eq_getElem?_getD, List.getElem?_set_self hi, Option.getD_some]] at h
    refine h.congr fun d hd0 hd => ?_
    obtain ⟨d, rfl⟩ : ∃ e, d = e + 1 := ⟨d - 1, by omega⟩
    rw [pathSibling_eq hk]
    exact (hoff (d + 1) hd _ (xor_one_lt (anc_lt hp (by omega)))
      (fun h => xor_one_ne _ (onPath_singleton.mp h).symm)).symm
  refine ⟨((List.range (k + 1)).map fun d => t'.nodeAt d (anc (k + 1) i d)).reverse, ?_, ?_⟩
  · rw [pathNodes, hk, Nat.add_sub_cancel]
    exact pathNodes_eq_ok_iff_run.mpr ⟨_, hrun, rfl⟩
  · rw [List.reverse_reverse, List.getElem?_map, List.getElem?_range (Nat.succ_pos k), Option.map_some,
      HashTree.anc_zero hp]

/-! ## One update -/

/-- `updated_path` succeeds exactly when the tree with the new leaf can be built.
Its first node is then that tree's root, and writing it gives that tree. -/
theorem updatedPath_cases {t : MerkleTree P} (ht : t.Valid) {i : Nat} (hi : i < t.leafNodes.length)
    (newLeaf : P.Leaf) :
    (∃ x t' path, P.leafHashEvaluate t.leafHashParam newLeaf = .ok x ∧ t.rebuilt i x = .ok t' ∧
      t.updatedPath i newLeaf = .ok (x, path) ∧ path[0]? = some (t'.nodeAt 0 0) ∧
      t.writeLeafAndPath i x path = (t', .ok ())) ∨
    ∃ e, t.updatedPath i newLeaf = .error (.err e) ∧
      ∀ x t', P.leafHashEvaluate t.leafHashParam newLeaf = .ok x → t.rebuilt i x ≠ .ok t' := by
  have heq := updatedPath_eq ht hi newLeaf
  cases hx : P.leafHashEvaluate t.leafHashParam newLeaf with
  | error e =>
    rw [hx] at heq
    exact .inr ⟨e, heq, fun x t' h => nomatch h⟩
  | ok x =>
    rw [hx, Except.ok_bind] at heq
    cases hys : t.pathNodes i x with
    | error e =>
      rw [hys] at heq
      refine .inr ⟨e, heq, fun x' t' h h' => ?_⟩
      obtain rfl := Except.ok.inj h
      obtain ⟨ys, h, -⟩ := pathNodes_of_rebuilt ht hi h'
      rw [hys] at h
      exact nomatch h
    | ok ys =>
      rw [hys, Except.ok_bind, propagate_ok] at heq
      obtain ⟨t', hw, hr, -, hroot⟩ := writeLeafAndPath_eq ht hi hys
      exact .inl ⟨x, t', ys.reverse, rfl, hr, heq, hroot, hw⟩

/-- An update returns the tree with the new leaf, or an `Err` and the same tree;
`check_update` does so too, but leaves the tree as it is when the new root is not the
asserted one. -/
theorem updates_cases {t : MerkleTree P} (ht : t.Valid) {i : Nat} (hi : i < t.leafNodes.length)
    (newLeaf : P.Leaf) :
    (∃ x t', P.leafHashEvaluate t.leafHashParam newLeaf = .ok x ∧ t.rebuilt i x = .ok t' ∧
      t.update i newLeaf = (t', .ok ()) ∧ ∀ assertedNewRoot, t.checkUpdate i newLeaf assertedNewRoot =
        if t'.nodeAt 0 0 = assertedNewRoot then (t', .ok true) else (t, .ok false)) ∨
    ∃ e, t.update i newLeaf = (t, .error (.err e)) ∧
      (∀ assertedNewRoot, t.checkUpdate i newLeaf assertedNewRoot = (t, .error (.err e))) ∧
      ∀ x t', P.leafHashEvaluate t.leafHashParam newLeaf = .ok x → t.rebuilt i x ≠ .ok t' := by
  rw [update, if_pos hi]
  simp only [checkUpdate, if_pos hi]
  obtain ⟨x, t', path, hx, hr, hpath, hroot, hw⟩ | ⟨e, he, hno⟩ := updatedPath_cases ht hi newLeaf
  · refine .inl ⟨x, t', hx, hr, by rw [hpath]; exact hw, fun assertedNewRoot => ?_⟩
    simp only [hpath, hroot, hw]
    by_cases h : t'.nodeAt 0 0 = assertedNewRoot
    · rw [if_neg (not_not.mpr h), if_pos h]
      rfl
    · rw [if_pos h, if_neg h]
      rfl
  · exact .inr ⟨e, by rw [he], fun _ => by rw [he], hno⟩

theorem updates_of_rebuilt {t t' : MerkleTree P} (ht : t.Valid) {i : Nat} (hi : i < t.leafNodes.length)
    {newLeaf : P.Leaf} {x : P.LeafDigest} (hx : P.leafHashEvaluate t.leafHashParam newLeaf = .ok x)
    (hr : t.rebuilt i x = .ok t') :
    t.update i newLeaf = (t', .ok ()) ∧ ∀ assertedNewRoot, t.checkUpdate i newLeaf assertedNewRoot =
      if t'.nodeAt 0 0 = assertedNewRoot then (t', .ok true) else (t, .ok false) := by
  obtain ⟨x', t₁, hx', hr', h⟩ | ⟨e, -, -, hno⟩ := updates_cases ht hi newLeaf
  · obtain rfl := Except.ok.inj (hx.symm.trans hx')
    rwa [Except.ok.inj (hr.symm.trans hr')]
  · exact absurd hr (hno x t' hx)

end MerkleTree

/-! ## Runs -/

/-- A call of one of the two updates. -/
inductive Call (P : Config) where
  | update (index : Nat) (newLeaf : P.Leaf)
  | checkUpdate (index : Nat) (newLeaf : P.Leaf) (assertedNewRoot : P.InnerDigest)

namespace Call

def leafIndex : Call P → Nat
  | update i _ => i
  | checkUpdate i _ _ => i

def newLeaf : Call P → P.Leaf
  | update _ leaf => leaf
  | checkUpdate _ leaf _ => leaf

/-- The tree after the call, and whether it wrote: `Ok(())` of `update` is
`true`. -/
def run (t : MerkleTree P) : Call P → MerkleTree P × Outcome Bool
  | update i leaf => ((t.update i leaf).1, (fun _ => true) <$> (t.update i leaf).2)
  | checkUpdate i leaf assertedNewRoot => t.checkUpdate i leaf assertedNewRoot

/-- The index and the leaf digest a call writes, when it is accepted. -/
def write? (t : MerkleTree P) (call : Call P) : Option (Nat × P.LeafDigest) :=
  match (call.run t).2, P.leafHashEvaluate t.leafHashParam call.newLeaf with
  | .ok true, .ok x => some (call.leafIndex, x)
  | _, _ => none

/-- A call writes the leaf digest it reports, or leaves the tree as it was. -/
theorem run_cases {t : MerkleTree P} (ht : t.Valid) {call : Call P}
    (hi : call.leafIndex < t.leafNodes.length) :
    (∃ x t', t.rebuilt call.leafIndex x = .ok t' ∧ call.run t = (t', .ok true) ∧
      call.write? t = some (call.leafIndex, x)) ∨
    (call.run t).1 = t ∧ call.write? t = none := by
  cases call with
  | update i leaf =>
    have hi : i < t.leafNodes.length := hi
    obtain ⟨x, t', hx, hr, h, -⟩ | ⟨e, h, -, -⟩ := MerkleTree.updates_cases ht hi leaf
    · exact .inl ⟨x, t', hr, by simp only [run, h]; rfl, by simp only [write?, run, h, newLeaf, hx]; rfl⟩
    · exact .inr ⟨by simp only [run, h], by simp only [write?, run, h]; rfl⟩
  | checkUpdate i leaf assertedNewRoot =>
    have hi : i < t.leafNodes.length := hi
    obtain ⟨x, t', hx, hr, -, h⟩ | ⟨e, -, h, -⟩ := MerkleTree.updates_cases ht hi leaf
    · have h := h assertedNewRoot
      split at h
      · exact .inl ⟨x, t', hr, h, by simp only [write?, run, h, newLeaf, hx]⟩
      · exact .inr ⟨by simp only [run, h], by simp only [write?, run, h]⟩
    · have h := h assertedNewRoot
      exact .inr ⟨by simp only [run, h], by simp only [write?, run, h]⟩

/-- A call out of range panics before it touches the tree. -/
theorem run_of_le {t : MerkleTree P} {call : Call P} (hi : t.leafNodes.length ≤ call.leafIndex) :
    (call.run t).1 = t := by
  cases call with
  | update i leaf =>
    simp only [run, MerkleTree.update, if_neg (Nat.not_lt.mpr (show t.leafNodes.length ≤ i from hi))]
  | checkUpdate i leaf _ =>
    simp only [run, MerkleTree.checkUpdate,
      if_neg (Nat.not_lt.mpr (show t.leafNodes.length ≤ i from hi))]

end Call

namespace MerkleTree

/-- The tree after a sequence of calls. -/
def runCalls (t : MerkleTree P) : List (Call P) → MerkleTree P
  | [] => t
  | call :: calls => runCalls (call.run t).1 calls

/-- The writes of the accepted calls, in order. -/
def acceptedWrites (t : MerkleTree P) : List (Call P) → List (Nat × P.LeafDigest)
  | [] => []
  | call :: calls => (call.write? t).toList ++ acceptedWrites (call.run t).1 calls

/-- The leaf digests after some writes. -/
def applyWrites {α : Type} (xs : List α) (writes : List (Nat × α)) : List α :=
  writes.foldl (fun xs write => xs.set write.1 write.2) xs

@[simp] theorem length_applyWrites {α : Type} (xs : List α) (writes : List (Nat × α)) :
    (applyWrites xs writes).length = xs.length := by
  induction writes generalizing xs with
  | nil => rfl
  | cons write writes ih =>
    have h := ih (xs.set write.1 write.2)
    rwa [List.length_set] at h

theorem getElem?_applyWrites_of_notMem {α : Type} {p : Nat} (xs : List α) {writes : List (Nat × α)}
    (hp : p ∉ writes.map Prod.fst) : (applyWrites xs writes)[p]? = xs[p]? := by
  induction writes generalizing xs with
  | nil => rfl
  | cons write writes ih =>
    rw [List.map_cons, List.mem_cons, not_or] at hp
    have h := ih (xs.set write.1 write.2) hp.2
    rwa [List.getElem?_set_ne (Ne.symm hp.1)] at h

theorem getElem?_applyWrites_of_mem {α : Type} {i : Nat} {x : α} {xs : List α}
    {writes : List (Nat × α)} (hn : (writes.map Prod.fst).Nodup) (hmem : (i, x) ∈ writes)
    (hi : i < xs.length) : (applyWrites xs writes)[i]? = some x := by
  induction writes generalizing xs with
  | nil => exact nomatch hmem
  | cons write writes ih =>
    rw [List.map_cons, List.nodup_cons] at hn
    rcases List.mem_cons.mp hmem with rfl | hmem
    · have h := getElem?_applyWrites_of_notMem (xs.set i x) hn.1
      rwa [List.getElem?_set_self hi] at h
    · exact ih hn.2 hmem (by rwa [List.length_set])

/-- After any calls, the tree is the one built from the leaf digests with the
accepted writes, and it satisfies the invariant. -/
theorem runCalls_eq_rebuild {leafHashParam : P.LeafParam} {twoToOneHashParam : P.TwoToOneParam}
    {leafDigests : List P.LeafDigest} {t : MerkleTree P}
    (h : newWithLeafDigest leafHashParam twoToOneHashParam leafDigests = .ok t) (calls : List (Call P))
    (hi : ∀ call ∈ calls, call.leafIndex < leafDigests.length) :
    newWithLeafDigest leafHashParam twoToOneHashParam (applyWrites leafDigests (t.acceptedWrites calls)) =
        .ok (t.runCalls calls) ∧ (t.runCalls calls).Valid := by
  refine (and_iff_left_of_imp fun h => (newWithLeafDigest_eq_ok.mp h).1).mpr ?_
  induction calls generalizing leafDigests t with
  | nil => exact h
  | cons call calls ih =>
    obtain ⟨ht, rfl, rfl, rfl⟩ := newWithLeafDigest_eq_ok.mp h
    have hcall := hi call List.mem_cons_self
    have hcalls : ∀ c ∈ calls, c.leafIndex < t.leafNodes.length := fun c hc =>
      hi c (List.mem_cons_of_mem _ hc)
    obtain ⟨x, t', hr, hrun, hw⟩ | ⟨hrun, hw⟩ := call.run_cases ht hcall
    · simp only [acceptedWrites, runCalls, hrun, hw, Option.toList_some, List.singleton_append]
      exact ih hr (by simpa using hcalls)
    · simp only [acceptedWrites, runCalls, hrun, hw, Option.toList_none, List.nil_append]
      exact ih h hcalls

/-- Two calls, one of them refused. -/
theorem runCalls_eq_rebuild_free :
    let calls := [.update 1 7, .checkUpdate 2 5 (.leaf 0)]
    newWithLeafDigest () () (applyWrites freeTree.leafNodes (freeTree.acceptedWrites calls)) =
      .ok (freeTree.runCalls calls) ∧ (freeTree.runCalls calls).Valid :=
  runCalls_eq_rebuild newWithLeafDigest_freeTree _ (by decide)

/-- The trees a caller can hold: built from the digests of a `Vec`, then updated
by any calls. -/
inductive Reachable : MerkleTree P → Prop where
  | built {leafHashParam : P.LeafParam} {twoToOneHashParam : P.TwoToOneParam}
      {leafDigests : List P.LeafDigest} {t : MerkleTree P} : leafDigests.length < 2 ^ usizeBits →
      newWithLeafDigest leafHashParam twoToOneHashParam leafDigests = .ok t → Reachable t
  | updated {t : MerkleTree P} (call : Call P) : Reachable t → Reachable (call.run t).1

theorem Reachable.invariant {t : MerkleTree P} (h : t.Reachable) :
    t.Valid ∧ t.leafNodes.length < 2 ^ usizeBits := by
  induction h with
  | built hl h =>
    obtain ⟨ht, rfl, -⟩ := newWithLeafDigest_eq_ok.mp h
    exact ⟨ht, hl⟩
  | @updated t call _ ih =>
    obtain ⟨ht, hl⟩ := ih
    rcases Nat.lt_or_ge call.leafIndex t.leafNodes.length with hi | hi
    · obtain ⟨x, t', hr, hrun, -⟩ | ⟨hrun, -⟩ := call.run_cases ht hi
      · obtain ⟨ht', hleaf, -⟩ := newWithLeafDigest_eq_ok.mp hr
        rw [hrun]
        exact ⟨ht', by rw [hleaf, List.length_set]; exact hl⟩
      · rw [hrun]
        exact ⟨ht, hl⟩
    · rw [call.run_of_le hi]
      exact ⟨ht, hl⟩

theorem freeTree_reachable : freeTree.Reachable := .built (by decide) newWithLeafDigest_freeTree

theorem Reachable.valid {t : MerkleTree P} (h : t.Reachable) : t.Valid := h.invariant.1

/-! ## Refused updates -/

/-- Whatever call of the hashes and of the converter fails, `check_update` writes the tree
that `update` writes when its root is the asserted one, returns `Ok(false)` when it is
another one, and the `Err` of `update` otherwise. Neither writes anything but what a
successful `update` writes. -/
theorem updates_atomic {t : MerkleTree P} (ht : t.Reachable) {i : Nat} (hi : i < t.leafNodes.length)
    (newLeaf : P.Leaf) (assertedNewRoot : P.InnerDigest) :
    (∀ t', t.checkUpdate i newLeaf assertedNewRoot = (t', .ok true) ↔
      t.update i newLeaf = (t', .ok ()) ∧ t'.root = .ok assertedNewRoot) ∧
    ((t.checkUpdate i newLeaf assertedNewRoot).2 = .ok false ↔ ∃ t' root,
      t.update i newLeaf = (t', .ok ()) ∧ t'.root = .ok root ∧ root ≠ assertedNewRoot) ∧
    (∀ fault, (t.checkUpdate i newLeaf assertedNewRoot).2 = .error fault ↔
      (t.update i newLeaf).2 = .error fault) ∧
    (∀ fault, (t.update i newLeaf).2 = .error fault → ∃ e, fault = .err e) ∧
    ((t.checkUpdate i newLeaf assertedNewRoot).2 ≠ .ok true →
      (t.checkUpdate i newLeaf assertedNewRoot).1 = t) ∧
    ((t.update i newLeaf).2 ≠ .ok () → (t.update i newLeaf).1 = t) := by
  obtain ⟨x, t₁, hx, hr, hupdate, hcheck⟩ | ⟨e, hupdate, hcheck, -⟩ := updates_cases ht.valid hi newLeaf
  · have hroot := (newWithLeafDigest_eq_ok.mp hr).1.root_eq
    rw [hupdate, hcheck]
    by_cases h : t₁.nodeAt 0 0 = assertedNewRoot
    · rw [if_pos h]
      rw [h] at hroot
      refine ⟨fun t' => ⟨fun ht' => ?_, fun ⟨ht', _⟩ => ?_⟩, ⟨nofun, ?_⟩, fun _ => ⟨nofun, nofun⟩, nofun,
        fun hne => absurd rfl hne, fun hne => absurd rfl hne⟩
      · obtain ⟨rfl, -⟩ := Prod.mk.inj ht'
        exact ⟨rfl, hroot⟩
      · rw [(Prod.mk.inj ht').1]
      · rintro ⟨t', root, ht', hroot', hne⟩
        obtain ⟨rfl, -⟩ := Prod.mk.inj ht'
        exact absurd (Except.ok.inj (hroot'.symm.trans hroot)) hne
    · rw [if_neg h]
      refine ⟨fun t' => ⟨nofun, fun ⟨ht', hroot'⟩ => ?_⟩, ⟨fun _ => ⟨t₁, _, rfl, hroot, h⟩, fun _ => rfl⟩,
        fun _ => ⟨nofun, nofun⟩, nofun, fun _ => rfl, fun hne => absurd rfl hne⟩
      obtain ⟨rfl, -⟩ := Prod.mk.inj ht'
      exact absurd (Except.ok.inj (hroot.symm.trans hroot')) h
  · rw [hupdate, hcheck]
    refine ⟨fun t' => ⟨nofun, fun h => nomatch h.1⟩, ⟨nofun, fun ⟨_, _, h, _⟩ => nomatch h⟩, fun fault => ?_,
      fun fault h => ⟨e, (Except.error.inj h).symm⟩, fun _ => rfl, fun _ => rfl⟩
    rw [Except.error.injEq, Except.error.injEq]

theorem updates_atomic_free :
    (∀ t', freeTree.checkUpdate 2 5 (.leaf 0) = (t', .ok true) ↔
      freeTree.update 2 5 = (t', .ok ()) ∧ t'.root = .ok (.leaf 0)) ∧
    (freeTree.checkUpdate 2 5 (.leaf 0)).1 = freeTree := by
  obtain ⟨hok, -, -, -, hkept, -⟩ := updates_atomic freeTree_reachable (i := 2) (by decide) 5 (.leaf 0)
  exact ⟨hok, hkept (by decide)⟩

end MerkleTree

end CryptoPrimitives.Merkle
