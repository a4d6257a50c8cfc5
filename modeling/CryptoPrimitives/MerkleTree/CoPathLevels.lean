import CryptoPrimitives.MerkleTree.CoPath

/-!
# The levels `CoPath::verify` computes

What each part of `verify` returns, and when it does:

* `leafLevel_spec`, `exists_leafLevel`: the map of leaf digests.
* `exists_consumeInnerCopath`: the siblings, from the digests in their order.
* `foldlM_hashParent_spec`, `chain_spec`: the hashes of one
  level, and of the levels up to the root.
* `innerLevels_opening`: together they are an opening of the positions above the
  indexes. `exists_innerLevels`: a copath with the values of a labelling of the
  siblings gives levels that hold it.
-/

namespace CryptoPrimitives.Merkle

open Except (bind_eq_ok)
open HashTree (Opening OnPath onPath_leaf anc anc_succ xor_one_xor_one)

variable {P : Config}

/-! ## Siblings -/

/-- The positions at depth `d` above the indexes, in ascending order. -/
def onLevel (D : Nat) (indexes : List Nat) (d : Nat) : List Nat := (computeOnPath D indexes).getD d []

section

variable {D d : Nat} {indexes : List Nat}

theorem getElem?_computeOnPath (hd : d ≤ D) : (computeOnPath D indexes)[d]? = some (onLevel D indexes d) := by
  obtain ⟨level, h, -⟩ := computeOnPath_spec hd indexes
  rw [onLevel, List.getD_eq_getElem?_getD, h, Option.getD_some]

theorem index_computeOnPath {ε : Type} [Faults ε] (hd : d ≤ D) :
    (index (computeOnPath D indexes) d : Except ε (List Nat)) = .ok (onLevel D indexes d) :=
  index_eq_ok.mpr (getElem?_computeOnPath hd)

theorem pairwise_onLevel (hd : d ≤ D) : (onLevel D indexes d).Pairwise (· < ·) := by
  obtain ⟨level, h, hs, -⟩ := computeOnPath_spec hd indexes
  rwa [Option.some.inj ((getElem?_computeOnPath hd).symm.trans h)]

theorem mem_onLevel (hd : d ≤ D) {p : Nat} : p ∈ onLevel D indexes d ↔ OnPath D indexes d p := by
  obtain ⟨level, h, -, hm⟩ := computeOnPath_spec hd indexes
  rw [Option.some.inj ((getElem?_computeOnPath hd).symm.trans h)]
  exact hm p

end

/-- The children of a position above `usize` indexes are `usize`. -/
theorem child_lt_of_onPath {D d p : Nat} {indexes : List Nat} (hu : ∀ i ∈ indexes, i < 2 ^ usizeBits) (hd : d < D)
    (h : OnPath D indexes d p) : 2 * p + 1 < 2 ^ usizeBits := by
  obtain ⟨i, hi, rfl⟩ := h
  have hlt := hu i hi
  have hle : anc D i (d + 1) ≤ i := Nat.div_le_self _ _
  have hpow : 2 ^ usizeBits = 2 * 2 ^ 63 := by decide
  rw [anc_succ i hd]
  omega

/-- The needed siblings of an ascending level: those of its positions that are not in
it. -/
theorem mem_neededSiblings {level : List Nat} (h : level.Pairwise (· < ·)) {q : Nat} :
    q ∈ neededSiblings level ↔ q ^^^ 1 ∈ level ∧ q ∉ level := by
  simp only [neededSiblings, List.mem_filterMap, binarySearch_eq h, decide_eq_true_eq]
  constructor
  · rintro ⟨p, hp, hq⟩
    split at hq
    · exact nomatch hq
    · rename_i hne
      obtain rfl := Option.some.inj hq
      exact ⟨(xor_one_xor_one p).symm ▸ hp, hne⟩
  · rintro ⟨hp, hq⟩
    exact ⟨q ^^^ 1, hp, by rw [xor_one_xor_one, if_neg hq]⟩

theorem nodup_neededSiblings {level : List Nat} (h : level.Nodup) : (neededSiblings level).Nodup := by
  refine h.filterMap fun a b q ha hb => ?_
  have hxor {c : Nat} (hc : q ∈ (if binarySearch level (c ^^^ 1) then none else some (c ^^^ 1))) :
      c ^^^ 1 = q := by
    split at hc
    · exact nomatch hc
    · exact Option.some.inj hc
  rw [← xor_one_xor_one a, ← xor_one_xor_one b, hxor ha, hxor hb]

/-! ## Leaves -/

namespace CoPath

section

variable {leafHashParams : P.LeafParam}

theorem ingestLeaves_nil {leaves : List P.Leaf} {leafLevel leafLevel' : BTreeMap P.LeafDigest}
    (h : ingestLeaves leafHashParams [] leaves leafLevel = .ok leafLevel') : leaves = [] ∧ leafLevel = leafLevel' := by
  cases leaves with
  | nil => exact ⟨rfl, Except.ok.inj h⟩
  | cons leaf leaves => exact absurd h reject_ne_ok

/-- An index takes the next leaf. -/
theorem ingestLeaves_cons {idx : Nat} {leafIndexes : List Nat} {leaves : List P.Leaf}
    {leafLevel leafLevel' : BTreeMap P.LeafDigest}
    (h : ingestLeaves leafHashParams (idx :: leafIndexes) leaves leafLevel = .ok leafLevel') :
    ∃ leaf rest x, leaves = leaf :: rest ∧ P.leafHashEvaluate leafHashParams leaf = .ok x ∧
      ingestLeaves leafHashParams leafIndexes rest (leafLevel.insert idx x) = .ok leafLevel' := by
  cases leaves with
  | nil => exact absurd h reject_ne_ok
  | cons leaf rest =>
    simp only [ingestLeaves, bind_eq_ok, unwrap_eq_ok] at h
    obtain ⟨x, hx, h⟩ := h
    exact ⟨leaf, rest, x, rfl, hx, h⟩

theorem ingestLeaves_spec {leafIndexes : List Nat} {leaves : List P.Leaf}
    {leafLevel leafLevel' : BTreeMap P.LeafDigest}
    (h : ingestLeaves leafHashParams leafIndexes leaves leafLevel = .ok leafLevel') :
    leafIndexes.length = leaves.length ∧ (∀ p, p ∉ leafIndexes → leafLevel'.get p = leafLevel.get p) ∧
      ∀ i ∈ leafIndexes, ∃ leaf x, (i, leaf) ∈ leafIndexes.zip leaves ∧
        P.leafHashEvaluate leafHashParams leaf = .ok x ∧ leafLevel'.get i = some x := by
  induction leafIndexes generalizing leaves leafLevel with
  | nil =>
    obtain ⟨rfl, rfl⟩ := ingestLeaves_nil h
    exact ⟨rfl, fun _ _ => rfl, nofun⟩
  | cons idx leafIndexes ih =>
    obtain ⟨leaf, rest, x, rfl, hx, h⟩ := ingestLeaves_cons h
    obtain ⟨hl, hoff, hon⟩ := ih h
    refine ⟨by simp [hl], fun p hp => ?_, fun i hi => ?_⟩
    · rw [List.mem_cons, not_or] at hp
      rw [hoff p hp.2, BTreeMap.get_insert_of_ne hp.1]
    · by_cases hrest : i ∈ leafIndexes
      · obtain ⟨leaf', x', hmem, hx', hget⟩ := hon i hrest
        exact ⟨leaf', x', List.mem_cons_of_mem _ hmem, hx', hget⟩
      · obtain rfl := (List.mem_cons.mp hi).resolve_right hrest
        exact ⟨leaf, x, List.mem_cons_self, hx, by rw [hoff i hrest, BTreeMap.get_insert_self]⟩

/-- Distinct indexes have the digests of the leaves, in their order. -/
theorem ingestLeaves_digests {leafIndexes : List Nat} (hn : leafIndexes.Nodup) {leaves : List P.Leaf}
    {leafLevel leafLevel' : BTreeMap P.LeafDigest}
    (h : ingestLeaves leafHashParams leafIndexes leaves leafLevel = .ok leafLevel') :
    ∃ digests, leaves.mapM (P.leafHashEvaluate leafHashParams) = .ok digests ∧
      digests.map some = leafIndexes.map leafLevel'.get := by
  induction leafIndexes generalizing leaves leafLevel with
  | nil =>
    obtain ⟨rfl, -⟩ := ingestLeaves_nil h
    exact ⟨[], rfl, rfl⟩
  | cons idx leafIndexes ih =>
    obtain ⟨hidx, hn⟩ := List.nodup_cons.mp hn
    obtain ⟨leaf, rest, x, rfl, hx, h⟩ := ingestLeaves_cons h
    obtain ⟨digests, hd, hget⟩ := ih hn h
    refine ⟨x :: digests, by rw [List.mapM_cons, hx, Except.ok_bind, hd]; rfl, ?_⟩
    rw [List.map_cons, List.map_cons, hget, (ingestLeaves_spec h).2.1 idx hidx, BTreeMap.get_insert_self]

theorem exists_ingestLeaves (hs : ∀ leaf, ∃ x, P.leafHashEvaluate leafHashParams leaf = .ok x)
    {leafIndexes : List Nat} {leaves : List P.Leaf} (hl : leafIndexes.length = leaves.length)
    (leafLevel : BTreeMap P.LeafDigest) :
    ∃ leafLevel', ingestLeaves leafHashParams leafIndexes leaves leafLevel = .ok leafLevel' := by
  induction leafIndexes generalizing leaves leafLevel with
  | nil =>
    obtain rfl := List.length_eq_zero_iff.mp hl.symm
    exact ⟨leafLevel, rfl⟩
  | cons idx leafIndexes ih =>
    cases leaves with
    | nil => exact nomatch hl
    | cons leaf leaves =>
      obtain ⟨x, hx⟩ := hs leaf
      obtain ⟨leafLevel', h⟩ := ih (Nat.succ.inj hl) (leafLevel.insert idx x)
      exact ⟨leafLevel', by rw [ingestLeaves, hx]; exact h⟩

/-- Another number of leaves than indexes makes `verify` return `false`. -/
theorem ingestLeaves_of_ne (hs : ∀ leaf, ∃ x, P.leafHashEvaluate leafHashParams leaf = .ok x)
    {leafIndexes : List Nat} {leaves : List P.Leaf} (hl : leafIndexes.length ≠ leaves.length)
    (leafLevel : BTreeMap P.LeafDigest) :
    ingestLeaves leafHashParams leafIndexes leaves leafLevel = reject := by
  induction leafIndexes generalizing leaves leafLevel with
  | nil =>
    cases leaves with
    | nil => exact absurd rfl hl
    | cons leaf leaves => rfl
  | cons idx leafIndexes ih =>
    cases leaves with
    | nil => rfl
    | cons leaf leaves =>
      obtain ⟨x, hx⟩ := hs leaf
      rw [ingestLeaves, hx]
      exact ih (fun h => hl (congrArg Nat.succ h)) (leafLevel.insert idx x)

end

theorem absorbSibling_eq_ok {leafLevel leafLevel' : BTreeMap P.LeafDigest} {sibling : Nat × P.LeafDigest}
    (h : absorbSibling leafLevel sibling = .ok leafLevel') : leafLevel.insert sibling.1 sibling.2 = leafLevel' := by
  unfold absorbSibling at h
  split at h
  · split at h
    · exact absurd h reject_ne_ok
    · exact Except.ok.inj h
  · exact Except.ok.inj h

theorem absorbLeafCopath_spec {coset : List Nat} {copath : List P.LeafDigest}
    {leafLevel leafLevel' : BTreeMap P.LeafDigest}
    (h : absorbLeafCopath coset copath leafLevel = .ok leafLevel') :
    coset.length = copath.length ∧ ∀ p, p ∉ coset → leafLevel'.get p = leafLevel.get p := by
  rw [absorbLeafCopath] at h
  split at h
  · exact absurd h reject_ne_ok
  · rename_i hl
    refine ⟨not_not.mp hl, ?_⟩
    -- each step inserts at a member of the coset
    refine Except.foldlM_induction (P := fun m => ∀ p, p ∉ coset → m.get p = leafLevel.get p)
      (fun m sibling hmem m' hm hstep p hp => ?_) (fun _ _ => rfl) h
    have hne : p ≠ sibling.1 := fun hps => hp (hps ▸ (List.of_mem_zip hmem).1)
    rw [← absorbSibling_eq_ok hstep, BTreeMap.get_insert_of_ne hne, hm p hp]

/-- The siblings have the digests of the copath, in their order. -/
theorem absorbLeafCopath_copath {coset : List Nat} (hn : coset.Nodup) {copath : List P.LeafDigest}
    {leafLevel leafLevel' : BTreeMap P.LeafDigest} (h : absorbLeafCopath coset copath leafLevel = .ok leafLevel') :
    copath.map some = coset.map leafLevel'.get := by
  induction coset generalizing copath leafLevel with
  | nil =>
    obtain rfl := List.length_eq_zero_iff.mp (absorbLeafCopath_spec h).1.symm
    rfl
  | cons s coset ih =>
    obtain ⟨hs, hn⟩ := List.nodup_cons.mp hn
    have hlen := (absorbLeafCopath_spec h).1
    cases copath with
    | nil => exact nomatch hlen
    | cons x copath =>
      have hlen : coset.length = copath.length := Nat.succ.inj hlen
      rw [absorbLeafCopath, if_neg (by simp [hlen]), List.zip_cons_cons, List.foldlM_cons, bind_eq_ok] at h
      obtain ⟨mid, hmid, h⟩ := h
      have hrest : absorbLeafCopath coset copath mid = .ok leafLevel' := by
        rw [absorbLeafCopath, if_neg (not_not.mpr hlen)]
        exact h
      rw [List.map_cons, List.map_cons, ih hn hrest, (absorbLeafCopath_spec hrest).2 s hs, ← absorbSibling_eq_ok hmid,
        BTreeMap.get_insert_self]

/-- A copath with the values of `leaf` at the siblings gives them these values. -/
theorem exists_absorbLeafCopath {coset : List Nat} (hn : coset.Nodup) (leaf : Nat → P.LeafDigest)
    {leafLevel : BTreeMap P.LeafDigest} (hfree : ∀ s ∈ coset, leafLevel.get s = none) :
    ∃ leafLevel', absorbLeafCopath coset (coset.map leaf) leafLevel = .ok leafLevel' ∧
      ∀ s ∈ coset, leafLevel'.get s = some (leaf s) := by
  suffices h : ∃ leafLevel', (coset.map fun s => (s, leaf s)).foldlM absorbSibling leafLevel =
      .ok leafLevel' ∧ (∀ s ∈ coset, leafLevel'.get s = some (leaf s)) ∧
      ∀ p, p ∉ coset → leafLevel'.get p = leafLevel.get p by
    obtain ⟨leafLevel', h, hs, -⟩ := h
    refine ⟨leafLevel', ?_, hs⟩
    rw [absorbLeafCopath, if_neg (not_not.mpr (List.length_map leaf).symm), ← List.map_prod_left_eq_zip]
    exact h
  induction coset generalizing leafLevel with
  | nil => exact ⟨leafLevel, rfl, nofun, fun _ _ => rfl⟩
  | cons s coset ih =>
    obtain ⟨hs, hn⟩ := List.nodup_cons.mp hn
    have hstep : absorbSibling leafLevel (s, leaf s) = .ok (leafLevel.insert s (leaf s)) := by
      rw [absorbSibling, hfree s List.mem_cons_self]
      rfl
    have hfree' : ∀ s' ∈ coset, (leafLevel.insert s (leaf s)).get s' = none := fun s' hs' => by
      have hne : s' ≠ s := fun h => hs (h ▸ hs')
      rw [BTreeMap.get_insert_of_ne hne, hfree s' (List.mem_cons_of_mem _ hs')]
    obtain ⟨leafLevel', h, hon, hoff⟩ := ih hn hfree'
    refine ⟨leafLevel', by rw [List.map_cons, List.foldlM_cons, hstep]; exact h, fun s' hs' => ?_,
      fun p hp => ?_⟩
    · rcases List.mem_cons.mp hs' with rfl | hs'
      · rw [hoff s' hs, BTreeMap.get_insert_self]
      · exact hon s' hs'
    · rw [List.mem_cons, not_or] at hp
      rw [hoff p hp.2, BTreeMap.get_insert_of_ne hp.1]

/-- The positions whose digests the leaf copath holds, in its order. -/
def leafCoset (D : Nat) (indexes : List Nat) : List Nat := sortUnstable (neededSiblings (onLevel D indexes D))

theorem mem_leafCoset {D : Nat} {indexes : List Nat} {q : Nat} :
    q ∈ leafCoset D indexes ↔ q ^^^ 1 ∈ indexes ∧ q ∉ indexes := by
  rw [leafCoset, mem_sortUnstable, mem_neededSiblings (pairwise_onLevel le_rfl), mem_onLevel le_rfl,
    mem_onLevel le_rfl, onPath_leaf, onPath_leaf]

theorem nodup_leafCoset (D : Nat) (indexes : List Nat) : (leafCoset D indexes).Nodup :=
  nodup_sortUnstable (nodup_neededSiblings ((pairwise_onLevel le_rfl).imp Nat.ne_of_lt))

theorem computeNeededLeafSiblings_eq (D : Nat) (indexes : List Nat) :
    computeNeededLeafSiblings D (computeOnPath D indexes) = .ok (leafCoset D indexes) := by
  rw [computeNeededLeafSiblings, index_computeOnPath le_rfl]
  rfl

section

variable {self : CoPath P} {leafHashParams : P.LeafParam} {leaves : List P.Leaf}

/-- The copath does not touch the opened indexes. -/
theorem leafLevel_ingested {m : BTreeMap P.LeafDigest} (h : self.leafLevel leafHashParams leaves = .ok m) :
    ∃ ingested, ingestLeaves leafHashParams self.leafIndexes leaves .new = .ok ingested ∧
      ∀ i ∈ self.leafIndexes, m.get i = ingested.get i := by
  simp only [leafLevel, computeNeededLeafSiblings_eq, bind_eq_ok, Except.ok_bind] at h
  obtain ⟨ingested, hi, h⟩ := h
  refine ⟨ingested, hi, fun i hi => (absorbLeafCopath_spec h).2 i fun hc => ?_⟩
  exact (mem_leafCoset.mp hc).2 (mem_btreeSet.mpr hi)

/-- The map holds, for each opened index, the digest of a leaf given for it. -/
theorem leafLevel_spec {m : BTreeMap P.LeafDigest} (h : self.leafLevel leafHashParams leaves = .ok m) :
    self.leafIndexes.length = leaves.length ∧ ∀ i ∈ self.leafIndexes, ∃ leaf x,
      (i, leaf) ∈ self.leafIndexes.zip leaves ∧ P.leafHashEvaluate leafHashParams leaf = .ok x ∧
        m.get i = some x := by
  obtain ⟨ingested, hi, hget⟩ := leafLevel_ingested h
  obtain ⟨hl, -, hon⟩ := ingestLeaves_spec hi
  refine ⟨hl, fun i hi => ?_⟩
  rw [hget i hi]
  exact hon i hi

/-- It holds, for each sibling, the digest of the leaf copath at its place. -/
theorem leafLevel_copath {m : BTreeMap P.LeafDigest} (h : self.leafLevel leafHashParams leaves = .ok m) :
    self.leafCopath.map some = (leafCoset (self.treeHeight - 1) (btreeSet self.leafIndexes)).map m.get := by
  simp only [leafLevel, computeNeededLeafSiblings_eq, bind_eq_ok, Except.ok_bind] at h
  obtain ⟨ingested, -, h⟩ := h
  exact absorbLeafCopath_copath (nodup_leafCoset _ _) h

/-- A leaf copath with the values of `leaf` gives the siblings these values. -/
theorem exists_leafLevel (hs : ∀ leaf, ∃ x, P.leafHashEvaluate leafHashParams leaf = .ok x)
    (hl : self.leafIndexes.length = leaves.length) (leaf : Nat → P.LeafDigest)
    (hc : self.leafCopath = (leafCoset (self.treeHeight - 1) (btreeSet self.leafIndexes)).map leaf) :
    ∃ m, self.leafLevel leafHashParams leaves = .ok m ∧
      ∀ q, q ^^^ 1 ∈ self.leafIndexes → q ∉ self.leafIndexes → m.get q = some (leaf q) := by
  obtain ⟨ingested, hi⟩ := exists_ingestLeaves hs hl BTreeMap.new
  obtain ⟨-, hoff, -⟩ := ingestLeaves_spec hi
  have hfree : ∀ q ∈ leafCoset (self.treeHeight - 1) (btreeSet self.leafIndexes),
      ingested.get q = none := fun q hq => by
    rw [hoff q (fun h => (mem_leafCoset.mp hq).2 (mem_btreeSet.mpr h)), BTreeMap.get_new]
  obtain ⟨m, hm, hget⟩ := exists_absorbLeafCopath (nodup_leafCoset _ _) leaf hfree
  refine ⟨m, ?_, fun q hq hq' => hget q (mem_leafCoset.mpr ⟨mem_btreeSet.mpr hq, ?_⟩)⟩
  · simp only [leafLevel, computeNeededLeafSiblings_eq, Except.ok_bind, hi, hc]
    exact hm
  · rwa [mem_btreeSet]

theorem leafLevel_of_ne (hs : ∀ leaf, ∃ x, P.leafHashEvaluate leafHashParams leaf = .ok x)
    (hl : self.leafIndexes.length ≠ leaves.length) :
    self.leafLevel leafHashParams leaves = reject := by
  simp only [leafLevel, ingestLeaves_of_ne hs hl]
  rfl

end

end CoPath

/-! ## Inner levels -/

namespace Levels

/-- The digest at a depth and position. -/
def node (levels : Levels P) (d p : Nat) : Option P.InnerDigest := (levels.getD d BTreeMap.new).get p

variable {levels levels' : Levels P} {d p : Nat} {x : P.InnerDigest}

theorem insert_spec (h : levels.insert d p x = .ok levels') :
    levels'.length = levels.length ∧ (∀ e, e ≠ d → levels'.getD e .new = levels.getD e .new) ∧
      ∀ e q, levels'.node e q = if e = d ∧ q = p then some x else levels.node e q := by
  simp only [Levels.insert, bind_eq_ok, index_eq_ok, Except.pure_eq_ok, Except.ok.injEq] at h
  obtain ⟨level, hlevel, rfl⟩ := h
  have hd : d < levels.length := (List.getElem?_eq_some_iff.mp hlevel).1
  have hne : ∀ e, e ≠ d → (levels.set d (level.insert p x)).getD e .new = levels.getD e .new := by
    intro e he
    rw [List.getD_eq_getElem?_getD, List.getElem?_set_ne (Ne.symm he), List.getD_eq_getElem?_getD]
  refine ⟨List.length_set, hne, fun e q => ?_⟩
  by_cases he : e = d
  · subst he
    simp only [node, List.getD_eq_getElem?_getD, List.getElem?_set_self hd, Option.getD_some, hlevel,
      BTreeMap.get_insert, true_and]
  · rw [node, hne e he, if_neg (fun h => he h.1), node]

theorem exists_insert (hd : d < levels.length) : ∃ levels', levels.insert d p x = .ok levels' := by
  rw [Levels.insert, index_of_lt hd]
  exact ⟨_, rfl⟩

end Levels

namespace CoPath

section

variable {α : Type} {children : BTreeMap α} {hash : α → α → Except Error P.InnerDigest} {D : Nat}

/-- The children's positions do not overflow. -/
theorem hashParent_of_lt {levels : Levels P} {p : Nat} (hu : 2 * p + 1 < 2 ^ usizeBits) :
    hashParent children hash D levels p = match children.get (2 * p), children.get (2 * p + 1) with
      | some left, some right => unwrap (hash left right) >>= levels.insert D p
      | _, _ => reject := by
  have hleft : (usizeMul p 2 : Except Exit Nat) = .ok (2 * p) :=
    usizeMul_eq_ok.mpr ⟨by omega, Nat.mul_comm p 2⟩
  have hright : (usizeAdd (2 * p) 1 : Except Exit Nat) = .ok (2 * p + 1) := usizeAdd_eq_ok.mpr ⟨hu, rfl⟩
  rw [hashParent, hleft, Except.ok_bind, Except.ok_bind, hright]
  rfl

theorem hashParent_eq_ok {levels levels' : Levels P} {p : Nat} :
    hashParent children hash D levels p = .ok levels' ↔ 2 * p + 1 < 2 ^ usizeBits ∧
      ∃ l r n, children.get (2 * p) = some l ∧ children.get (2 * p + 1) = some r ∧ hash l r = .ok n ∧
        levels.insert D p n = .ok levels' := by
  simp only [hashParent, bind_eq_ok, usizeMul_eq_ok, usizeAdd_eq_ok]
  constructor
  · rintro ⟨_, ⟨-, rfl⟩, _, ⟨_, ⟨-, rfl⟩, hu, rfl⟩, h⟩
    rw [Nat.mul_comm] at hu h
    split at h
    · rename_i l r hl hr
      rw [bind_eq_ok] at h
      obtain ⟨n, hn, h⟩ := h
      exact ⟨hu, l, r, n, hl, hr, unwrap_eq_ok.mp hn, h⟩
    · exact absurd h reject_ne_ok
  · rintro ⟨hu, l, r, n, hl, hr, hn, h⟩
    refine ⟨p * 2, ⟨by omega, rfl⟩, p * 2 + 1, ⟨p * 2, ⟨by omega, rfl⟩, by omega, rfl⟩, ?_⟩
    rw [Nat.mul_comm p 2, hl, hr]
    simp only [hn, unwrap_ok, Except.ok_bind]
    exact h

theorem foldlM_hashParent_spec {parents : List Nat} {levels levels' : Levels P}
    (h : parents.foldlM (hashParent children hash D) levels = .ok levels') :
    levels'.length = levels.length ∧
      (∀ p ∈ parents, ∃ l r n, children.get (2 * p) = some l ∧ children.get (2 * p + 1) = some r ∧
        hash l r = .ok n ∧ levels'.node D p = some n) ∧
      ∀ e q, ¬ (e = D ∧ q ∈ parents) → levels'.node e q = levels.node e q := by
  induction parents generalizing levels with
  | nil =>
    obtain rfl := Except.ok.inj h
    exact ⟨rfl, nofun, fun _ _ _ => rfl⟩
  | cons p parents ih =>
    rw [List.foldlM_cons, bind_eq_ok] at h
    obtain ⟨mid, hmid, h⟩ := h
    obtain ⟨-, l, r, n, hl, hr, hn, hinsert⟩ := hashParent_eq_ok.mp hmid
    obtain ⟨hlen, -, hnode⟩ := Levels.insert_spec hinsert
    obtain ⟨hlen', hon, hoff⟩ := ih h
    refine ⟨hlen'.trans hlen, fun q hq => ?_, fun e q hq => ?_⟩
    · by_cases hrest : q ∈ parents
      · exact hon q hrest
      · obtain rfl := (List.mem_cons.mp hq).resolve_right hrest
        refine ⟨l, r, n, hl, hr, hn, ?_⟩
        rw [hoff D q (fun h => hrest h.2), hnode, if_pos ⟨rfl, rfl⟩]
    · rw [List.mem_cons] at hq
      rw [hoff e q (fun h => hq ⟨h.1, .inr h.2⟩), hnode, if_neg (fun h => hq ⟨h.1, .inl h.2⟩)]

/-- The digest of a parent, where both its children have one. -/
theorem exists_hash (hs : ∀ l r, ∃ n, hash l r = .ok n) {p : Nat}
    (hp : ∀ q, q / 2 = p → ∃ x, children.get q = some x) :
    ∃ l r n, children.get (2 * p) = some l ∧ children.get (2 * p + 1) = some r ∧ hash l r = .ok n := by
  obtain ⟨l, hl⟩ := hp (2 * p) (by omega)
  obtain ⟨r, hr⟩ := hp (2 * p + 1) (by omega)
  obtain ⟨n, hn⟩ := hs l r
  exact ⟨l, r, n, hl, hr, hn⟩

theorem exists_foldlM_hashParent {parents : List Nat} {levels : Levels P} (hD : D < levels.length)
    (hu : ∀ p ∈ parents, 2 * p + 1 < 2 ^ usizeBits)
    (hp : ∀ p ∈ parents, ∃ l r n, children.get (2 * p) = some l ∧ children.get (2 * p + 1) = some r ∧
      hash l r = .ok n) :
    ∃ levels', parents.foldlM (hashParent children hash D) levels = .ok levels' := by
  induction parents generalizing levels with
  | nil => exact ⟨levels, rfl⟩
  | cons p parents ih =>
    obtain ⟨l, r, n, hl, hr, hn⟩ := hp p List.mem_cons_self
    obtain ⟨mid, hinsert⟩ := Levels.exists_insert (p := p) (x := n) hD
    have hmid := hashParent_eq_ok.mpr ⟨hu p List.mem_cons_self, l, r, n, hl, hr, hn, hinsert⟩
    obtain ⟨levels', h⟩ := ih (by rw [(Levels.insert_spec hinsert).1]; exact hD)
      (fun q hq => hu q (List.mem_cons_of_mem _ hq)) (fun q hq => hp q (List.mem_cons_of_mem _ hq))
    exact ⟨levels', by rw [List.foldlM_cons, hmid]; exact h⟩

end

/-- The map of the children stays as it is while the level above is filled. -/
theorem hashLevel_eq {onPath : List (List Nat)} {twoToOneParams : P.TwoToOneParam} {d : Nat}
    {parents : List Nat} (hparents : onPath[d]? = some parents) {levels : Levels P}
    (hd : d + 1 < levels.length) :
    hashLevel onPath twoToOneParams levels (d + 1) =
      parents.foldlM (hashParent (levels.getD (d + 1) .new) (P.compress twoToOneParams) d) levels := by
  have hindex : (index onPath d : Except Exit (List Nat)) = .ok parents := index_eq_ok.mpr hparents
  rw [hashLevel, Nat.add_sub_cancel, hindex, Except.ok_bind]
  generalize hm : levels.getD (d + 1) .new = children
  clear hparents hindex
  induction parents generalizing levels with
  | nil => rfl
  | cons p parents ih =>
    have hchildren : (index levels (d + 1) : Except Exit (BTreeMap P.InnerDigest)) = .ok children := by
      rw [index_of_lt hd, ← hm, List.getD_eq_getElem _ _ hd]
    rw [List.foldlM_cons, List.foldlM_cons, hchildren, Except.ok_bind]
    cases hstep : hashParent children (P.compress twoToOneParams) d levels p with
    | error e => rfl
    | ok mid =>
      obtain ⟨-, l, r, n, -, -, -, hinsert⟩ := hashParent_eq_ok.mp hstep
      obtain ⟨hlen, hget, -⟩ := Levels.insert_spec hinsert
      exact ih (by rw [hlen]; exact hd) (by rw [hget (d + 1) (by omega), hm])

/-! ## The chain to the root -/

section

variable {D : Nat} {indexes : List Nat} {twoToOneParams : P.TwoToOneParam}

theorem range'_reverse_succ (j : Nat) :
    (List.range' 1 (j + 1)).reverse = (j + 1) :: (List.range' 1 j).reverse := by
  rw [List.range'_concat, List.reverse_append, List.reverse_singleton, Nat.one_mul, Nat.add_comm 1 j]
  rfl

/-- Every on-path node above depth `j` is the hash of its children. -/
theorem chain_spec {j : Nat} (hj : j ≤ D) {levels levels' : Levels P} (hl : j < levels.length)
    (h : (List.range' 1 j).reverse.foldlM (hashLevel (computeOnPath D indexes) twoToOneParams) levels =
      .ok levels') :
    (∀ d < j, ∀ p, OnPath D indexes d p → ∃ l r n, levels'.node (d + 1) (2 * p) = some l ∧
      levels'.node (d + 1) (2 * p + 1) = some r ∧ P.compress twoToOneParams l r = .ok n ∧
        levels'.node d p = some n) ∧
      (∀ e q, j ≤ e → levels'.node e q = levels.node e q) ∧
      ∀ e q, e ≤ D → ¬ OnPath D indexes e q → levels'.node e q = levels.node e q := by
  induction j generalizing levels with
  | zero =>
    obtain rfl := Except.ok.inj h
    exact ⟨nofun, fun _ _ _ => rfl, fun _ _ _ _ => rfl⟩
  | succ j ih =>
    rw [range'_reverse_succ, List.foldlM_cons, bind_eq_ok] at h
    obtain ⟨mid, hmid, h⟩ := h
    rw [hashLevel_eq (getElem?_computeOnPath (by omega)) hl] at hmid
    obtain ⟨hlen, hon, hoff⟩ := foldlM_hashParent_spec hmid
    simp only [mem_onLevel (show j ≤ D by omega)] at hon hoff
    obtain ⟨hrec, hbelow, hother⟩ := ih (by omega) (by omega) h
    refine ⟨fun d hd p hp => ?_, fun e q he => ?_, fun e q he hq => ?_⟩
    · by_cases hdj : d = j
      · subst hdj
        obtain ⟨l, r, n, hl, hr, hn, hnode⟩ := hon p hp
        have hchild : ∀ q, levels'.node (d + 1) q = (levels.getD (d + 1) .new).get q := fun q => by
          rw [hbelow (d + 1) q (by omega), hoff (d + 1) q (by omega)]
          rfl
        exact ⟨l, r, n, by rw [hchild, hl], by rw [hchild, hr], hn, by rw [hbelow d p le_rfl, hnode]⟩
      · exact hrec d (by omega) p hp
    · rw [hbelow e q (by omega), hoff e q (by omega)]
    · rw [hother e q he hq, hoff e q (fun h => hq (h.1 ▸ h.2))]

/-- The chain can be computed when the siblings have digests, and the on-path nodes at
its start. -/
theorem exists_chain {j : Nat} (hj : j ≤ D) {levels : Levels P} (hl : j < levels.length)
    (hs : ∀ l r, ∃ n, P.compress twoToOneParams l r = .ok n)
    (hu : ∀ d < j, ∀ p, OnPath D indexes d p → 2 * p + 1 < 2 ^ usizeBits)
    (hstart : ∀ p, OnPath D indexes j p → ∃ x, levels.node j p = some x)
    (hsib : ∀ d < j, ∀ q, OnPath D indexes d (q / 2) → ¬ OnPath D indexes (d + 1) q →
      ∃ x, levels.node (d + 1) q = some x) :
    ∃ levels', (List.range' 1 j).reverse.foldlM (hashLevel (computeOnPath D indexes) twoToOneParams) levels =
      .ok levels' := by
  induction j generalizing levels with
  | zero => exact ⟨levels, rfl⟩
  | succ j ih =>
    have hchild : ∀ q, OnPath D indexes j (q / 2) → ∃ x, (levels.getD (j + 1) .new).get q = some x := by
      intro q hq
      by_cases hon : OnPath D indexes (j + 1) q
      · exact hstart q hon
      · exact hsib j (Nat.lt_succ_self j) q hq hon
    have hparents : ∀ p ∈ onLevel D indexes j, ∃ l r n, (levels.getD (j + 1) .new).get (2 * p) = some l ∧
        (levels.getD (j + 1) .new).get (2 * p + 1) = some r ∧ P.compress twoToOneParams l r = .ok n := by
      intro p hp
      rw [mem_onLevel (by omega)] at hp
      exact exists_hash hs fun q hq => hchild q (hq ▸ hp)
    obtain ⟨mid, hmid⟩ := exists_foldlM_hashParent (show j < levels.length by omega)
      (fun p hp => hu j (Nat.lt_succ_self j) p ((mem_onLevel (by omega)).mp hp)) hparents
    obtain ⟨hlen, hon, hoff⟩ := foldlM_hashParent_spec hmid
    obtain ⟨levels', h⟩ := ih (by omega) (show j < mid.length by omega) (fun d hd => hu d (by omega))
      (fun p hp => by
        obtain ⟨l, r, n, -, -, -, hn⟩ := hon p ((mem_onLevel (by omega)).mpr hp)
        exact ⟨n, hn⟩)
      (fun d hd q hq hq' => by
        obtain ⟨x, hx⟩ := hsib d (by omega) q hq hq'
        refine ⟨x, ?_⟩
        rw [hoff (d + 1) q, hx]
        rintro ⟨hdj, hmem⟩
        exact hq' (hdj ▸ (mem_onLevel (by omega)).mp hmem))
    refine ⟨levels', ?_⟩
    rw [range'_reverse_succ, List.foldlM_cons, hashLevel_eq (getElem?_computeOnPath (by omega)) hl, hmid]
    exact h

end

/-! ## The inner copath -/

theorem foldlM_consumeSibling {d : Nat} (node : Nat → P.InnerDigest) (siblings : List Nat)
    {levels : Levels P} (hd : d < levels.length) (rest : List P.InnerDigest) :
    ∃ levels', siblings.foldlM (consumeSibling d) (levels, siblings.map node ++ rest) =
        .ok (levels', rest) ∧ levels'.length = levels.length ∧
      ∀ e q, levels'.node e q = if e = d ∧ q ∈ siblings then some (node q) else levels.node e q := by
  induction siblings generalizing levels with
  | nil => exact ⟨levels, rfl, rfl, fun e q => by simp⟩
  | cons s siblings ih =>
    obtain ⟨mid, hinsert⟩ := Levels.exists_insert (p := s) (x := node s) hd
    obtain ⟨hlen, -, hnode⟩ := Levels.insert_spec hinsert
    obtain ⟨levels', h, hlen', hnode'⟩ := ih (show d < mid.length by omega)
    refine ⟨levels', ?_, by omega, fun e q => ?_⟩
    · rw [List.foldlM_cons, List.map_cons, List.cons_append]
      simp only [consumeSibling, hinsert, Except.ok_bind, Except.pure_eq_ok]
      exact h
    · rw [hnode', hnode]
      by_cases hrest : e = d ∧ q ∈ siblings
      · rw [if_pos hrest, if_pos ⟨hrest.1, List.mem_cons_of_mem _ hrest.2⟩]
      · rw [if_neg hrest]
        by_cases hs : e = d ∧ q = s
        · rw [if_pos hs, if_pos ⟨hs.1, hs.2 ▸ List.mem_cons_self⟩, hs.2]
        · rw [if_neg hs, if_neg]
          rintro ⟨he, hq⟩
          rcases List.mem_cons.mp hq with hq | hq
          · exact hs ⟨he, hq⟩
          · exact hrest ⟨he, hq⟩

theorem foldlM_consumeLevel {D : Nat} (indexes : List Nat) (node : Nat → Nat → P.InnerDigest)
    (depths : List Nat) {levels : Levels P} (hd : ∀ d ∈ depths, d ≤ D ∧ d < levels.length) (rest : List P.InnerDigest) :
    ∃ levels', depths.foldlM (consumeLevel (computeOnPath D indexes))
        (levels, (depths.flatMap fun d => (neededSiblings (onLevel D indexes d)).map (node d)) ++ rest) =
        .ok (levels', rest) ∧ levels'.length = levels.length ∧
      ∀ e q, levels'.node e q = if e ∈ depths ∧ q ∈ neededSiblings (onLevel D indexes e)
        then some (node e q) else levels.node e q := by
  induction depths generalizing levels with
  | nil => exact ⟨levels, rfl, rfl, fun e q => by simp⟩
  | cons d depths ih =>
    obtain ⟨hdD, hdl⟩ := hd d List.mem_cons_self
    obtain ⟨mid, hmid, hlen, hnode⟩ := foldlM_consumeSibling (node d) (neededSiblings (onLevel D indexes d))
      hdl ((depths.flatMap fun d => (neededSiblings (onLevel D indexes d)).map (node d)) ++ rest)
    have hd' : ∀ e ∈ depths, e ≤ D ∧ e < mid.length := fun e he => by
      rw [hlen]; exact hd e (List.mem_cons_of_mem _ he)
    obtain ⟨levels', h, hlen', hnode'⟩ := ih hd'
    refine ⟨levels', ?_, by omega, fun e q => ?_⟩
    · rw [List.foldlM_cons, List.flatMap_cons, List.append_assoc, consumeLevel, index_computeOnPath hdD,
        Except.ok_bind, hmid]
      exact h
    · rw [hnode', hnode]
      by_cases hrest : e ∈ depths ∧ q ∈ neededSiblings (onLevel D indexes e)
      · rw [if_pos hrest, if_pos ⟨List.mem_cons_of_mem _ hrest.1, hrest.2⟩]
      · rw [if_neg hrest]
        by_cases he : e = d ∧ q ∈ neededSiblings (onLevel D indexes d)
        · rw [if_pos he, he.1, if_pos ⟨List.mem_cons_self, he.2⟩]
        · rw [if_neg he, if_neg]
          rintro ⟨hmem, hq⟩
          rcases List.mem_cons.mp hmem with hed | hmem
          · exact he ⟨hed, hed ▸ hq⟩
          · exact hrest ⟨hmem, hq⟩

/-- As many levels, with the same map at depth 0. -/
def SameTop (levels levels' : Levels P) : Prop :=
  levels'.length = levels.length ∧ ∀ q, levels'.node 0 q = levels.node 0 q

theorem SameTop.trans {levels levels' levels'' : Levels P} (h : SameTop levels levels')
    (h' : SameTop levels' levels'') : SameTop levels levels'' :=
  ⟨h'.1.trans h.1, fun q => (h'.2 q).trans (h.2 q)⟩

theorem consumeSibling_sameTop {d : Nat} (hd : 0 < d) {state state' : Levels P × List P.InnerDigest} {s : Nat}
    (h : consumeSibling d state s = .ok state') : SameTop state.1 state'.1 := by
  unfold consumeSibling at h
  split at h
  · exact absurd h reject_ne_ok
  · rw [bind_eq_ok] at h
    obtain ⟨levels, hinsert, h⟩ := h
    obtain rfl := Except.ok.inj h
    obtain ⟨hlen, -, hnode⟩ := Levels.insert_spec hinsert
    exact ⟨hlen, fun q => by rw [hnode, if_neg fun h => hd.ne h.1]⟩

theorem consumeLevel_sameTop {onPath : List (List Nat)} {d : Nat} (hd : 0 < d)
    {state state' : Levels P × List P.InnerDigest} (h : consumeLevel onPath state d = .ok state') :
    SameTop state.1 state'.1 := by
  rw [consumeLevel, bind_eq_ok] at h
  obtain ⟨level, -, h⟩ := h
  exact Except.foldlM_induction (P := fun s => SameTop state.1 s.1)
    (fun _ _ _ _ hs hstep => hs.trans (consumeSibling_sameTop hd hstep)) ⟨rfl, fun _ => rfl⟩ h

/-- The inner copath is not written at depth 0. -/
theorem consumeInnerCopath_sameTop {leafDepth : Nat} {onPath : List (List Nat)}
    {innerCopath : List P.InnerDigest} {levels levels' : Levels P}
    (h : consumeInnerCopath leafDepth onPath innerCopath levels = .ok levels') : SameTop levels levels' := by
  simp only [consumeInnerCopath, bind_eq_ok] at h
  obtain ⟨⟨levels₁, copath⟩, hfold, h⟩ := h
  have hkeep := Except.foldlM_induction (P := fun s : Levels P × List P.InnerDigest => SameTop levels s.1)
    (fun _ d hd _ hs hstep => hs.trans (consumeLevel_sameTop (List.mem_range'_1.mp hd).1 hstep))
    ⟨rfl, fun _ => rfl⟩ hfold
  split at h
  · obtain rfl := Except.ok.inj h
    exact hkeep
  · exact absurd h reject_ne_ok

/-- The positions whose digests the inner copath holds, in its order. -/
def innerCoset (D : Nat) (indexes : List Nat) : List (Nat × Nat) :=
  (List.range' 1 (D - 1)).flatMap fun d => (neededSiblings (onLevel D indexes d)).map (d, ·)

theorem mem_innerCoset {D : Nat} {indexes : List Nat} {s : Nat × Nat} :
    s ∈ innerCoset D indexes ↔ s.1 ∈ List.range' 1 (D - 1) ∧ s.2 ∈ neededSiblings (onLevel D indexes s.1) := by
  obtain ⟨d, q⟩ := s
  simp only [innerCoset, List.mem_flatMap, List.mem_map, Prod.mk.injEq]
  exact ⟨fun ⟨_, hd, _, hq, rfl, rfl⟩ => ⟨hd, hq⟩, fun ⟨hd, hq⟩ => ⟨d, hd, q, hq, rfl, rfl⟩⟩

theorem nodup_innerCoset (D : Nat) (indexes : List Nat) : (innerCoset D indexes).Nodup := by
  refine List.nodup_flatMap.mpr ⟨fun d hd => ?_, ?_⟩
  · have hd := List.mem_range'_1.mp hd
    have hlevel : (onLevel D indexes d).Pairwise (· < ·) := pairwise_onLevel (by omega)
    exact (nodup_neededSiblings (hlevel.imp Nat.ne_of_lt)).map (Prod.mk_right_injective d)
  · have hdepths : (List.range' 1 (D - 1)).Nodup := List.nodup_range'
    refine List.Pairwise.imp (fun {d e} hde s hs hs' => hde ?_) hdepths
    obtain ⟨q, -, rfl⟩ := List.mem_map.mp hs
    obtain ⟨q', -, h⟩ := List.mem_map.mp hs'
    exact (congrArg Prod.fst h).symm

/-- Siblings take as many digests from the front of the copath. -/
theorem consumeSibling_copath {d : Nat} {siblings : List Nat} (hn : siblings.Nodup)
    {state state' : Levels P × List P.InnerDigest} (h : siblings.foldlM (consumeSibling d) state = .ok state') :
    (∃ used, state.2 = used ++ state'.2 ∧ used.map some = siblings.map (state'.1.node d)) ∧
      ∀ e q, ¬ (e = d ∧ q ∈ siblings) → state'.1.node e q = state.1.node e q := by
  induction siblings generalizing state with
  | nil =>
    obtain rfl := Except.ok.inj h
    exact ⟨⟨[], rfl, rfl⟩, fun _ _ _ => rfl⟩
  | cons s siblings ih =>
    obtain ⟨hs, hn⟩ := List.nodup_cons.mp hn
    rw [List.foldlM_cons, bind_eq_ok] at h
    obtain ⟨mid, hmid, h⟩ := h
    obtain ⟨⟨used, hused, hval⟩, hoff⟩ := ih hn h
    unfold consumeSibling at hmid
    split at hmid
    · exact absurd hmid reject_ne_ok
    · rename_i digest copath hcopath
      rw [bind_eq_ok] at hmid
      obtain ⟨levels, hinsert, hmid⟩ := hmid
      obtain rfl := Except.ok.inj hmid
      have hnode := (Levels.insert_spec hinsert).2.2
      refine ⟨⟨digest :: used, ?_, ?_⟩, fun e q hq => ?_⟩
      · rw [hcopath, List.cons_append, ← hused]
      · rw [List.map_cons, List.map_cons, hval, hoff d s (fun h => hs h.2), hnode, if_pos ⟨rfl, rfl⟩]
      · rw [List.mem_cons] at hq
        rw [hoff e q (fun h => hq ⟨h.1, .inr h.2⟩), hnode, if_neg (fun h => hq ⟨h.1, .inl h.2⟩)]

theorem consumeLevel_copath {D : Nat} {indexes depths : List Nat} (hn : depths.Nodup) (hd : ∀ d ∈ depths, d ≤ D)
    {state state' : Levels P × List P.InnerDigest}
    (h : depths.foldlM (consumeLevel (computeOnPath D indexes)) state = .ok state') :
    (∃ used, state.2 = used ++ state'.2 ∧ used.map some =
      (depths.flatMap fun d => (neededSiblings (onLevel D indexes d)).map (d, ·)).map fun s =>
        state'.1.node s.1 s.2) ∧
      ∀ e q, e ∉ depths → state'.1.node e q = state.1.node e q := by
  induction depths generalizing state with
  | nil =>
    obtain rfl := Except.ok.inj h
    exact ⟨⟨[], rfl, rfl⟩, fun _ _ _ => rfl⟩
  | cons d depths ih =>
    obtain ⟨hdd, hn⟩ := List.nodup_cons.mp hn
    rw [List.foldlM_cons, bind_eq_ok] at h
    obtain ⟨mid, hmid, h⟩ := h
    obtain ⟨⟨used, hused, hval⟩, hoff⟩ := ih hn (fun e he => hd e (List.mem_cons_of_mem _ he)) h
    rw [consumeLevel, index_computeOnPath (hd d List.mem_cons_self), Except.ok_bind] at hmid
    have hlevel : (onLevel D indexes d).Pairwise (· < ·) := pairwise_onLevel (hd d List.mem_cons_self)
    obtain ⟨⟨used', hused', hval'⟩, hoff'⟩ :=
      consumeSibling_copath (nodup_neededSiblings (hlevel.imp Nat.ne_of_lt)) hmid
    refine ⟨⟨used' ++ used, ?_, ?_⟩, fun e q he => ?_⟩
    · rw [hused', hused, List.append_assoc]
    · rw [List.map_append, List.flatMap_cons, List.map_append, hval, hval', List.map_map]
      refine congrArg (· ++ _) (List.map_congr_left fun q _ => ?_)
      exact (hoff d q hdd).symm
    · rw [List.mem_cons, not_or] at he
      rw [hoff e q he.2, hoff' e q fun h => he.1 h.1]

/-- The siblings have the digests of the copath, all of them, in their order. -/
theorem consumeInnerCopath_copath {D : Nat} {indexes : List Nat} {innerCopath : List P.InnerDigest}
    {levels levels' : Levels P}
    (h : consumeInnerCopath D (computeOnPath D indexes) innerCopath levels = .ok levels') :
    innerCopath.map some = (innerCoset D indexes).map fun s => levels'.node s.1 s.2 := by
  simp only [consumeInnerCopath, bind_eq_ok] at h
  obtain ⟨state, hfold, h⟩ := h
  obtain ⟨⟨used, hused, hval⟩, -⟩ := consumeLevel_copath List.nodup_range'
    (fun d hd => by have := List.mem_range'_1.mp hd; omega) hfold
  split at h
  · rename_i hempty
    obtain rfl := Except.ok.inj h
    rw [List.isEmpty_iff.mp hempty, List.append_nil] at hused
    obtain rfl : innerCopath = used := hused
    exact hval
  · exact absurd h reject_ne_ok

/-- The batch proof with given digests at the siblings. -/
def ofLabelling (treeHeight : Nat) (leafIndexes : List Nat) (leaf : Nat → P.LeafDigest)
    (node : Nat → Nat → P.InnerDigest) : CoPath P where
  treeHeight
  leafCopath := (leafCoset (treeHeight - 1) (btreeSet leafIndexes)).map leaf
  innerCopath := (innerCoset (treeHeight - 1) (btreeSet leafIndexes)).map fun s => node s.1 s.2
  leafIndexes

/-- An inner copath with the values of `node` gives the siblings these values. -/
theorem exists_consumeInnerCopath {D : Nat} (indexes : List Nat) (node : Nat → Nat → P.InnerDigest)
    {levels : Levels P} (hl : D ≤ levels.length) :
    ∃ levels', consumeInnerCopath D (computeOnPath D indexes)
        ((innerCoset D indexes).map fun s => node s.1 s.2) levels = .ok levels' ∧
      ∀ e q, levels'.node e q =
        if e ∈ List.range' 1 (D - 1) ∧ q ∈ neededSiblings (onLevel D indexes e)
        then some (node e q) else levels.node e q := by
  have hdepths : ∀ d ∈ List.range' 1 (D - 1), d ≤ D ∧ d < levels.length := fun d hd => by
    have := List.mem_range'_1.mp hd
    omega
  obtain ⟨levels', h, -, hnode⟩ := foldlM_consumeLevel indexes node _ hdepths []
  have hcopath : ((innerCoset D indexes).map fun s => node s.1 s.2) = (List.range' 1 (D - 1)).flatMap
      fun d => (neededSiblings (onLevel D indexes d)).map (node d) := by
    rw [innerCoset, List.map_flatMap]
    simp only [List.map_map, Function.comp_def]
  refine ⟨levels', ?_, hnode⟩
  rw [List.append_nil, ← hcopath] at h
  rw [consumeInnerCopath, h]
  rfl

section

variable {self : CoPath P} {twoToOneParams : P.TwoToOneParam} {k : Nat} {m : BTreeMap P.LeafDigest}

theorem onPath_btreeSet {D d p : Nat} {indexes : List Nat} :
    OnPath D (btreeSet indexes) d p ↔ OnPath D indexes d p :=
  OnPath.congr fun _ => mem_btreeSet

theorem node_replicate (n e q : Nat) :
    Levels.node (List.replicate n (BTreeMap.new : BTreeMap P.InnerDigest)) e q = none := by
  rw [Levels.node, List.getD_eq_getElem?_getD, List.getElem?_replicate]
  split <;> rfl

/-- The levels are those of the copath, but for the nodes above the indexes, each the hash of its
children. -/
theorem innerLevels_spec (hk : self.treeHeight = k + 2) {levels : Levels P}
    (h : self.innerLevels twoToOneParams m = .ok levels) :
    ∃ levels₁, consumeInnerCopath (k + 1) (computeOnPath (k + 1) (btreeSet self.leafIndexes)) self.innerCopath
        (List.replicate (k + 2) BTreeMap.new) = .ok levels₁ ∧
      Opening (P.hashing twoToOneParams) k (OnPath (k + 1) self.leafIndexes) m.get levels.node ∧
      ∀ e q, e ≤ k + 1 → ¬ OnPath (k + 1) self.leafIndexes e q → levels.node e q = levels₁.node e q := by
  simp only [innerLevels, bind_eq_ok, hk, show k + 2 - 1 = k + 1 by omega] at h
  obtain ⟨levels₁, h₁, levels₂, h₂, h₃⟩ := h
  rw [verifyAndHashBottomLayer, Nat.add_sub_cancel, index_computeOnPath (by omega), Except.ok_bind] at h₂
  rw [verifyAndHashInnerChain, Nat.add_sub_cancel] at h₃
  have hlen₁ := (consumeInnerCopath_sameTop h₁).1
  rw [List.length_replicate] at hlen₁
  obtain ⟨hlen₂, hon, hoff⟩ := foldlM_hashParent_spec h₂
  simp only [mem_onLevel (show k ≤ k + 1 by omega)] at hon hoff
  obtain ⟨hchain, hbelow, hother⟩ := chain_spec (by omega) (by omega) h₃
  simp only [onPath_btreeSet] at hon hoff hchain hother
  refine ⟨levels₁, h₁, ⟨fun p hp => ?_, hchain⟩, fun e q he hq => ?_⟩
  · obtain ⟨l, r, n, hl, hr, hn, hnode⟩ := hon p hp
    exact ⟨l, r, n, hl, hr, hn, by rw [hbelow k p le_rfl, hnode]⟩
  · rw [hother e q he hq, hoff e q fun h => hq (h.1 ▸ h.2)]

/-- The levels are an opening of the positions above the indexes. The root has a digest
only where it is above one of them. -/
theorem innerLevels_opening (hk : self.treeHeight = k + 2) {levels : Levels P}
    (h : self.innerLevels twoToOneParams m = .ok levels) :
    Opening (P.hashing twoToOneParams) k (OnPath (k + 1) self.leafIndexes) m.get levels.node ∧
      (¬ OnPath (k + 1) self.leafIndexes 0 0 → levels.node 0 0 = none) := by
  obtain ⟨levels₁, h₁, hopening, hoff⟩ := innerLevels_spec hk h
  refine ⟨hopening, fun hroot => ?_⟩
  rw [hoff 0 0 (by omega) hroot, (consumeInnerCopath_sameTop h₁).2 0, node_replicate]

/-- The siblings have the digests of the inner copath. -/
theorem innerLevels_copath (hk : self.treeHeight = k + 2) {levels : Levels P}
    (h : self.innerLevels twoToOneParams m = .ok levels) :
    self.innerCopath.map some =
      (innerCoset (k + 1) (btreeSet self.leafIndexes)).map fun s => levels.node s.1 s.2 := by
  obtain ⟨levels₁, h₁, -, hoff⟩ := innerLevels_spec hk h
  rw [consumeInnerCopath_copath h₁]
  refine List.map_congr_left fun s hs => ?_
  obtain ⟨hd, hq⟩ := mem_innerCoset.mp hs
  have hd := List.mem_range'_1.mp hd
  have hoffPath := (mem_neededSiblings (pairwise_onLevel (by omega))).mp hq |>.2
  rw [mem_onLevel (by omega), onPath_btreeSet] at hoffPath
  exact (hoff s.1 s.2 (by omega) hoffPath).symm

/-- An inner copath with the values of `node` gives levels with these values at the
siblings. -/
theorem exists_innerLevels (hk : self.treeHeight = k + 2)
    (hs : (P.hashing twoToOneParams).Total) (hu : ∀ i ∈ self.leafIndexes, i < 2 ^ usizeBits)
    (hm : ∀ q, OnPath (k + 1) self.leafIndexes k (q / 2) → ∃ x, m.get q = some x)
    (node : Nat → Nat → P.InnerDigest)
    (hc : self.innerCopath = (innerCoset (k + 1) (btreeSet self.leafIndexes)).map fun s => node s.1 s.2) :
    ∃ levels, self.innerLevels twoToOneParams m = .ok levels ∧
      ∀ d < k, ∀ q, OnPath (k + 1) self.leafIndexes d (q / 2) →
        ¬ OnPath (k + 1) self.leafIndexes (d + 1) q → levels.node (d + 1) q = some (node (d + 1) q) := by
  have hbound : ∀ d < k + 1, ∀ p, OnPath (k + 1) self.leafIndexes d p → 2 * p + 1 < 2 ^ usizeBits :=
    fun d hd p hp => child_lt_of_onPath hu hd hp
  have hlen₀ : k + 1 ≤ (List.replicate (k + 2) (BTreeMap.new : BTreeMap P.InnerDigest)).length := by
    rw [List.length_replicate]
    exact Nat.le_succ (k + 1)
  obtain ⟨levels₁, h₁, hnode₁⟩ := exists_consumeInnerCopath (btreeSet self.leafIndexes) node hlen₀
  have hlen₁ := (consumeInnerCopath_sameTop h₁).1
  rw [List.length_replicate] at hlen₁
  have hparents : ∀ p ∈ onLevel (k + 1) (btreeSet self.leafIndexes) k, ∃ l r n,
      m.get (2 * p) = some l ∧ m.get (2 * p + 1) = some r ∧
        P.evaluateConverted twoToOneParams l r = .ok n := by
    intro p hp
    rw [mem_onLevel (by omega), onPath_btreeSet] at hp
    exact exists_hash hs.bottom fun q hq => hm q (hq ▸ hp)
  obtain ⟨levels₂, h₂⟩ := exists_foldlM_hashParent (show k < levels₁.length by omega)
    (fun p hp => hbound k (by omega) p (onPath_btreeSet.mp ((mem_onLevel (by omega)).mp hp))) hparents
  obtain ⟨hlen₂, hon₂, hoff₂⟩ := foldlM_hashParent_spec h₂
  simp only [mem_onLevel (show k ≤ k + 1 by omega), onPath_btreeSet] at hon₂ hoff₂
  have hsib₂ : ∀ d < k, ∀ q, OnPath (k + 1) self.leafIndexes d (q / 2) →
      ¬ OnPath (k + 1) self.leafIndexes (d + 1) q → levels₂.node (d + 1) q = some (node (d + 1) q) := by
    intro d hd q hq hq'
    have hneeded : q ∈ neededSiblings (onLevel (k + 1) (btreeSet self.leafIndexes) (d + 1)) := by
      rw [mem_neededSiblings (pairwise_onLevel (by omega)), mem_onLevel (by omega),
        mem_onLevel (by omega), onPath_btreeSet, onPath_btreeSet]
      exact ⟨hq.sibling (by omega) hq', hq'⟩
    rw [hoff₂ (d + 1) q (fun h => hq' (h.1 ▸ h.2)), hnode₁,
      if_pos ⟨List.mem_range'_1.mpr (by omega), hneeded⟩]
  have hstart : ∀ p, OnPath (k + 1) (btreeSet self.leafIndexes) k p → ∃ x, levels₂.node k p = some x := by
    intro p hp
    obtain ⟨l, r, n, -, -, -, hn⟩ := hon₂ p (onPath_btreeSet.mp hp)
    exact ⟨n, hn⟩
  obtain ⟨levels₃, h₃⟩ := exists_chain (by omega) (show k < levels₂.length by omega) hs.inner
    (fun d hd p hp => hbound d (by omega) p (onPath_btreeSet.mp hp)) hstart
    (fun d hd q hq hq' => ⟨_, hsib₂ d hd q (onPath_btreeSet.mp hq) (fun h => hq' (onPath_btreeSet.mpr h))⟩)
  obtain ⟨-, -, hother⟩ := chain_spec (by omega) (show k < levels₂.length by omega) h₃
  refine ⟨levels₃, ?_, fun d hd q hq hq' => ?_⟩
  · simp only [innerLevels, hk, show k + 2 - 1 = k + 1 by omega, hc, h₁, Except.ok_bind,
      verifyAndHashBottomLayer, Nat.add_sub_cancel, index_computeOnPath (show k ≤ k + 1 by omega), h₂,
      verifyAndHashInnerChain]
    exact h₃
  · rw [hother (d + 1) q (by omega) (fun h => hq' (onPath_btreeSet.mp h)), hsib₂ d hd q hq hq']

end

end CoPath

end CryptoPrimitives.Merkle
