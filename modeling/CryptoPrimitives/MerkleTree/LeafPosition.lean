import CryptoPrimitives.MerkleTree.Constraints
import CryptoPrimitives.Framework.Digits

/-!
# The leaf position of a path gadget

`PathVar::set_leaf_position` and `get_leaf_position` of
`merkle_tree/constraints.rs`. The position is little-endian, its first bit the
leaf's own; the path is kept from the root down.

* `getLeafPosition_of_set`: the position read back is the one set, brought to one
  bit for each level.
* `represents_of_position`: a gadget whose position has the low bits of `i` is
  that of the native path at index `i`.
* `setLeafPosition_exact`: so the root is then computed for the index that the new
  bits stand for.
-/

namespace CryptoPrimitives.Merkle

open Synthesis (Computes)
open Digits (ofBits map_testBit_ofBits)

variable {P : Config} {PG : ConfigGadget P}

namespace PathVar

/-- `PathVar::set_leaf_position`. -/
def setLeafPosition (self : PathVar PG) (leafIndex : List Boolean) : Outcome (PathVar PG) :=
  match leafIndex with
  -- `remove(0)` of an empty vector
  | [] => raise (.panic .indexOutOfBounds)
  | leafIsRightChild :: path =>
    let path :=
      if path.length < self.authPath.length then
        path ++ (List.range (self.authPath.length - path.length)).map fun _ => Boolean.constant false
      else path
    let path := path.take self.authPath.length
    .ok { self with path := path.reverse, leafIsRightChild }

/-- `PathVar::get_leaf_position`. -/
def getLeafPosition (self : PathVar PG) : List Boolean := self.leafIsRightChild :: self.path.reverse

/-- The native path of the gadget's digests, at an index. -/
def nativePath (self : PathVar PG) (leafIndex : Nat) : Path P where
  leafSiblingHash := PG.leafDigestValue self.leafSibling
  authPath := self.authPath.map PG.innerDigestValue
  leafIndex := leafIndex

/-- The root of the gadget is the final node of the native path at an index. -/
def RootIsNative (self : PathVar PG) (leafIndex : Nat) : Prop :=
  ∀ leafParams twoToOneParams leaf n,
    (self.nativePath leafIndex).finalNode (PG.leafParamValue leafParams)
      (PG.twoToOneParamValue twoToOneParams) (PG.leafValue leaf) = .ok n →
    Computes (self.calculateRoot leafParams twoToOneParams leaf) fun v => PG.innerDigestValue v = n

/-- A little-endian position, cut or filled with constant zeros. -/
def fitPosition (levels : Nat) (bits : List Boolean) : List Boolean :=
  (bits ++ List.replicate (levels - bits.length) (Boolean.constant false)).take levels

theorem fitPosition_of_length {levels : Nat} {bits : List Boolean} (h : bits.length = levels) :
    fitPosition levels bits = bits := by
  rw [fitPosition, h, Nat.sub_self, List.replicate_zero, List.append_nil, List.take_of_length_le h.le]

theorem map_value_fitPosition (levels : Nat) (bits : List Boolean) :
    (fitPosition levels bits).map Boolean.value =
      (List.range levels).map (ofBits (bits.map Boolean.value)).testBit := by
  rw [map_testBit_ofBits, fitPosition, List.map_take, List.map_append, List.map_replicate, List.length_map]
  rfl

/-- The new path: the bits above the first, one for each sibling. -/
theorem setLeafPosition_cons (self : PathVar PG) (b : Boolean) (bits : List Boolean) :
    self.setLeafPosition (b :: bits) =
      .ok { self with path := (fitPosition self.authPath.length bits).reverse, leafIsRightChild := b } := by
  unfold setLeafPosition
  by_cases h : bits.length < self.authPath.length
  · simp only [if_pos h, fitPosition, List.map_const', List.length_range]
  · simp only [if_neg h, fitPosition, show self.authPath.length - bits.length = 0 by omega,
      List.replicate_zero, List.append_nil]

theorem fitPosition_cons (levels : Nat) (b : Boolean) (bits : List Boolean) :
    fitPosition (levels + 1) (b :: bits) = b :: fitPosition levels bits := by
  rw [fitPosition, List.length_cons, Nat.add_sub_add_right, List.cons_append, List.take_succ_cons, fitPosition]

/-- Setting a position keeps the digests, and the position is read back fitted to
the path. -/
theorem getLeafPosition_of_set (self : PathVar PG) {bits : List Boolean} (h : bits ≠ []) :
    ∃ v, self.setLeafPosition bits = .ok v ∧ v.authPath = self.authPath ∧ v.leafSibling = self.leafSibling ∧
      v.getLeafPosition = fitPosition (self.authPath.length + 1) bits := by
  obtain ⟨b, bits, rfl⟩ := List.exists_cons_of_ne_nil h
  refine ⟨_, self.setLeafPosition_cons b bits, rfl, rfl, ?_⟩
  rw [getLeafPosition, List.reverse_reverse, fitPosition_cons]

/-- A position with the low bits of `i` is that of the native path at `i`. -/
theorem represents_of_position {self : PathVar PG} {i : Nat}
    (h : self.getLeafPosition.map Boolean.value = (List.range (self.authPath.length + 1)).map i.testBit) :
    self.Represents (self.nativePath i) := by
  rw [getLeafPosition, List.map_cons, List.range_succ_eq_map, List.map_cons, List.map_map, List.cons.injEq,
    List.map_reverse] at h
  refine ⟨rfl, rfl, h.1, ?_⟩
  show self.path.map Boolean.value = ((List.range (self.authPath.map PG.innerDigestValue).length).map _).reverse
  rw [List.length_map, ← List.reverse_reverse (self.path.map _), h.2]
  rfl

/-- After a non-empty position is set, the position read back is that one with as
many bits as the path has levels, and the root is the one of the native path with
the gadget's digests at the index that the bits stand for, those set or those kept. -/
theorem setLeafPosition_exact (hPG : PG.ValueCorrect) (self : PathVar PG) {bits : List Boolean} (h : bits ≠ []) :
    ∃ v, self.setLeafPosition bits = .ok v ∧ v.authPath = self.authPath ∧ v.leafSibling = self.leafSibling ∧
      v.getLeafPosition = fitPosition (self.authPath.length + 1) bits ∧
      (bits.length = self.authPath.length + 1 → v.getLeafPosition = bits) ∧
      v.RootIsNative (ofBits (v.getLeafPosition.map Boolean.value)) ∧
      v.RootIsNative (ofBits (bits.map Boolean.value)) := by
  obtain ⟨v, hv, hauth, hsibling, hget⟩ := self.getLeafPosition_of_set h
  have hroot {i : Nat} (hi : v.getLeafPosition.map Boolean.value =
      (List.range (v.authPath.length + 1)).map i.testBit) : v.RootIsNative i := fun _ _ _ _ hn =>
    calculateRoot_computes hPG (represents_of_position hi) hn
  refine ⟨v, hv, hauth, hsibling, hget, fun hlen => ?_, hroot ?_, hroot ?_⟩
  · rw [hget, fitPosition_of_length hlen]
  · have hlen : (v.getLeafPosition.map Boolean.value).length = v.authPath.length + 1 := by
      rw [hget, hauth, map_value_fitPosition, List.length_map, List.length_range]
    rw [map_testBit_ofBits, ← hlen, Nat.sub_self, List.replicate_zero, List.append_nil, List.take_length]
  · rw [hget, hauth, map_value_fitPosition]

/-- One bit for a path of three levels. -/
theorem setLeafPosition_exact_free :
    ∃ v, (⟨[], [.leaf 2, .leaf 3], .leaf 1, .constant false⟩ : PathVar freeGadget).setLeafPosition [.var true] = .ok v ∧
      v.authPath = [.leaf 2, .leaf 3] ∧ v.leafSibling = .leaf 1 ∧
      v.getLeafPosition = fitPosition 3 [.var true] ∧
      ([Boolean.var true].length = 3 → v.getLeafPosition = [.var true]) ∧
      v.RootIsNative (ofBits (v.getLeafPosition.map Boolean.value)) ∧
      v.RootIsNative (ofBits ([Boolean.var true].map Boolean.value)) :=
  setLeafPosition_exact freeGadget_valueCorrect ⟨[], [.leaf 2, .leaf 3], .leaf 1, .constant false⟩ (by decide)

end PathVar

end CryptoPrimitives.Merkle
