import Mathlib.Data.Nat.Bitwise
import Mathlib.Data.Nat.Log
import Mathlib.Tactic.Ring

/-!
# Node indexes

The functions of `merkle_tree/mod.rs` on indexes, in the source's order, and
what they are at depth `d` and position `p`: the node at `levelIndex d p` has its
parent, sibling and children at `levelIndex` of the neighbouring depths
(`parent_levelIndex`, `sibling_levelIndex`, `leftChild_levelIndex`), and every
index below `2 ^ (k + 1) - 1` is a `levelIndex d p` (`exists_levelIndex`). The
steps to the parent from a leaf are at the positions above it, one at each depth
(`ancestor_levelIndex`), and end at the root (`ancestor_eq_root_iff`).
-/

namespace CryptoPrimitives.Merkle

/-- `usize::is_power_of_two`. -/
def isPowerOfTwo (x : Nat) : Bool := x == 2 ^ x.log2

/-- `ark_std::log2`: the logarithm rounded up. -/
def log2 (x : Nat) : Nat :=
  if x = 0 then 0
  else if isPowerOfTwo x then x.log2
  else x.log2 + 1

/-- The height of the tree, given the number of leaves. -/
def treeHeight (numLeaves : Nat) : Nat :=
  if numLeaves = 1 then 1 else log2 numLeaves + 1

/-- The heap index of the node at a depth and position. -/
def levelIndex (depth pos : Nat) : Nat := ((1 <<< depth) - 1) + pos

def isRoot (index : Nat) : Bool := index == 0

def leftChild (index : Nat) : Nat := 2 * index + 1

def rightChild (index : Nat) : Nat := 2 * index + 2

def isLeftChild (index : Nat) : Bool := index % 2 == 1

def sibling (index : Nat) : Option Nat :=
  if index = 0 then none
  else if isLeftChild index then some (index + 1)
  else some (index - 1)

def parent (index : Nat) : Option Nat :=
  if index > 0 then some ((index - 1) >>> 1) else none

def convertIndexToLastLevel (index treeHeight : Nat) : Nat :=
  index + (1 <<< (treeHeight - 1)) - 1

/-! ## Heights -/

@[simp] theorem log2_two_pow (k : Nat) : log2 (2 ^ k) = k := by
  simp [log2, isPowerOfTwo, Nat.log2_two_pow]

theorem isPowerOfTwo_iff {x : Nat} : isPowerOfTwo x = true ↔ ∃ k, x = 2 ^ k := by
  constructor
  · intro h
    exact ⟨x.log2, by simpa [isPowerOfTwo] using h⟩
  · rintro ⟨k, rfl⟩
    simp [isPowerOfTwo, Nat.log2_two_pow]

theorem treeHeight_two_pow (k : Nat) : treeHeight (2 ^ k) = k + 1 := by
  unfold treeHeight
  split
  · rename_i h
    obtain rfl : k = 0 := by simpa using h
    rfl
  · rw [log2_two_pow]

/-! ## Depths and positions -/

theorem levelIndex_eq (d p : Nat) : levelIndex d p = 2 ^ d - 1 + p := by
  rw [levelIndex, Nat.one_shiftLeft]

@[simp] theorem levelIndex_zero_zero : levelIndex 0 0 = 0 := rfl

theorem levelIndex_pos {d : Nat} (p : Nat) : 0 < levelIndex (d + 1) p := by
  have := Nat.one_lt_two_pow (n := d + 1) (by omega)
  rw [levelIndex_eq]; omega

theorem levelIndex_lt {d k p : Nat} (hd : d ≤ k) (hp : p < 2 ^ d) : levelIndex d p < 2 ^ (k + 1) - 1 := by
  have h1 := Nat.pow_le_pow_right (n := 2) (by decide) hd
  have h2 := Nat.two_pow_pos d
  rw [levelIndex_eq, pow_succ]; omega

theorem leftChild_levelIndex (d p : Nat) : leftChild (levelIndex d p) = levelIndex (d + 1) (2 * p) := by
  have h := Nat.two_pow_pos d
  rw [leftChild, levelIndex_eq, levelIndex_eq, pow_succ]; omega

theorem parent_levelIndex (d p : Nat) : parent (levelIndex (d + 1) p) = some (levelIndex d (p / 2)) := by
  have h := Nat.two_pow_pos d
  rw [parent, if_pos (levelIndex_pos p), levelIndex_eq, levelIndex_eq,
    pow_succ, Nat.shiftRight_one]
  congr 1; omega

/-- A step up uses up fuel for the nodes above. -/
theorem levelIndex_half_le {d p fuel : Nat} (h : levelIndex (d + 1) p ≤ fuel + 1) :
    levelIndex d (p / 2) ≤ fuel := by
  have h2 := Nat.two_pow_pos d
  rw [levelIndex_eq, pow_succ] at h
  rw [levelIndex_eq]; omega

theorem isLeftChild_levelIndex (d p : Nat) : isLeftChild (levelIndex (d + 1) p) = (p % 2 == 0) := by
  have h := Nat.two_pow_pos d
  rw [isLeftChild, levelIndex_eq, pow_succ, Bool.eq_iff_iff, beq_iff_eq, beq_iff_eq]; omega

/-- The sibling's position differs in the last bit. -/
theorem xor_one_eq (p : Nat) : p ^^^ 1 = if p % 2 = 0 then p + 1 else p - 1 := by
  split
  · rename_i h; rw [Nat.xor_one_of_even (Nat.even_iff.mpr h)]
  · rename_i h; rw [Nat.xor_one_of_odd (Nat.odd_iff.mpr (by omega))]

theorem sibling_levelIndex (d p : Nat) :
    sibling (levelIndex (d + 1) p) = some (levelIndex (d + 1) (p ^^^ 1)) := by
  have h := Nat.two_pow_pos d
  have h0 := levelIndex_pos (d := d) p
  rw [sibling, if_neg h0.ne', isLeftChild_levelIndex, xor_one_eq]
  simp only [beq_iff_eq, levelIndex_eq, pow_succ]
  split <;> congr 1; omega

@[simp] theorem isRoot_levelIndex_succ (d p : Nat) : isRoot (levelIndex (d + 1) p) = false := by
  simp [isRoot, (levelIndex_pos p).ne']

theorem convertIndexToLastLevel_eq (i h : Nat) : convertIndexToLastLevel i h = levelIndex (h - 1) i := by
  have := Nat.two_pow_pos (h - 1)
  rw [convertIndexToLastLevel, levelIndex_eq, Nat.one_shiftLeft]; omega

theorem levelIndex_inj {d p d' p' : Nat} (hp : p < 2 ^ d) (hp' : p' < 2 ^ d')
    (h : levelIndex d p = levelIndex d' p') : d = d' ∧ p = p' := by
  rw [levelIndex_eq, levelIndex_eq] at h
  have hd := Nat.two_pow_pos d
  have hd' := Nat.two_pow_pos d'
  obtain rfl : d = d' := by
    rcases Nat.lt_trichotomy d d' with hlt | rfl | hlt
    · have := Nat.pow_le_pow_right (n := 2) (by decide) hlt
      rw [pow_succ] at this; omega
    · rfl
    · have := Nat.pow_le_pow_right (n := 2) (by decide) hlt
      rw [pow_succ] at this; omega
  exact ⟨rfl, by omega⟩

/-- Every heap index of the first `k + 1` depths is at one of them. -/
theorem exists_levelIndex {k i : Nat} (h : i < 2 ^ (k + 1) - 1) :
    ∃ d ≤ k, ∃ p < 2 ^ d, i = levelIndex d p := by
  have h1 : 2 ^ (i + 1).log2 ≤ i + 1 := Nat.log2_self_le (by omega)
  have h2 : i + 1 < 2 ^ ((i + 1).log2 + 1) := Nat.lt_log2_self
  have hk : (i + 1).log2 < k + 1 := (Nat.log2_lt (by omega)).mpr (by omega)
  rw [pow_succ] at h2
  exact ⟨(i + 1).log2, by omega, i + 1 - 2 ^ (i + 1).log2, by omega, by rw [levelIndex_eq]; omega⟩

/-! ## The walk to the root -/

/-- The node that so many steps to the parent lead to. -/
def ancestor (index : Nat) : Nat → Option Nat
  | 0 => some index
  | n + 1 => ancestor index n >>= parent

theorem ancestor_levelIndex {k d i : Nat} (hd : d ≤ k) :
    ancestor (levelIndex k i) (k - d) = some (levelIndex d (i >>> (k - d))) := by
  induction hn : k - d generalizing d with
  | zero =>
    obtain rfl : d = k := by omega
    rfl
  | succ n ih =>
    have hbelow : k - (d + 1) = n := by omega
    rw [ancestor, ih (by omega) hbelow]
    show parent (levelIndex (d + 1) (i >>> n)) = _
    rw [parent_levelIndex, Nat.shiftRight_succ]

/-- Only the last of the steps is at the root, and there is none after it. -/
theorem ancestor_eq_root_iff {k i : Nat} (hi : i < 2 ^ k) (n : Nat) :
    ancestor (levelIndex k i) n = some 0 ↔ n = k := by
  have hroot : ancestor (levelIndex k i) k = some 0 := by
    have h := ancestor_levelIndex (i := i) (Nat.zero_le k)
    rwa [Nat.sub_zero, Nat.shiftRight_eq_zero i k hi] at h
  have hnone (m : Nat) : ancestor (levelIndex k i) (k + 1 + m) = none := by
    induction m with
    | zero =>
      rw [Nat.add_zero, ancestor, hroot]
      rfl
    | succ m ih =>
      rw [← Nat.add_assoc, ancestor, ih]
      rfl
  constructor
  · intro h
    rcases Nat.lt_trichotomy n k with hlt | rfl | hlt
    · obtain ⟨d, rfl⟩ : ∃ d, k = n + d + 1 := ⟨k - n - 1, by omega⟩
      have hstep := ancestor_levelIndex (k := n + d + 1) (i := i) (d := d + 1) (by omega)
      rw [show n + d + 1 - (d + 1) = n by omega, h, Option.some.injEq] at hstep
      exact absurd hstep (levelIndex_pos _).ne
    · rfl
    · obtain ⟨m, rfl⟩ : ∃ m, n = k + 1 + m := ⟨n - k - 1, by omega⟩
      rw [hnone m] at h
      exact nomatch h
  · rintro rfl
    exact hroot

theorem rightChild_levelIndex (d p : Nat) : rightChild (levelIndex d p) = levelIndex (d + 1) (2 * p + 1) := by
  have h := leftChild_levelIndex d p
  rw [levelIndex_eq, levelIndex_eq, leftChild] at h
  rw [rightChild, levelIndex_eq, levelIndex_eq]
  omega

/-- For every depth and position: the heap indexes of the parent, the sibling and the children are those of
the positions next to it, below the number of the nodes so far, and the root alone has neither parent nor
sibling. For every number of leaves, the walk from each leaf visits the positions above it, and is at
the root after one step less than the height, and then only. -/
theorem levelIndex_addresses :
    (∀ d p, p < 2 ^ d → levelIndex d p < 2 ^ (d + 1) - 1 ∧
      parent (levelIndex d p) = (if d = 0 then none else some (levelIndex (d - 1) (p >>> 1))) ∧
      sibling (levelIndex d p) = (if d = 0 then none else some (levelIndex d (p ^^^ 1))) ∧
      leftChild (levelIndex d p) = levelIndex (d + 1) (2 * p) ∧
      rightChild (levelIndex d p) = levelIndex (d + 1) (2 * p + 1) ∧
      (1 ≤ d → (isLeftChild (levelIndex d p) = true ↔ p % 2 = 0))) ∧
    (∀ i h, convertIndexToLastLevel i h = levelIndex (h - 1) i) ∧
    (∀ k, treeHeight (2 ^ k) = k + 1) ∧
    ∀ k i, i < 2 ^ k →
      (∀ d ≤ treeHeight (2 ^ k) - 1,
        ancestor (convertIndexToLastLevel i (treeHeight (2 ^ k))) (treeHeight (2 ^ k) - 1 - d) =
          some (levelIndex d (i >>> (treeHeight (2 ^ k) - 1 - d)))) ∧
      ∀ n, ancestor (convertIndexToLastLevel i (treeHeight (2 ^ k))) n = some 0 ↔ n = treeHeight (2 ^ k) - 1 := by
  refine ⟨fun d p hp => ?_, convertIndexToLastLevel_eq, treeHeight_two_pow, fun k i hi => ?_⟩
  · refine ⟨levelIndex_lt le_rfl hp, ?_, ?_, leftChild_levelIndex d p, rightChild_levelIndex d p, ?_⟩
    · cases d with
      | zero =>
        obtain rfl : p = 0 := Nat.lt_one_iff.mp hp
        rfl
      | succ d => rw [parent_levelIndex, if_neg (Nat.succ_ne_zero d), Nat.shiftRight_one, Nat.add_sub_cancel]
    · cases d with
      | zero =>
        obtain rfl : p = 0 := Nat.lt_one_iff.mp hp
        rfl
      | succ d => rw [sibling_levelIndex, if_neg (Nat.succ_ne_zero d)]
    · intro hd
      obtain ⟨e, rfl⟩ := Nat.exists_eq_add_of_le' hd
      rw [isLeftChild_levelIndex, beq_iff_eq]
  · rw [treeHeight_two_pow, convertIndexToLastLevel_eq, Nat.add_sub_cancel]
    exact ⟨fun d hd => ancestor_levelIndex hd, ancestor_eq_root_iff hi⟩

end CryptoPrimitives.Merkle
