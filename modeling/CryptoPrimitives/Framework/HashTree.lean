import CryptoPrimitives.Framework.Except
import Mathlib.Data.List.Nodup
import Mathlib.Data.Nat.Bitwise
import Mathlib.Tactic.Ring

/-!
# Binary hash trees and their openings

A tree of bottom depth `k` has inner nodes at depths `0` to `k` and leaves below
the nodes at depth `k`. Positions are counted from the left at each depth: the
children of position `p` are `2 * p` and `2 * p + 1`.

* `IsTree H k leaf node`: every inner node is the hash of its children. The
  leaves determine the nodes (`IsTree.unique`), and a node depends only on the
  leaves below it (`IsTree.congr_off`).
* `Opening H k A lv nv`: the nodes at the positions `A`, recomputed from values
  `lv`, `nv` of the positions below them.
* `Opening.sound`: an opening that ends in the root of a tree has the tree's
  values at every position in the tree, or it exhibits a collision at one of
  them (`Opening.Collides`).
* `Opening.exact`: an opening of a tree's values ends in the tree's root.
* `Opening.agree`: two openings that end in the same root have the same values
  below the positions, or they exhibit a collision (`Opening.Conflict`).
* `perm_leavesBelow`: the siblings of the positions on some paths, that are not
  on a path, cover the other leaves, each of them once.
* `Hashing.pathNodes`: the nodes from a leaf to the root, recomputed with given
  siblings. They are an opening (`PathRun.opening`), and written over the nodes
  of a tree they give the tree with that leaf (`IsTree.update`).
-/

namespace HashTree

variable {ε L N : Type}

/-- The digest of two leaves, and of two inner nodes. -/
structure Hashing (ε L N : Type) where
  bottom : L → L → Except ε N
  inner : N → N → Except ε N

/-- Two distinct pairs with the same digest. -/
inductive Hashing.Collision (H : Hashing ε L N) : Prop where
  | bottom {l r l' r' : L} {n : N} : (l, r) ≠ (l', r') → H.bottom l r = .ok n →
      H.bottom l' r' = .ok n → H.Collision
  | inner {l r l' r' n : N} : (l, r) ≠ (l', r') → H.inner l r = .ok n →
      H.inner l' r' = .ok n → H.Collision

/-- Every node of a tree is the hash of its children. -/
structure IsTree (H : Hashing ε L N) (k : Nat) (leaf : Nat → L) (node : Nat → Nat → N) : Prop where
  bottom : ∀ p < 2 ^ k, H.bottom (leaf (2 * p)) (leaf (2 * p + 1)) = .ok (node k p)
  inner : ∀ d < k, ∀ p < 2 ^ d, H.inner (node (d + 1) (2 * p)) (node (d + 1) (2 * p + 1)) = .ok (node d p)

/-- Induction on the depth, from the bottom up. -/
theorem bottomUp {k : Nat} {P : Nat → Prop} (bottom : P k) (step : ∀ d < k, P (d + 1) → P d) :
    ∀ d ≤ k, P d := fun _ hd => Nat.decreasingInduction' (fun j hj _ => step j hj) hd bottom

theorem double_lt {d p : Nat} (hp : p < 2 ^ d) : 2 * p < 2 ^ (d + 1) := by
  rw [pow_succ]; omega

theorem double_succ_lt {d p : Nat} (hp : p < 2 ^ d) : 2 * p + 1 < 2 ^ (d + 1) := by
  rw [pow_succ]; omega

theorem half_lt {d p : Nat} (hp : p < 2 ^ (d + 1)) : p / 2 < 2 ^ d := by
  rw [pow_succ] at hp; omega

section Tree

variable {H : Hashing ε L N} {k : Nat} {leaf leaf' : Nat → L} {node node' : Nat → Nat → N}

/-- A node depends only on the leaves below it: trees whose leaves agree off the
positions `A` agree on the nodes off `A`, when `A` holds the parents of its
positions. -/
theorem IsTree.congr_off (h : IsTree H k leaf node) (h' : IsTree H k leaf' node')
    {A : Nat → Nat → Prop} (hA : ∀ d ≤ k, ∀ p, A (d + 1) p → A d (p / 2))
    (hleaf : ∀ p < 2 ^ (k + 1), ¬ A (k + 1) p → leaf' p = leaf p) :
    ∀ d ≤ k, ∀ p < 2 ^ d, ¬ A d p → node' d p = node d p := by
  have child {d p c : Nat} (hd : d ≤ k) (hc : c < 2) (hp : ¬ A d p) : ¬ A (d + 1) (2 * p + c) :=
    fun h => hp (by have := hA d hd _ h; rwa [show (2 * p + c) / 2 = p by omega] at this)
  refine bottomUp (fun p hp hpA => ?_) (fun d hd ih p hp hpA => ?_)
  · have e := h'.bottom p hp
    rw [hleaf (2 * p) (double_lt hp) (child (c := 0) le_rfl (by decide) hpA),
      hleaf _ (double_succ_lt hp) (child le_rfl (by decide) hpA), h.bottom p hp] at e
    exact (Except.ok.inj e).symm
  · have e := h'.inner d hd p hp
    rw [ih (2 * p) (double_lt hp) (child (c := 0) hd.le (by decide) hpA),
      ih _ (double_succ_lt hp) (child hd.le (by decide) hpA), h.inner d hd p hp] at e
    exact (Except.ok.inj e).symm

/-- The leaves determine the nodes. -/
theorem IsTree.unique (h : IsTree H k leaf node) (h' : IsTree H k leaf' node')
    (hleaf : ∀ p < 2 ^ (k + 1), leaf' p = leaf p) : ∀ d ≤ k, ∀ p < 2 ^ d, node' d p = node d p :=
  fun d hd p hp => h.congr_off h' (A := fun _ _ => False) (fun _ _ _ h => h)
    (fun p hp _ => hleaf p hp) d hd p hp not_false

end Tree

/-- Neither hash fails. -/
structure Hashing.Total (H : Hashing ε L N) : Prop where
  bottom : ∀ l r, ∃ n, H.bottom l r = .ok n
  inner : ∀ l r, ∃ n, H.inner l r = .ok n

/-- The node at height `j` above the bottom, at any position. -/
def nodeAbove (bottom : L → L → N) (inner : N → N → N) (leaf : Nat → L) : Nat → Nat → N
  | 0, p => bottom (leaf (2 * p)) (leaf (2 * p + 1))
  | j + 1, p => inner (nodeAbove bottom inner leaf j (2 * p)) (nodeAbove bottom inner leaf j (2 * p + 1))

/-- Hashes that do not fail give nodes over any leaves, also at the positions past
the end of a tree. -/
theorem Hashing.Total.exists_nodes {H : Hashing ε L N} (h : H.Total) (k : Nat) (leaf : Nat → L) :
    ∃ node : Nat → Nat → N, (∀ p, H.bottom (leaf (2 * p)) (leaf (2 * p + 1)) = .ok (node k p)) ∧
      ∀ d < k, ∀ p, H.inner (node (d + 1) (2 * p)) (node (d + 1) (2 * p + 1)) = .ok (node d p) := by
  choose b hb using h.bottom
  choose c hc using h.inner
  refine ⟨fun d => nodeAbove b c leaf (k - d), fun p => ?_, fun d hd p => ?_⟩
  · simp only [Nat.sub_self]
    exact hb _ _
  · simp only [show k - d = k - (d + 1) + 1 by omega]
    exact hc _ _

/-! ## Openings -/

/-- The values `lv` of leaves and `nv` of nodes give, for every position of `A`
at depths `0` to `k`, the values of both children, and at the position their
hash. -/
structure Opening (H : Hashing ε L N) (k : Nat) (A : Nat → Nat → Prop) (lv : Nat → Option L)
    (nv : Nat → Nat → Option N) : Prop where
  bottom : ∀ p, A k p → ∃ l r n, lv (2 * p) = some l ∧ lv (2 * p + 1) = some r ∧
    H.bottom l r = .ok n ∧ nv k p = some n
  inner : ∀ d < k, ∀ p, A d p → ∃ l r n, nv (d + 1) (2 * p) = some l ∧
    nv (d + 1) (2 * p + 1) = some r ∧ H.inner l r = .ok n ∧ nv d p = some n

/-- A position in the tree at which the opening and the tree hash distinct
children to the same digest. -/
inductive Opening.Collides (H : Hashing ε L N) (k : Nat) (A : Nat → Nat → Prop) (lv : Nat → Option L)
    (nv : Nat → Nat → Option N) (leaf : Nat → L) (node : Nat → Nat → N) : Prop where
  | bottom (p : Nat) {l r : L} {n : N} : p < 2 ^ k → A k p → lv (2 * p) = some l →
      lv (2 * p + 1) = some r → (l, r) ≠ (leaf (2 * p), leaf (2 * p + 1)) → H.bottom l r = .ok n →
      H.bottom (leaf (2 * p)) (leaf (2 * p + 1)) = .ok n → Collides H k A lv nv leaf node
  | inner (d p : Nat) {l r n : N} : d < k → p < 2 ^ d → A d p → nv (d + 1) (2 * p) = some l →
      nv (d + 1) (2 * p + 1) = some r → (l, r) ≠ (node (d + 1) (2 * p), node (d + 1) (2 * p + 1)) →
      H.inner l r = .ok n → H.inner (node (d + 1) (2 * p)) (node (d + 1) (2 * p + 1)) = .ok n →
      Collides H k A lv nv leaf node

section Opening

variable {H : Hashing ε L N} {k : Nat} {A : Nat → Nat → Prop} {lv : Nat → Option L}
  {nv : Nat → Nat → Option N} {leaf : Nat → L} {node : Nat → Nat → N}

theorem Opening.Collides.collision (h : Opening.Collides H k A lv nv leaf node) : H.Collision := by
  cases h with
  | bottom p _ _ _ _ hne h h' => exact .bottom hne h h'
  | inner d p _ _ _ _ _ hne h h' => exact .inner hne h h'

/-- One of the children of `p / 2` is `p`. -/
theorem child_eq {α : Type} {v : Nat → Option α} {w : Nat → α} {p : Nat} {l r : α}
    (hl : v (2 * (p / 2)) = some l) (hr : v (2 * (p / 2) + 1) = some r)
    (h : (l, r) = (w (2 * (p / 2)), w (2 * (p / 2) + 1))) : v p = some (w p) := by
  obtain ⟨rfl, rfl⟩ := Prod.mk.inj h
  rcases Nat.mod_two_eq_zero_or_one p with hp | hp
  · rwa [show 2 * (p / 2) = p by omega] at hl
  · rwa [show 2 * (p / 2) + 1 = p by omega] at hr

/-- An opening that ends in the root of a tree has the tree's value at every
opened position of the tree, or exhibits a collision. The tree's values are
carried down from the root: an opened position has an opened parent, and two
equal parents have equal children or collide. -/
theorem Opening.sound (ho : Opening H k A lv nv) (ht : IsTree H k leaf node)
    (hA : ∀ d ≤ k, ∀ p, A (d + 1) p → A d (p / 2)) (hroot : nv 0 0 = some (node 0 0)) :
    ((∀ d ≤ k, ∀ p < 2 ^ d, A d p → nv d p = some (node d p)) ∧
      ∀ p < 2 ^ (k + 1), A (k + 1) p → lv p = some (leaf p)) ∨
    Opening.Collides H k A lv nv leaf node := by
  by_cases hc : Opening.Collides H k A lv nv leaf node
  · exact .inr hc
  have hnode : ∀ d ≤ k, ∀ p < 2 ^ d, A d p → nv d p = some (node d p) := by
    intro d
    induction d with
    | zero =>
      intro _ p hp _
      obtain rfl : p = 0 := by simpa using hp
      exact hroot
    | succ d ih =>
      intro hd p hp hpA
      have hd' : d < k := hd
      obtain ⟨l, r, n, hl, hr, hn, hv⟩ := ho.inner d hd' _ (hA d hd'.le p hpA)
      rw [ih hd'.le _ (half_lt hp) (hA d hd'.le p hpA), Option.some.injEq] at hv
      by_contra hne
      refine hc (.inner d (p / 2) hd' (half_lt hp) (hA d hd'.le p hpA) hl hr
        (fun e => hne (child_eq hl hr e)) (hv ▸ hn) (ht.inner d hd' _ (half_lt hp)))
  refine .inl ⟨hnode, fun p hp hpA => ?_⟩
  obtain ⟨l, r, n, hl, hr, hn, hv⟩ := ho.bottom _ (hA k le_rfl p hpA)
  rw [hnode k le_rfl _ (half_lt hp) (hA k le_rfl p hpA), Option.some.injEq] at hv
  by_contra hne
  exact hc (.bottom (p / 2) (half_lt hp) (hA k le_rfl p hpA) hl hr
    (fun e => hne (child_eq hl hr e)) (hv ▸ hn) (ht.bottom _ (half_lt hp)))

/-- An opening that has a tree's values at the leaves below `A` and at the siblings of
`A` recomputes the tree's values, and exhibits no collision. -/
theorem Opening.exact (ho : Opening H k A lv nv) (ht : IsTree H k leaf node)
    (hleaf : ∀ q < 2 ^ (k + 1), A k (q / 2) → lv q = some (leaf q))
    (hsib : ∀ d < k, ∀ q < 2 ^ (d + 1), A d (q / 2) → ¬ A (d + 1) q →
      nv (d + 1) q = some (node (d + 1) q)) :
    (∀ d ≤ k, ∀ p < 2 ^ d, A d p → nv d p = some (node d p)) ∧
      ¬ Opening.Collides H k A lv nv leaf node := by
  have hleft {p : Nat} : 2 * p / 2 = p := by omega
  have hright {p : Nat} : (2 * p + 1) / 2 = p := by omega
  -- below an opened position is an opened one or a sibling of one
  have hchild {d q : Nat} (hd : d < k) (ih : ∀ p < 2 ^ (d + 1), A (d + 1) p → nv (d + 1) p = some (node (d + 1) p))
      (hq : q < 2 ^ (d + 1)) (hpA : A d (q / 2)) : nv (d + 1) q = some (node (d + 1) q) := by
    by_cases hqA : A (d + 1) q
    · exact ih q hq hqA
    · exact hsib d hd q hq hpA hqA
  have hnode : ∀ d ≤ k, ∀ p < 2 ^ d, A d p → nv d p = some (node d p) := by
    refine bottomUp (fun p hp hpA => ?_) (fun d hd ih p hp hpA => ?_)
    · obtain ⟨l, r, n, hl, hr, hn, hv⟩ := ho.bottom p hpA
      rw [hleaf _ (double_lt hp) (hleft.symm ▸ hpA), Option.some.injEq] at hl
      rw [hleaf _ (double_succ_lt hp) (hright.symm ▸ hpA), Option.some.injEq] at hr
      rw [← hl, ← hr, ht.bottom p hp, Except.ok.injEq] at hn
      rw [hv, hn]
    · obtain ⟨l, r, n, hl, hr, hn, hv⟩ := ho.inner d hd p hpA
      rw [hchild hd ih (double_lt hp) (hleft.symm ▸ hpA), Option.some.injEq] at hl
      rw [hchild hd ih (double_succ_lt hp) (hright.symm ▸ hpA), Option.some.injEq] at hr
      rw [← hl, ← hr, ht.inner d hd p hp, Except.ok.injEq] at hn
      rw [hv, hn]
  refine ⟨hnode, fun hc => ?_⟩
  cases hc with
  | bottom p hp hpA hl hr hne =>
    rw [hleaf _ (double_lt hp) (hleft.symm ▸ hpA), Option.some.injEq] at hl
    rw [hleaf _ (double_succ_lt hp) (hright.symm ▸ hpA), Option.some.injEq] at hr
    exact hne (by rw [hl, hr])
  | inner d p hd hp hpA hl hr hne =>
    rw [hchild hd (hnode (d + 1) hd) (double_lt hp) (hleft.symm ▸ hpA), Option.some.injEq] at hl
    rw [hchild hd (hnode (d + 1) hd) (double_succ_lt hp) (hright.symm ▸ hpA), Option.some.injEq] at hr
    exact hne (by rw [hl, hr])

end Opening

/-- A position at which two openings hash distinct children to the same digest. -/
inductive Opening.Conflict (H : Hashing ε L N) (k : Nat) (A : Nat → Nat → Prop) (lv lv' : Nat → Option L)
    (nv nv' : Nat → Nat → Option N) : Prop where
  | bottom (p : Nat) {l r l' r' : L} {n : N} : A k p → lv (2 * p) = some l → lv (2 * p + 1) = some r →
      lv' (2 * p) = some l' → lv' (2 * p + 1) = some r' → (l, r) ≠ (l', r') → H.bottom l r = .ok n →
      H.bottom l' r' = .ok n → Conflict H k A lv lv' nv nv'
  | inner (d p : Nat) {l r l' r' n : N} : d < k → A d p → nv (d + 1) (2 * p) = some l →
      nv (d + 1) (2 * p + 1) = some r → nv' (d + 1) (2 * p) = some l' → nv' (d + 1) (2 * p + 1) = some r' →
      (l, r) ≠ (l', r') → H.inner l r = .ok n → H.inner l' r' = .ok n → Conflict H k A lv lv' nv nv'

section Agree

variable {H : Hashing ε L N} {k : Nat} {A : Nat → Nat → Prop} {lv lv' : Nat → Option L}
  {nv nv' : Nat → Nat → Option N}

theorem Opening.Conflict.collision (h : Opening.Conflict H k A lv lv' nv nv') : H.Collision := by
  cases h with
  | bottom p _ _ _ _ _ hne h h' => exact .bottom hne h h'
  | inner d p _ _ _ _ _ _ hne h h' => exact .inner hne h h'

/-- Equal pairs of children are equal at each of them. -/
theorem congr_child {α : Type} {v v' : Nat → Option α} {q : Nat} {l r l' r' : α}
    (hl : v (2 * (q / 2)) = some l) (hr : v (2 * (q / 2) + 1) = some r) (hl' : v' (2 * (q / 2)) = some l')
    (hr' : v' (2 * (q / 2) + 1) = some r') (h : (l, r) = (l', r')) : v q = v' q := by
  obtain ⟨rfl, rfl⟩ := Prod.mk.inj h
  rcases Nat.mod_two_eq_zero_or_one q with hq | hq
  · rw [show 2 * (q / 2) = q by omega] at hl hl'
    rw [hl, hl']
  · rw [show 2 * (q / 2) + 1 = q by omega] at hr hr'
    rw [hr, hr']

/-- Two openings of the same positions that end in the same root have the same values below
these positions, or they exhibit a collision. -/
theorem Opening.agree (ho : Opening H k A lv nv) (ho' : Opening H k A lv' nv')
    (hA : ∀ d ≤ k, ∀ p, A (d + 1) p → A d (p / 2)) (hzero : ∀ p, A 0 p → p = 0) (hroot : nv 0 0 = nv' 0 0) :
    ((∀ q, A k (q / 2) → lv q = lv' q) ∧ ∀ d < k, ∀ q, A d (q / 2) → nv (d + 1) q = nv' (d + 1) q) ∨
      Opening.Conflict H k A lv lv' nv nv' := by
  by_cases hc : Opening.Conflict H k A lv lv' nv nv'
  · exact .inr hc
  have hchild : ∀ d < k, (∀ p, A d p → nv d p = nv' d p) → ∀ q, A d (q / 2) → nv (d + 1) q = nv' (d + 1) q := by
    intro d hd heq q hq
    obtain ⟨l, r, n, hl, hr, hn, hv⟩ := ho.inner d hd _ hq
    obtain ⟨l', r', n', hl', hr', hn', hv'⟩ := ho'.inner d hd _ hq
    rw [heq _ hq, hv', Option.some.injEq] at hv
    by_contra hne
    exact hc (.inner d (q / 2) hd hq hl hr hl' hr' (fun e => hne (congr_child hl hr hl' hr' e)) hn (hv ▸ hn'))
  have hnode : ∀ d ≤ k, ∀ p, A d p → nv d p = nv' d p := by
    intro d
    induction d with
    | zero =>
      intro _ p hp
      rw [hzero p hp]
      exact hroot
    | succ d ih => exact fun hd p hp => hchild d hd (ih (by omega)) p (hA d (by omega) p hp)
  refine .inl ⟨fun q hq => ?_, fun d hd => hchild d hd (hnode d hd.le)⟩
  obtain ⟨l, r, n, hl, hr, hn, hv⟩ := ho.bottom _ hq
  obtain ⟨l', r', n', hl', hr', hn', hv'⟩ := ho'.bottom _ hq
  rw [hnode k le_rfl _ hq, hv', Option.some.injEq] at hv
  by_contra hne
  exact hc (.bottom (q / 2) hq hl hr hl' hr' (fun e => hne (congr_child hl hr hl' hr' e)) hn (hv ▸ hn'))

end Agree

/-! ## The path from a leaf to the root -/

/-- The position at depth `d` above position `i` of depth `D`. -/
def anc (D i d : Nat) : Nat := i / 2 ^ (D - d)

@[simp] theorem anc_self (D i : Nat) : anc D i D = i := by simp [anc]

theorem anc_succ {D d : Nat} (i : Nat) (h : d < D) : anc D i d = anc D i (d + 1) / 2 := by
  rw [anc, anc, Nat.div_div_eq_div_mul, ← pow_succ, show D - d = D - (d + 1) + 1 by omega]

/-- The parent of a leaf. -/
theorem anc_parent (k i : Nat) : anc (k + 1) i k = i / 2 := by rw [anc_succ i (Nat.lt_succ_self k), anc_self]

theorem anc_half {D d : Nat} (i : Nat) (h : d ≤ D) : anc D (i / 2) d = anc (D + 1) i d := by
  rw [anc, anc, Nat.div_div_eq_div_mul, ← pow_succ', show D + 1 - d = D - d + 1 by omega]

theorem anc_lt {D d i : Nat} (hi : i < 2 ^ D) (h : d ≤ D) : anc D i d < 2 ^ d := by
  refine Nat.div_lt_of_lt_mul ?_
  rwa [← pow_add, Nat.sub_add_cancel h]

theorem anc_zero {D i : Nat} (hi : i < 2 ^ D) : anc D i 0 = 0 := by
  simpa using anc_lt hi (Nat.zero_le D)

/-- The last bit flipped. -/
theorem xor_one_ne (p : Nat) : p ^^^ 1 ≠ p := fun h => by
  have := congrArg (p ^^^ ·) h
  simp at this

theorem xor_one_xor_one (p : Nat) : p ^^^ 1 ^^^ 1 = p := Nat.xor_xor_cancel_right p 1

/-- The children of `p / 2`, on the two sides of `p`'s last bit. -/
theorem children_even {p : Nat} (h : p % 2 = 0) : 2 * (p / 2) = p ∧ 2 * (p / 2) + 1 = p ^^^ 1 := by
  have := Nat.xor_one_of_even (Nat.even_iff.mpr h)
  omega

theorem children_odd {p : Nat} (h : p % 2 = 1) : 2 * (p / 2) = p ^^^ 1 ∧ 2 * (p / 2) + 1 = p := by
  have := Nat.xor_one_of_odd (Nat.odd_iff.mpr h)
  omega

theorem xor_one_lt {d p : Nat} (h : p < 2 ^ (d + 1)) : p ^^^ 1 < 2 ^ (d + 1) :=
  Nat.xor_lt_two_pow h (Nat.one_lt_two_pow (by omega))

/-! ## The positions above a set of leaves -/

/-- The positions at depth `d` above the positions `I` of depth `D`. -/
def OnPath (D : Nat) (I : List Nat) (d p : Nat) : Prop := ∃ i ∈ I, anc D i d = p

theorem OnPath.parent {D d p : Nat} {I : List Nat} (h : OnPath D I (d + 1) p) (hd : d < D) :
    OnPath D I d (p / 2) := by
  obtain ⟨i, hi, rfl⟩ := h
  exact ⟨i, hi, anc_succ i hd⟩

/-- A position above the leaves is above one of its children. -/
theorem OnPath.child {D d p : Nat} {I : List Nat} (h : OnPath D I d p) (hd : d < D) :
    OnPath D I (d + 1) (2 * p) ∨ OnPath D I (d + 1) (2 * p + 1) := by
  obtain ⟨i, hi, rfl⟩ := h
  rw [anc_succ i hd]
  rcases Nat.mod_two_eq_zero_or_one (anc D i (d + 1)) with h | h
  · exact .inl ⟨i, hi, (children_even h).1.symm⟩
  · exact .inr ⟨i, hi, (children_odd h).2.symm⟩

/-- A child of an on-path position that is not itself on-path has an on-path sibling. -/
theorem OnPath.sibling {D d q : Nat} {I : List Nat} (h : OnPath D I d (q / 2)) (hd : d < D)
    (hq : ¬ OnPath D I (d + 1) q) : OnPath D I (d + 1) (q ^^^ 1) := by
  have hchild := h.child hd
  rcases Nat.mod_two_eq_zero_or_one q with h | h
  · rw [(children_even h).2, (children_even h).1] at hchild
    exact hchild.resolve_left hq
  · rw [(children_odd h).2, (children_odd h).1] at hchild
    exact hchild.resolve_right hq

theorem OnPath.lt {D d p : Nat} {I : List Nat} (h : OnPath D I d p) (hI : ∀ i ∈ I, i < 2 ^ D)
    (hd : d ≤ D) : p < 2 ^ d := by
  obtain ⟨i, hi, rfl⟩ := h
  exact anc_lt (hI i hi) hd

theorem onPath_leaf {D p : Nat} {I : List Nat} : OnPath D I D p ↔ p ∈ I := by
  simp [OnPath]

theorem onPath_singleton {D i d p : Nat} : OnPath D [i] d p ↔ anc D i d = p := by
  simp [OnPath]

theorem OnPath.congr {D d p : Nat} {I J : List Nat} (h : ∀ i, i ∈ I ↔ i ∈ J) :
    OnPath D I d p ↔ OnPath D J d p := by
  simp only [OnPath, h]

/-! ## The positions beside the paths -/

theorem xor_one_half (p : Nat) : (p ^^^ 1) / 2 = p / 2 := by
  rcases Nat.mod_two_eq_zero_or_one p with h | h
  · have := (children_even h).2
    omega
  · have := (children_odd h).1
    omega

/-- What is above an on-path position is on-path. -/
theorem OnPath.above {D d e p : Nat} {I : List Nat} (h : OnPath D I d (anc D p d)) (hd : d ≤ D) (he : e ≤ d) :
    OnPath D I e (anc D p e) := by
  have step : ∀ j < d, e ≤ j → OnPath D I (j + 1) (anc D p (j + 1)) → OnPath D I j (anc D p j) := fun j hj _ ih => by
    rw [anc_succ p (by omega)]
    exact ih.parent (by omega)
  exact Nat.decreasingInduction' step he h

/-- A sibling of an on-path position that is not itself on-path. -/
structure Beside (D : Nat) (I : List Nat) (d q : Nat) : Prop where
  pos : 0 < d
  le : d ≤ D
  sibling : OnPath D I d (q ^^^ 1)
  off : ¬ OnPath D I d q

theorem Beside.lt {D d q : Nat} {I : List Nat} (h : Beside D I d q) (hI : ∀ i ∈ I, i < 2 ^ D) : q < 2 ^ d := by
  obtain ⟨d, rfl⟩ : ∃ e, d = e + 1 := ⟨d - 1, by have := h.pos; omega⟩
  rw [← xor_one_xor_one q]
  exact xor_one_lt (h.sibling.lt hI h.le)

theorem Beside.congr {D d q : Nat} {I J : List Nat} (h : ∀ i, i ∈ I ↔ i ∈ J) : Beside D I d q ↔ Beside D J d q := by
  have hd (p : Nat) : OnPath D I d p ↔ OnPath D J d p := OnPath.congr h
  exact ⟨fun ⟨hpos, hle, hs, hoff⟩ => ⟨hpos, hle, (hd _).mp hs, mt (hd _).mpr hoff⟩,
    fun ⟨hpos, hle, hs, hoff⟩ => ⟨hpos, hle, (hd _).mpr hs, mt (hd _).mp hoff⟩⟩

theorem Beside.notMem {D d p : Nat} {I : List Nat} (h : Beside D I d (anc D p d)) : p ∉ I :=
  fun hp => h.off ⟨p, hp, rfl⟩

/-- No position is above another one beside the paths. -/
theorem Beside.not_below {D d e p : Nat} {I : List Nat} (h : Beside D I d (anc D p d)) (h' : Beside D I e (anc D p e)) :
    ¬ d < e := fun hlt => by
  have hle := h'.le
  obtain ⟨e, rfl⟩ : ∃ j, e = j + 1 := ⟨e - 1, by omega⟩
  have hparent := h'.sibling.parent (by omega)
  rw [xor_one_half, ← anc_succ p (by omega)] at hparent
  exact h.off (hparent.above (by omega) (by omega))

theorem Beside.unique {D d e p : Nat} {I : List Nat} (h : Beside D I d (anc D p d)) (h' : Beside D I e (anc D p e)) :
    d = e := Nat.le_antisymm (Nat.not_lt.mp (h'.not_below h)) (Nat.not_lt.mp (h.not_below h'))

/-- The path to another leaf leaves the paths somewhere. -/
theorem exists_beside {D p : Nat} {I : List Nat} (hroot : OnPath D I 0 (anc D p 0)) (hp : p ∉ I) :
    ∃ d, Beside D I d (anc D p d) := by
  have hex : ∃ d, ¬ OnPath D I d (anc D p d) := ⟨D, by rwa [anc_self, onPath_leaf]⟩
  classical
  have hoff := Nat.find_spec hex
  have hmin : ∀ e < Nat.find hex, OnPath D I e (anc D p e) := fun e he => not_not.mp (Nat.find_min hex he)
  have hle : Nat.find hex ≤ D := Nat.find_min' hex (by rwa [anc_self, onPath_leaf])
  generalize Nat.find hex = d at hoff hmin hle
  cases d with
  | zero => exact absurd hroot hoff
  | succ d =>
    have hparent := hmin d (Nat.lt_succ_self d)
    rw [anc_succ p hle] at hparent
    exact ⟨d + 1, Nat.succ_pos d, hle, hparent.sibling hle hoff, hoff⟩

/-- The leaves below a node, given by its depth and position. -/
def leavesBelow (D : Nat) (s : Nat × Nat) : List Nat := List.range' (s.2 * 2 ^ (D - s.1)) (2 ^ (D - s.1))

theorem mem_leavesBelow {D p : Nat} {s : Nat × Nat} : p ∈ leavesBelow D s ↔ anc D p s.1 = s.2 := by
  have hpos := Nat.two_pow_pos (D - s.1)
  rw [leavesBelow, List.mem_range'_1, anc, Nat.div_eq_iff hpos]
  omega

/-- The leaves below the nodes beside the paths are, with the leaves `I` of the paths, all leaves, each
once. -/
theorem perm_leavesBelow {D : Nat} {I : List Nat} (hne : I ≠ []) (hn : I.Nodup) (hI : ∀ i ∈ I, i < 2 ^ D)
    {nodes : List (Nat × Nat)} (hnodes : nodes.Nodup) (h : ∀ s, s ∈ nodes ↔ Beside D I s.1 s.2) :
    (I ++ nodes.flatMap (leavesBelow D)).Perm (List.range (2 ^ D)) := by
  have hdisjoint : nodes.Pairwise fun s s' => ∀ p, p ∈ leavesBelow D s → p ∉ leavesBelow D s' := by
    refine hnodes.imp_of_mem fun {s s'} hs hs' hne p hp hp' => hne ?_
    rw [mem_leavesBelow] at hp hp'
    have hb := (h s).mp hs
    have hb' := (h s').mp hs'
    rw [← hp] at hb
    rw [← hp'] at hb'
    have hd := hb.unique hb'
    exact Prod.ext hd (by rw [← hp, ← hp', hd])
  have hflat : (nodes.flatMap (leavesBelow D)).Nodup :=
    List.nodup_flatMap.mpr ⟨fun s _ => List.nodup_range', hdisjoint.imp fun hs p => hs p⟩
  have hleaves : ∀ p ∈ I, p ∉ nodes.flatMap (leavesBelow D) := fun p hp hmem => by
    obtain ⟨s, hs, hps⟩ := List.mem_flatMap.mp hmem
    have hb := (h s).mp hs
    rw [← mem_leavesBelow.mp hps] at hb
    exact hb.notMem hp
  refine (List.perm_ext_iff_of_nodup (List.nodup_append'.mpr ⟨hn, hflat, fun p hp => hleaves p hp⟩)
    List.nodup_range).mpr fun p => ?_
  rw [List.mem_append, List.mem_flatMap, List.mem_range]
  constructor
  · rintro (hp | ⟨s, hs, hp⟩)
    · exact hI p hp
    · have hb := (h s).mp hs
      have hlt := hb.lt hI
      rw [← mem_leavesBelow.mp hp, anc, Nat.div_lt_iff_lt_mul (Nat.two_pow_pos _), ← pow_add] at hlt
      rwa [Nat.add_sub_cancel' hb.le] at hlt
  · intro hp
    by_cases hpI : p ∈ I
    · exact .inl hpI
    · obtain ⟨i, hi⟩ := List.exists_mem_of_ne_nil I hne
      obtain ⟨d, hb⟩ := exists_beside (D := D) ⟨i, hi, by rw [anc_zero (hI i hi), anc_zero hp]⟩ hpI
      exact .inr ⟨(d, anc D p d), (h _).mpr hb, mem_leavesBelow.mpr rfl⟩

/-! ## Walking a path -/

namespace Hashing

variable (H : Hashing ε L N) (sib : Nat → N)

/-- The hash of the node `x` at position `p` and its sibling, in their order. -/
def innerAt (p : Nat) (x s : N) : Except ε N := if p % 2 = 0 then H.inner x s else H.inner s x

/-- The hash of the leaf `x` at position `p` and its sibling, in their order. -/
def bottomAt (p : Nat) (x s : L) : Except ε N := if p % 2 = 0 then H.bottom x s else H.bottom s x

/-- The nodes above `x` at position `p` of depth `d`, from depth `d - 1` to the
root, with `sib e` the sibling at depth `e`. -/
def climb : Nat → Nat → N → Except ε (List N)
  | 0, _, _ => .ok []
  | d + 1, p, x => do
    let y ← H.innerAt p x (sib (d + 1))
    let ys ← climb d (p / 2) y
    .ok (y :: ys)

/-- The nodes above the leaf `x` at position `i`, from depth `k` to the root. -/
def pathNodes (k : Nat) (leafSib : L) (i : Nat) (x : L) : Except ε (List N) := do
  let y ← H.bottomAt i x leafSib
  let ys ← H.climb sib k (i / 2) y
  .ok (y :: ys)

end Hashing

section Path

variable {H : Hashing ε L N} {sib : Nat → N} {k : Nat} {leafSib x : L} {i : Nat}

theorem climb_succ_eq_ok {d p : Nat} {x : N} {ys : List N} :
    H.climb sib (d + 1) p x = .ok ys ↔ ∃ y, H.innerAt p x (sib (d + 1)) = .ok y ∧
      ∃ zs, H.climb sib d (p / 2) y = .ok zs ∧ y :: zs = ys := by
  simp only [Hashing.climb, Except.bind_eq_ok, Except.ok.injEq]

theorem pathNodes_eq_ok {ys : List N} :
    H.pathNodes sib k leafSib i x = .ok ys ↔ ∃ y, H.bottomAt i x leafSib = .ok y ∧
      ∃ zs, H.climb sib k (i / 2) y = .ok zs ∧ y :: zs = ys := by
  simp only [Hashing.pathNodes, Except.bind_eq_ok, Except.ok.injEq]

/-- `run d` is the node at depth `d` of the path from `x` at position `p` of depth
`D`. -/
def ClimbRun (H : Hashing ε L N) (sib : Nat → N) (D p : Nat) (x : N) (run : Nat → N) : Prop :=
  run D = x ∧ ∀ d < D, H.innerAt (anc D p (d + 1)) (run (d + 1)) (sib (d + 1)) = .ok (run d)

theorem climb_eq_ok {D p : Nat} {x : N} {ys : List N} :
    H.climb sib D p x = .ok ys ↔
      ∃ run, ClimbRun H sib D p x run ∧ ((List.range D).map run).reverse = ys := by
  induction D generalizing p x ys with
  | zero =>
    simp only [Hashing.climb, Except.ok.injEq, List.range_zero, List.map_nil, List.reverse_nil]
    exact ⟨fun h => ⟨fun _ => x, ⟨rfl, nofun⟩, h⟩, fun ⟨_, _, h⟩ => h⟩
  | succ D ih =>
    rw [climb_succ_eq_ok]
    constructor
    · rintro ⟨y, hy, zs, hzs, rfl⟩
      obtain ⟨run, ⟨hx, hrun⟩, rfl⟩ := ih.mp hzs
      have hold : ∀ d ≤ D, Function.update run (D + 1) x d = run d := fun d hd =>
        Function.update_of_ne (by omega) _ _
      refine ⟨Function.update run (D + 1) x, ⟨Function.update_self .., fun d hd => ?_⟩, ?_⟩
      · rcases Nat.lt_succ_iff_lt_or_eq.mp hd with hd | rfl
        · rw [hold d hd.le, hold (d + 1) hd, ← anc_half p hd]
          exact hrun d hd
        · rw [Function.update_self, hold d le_rfl, anc_self, hx]
          exact hy
      · rw [List.range_succ, List.map_append, List.reverse_append, List.map_singleton, hold D le_rfl, hx]
        refine congrArg (y :: List.reverse ·) (List.map_congr_left fun d hd => ?_)
        exact hold d (List.mem_range.mp hd).le
    · rintro ⟨run, ⟨hx, hrun⟩, rfl⟩
      have hy := hrun D (Nat.lt_succ_self D)
      rw [anc_self, hx] at hy
      refine ⟨run D, hy, _, ih.mpr ⟨run, ⟨rfl, fun d hd => ?_⟩, rfl⟩, ?_⟩
      · rw [anc_half p hd]
        exact hrun d (by omega)
      · rw [List.range_succ, List.map_append, List.reverse_append, List.map_singleton]
        rfl

/-- `run d` is the node at depth `d` of the path from the leaf `x` at position
`i`. -/
structure PathRun (H : Hashing ε L N) (sib : Nat → N) (k : Nat) (leafSib : L) (i : Nat) (x : L)
    (run : Nat → N) : Prop where
  bottom : H.bottomAt i x leafSib = .ok (run k)
  inner : ∀ d < k, H.innerAt (anc (k + 1) i (d + 1)) (run (d + 1)) (sib (d + 1)) = .ok (run d)

theorem pathNodes_eq_ok_iff_run {ys : List N} :
    H.pathNodes sib k leafSib i x = .ok ys ↔
      ∃ run, PathRun H sib k leafSib i x run ∧ ((List.range (k + 1)).map run).reverse = ys := by
  have hsucc (run : Nat → N) :
      ((List.range (k + 1)).map run).reverse = run k :: ((List.range k).map run).reverse := by
    rw [List.range_succ, List.map_append, List.reverse_append]
    rfl
  rw [pathNodes_eq_ok]
  constructor
  · rintro ⟨y, hy, zs, hzs, rfl⟩
    obtain ⟨run, ⟨rfl, hrun⟩, rfl⟩ := climb_eq_ok.mp hzs
    exact ⟨run, ⟨hy, fun d hd => by rw [← anc_half i hd]; exact hrun d hd⟩, hsucc run⟩
  · rintro ⟨run, ⟨hy, hrun⟩, rfl⟩
    exact ⟨run k, hy, _, climb_eq_ok.mpr ⟨run, ⟨rfl, fun d hd => by rw [anc_half i hd]; exact hrun d hd⟩, rfl⟩,
      (hsucc run).symm⟩

theorem Hashing.Total.exists_climb (h : H.Total) (d p : Nat) (x : N) : ∃ ys, H.climb sib d p x = .ok ys := by
  induction d generalizing p x with
  | zero => exact ⟨[], rfl⟩
  | succ d ih =>
    obtain ⟨y, hy⟩ : ∃ y, H.innerAt p x (sib (d + 1)) = .ok y := by
      unfold Hashing.innerAt
      split
      · exact h.inner _ _
      · exact h.inner _ _
    obtain ⟨ys, hys⟩ := ih (p / 2) y
    exact ⟨y :: ys, climb_succ_eq_ok.mpr ⟨y, hy, ys, hys, rfl⟩⟩

/-- Hashes that always succeed lead every leaf to a root. -/
theorem Hashing.Total.exists_pathRun (h : H.Total) : ∃ run, PathRun H sib k leafSib i x run := by
  obtain ⟨y, hy⟩ : ∃ y, H.bottomAt i x leafSib = .ok y := by
    unfold Hashing.bottomAt
    split
    · exact h.bottom _ _
    · exact h.bottom _ _
  obtain ⟨ys, hys⟩ : ∃ ys, H.climb sib k (i / 2) y = .ok ys := h.exists_climb k (i / 2) y
  obtain ⟨run, hrun, -⟩ := pathNodes_eq_ok_iff_run.mp (pathNodes_eq_ok.mpr ⟨y, hy, ys, hys, rfl⟩)
  exact ⟨run, hrun⟩

/-- Only the last `k + 1` bits of the position matter. -/
theorem pathRun_mod {run : Nat → N} :
    PathRun H sib k leafSib (i % 2 ^ (k + 1)) x run ↔ PathRun H sib k leafSib i x run := by
  have hparity {d : Nat} (hd : d < k + 1) :
      anc (k + 1) (i % 2 ^ (k + 1)) (d + 1) % 2 = anc (k + 1) i (d + 1) % 2 := by
    rw [anc, anc, show k + 1 - (d + 1) = k - d by omega,
      show 2 ^ (k + 1) = 2 ^ (k - d) * 2 ^ (d + 1) by rw [← pow_add]; congr 1; omega,
      Nat.mod_mul_right_div_self]
    exact Nat.mod_mod_of_dvd _ (Dvd.intro_left (2 ^ d) (pow_succ ..).symm)
  have hi := hparity (Nat.lt_succ_self k)
  rw [anc_self, anc_self] at hi
  have hinner (d : Nat) (hd : d < k) (y s : N) :
      H.innerAt (anc (k + 1) (i % 2 ^ (k + 1)) (d + 1)) y s = H.innerAt (anc (k + 1) i (d + 1)) y s := by
    rw [Hashing.innerAt, Hashing.innerAt, hparity (by omega)]
  constructor
  · rintro ⟨hb, hr⟩
    exact ⟨by rwa [Hashing.bottomAt, hi] at hb, fun d hd => by rw [← hinner d hd]; exact hr d hd⟩
  · rintro ⟨hb, hr⟩
    exact ⟨by rwa [Hashing.bottomAt, hi], fun d hd => by rw [hinner d hd]; exact hr d hd⟩

/-- The leaf and the siblings determine the path. -/
theorem PathRun.unique {run run' : Nat → N} (h : PathRun H sib k leafSib i x run)
    (h' : PathRun H sib k leafSib i x run') : ∀ d ≤ k, run' d = run d := by
  refine bottomUp (Except.ok.inj (h'.bottom.symm.trans h.bottom)) (fun d hd ih => ?_)
  have e := h'.inner d hd
  rw [ih, h.inner d hd] at e
  exact (Except.ok.inj e).symm

/-- The values of a path: `x` at position `p` and `s` at its sibling. -/
def pairAt {α : Type} (p : Nat) (x s : α) (q : Nat) : Option α :=
  if q = p then some x else if q = p ^^^ 1 then some s else none

/-- What a function gives for `p` and its sibling, in the order of the positions. -/
theorem apply_children {α : Type} (f : Nat → α) (p : Nat) :
    f (2 * (p / 2)) = (if p % 2 = 0 then f p else f (p ^^^ 1)) ∧
      f (2 * (p / 2) + 1) = if p % 2 = 0 then f (p ^^^ 1) else f p := by
  rcases Nat.mod_two_eq_zero_or_one p with h | h
  · rw [(children_even h).2, (children_even h).1, if_pos h, if_pos h]
    exact ⟨rfl, rfl⟩
  · rw [(children_odd h).2, (children_odd h).1, if_neg (by omega), if_neg (by omega)]
    exact ⟨rfl, rfl⟩

theorem pairAt_children {α : Type} (p : Nat) (x s : α) :
    pairAt p x s (2 * (p / 2)) = some (if p % 2 = 0 then x else s) ∧
      pairAt p x s (2 * (p / 2) + 1) = some (if p % 2 = 0 then s else x) := by
  rw [(apply_children (pairAt p x s) p).1, (apply_children (pairAt p x s) p).2]
  split <;> simp [pairAt, xor_one_ne p]

/-- The children of `p / 2` after a write at `p`. -/
theorem update_children {α : Type} (f : Nat → α) (p : Nat) (x : α) :
    Function.update f p x (2 * (p / 2)) = (if p % 2 = 0 then x else f (p ^^^ 1)) ∧
      Function.update f p x (2 * (p / 2) + 1) = if p % 2 = 0 then f (p ^^^ 1) else x := by
  rw [(apply_children (Function.update f p x) p).1, (apply_children (Function.update f p x) p).2,
    Function.update_self, Function.update_of_ne (xor_one_ne p)]
  exact ⟨rfl, rfl⟩

theorem bottomAt_eq {p : Nat} {x s : L} :
    H.bottomAt p x s = H.bottom (if p % 2 = 0 then x else s) (if p % 2 = 0 then s else x) := by
  unfold Hashing.bottomAt
  split <;> rfl

theorem innerAt_eq {p : Nat} {x s : N} :
    H.innerAt p x s = H.inner (if p % 2 = 0 then x else s) (if p % 2 = 0 then s else x) := by
  unfold Hashing.innerAt
  split <;> rfl

/-- The root's sibling, which is not in the tree, does not matter. -/
theorem PathRun.congr {sib' : Nat → N} {run : Nat → N} (h : PathRun H sib k leafSib i x run)
    (hs : ∀ d, 0 < d → d ≤ k → sib' d = sib d) : PathRun H sib' k leafSib i x run :=
  ⟨h.bottom, fun d hd => by rw [hs (d + 1) (Nat.succ_pos d) hd]; exact h.inner d hd⟩

/-- The nodes of a tree above a leaf, computed from the leaf and the siblings. -/
theorem IsTree.pathRun {leaf : Nat → L} {node : Nat → Nat → N} (ht : IsTree H k leaf node)
    (hi : i < 2 ^ (k + 1)) :
    PathRun H (fun d => node d (anc (k + 1) i d ^^^ 1)) k (leaf (i ^^^ 1)) i (leaf i)
      (fun d => node d (anc (k + 1) i d)) := by
  constructor
  · rw [bottomAt_eq, ← (apply_children leaf i).1, ← (apply_children leaf i).2, anc_parent]
    exact ht.bottom _ (half_lt hi)
  · intro d hd
    have hd' := apply_children (node (d + 1)) (anc (k + 1) i (d + 1))
    rw [innerAt_eq, ← hd'.1, ← hd'.2, ← anc_succ i (by omega)]
    exact ht.inner d hd _ (anc_lt hi (by omega))

/-- The nodes of a path with their siblings are an opening. -/
theorem PathRun.opening {run : Nat → N} (h : PathRun H sib k leafSib i x run) :
    Opening H k (OnPath (k + 1) [i]) (pairAt i x leafSib)
      (fun d => pairAt (anc (k + 1) i d) (run d) (sib d)) := by
  have hself (d : Nat) : pairAt (anc (k + 1) i d) (run d) (sib d) (anc (k + 1) i d) = some (run d) :=
    if_pos rfl
  constructor
  · intro p hp
    obtain rfl := onPath_singleton.mp hp
    obtain ⟨hl, hr⟩ := pairAt_children i x leafSib
    rw [← anc_parent k i] at hl hr
    refine ⟨_, _, run k, hl, hr, ?_, hself k⟩
    rw [← bottomAt_eq]
    exact h.bottom
  · intro d hd p hp
    obtain rfl := onPath_singleton.mp hp
    obtain ⟨hl, hr⟩ := pairAt_children (anc (k + 1) i (d + 1)) (run (d + 1)) (sib (d + 1))
    rw [← anc_succ i (by omega)] at hl hr
    refine ⟨_, _, run d, hl, hr, ?_, hself d⟩
    rw [← innerAt_eq]
    exact h.inner d hd

/-- The path of a tree's leaf with the tree's siblings exhibits no collision. -/
theorem PathRun.not_collides {leaf : Nat → L} {node : Nat → Nat → N} {run : Nat → N}
    (ht : IsTree H k leaf node) (hs : ∀ d, 0 < d → d ≤ k → sib d = node d (anc (k + 1) i d ^^^ 1))
    (h : PathRun H sib k (leaf (i ^^^ 1)) i (leaf i) run) :
    ¬ Opening.Collides H k (OnPath (k + 1) [i]) (pairAt i (leaf i) (leaf (i ^^^ 1)))
      (fun d => pairAt (anc (k + 1) i d) (run d) (sib d)) leaf node := by
  -- a child of the parent of `p` is `p` or its sibling
  have hpair {p q : Nat} (hq : p / 2 = q / 2) : q = p ∨ q = p ^^^ 1 := by
    rcases Nat.mod_two_eq_zero_or_one p with hp | hp
    · have := children_even hp
      omega
    · have := children_odd hp
      omega
  refine (h.opening.exact ht (fun q _ hq => ?_) (fun d hd q _ hq hqA => ?_)).2
  · rw [onPath_singleton, anc_parent] at hq
    rcases hpair hq with rfl | rfl
    · exact if_pos rfl
    · rw [pairAt, if_neg (xor_one_ne i), if_pos rfl]
  · rw [onPath_singleton, anc_succ i (by omega)] at hq
    rw [onPath_singleton] at hqA
    obtain rfl := (hpair hq).resolve_left (Ne.symm hqA)
    rw [pairAt, if_neg (xor_one_ne _), if_pos rfl, hs (d + 1) (Nat.succ_pos d) hd]

/-- The nodes of a path written over the nodes of a tree, whose siblings it was
computed with, are the nodes of the tree with the leaf written. -/
theorem IsTree.update {leaf : Nat → L} {node : Nat → Nat → N} {run : Nat → N}
    (ht : IsTree H k leaf node)
    (h : PathRun H (fun d => node d (anc (k + 1) i d ^^^ 1)) k (leaf (i ^^^ 1)) i x run) :
    IsTree H k (Function.update leaf i x)
      (fun d => Function.update (node d) (anc (k + 1) i d) (run d)) := by
  constructor
  · intro p hp
    by_cases hpi : p = i / 2
    · subst hpi
      rw [(update_children leaf i x).1, (update_children leaf i x).2, ← bottomAt_eq, anc_parent, Function.update_self]
      exact h.bottom
    · rw [Function.update_of_ne (by omega), Function.update_of_ne (by omega), anc_parent,
        Function.update_of_ne hpi]
      exact ht.bottom p hp
  · intro d hd p hp
    have hi := anc_succ i (D := k + 1) (d := d) (by omega)
    by_cases hpi : p = anc (k + 1) i (d + 1) / 2
    · subst hpi
      rw [(update_children _ _ _).1, (update_children _ _ _).2, ← innerAt_eq, ← hi, Function.update_self]
      exact h.inner d hd
    · rw [Function.update_of_ne (by omega), Function.update_of_ne (by omega), hi,
        Function.update_of_ne hpi]
      exact ht.inner d hd p hp

end Path

end HashTree
