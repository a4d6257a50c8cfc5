import CryptoPrimitives.Framework.HashTree

/-!
# What the root of a hash tree binds

* `IsTree.eq_or_conflict`: two trees with one root have the same leaves and nodes, or they hash distinct
  children of one position to the same digest.
* `PathRun.eq_or_collides`: a path that ends in the root of a tree has the tree's leaf and the tree's siblings, or
  it collides with the tree.
* `IsTree.truncate`: where leaf digests are hashed as nodes are, the upper levels are a tree with the same root.
* `parting`: the depth at which the paths of two leaves part. There, and nowhere else, each is a sibling on the
  path of the other (`sibling_eq_anc_iff`).
-/

namespace HashTree

variable {ε L N : Type} {H : Hashing ε L N} {k : Nat}

/-- The leaves and nodes of a tree open all its positions. -/
theorem IsTree.opening {leaf : Nat → L} {node : Nat → Nat → N} (ht : IsTree H k leaf node) {A : Nat → Nat → Prop}
    (hA : ∀ d ≤ k, ∀ p, A d p → p < 2 ^ d) :
    Opening H k A (fun p => some (leaf p)) (fun d p => some (node d p)) where
  bottom p hp := ⟨_, _, _, rfl, rfl, ht.bottom p (hA k le_rfl p hp), rfl⟩
  inner d hd p hp := ⟨_, _, _, rfl, rfl, ht.inner d hd p (hA d hd.le p hp), rfl⟩

/-- A conflict with the values of a tree is a collision with it. -/
theorem Opening.Conflict.collides {leaf : Nat → L} {node : Nat → Nat → N} {A : Nat → Nat → Prop}
    {lv : Nat → Option L} {nv : Nat → Nat → Option N} (hA : ∀ d ≤ k, ∀ p, A d p → p < 2 ^ d)
    (h : Opening.Conflict H k A lv (fun p => some (leaf p)) nv fun d p => some (node d p)) :
    Opening.Collides H k A lv nv leaf node := by
  cases h with
  | bottom p hp hl hr hl' hr' hne h h' =>
    obtain rfl := Option.some.inj hl'
    obtain rfl := Option.some.inj hr'
    exact .bottom p (hA k le_rfl p hp) hp hl hr hne h h'
  | inner d p hd hp hl hr hl' hr' hne h h' =>
    obtain rfl := Option.some.inj hl'
    obtain rfl := Option.some.inj hr'
    exact .inner d p hd (hA d hd.le p hp) hp hl hr hne h h'

/-- Two trees that hash distinct children of one position to the same digest. -/
def IsTree.Conflict (H : Hashing ε L N) (k : Nat) (leaf leaf' : Nat → L) (node node' : Nat → Nat → N) : Prop :=
  Opening.Collides H k (fun d p => p < 2 ^ d) (fun p => some (leaf p)) (fun d p => some (node d p)) leaf' node'

/-- The root determines the tree, up to a collision. -/
theorem IsTree.eq_or_conflict {leaf leaf' : Nat → L} {node node' : Nat → Nat → N} (ht : IsTree H k leaf node)
    (ht' : IsTree H k leaf' node') (hroot : node 0 0 = node' 0 0) :
    ((∀ p < 2 ^ (k + 1), leaf p = leaf' p) ∧ ∀ d ≤ k, ∀ p < 2 ^ d, node d p = node' d p) ∨
      IsTree.Conflict H k leaf leaf' node node' := by
  have hlt : ∀ d ≤ k, ∀ p, p < 2 ^ d → p < 2 ^ d := fun _ _ _ hp => hp
  refine ((ht.opening hlt).agree (ht'.opening hlt) (fun _ _ _ => half_lt) (fun p hp => by simpa using hp)
    (congrArg some hroot)).imp (fun ⟨hleaf, hnode⟩ => ⟨fun p hp => ?_, fun d hd p hp => ?_⟩) fun h => h.collides hlt
  · exact Option.some.inj (hleaf p (half_lt hp))
  · cases d with
    | zero =>
      obtain rfl : p = 0 := by simpa using hp
      exact hroot
    | succ d => exact Option.some.inj (hnode d hd p (half_lt hp))

/-- A path that ends in the root of a tree is the path of the tree, up to a collision. -/
theorem PathRun.eq_or_collides {leaf : Nat → L} {node : Nat → Nat → N} {sib run : Nat → N} {leafSib x : L} {i : Nat}
    (ht : IsTree H k leaf node) (h : PathRun H sib k leafSib i x run) (hi : i < 2 ^ (k + 1))
    (hroot : run 0 = node 0 0) :
    (x = leaf i ∧ leafSib = leaf (i ^^^ 1) ∧ ∀ d, 0 < d → d ≤ k → sib d = node d (anc (k + 1) i d ^^^ 1)) ∨
      Opening.Collides H k (OnPath (k + 1) [i]) (pairAt i x leafSib) (fun d => pairAt (anc (k + 1) i d) (run d) (sib d))
        leaf node := by
  have hlt : ∀ d ≤ k, ∀ p, OnPath (k + 1) [i] d p → p < 2 ^ d := fun d hd p hp =>
    hp.lt (List.forall_mem_singleton.mpr hi) (by omega)
  have hself {α : Type} (p : Nat) (x s : α) : pairAt p x s p = some x := if_pos rfl
  have hsib {α : Type} (p : Nat) (x s : α) : pairAt p x s (p ^^^ 1) = some s := by
    rw [pairAt, if_neg (xor_one_ne p), if_pos rfl]
  refine (h.opening.agree (ht.opening hlt) (fun d hd p hp => hp.parent (by omega)) (fun p hp => ?_) ?_).imp ?_
    fun h => h.collides hlt
  · simpa using hlt 0 (Nat.zero_le k) p hp
  · rw [anc_zero hi, hself, hroot]
  rintro ⟨hleaf, hnode⟩
  refine ⟨?_, ?_, fun d hd0 hd => ?_⟩
  · have h := hleaf i (onPath_singleton.mpr (anc_parent k i))
    rw [hself] at h
    exact Option.some.inj h
  · have h := hleaf (i ^^^ 1) (onPath_singleton.mpr (by rw [xor_one_half, anc_parent]))
    rw [hsib] at h
    exact Option.some.inj h
  · obtain ⟨d, rfl⟩ : ∃ e, d = e + 1 := ⟨d - 1, by omega⟩
    have h := hnode d hd (anc (k + 1) i (d + 1) ^^^ 1)
      (onPath_singleton.mpr (by rw [xor_one_half, anc_succ i (by omega)]))
    rw [hsib] at h
    exact Option.some.inj h

/-! ## What the root leaves open -/

section

variable {D : Type} {H : Hashing ε D D} {leaf : Nat → D} {node : Nat → Nat → D}

/-- The digests at a depth of a tree whose leaf digests are hashed as its nodes are. -/
def levelOf (k : Nat) (leaf : Nat → D) (node : Nat → Nat → D) (d : Nat) : Nat → D := if d ≤ k then node d else leaf

theorem IsTree.inner_levelOf (ht : IsTree H k leaf node) (hH : H.bottom = H.inner) {d p : Nat} (hd : d ≤ k)
    (hp : p < 2 ^ d) :
    H.inner (levelOf k leaf node (d + 1) (2 * p)) (levelOf k leaf node (d + 1) (2 * p + 1)) = .ok (node d p) := by
  rcases Nat.lt_or_eq_of_le hd with hlt | rfl
  · rw [levelOf, if_pos (show d + 1 ≤ k from hlt)]
    exact ht.inner d hlt p hp
  · rw [levelOf, if_neg (show ¬d + 1 ≤ d by omega), ← hH]
    exact ht.bottom p hp

/-- Then the levels above a depth are a tree over the digests at that depth, with the same root. -/
theorem IsTree.truncate (ht : IsTree H k leaf node) (hH : H.bottom = H.inner) {d : Nat} (hd : d < k) :
    IsTree H d (node (d + 1)) node where
  bottom p hp := by
    rw [hH]
    exact ht.inner d hd p hp
  inner e he := ht.inner e (by omega)

end

/-! ## Where two paths part -/

/-- The depth at which the paths of two leaves of depth `D` part. -/
def parting (D i j : Nat) : Nat := D - (i ^^^ j).log2

theorem log2_xor_lt {D i j : Nat} (hi : i < 2 ^ D) (hj : j < 2 ^ D) (hne : i ≠ j) :
    i ^^^ j ≠ 0 ∧ (i ^^^ j).log2 < D := by
  have h0 : i ^^^ j ≠ 0 := fun h => hne (Nat.xor_eq_zero_iff.mp h)
  exact ⟨h0, (Nat.log2_lt h0).mpr (Nat.xor_lt_two_pow hi hj)⟩

theorem lt_of_anc_lt {D d j : Nat} (hd : d ≤ D) (h : anc D j d < 2 ^ d) : j < 2 ^ D := by
  rwa [anc, Nat.div_lt_iff_lt_mul (Nat.two_pow_pos _), ← pow_add, Nat.add_sub_cancel' hd] at h

/-- A leaf is below a sibling on the path of another one at the depth where they part. -/
theorem sibling_eq_anc_iff {D d i j : Nat} (hi : i < 2 ^ D) (hj : j < 2 ^ D) (hne : i ≠ j) (hd : d ≤ D) :
    anc D i d ^^^ 1 = anc D j d ↔ d = parting D i j := by
  obtain ⟨h0, hlt⟩ := log2_xor_lt hi hj hne
  have hshift : anc D i d ^^^ anc D j d = (i ^^^ j) / 2 ^ (D - d) := by
    rw [anc, anc, ← Nat.shiftRight_eq_div_pow, ← Nat.shiftRight_eq_div_pow, ← Nat.shiftRight_eq_div_pow,
      Nat.shiftRight_xor_distrib]
  have hone : anc D i d ^^^ 1 = anc D j d ↔ anc D i d ^^^ anc D j d = 1 := by
    constructor
    · intro h
      rw [← h, ← Nat.xor_assoc, Nat.xor_self, Nat.zero_xor]
    · intro h
      rw [← h, ← Nat.xor_assoc, Nat.xor_self, Nat.zero_xor]
  have hlog : (i ^^^ j) / 2 ^ (D - d) = 1 ↔ (i ^^^ j).log2 = D - d := by
    rw [Nat.log2_eq_iff h0, Nat.div_eq_iff (Nat.two_pow_pos _), pow_succ]
    omega
  rw [hone, hshift, hlog, parting]
  omega

end HashTree
