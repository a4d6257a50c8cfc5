import CryptoPrimitives.Crh.SpongeCollision
import CryptoPrimitives.MerkleTree.FieldTree
import CryptoPrimitives.MerkleTree.ProofBinding

/-!
# What the root of a tree of field elements binds

`FieldMTConfig` with a permutation that is a bijection. The root binds the blocks of the leaves, and not the leaves:

* `new_eq_of_blocks`: leaves of the same blocks make up the same tree.
* `blocks_eq_or_collision`: trees of one root have leaves of the same blocks, or the sponge collides on two leaves or
  on the digests below one position.
-/

namespace CryptoPrimitives.Merkle

open HashTree (levelOf)
open Sponge (paddedBlocks paddedBlocks_inj toMatrix)

variable {p : Nat} [Fact p.Prime]

/-- The permutation of the parameters is a bijection. -/
structure PoseidonParameters.Invertible (parameters : PoseidonParameters p) : Prop where
  isUnit_mds : IsUnit (toMatrix (parameters.config.rate + parameters.config.capacity) parameters.config.mds)
  coprime_alpha : Nat.Coprime parameters.config.alpha (p - 1)
  alpha_pos : p = 2 → 0 < parameters.config.alpha

theorem PoseidonParameters.Invertible.bindsBlocks {parameters : PoseidonParameters p} (h : parameters.Invertible) :
    BindsBlocks parameters.config.duplex (Poseidon.CRH.evaluate parameters.config) :=
  Poseidon.CRH.bindsBlocks parameters.accepted parameters.rate_pos h.isUnit_mds h.coprime_alpha h.alpha_pos

theorem PoseidonParameters.evaluate_inj_iff (parameters : PoseidonParameters p) {xs ys : List (ZMod p)} :
    Poseidon.CRH.evaluate parameters.config xs = Poseidon.CRH.evaluate parameters.config ys ↔
      parameters.evaluate xs = parameters.evaluate ys := by
  rw [parameters.evaluate_eq, parameters.evaluate_eq, Except.ok.injEq]

namespace MerkleTree

/-- The digests below a position. -/
def children (t : MerkleTree (fieldConfig p)) (d q : Nat) : List (ZMod p) :=
  let digest := levelOf (t.height - 2) t.leafAt t.nodeAt (d + 1)
  [digest (2 * q), digest (2 * q + 1)]

/-- The sponge collides on the digests below one position of two trees. -/
def NodeCollision (t t' : MerkleTree (fieldConfig p)) : Prop :=
  ∃ d ≤ t.height - 2, ∃ q < 2 ^ d,
    SpongeCollision t.twoToOneHashParam.config.duplex (t.children d q) (t'.children d q)

/-- Digests below one position that differ have different blocks. -/
theorem spongeCollision_of_compress {parameters : PoseidonParameters p} (h : parameters.Invertible)
    {l r l' r' : ZMod p} (hne : (l, r) ≠ (l', r')) (heq : parameters.compress l r = parameters.compress l' r') :
    SpongeCollision parameters.config.duplex [l, r] [l', r'] := by
  rw [← parameters.evaluate_pair, ← parameters.evaluate_pair, ← parameters.evaluate_inj_iff] at heq
  refine (h.bindsBlocks.collision _ _ heq).resolve_left fun hblocks => hne ?_
  have hpair : [l, r] = [l', r'] := paddedBlocks_inj parameters.rate_pos rfl hblocks
  simp only [List.cons.injEq, and_true] at hpair
  rw [hpair.1, hpair.2]

theorem Conflict.nodeCollision {t t' : MerkleTree (fieldConfig p)} (h : t.twoToOneHashParam.Invertible)
    (hheight : t.height = t'.height) (hc : t.Conflict t') : t.NodeCollision t' := by
  cases hc with
  | bottom q hq _ hl hr hne hn hn' =>
    obtain rfl := Option.some.inj hl
    obtain rfl := Option.some.inj hr
    have hcollision := spongeCollision_of_compress h hne (Except.ok.inj (hn.trans hn'.symm))
    refine ⟨t.height - 2, le_rfl, q, hq, ?_⟩
    rw [children, children, ← hheight, levelOf, levelOf, if_neg (by omega), if_neg (by omega)]
    exact hcollision
  | inner d q hd hq _ hl hr hne hn hn' =>
    obtain rfl := Option.some.inj hl
    obtain rfl := Option.some.inj hr
    have hcollision := spongeCollision_of_compress h hne (Except.ok.inj (hn.trans hn'.symm))
    refine ⟨d, hd.le, q, hq, ?_⟩
    rw [children, children, ← hheight, levelOf, levelOf, if_pos (by omega), if_pos (by omega)]
    exact hcollision

omit [Fact p.Prime] in
theorem new_eq_newWithLeafDigest (leafParam twoToOneParam : PoseidonParameters p) (leaves : List (List (ZMod p))) :
    (new leafParam twoToOneParam leaves : Outcome (MerkleTree (fieldConfig p))) =
      newWithLeafDigest leafParam twoToOneParam (leaves.map leafParam.evaluate) := by
  have hdigests : (leaves.mapM fun input => propagate ((fieldConfig p).leafHashEvaluate leafParam input) :
      Outcome (List (ZMod p))) = .ok (leaves.map leafParam.evaluate) := Except.mapM_eq_map fun _ _ => rfl
  rw [new, hdigests, Except.ok_bind]

section

variable {leafParam twoToOneParam : PoseidonParameters p} (hleaf : leafParam.Invertible)
  {leaves leaves' : List (List (ZMod p))} {t t' : MerkleTree (fieldConfig p)}
  (h : new leafParam twoToOneParam leaves = .ok t) (h' : new leafParam twoToOneParam leaves' = .ok t')
include hleaf h h'

theorem new_eq_of_blocks (hblocks : leaves.map (paddedBlocks leafParam.config.rate) =
    leaves'.map (paddedBlocks leafParam.config.rate)) : t = t' := by
  have hdigests : leaves.map leafParam.evaluate = leaves'.map leafParam.evaluate := by
    rw [map_eq_map_iff_forall₂] at hblocks ⊢
    exact hblocks.imp fun xs ys heq => leafParam.evaluate_inj_iff.mp (hleaf.bindsBlocks.eq_of_blocks xs ys heq)
  rw [new_eq_newWithLeafDigest, hdigests, ← new_eq_newWithLeafDigest] at h
  exact Except.ok.inj (h.symm.trans h')

theorem blocks_eq_or_collision (htwo : twoToOneParam.Invertible) (hlen : leaves.length = leaves'.length)
    (hroot : t.root = t'.root) :
    leaves.map (paddedBlocks leafParam.config.rate) = leaves'.map (paddedBlocks leafParam.config.rate) ∨
      (∃ i < leaves.length, SpongeCollision leafParam.config.duplex (leaves.getD i []) (leaves'.getD i [])) ∨
      t.NodeCollision t' := by
  rw [new_eq_newWithLeafDigest] at h h'
  obtain ⟨ht, hnodes, hparam, hparam₂⟩ := newWithLeafDigest_eq_ok.mp h
  obtain ⟨ht', hnodes', hparam', hparam₂'⟩ := newWithLeafDigest_eq_ok.mp h'
  have hlength : t.leafNodes.length = t'.leafNodes.length := by
    rw [hnodes, hnodes', List.length_map, List.length_map, hlen]
  have hheight : t.height = t'.height := by
    have hpow := Nat.pow_right_injective le_rfl (ht.length_leafNodes.symm.trans (hlength.trans ht'.length_leafNodes))
    have h2 := ht.two_le_height
    have h2' := ht'.two_le_height
    omega
  rcases eq_or_conflict ht ht' (hparam.trans hparam'.symm) (hparam₂.trans hparam₂'.symm) hlength hroot with heq | hc
  · by_cases hcollision : ∃ i < leaves.length,
        SpongeCollision leafParam.config.duplex (leaves.getD i []) (leaves'.getD i [])
    · exact .inr (.inl hcollision)
    · refine .inl (List.ext_getElem (by simpa using hlen) fun i hi hi' => ?_)
      rw [List.length_map] at hi hi'
      rw [List.getElem_map, List.getElem_map]
      have hdigest : leafParam.evaluate leaves[i] = leafParam.evaluate leaves'[i] := by
        have hmaps : leaves.map leafParam.evaluate = leaves'.map leafParam.evaluate := by rw [← hnodes, ← hnodes', heq]
        have := congrArg (·[i]?) hmaps
        simpa [hi, hi'] using this
      refine (hleaf.bindsBlocks.collision _ _ (leafParam.evaluate_inj_iff.mpr hdigest)).resolve_right fun hc => ?_
      rw [← List.getD_eq_getElem _ [] hi, ← List.getD_eq_getElem _ [] hi'] at hc
      exact hcollision ⟨i, hi, hc⟩
  · exact .inr (.inr (hc.nodeCollision (hparam₂ ▸ htwo) hheight))

/-- For all parameters whose permutations are bijections, and trees over as many leaves: leaves of the same blocks make up
the same tree, and trees of one root have leaves of the same blocks, or the sponge collides on leaves of one index or on
the digests below one position. -/
theorem new_binds_blocks (htwo : twoToOneParam.Invertible) (hlen : leaves.length = leaves'.length) :
    (leaves.map (paddedBlocks leafParam.config.rate) = leaves'.map (paddedBlocks leafParam.config.rate) → t = t') ∧
    (t.root = t'.root →
      leaves.map (paddedBlocks leafParam.config.rate) = leaves'.map (paddedBlocks leafParam.config.rate) ∨
        (∃ i < leaves.length, SpongeCollision leafParam.config.duplex (leaves.getD i []) (leaves'.getD i [])) ∨
        t.NodeCollision t') :=
  ⟨new_eq_of_blocks hleaf h h', blocks_eq_or_collision hleaf h h' htwo hlen⟩

end

/-- Zeros at the ends of two leaves do not change the tree. -/
theorem new_binds_blocks_five : ∃ (parameters : PoseidonParameters 5) (t t' : MerkleTree (fieldConfig 5)),
    new parameters parameters [[1], [2]] = .ok t ∧ new parameters parameters [[1, 0], [2, 0]] = .ok t' ∧ t = t' := by
  have hcoprime : Nat.Coprime 3 (5 - 1) := by decide
  have hblocks : [[1], [2]].map (paddedBlocks (F := ZMod 5) 2) = [[1, 0], [2, 0]].map (paddedBlocks 2) := by decide
  have h5 : Fact (Nat.Prime 5) := ⟨by decide⟩
  let parameters : PoseidonParameters 5 := ⟨Sponge.smallConfig, Sponge.smallConfigOf_accepted 5, Nat.two_pos⟩
  have hinvertible : parameters.Invertible := ⟨Sponge.isUnit_smallConfig, hcoprime, fun h => absurd h (by simp)⟩
  have hnew (leaves : List (List (ZMod 5))) (hl : leaves.length = 2) :
      ∃ t, (new parameters parameters leaves : Outcome (MerkleTree (fieldConfig 5))) = .ok t := by
    obtain ⟨t, ht, -⟩ := exists_newWithLeafDigest (k := 0) (fieldConfig_hashesSucceed parameters parameters)
      (show (leaves.map parameters.evaluate).length = 2 ^ 1 by rw [List.length_map, hl]; rfl)
    exact ⟨t, by rw [new_eq_newWithLeafDigest, ht]⟩
  obtain ⟨t, ht⟩ := hnew [[1], [2]] rfl
  obtain ⟨t', ht'⟩ := hnew [[1, 0], [2, 0]] rfl
  exact ⟨parameters, t, t', ht, ht', (new_binds_blocks hinvertible ht ht' hinvertible rfl).1 hblocks⟩

end MerkleTree

end CryptoPrimitives.Merkle
