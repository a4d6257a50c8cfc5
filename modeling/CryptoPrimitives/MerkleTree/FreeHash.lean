import CryptoPrimitives.MerkleTree.Tree

/-!
# The free two-to-one hash

The digest of two digests is the pair itself, so that no two pairs collide
(`freeConfig_not_collision`) and no call fails (`freeConfig_hashesSucceed`). A
verifier that accepts a wrong opening over this configuration is wrong without
any help from its hash.
-/

namespace CryptoPrimitives.Merkle

/-- A leaf digest, or the hash of two digests. -/
inductive Term where
  | leaf (n : Nat)
  | node (left right : Term)
deriving DecidableEq, Inhabited

/-- A configuration whose digests are terms and whose leaves are numbers. -/
abbrev freeConfig : Config where
  Leaf := Nat
  LeafDigest := Term
  TwoToOneInput := Term
  InnerDigest := Term
  LeafParam := Unit
  TwoToOneParam := Unit
  leafHashEvaluate _ n := .ok (.leaf n)
  convert x := .ok x
  evaluate _ l r := .ok (.node l r)
  compress _ l r := .ok (.node l r)

/-- The tree of four leaves. -/
def freeTree : MerkleTree freeConfig where
  nonLeafNodes := [.node (.node (.leaf 0) (.leaf 1)) (.node (.leaf 2) (.leaf 3)),
    .node (.leaf 0) (.leaf 1), .node (.leaf 2) (.leaf 3)]
  leafNodes := [.leaf 0, .leaf 1, .leaf 2, .leaf 3]
  twoToOneHashParam := ()
  leafHashParam := ()
  height := 3

theorem newWithLeafDigest_freeTree :
    MerkleTree.newWithLeafDigest () () freeTree.leafNodes = .ok freeTree := rfl

theorem freeConfig_hashesSucceed : freeConfig.HashesSucceed () () :=
  ⟨fun _ => ⟨_, rfl⟩, fun _ => ⟨_, rfl⟩, fun _ _ => ⟨_, rfl⟩, fun _ _ => ⟨_, rfl⟩⟩

theorem freeConfig_not_collision : ¬ (freeConfig.hashing ()).Collision := by
  intro h
  cases h with
  | bottom hne h h' =>
    obtain ⟨rfl, rfl⟩ := Term.node.inj (Except.ok.inj (h.trans h'.symm))
    exact hne rfl
  | inner hne h h' =>
    obtain ⟨rfl, rfl⟩ := Term.node.inj (Except.ok.inj (h.trans h'.symm))
    exact hne rfl

end CryptoPrimitives.Merkle
