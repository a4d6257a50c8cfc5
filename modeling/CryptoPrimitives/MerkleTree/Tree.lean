import CryptoPrimitives.Rust.Outcome
import CryptoPrimitives.Framework.HashTree
import CryptoPrimitives.MerkleTree.Index

/-!
# The tree of `merkle_tree/mod.rs`

`Config` is the trait the tree is generic in: its digest types, its two hashes
and the converter between the layers, any call of which may return `Err`. The
functions of `Path` and `MerkleTree` follow, in the source's order. A method on
`&mut self` returns the tree it leaves behind with its result.
-/

namespace CryptoPrimitives.Merkle

/-- `merkle_tree::Config`. -/
structure Config where
  Leaf : Type
  LeafDigest : Type
  /-- The input of `TwoToOneHash::evaluate`. -/
  TwoToOneInput : Type
  InnerDigest : Type
  LeafParam : Type
  TwoToOneParam : Type
  [leafDigestEq : DecidableEq LeafDigest]
  [innerDigestEq : DecidableEq InnerDigest]
  [leafDigestDefault : Inhabited LeafDigest]
  [innerDigestDefault : Inhabited InnerDigest]
  /-- `LeafHash::evaluate`. -/
  leafHashEvaluate : LeafParam → Leaf → Except Error LeafDigest
  /-- `LeafInnerDigestConverter::convert`. -/
  convert : LeafDigest → Except Error TwoToOneInput
  /-- `TwoToOneHash::evaluate`. -/
  evaluate : TwoToOneParam → TwoToOneInput → TwoToOneInput → Except Error InnerDigest
  /-- `TwoToOneHash::compress`. -/
  compress : TwoToOneParam → InnerDigest → InnerDigest → Except Error InnerDigest

attribute [instance] Config.leafDigestEq Config.innerDigestEq Config.leafDigestDefault
  Config.innerDigestDefault

variable {P : Config}

/-- The digest of two leaf digests: both converted, then hashed. -/
def Config.evaluateConverted (P : Config) (param : P.TwoToOneParam) (left right : P.LeafDigest) :
    Except Error P.InnerDigest := do
  let left ← P.convert left
  let right ← P.convert right
  P.evaluate param left right

/-- The two-to-one hash of the tree, on its two layers. -/
def Config.hashing (P : Config) (param : P.TwoToOneParam) :
    HashTree.Hashing Error P.LeafDigest P.InnerDigest where
  bottom := P.evaluateConverted param
  inner := P.compress param

/-- Every call of the hashes and of the converter returns `Ok`. -/
structure Config.HashesSucceed (P : Config) (leafHashParam : P.LeafParam) (param : P.TwoToOneParam) :
    Prop where
  leafHash : ∀ leaf, ∃ x, P.leafHashEvaluate leafHashParam leaf = .ok x
  convert : ∀ x, ∃ y, P.convert x = .ok y
  evaluate : ∀ l r, ∃ n, P.evaluate param l r = .ok n
  compress : ∀ l r, ∃ n, P.compress param l r = .ok n

theorem Config.HashesSucceed.total {leafHashParam : P.LeafParam} {param : P.TwoToOneParam}
    (h : P.HashesSucceed leafHashParam param) : (P.hashing param).Total where
  bottom l r := by
    obtain ⟨l', hl⟩ := h.convert l
    obtain ⟨r', hr⟩ := h.convert r
    obtain ⟨n, hn⟩ := h.evaluate l' r'
    exact ⟨n, by simp only [Config.hashing, Config.evaluateConverted, hl, hr, hn, Except.ok_bind]⟩
  inner := h.compress

/-! ## Paths -/

/-- `Path`: the siblings of the path from root to leaf, and the leaf's index. -/
structure Path (P : Config) where
  leafSiblingHash : P.LeafDigest
  authPath : List P.InnerDigest
  leafIndex : Nat

/-- `select_left_right_child`. -/
def selectLeftRightChild {α : Type} (index : Nat) (computedHash siblingHash : α) : α × α :=
  let isLeft := index &&& 1 == 0
  if isLeft then (computedHash, siblingHash) else (siblingHash, computedHash)

namespace Path

/-- One level of the loop of `Path::verify`. -/
def verifyLevel (self : Path P) (param : P.TwoToOneParam) (curr : P.InnerDigest × Nat) (level : Nat) :
    Outcome (P.InnerDigest × Nat) := do
  let sibling ← index self.authPath level
  let (left, right) := selectLeftRightChild curr.2 curr.1 sibling
  let node ← unwrap (P.compress param left right)
  pure (node, curr.2 >>> 1)

/-- The node `Path::verify` compares with the root. -/
def finalNode (self : Path P) (leafHashParams : P.LeafParam) (twoToOneParams : P.TwoToOneParam)
    (leaf : P.Leaf) : Outcome P.InnerDigest := do
  let claimedLeafHash ← unwrap (P.leafHashEvaluate leafHashParams leaf)
  let (left, right) := selectLeftRightChild self.leafIndex claimedLeafHash self.leafSiblingHash
  let currPathNode ← unwrap (P.evaluateConverted twoToOneParams left right)
  let curr ← (List.range self.authPath.length).reverse.foldlM (self.verifyLevel twoToOneParams)
    (currPathNode, self.leafIndex >>> 1)
  pure curr.1

/-- `Path::verify`. -/
def verify (self : Path P) (leafHashParams : P.LeafParam) (twoToOneParams : P.TwoToOneParam)
    (rootHash : P.InnerDigest) (leaf : P.Leaf) : Outcome Bool := do
  let currPathNode ← self.finalNode leafHashParams twoToOneParams leaf
  pure (currPathNode == rootHash)

end Path

/-! ## Construction -/

/-- `MerkleTree`: the nodes in level order with the root at index 0, the leaf
digests, the parameters of both hashes and the height. -/
structure MerkleTree (P : Config) where
  nonLeafNodes : List P.InnerDigest
  leafNodes : List P.LeafDigest
  twoToOneHashParam : P.TwoToOneParam
  leafHashParam : P.LeafParam
  height : Nat

namespace MerkleTree

/-- Overwrite the entries from `start` to `upper` in order, each with what `f`
gives for its offset from `start`: the loops over `iter_mut().enumerate()` of a
slice. -/
def fillSlice {α : Type} (xs : List α) (start upper : Nat) (f : Nat → Outcome α) : Outcome (List α) :=
  if start ≤ upper ∧ upper ≤ xs.length then do
    let level ← (List.range (upper - start)).mapM f
    pure (xs.take start ++ level ++ xs.drop upper)
  else raise (.panic .indexOutOfBounds)

/-- The first index of each non-leaf level, from the root. -/
def levelIndices : Nat → Nat → List Nat
  | 0, _ => []
  | levels + 1, index => index :: levelIndices levels (leftChild index)

/-- The hash values for the non-leaf bottom layer. -/
def hashBottomLayer (param : P.TwoToOneParam) (leafDigests : List P.LeafDigest) (startIndex : Nat)
    (nonLeafNodes : List P.InnerDigest) : Outcome (List P.InnerDigest) :=
  let upperBound := leftChild startIndex
  fillSlice nonLeafNodes startIndex upperBound fun i => do
    let currentIndex := i + startIndex
    let left ← index leafDigests (leftChild currentIndex - upperBound)
    let right ← index leafDigests (rightChild currentIndex - upperBound)
    propagate (P.evaluateConverted param left right)

/-- The hash values for the nodes of another layer: `split_at_mut` separates it
from the layers below, which it reads. -/
def hashLayer (param : P.TwoToOneParam) (nonLeafNodes : List P.InnerDigest) (startIndex : Nat) :
    Outcome (List P.InnerDigest) :=
  let upperBound := leftChild startIndex
  let nodesAtPrevLevel := nonLeafNodes.drop upperBound
  fillSlice nonLeafNodes startIndex upperBound fun i => do
    let currentIndex := i + startIndex
    let left ← index nodesAtPrevLevel (leftChild currentIndex - upperBound)
    let right ← index nodesAtPrevLevel (rightChild currentIndex - upperBound)
    propagate (P.compress param left right)

/-- `MerkleTree::new_with_leaf_digest`. -/
def newWithLeafDigest (leafHashParam : P.LeafParam) (twoToOneHashParam : P.TwoToOneParam)
    (leafDigests : List P.LeafDigest) : Outcome (MerkleTree P) := do
  let leafNodesSize := leafDigests.length
  assert (isPowerOfTwo leafNodesSize && decide (leafNodesSize > 1))
    "`leaves.len() should be power of two and greater than one"
  let nonLeafNodesSize := leafNodesSize - 1
  let treeHeight := treeHeight leafNodesSize
  let nonLeafNodes := List.replicate nonLeafNodesSize (default : P.InnerDigest)
  let levelIndices := levelIndices (treeHeight - 1) 0
  let startIndex ← unwrapOption levelIndices.getLast?
  let nonLeafNodes ← hashBottomLayer twoToOneHashParam leafDigests startIndex nonLeafNodes
  let nonLeafNodes ← levelIndices.dropLast.reverse.foldlM (hashLayer twoToOneHashParam) nonLeafNodes
  pure { nonLeafNodes, leafNodes := leafDigests, twoToOneHashParam, leafHashParam, height := treeHeight }

/-- `MerkleTree::new`. -/
def new (leafHashParam : P.LeafParam) (twoToOneHashParam : P.TwoToOneParam) (leaves : List P.Leaf) :
    Outcome (MerkleTree P) := do
  let leafDigests ← leaves.mapM fun input => propagate (P.leafHashEvaluate leafHashParam input)
  newWithLeafDigest leafHashParam twoToOneHashParam leafDigests

/-- `MerkleTree::root`. -/
def root (self : MerkleTree P) : Outcome P.InnerDigest := index self.nonLeafNodes 0

/-! ## Proofs for one leaf -/

/-- `MerkleTree::get_leaf_sibling_hash`. -/
def getLeafSiblingHash (self : MerkleTree P) (i : Nat) : Outcome P.LeafDigest :=
  if i &&& 1 = 0 then index self.leafNodes (i + 1) else index self.leafNodes (i - 1)

/-- The loop of `compute_auth_path`, with fuel for each step up. -/
def authPathLoop (nonLeafNodes : List P.InnerDigest) : Nat → Nat → List P.InnerDigest →
    Outcome (List P.InnerDigest)
  | fuel, currentNode, path =>
    if isRoot currentNode then pure path
    else
      match fuel with
      | 0 => raise .diverge
      | fuel + 1 => do
        let siblingNode ← unwrapOption (sibling currentNode)
        let node ← index nonLeafNodes siblingNode
        let parentNode ← unwrapOption (parent currentNode)
        authPathLoop nonLeafNodes fuel parentNode (path ++ [node])

/-- `MerkleTree::compute_auth_path`. -/
def computeAuthPath (self : MerkleTree P) (i : Nat) : Outcome (List P.InnerDigest) := do
  let treeHeight := treeHeight self.leafNodes.length
  let leafIndexInTree := convertIndexToLastLevel i treeHeight
  let currentNode ← unwrapOption (parent leafIndexInTree)
  let path ← authPathLoop self.nonLeafNodes currentNode currentNode []
  pure path.reverse

/-- `MerkleTree::generate_proof`. -/
def generateProof (self : MerkleTree P) (i : Nat) : Outcome (Path P) := do
  let path ← self.computeAuthPath i
  let leafSiblingHash ← self.getLeafSiblingHash i
  pure { leafIndex := i, authPath := path, leafSiblingHash }

/-! ## Updates -/

/-- The loop of `updated_path`, with fuel for each step up. -/
def updatedPathLoop (self : MerkleTree P) : Nat → Nat → List P.InnerDigest →
    Outcome (List P.InnerDigest)
  | fuel, prevIndex, pathBottomToTop =>
    if isRoot prevIndex then pure pathBottomToTop
    else
      match fuel with
      | 0 => raise .diverge
      | fuel + 1 => do
        let last ← unwrapOption pathBottomToTop.getLast?
        let siblingNode ← unwrapOption (sibling prevIndex)
        let siblingHash ← index self.nonLeafNodes siblingNode
        let (leftChild, rightChild) :=
          if isLeftChild prevIndex then (last, siblingHash) else (siblingHash, last)
        let evaluated ← propagate (P.compress self.twoToOneHashParam leftChild rightChild)
        let parentNode ← unwrapOption (parent prevIndex)
        updatedPathLoop self fuel parentNode (pathBottomToTop ++ [evaluated])

/-- `MerkleTree::updated_path`: the hash of the new leaf and the path from the
root to it. -/
def updatedPath (self : MerkleTree P) (i : Nat) (newLeaf : P.Leaf) :
    Outcome (P.LeafDigest × List P.InnerDigest) := do
  let newLeafHash ← propagate (P.leafHashEvaluate self.leafHashParam newLeaf)
  let siblingHash ← self.getLeafSiblingHash i
  let (leafLeft, leafRight) :=
    if i &&& 1 = 0 then (newLeafHash, siblingHash) else (siblingHash, newLeafHash)
  let bottom ← propagate (P.evaluateConverted self.twoToOneHashParam leafLeft leafRight)
  let leafIndexInTree := convertIndexToLastLevel i self.height
  let prevIndex ← unwrapOption (parent leafIndexInTree)
  let pathBottomToTop ← self.updatedPathLoop prevIndex prevIndex [bottom]
  pure (newLeafHash, pathBottomToTop.reverse)

/-- The loop that writes an updated path, bottom node first: `updated_path.pop()`
at each of `levels` steps up from `currIndex`. -/
def writePath : Nat → Nat → List P.InnerDigest → MerkleTree P → MerkleTree P × Outcome Unit
  | 0, _, _, self => (self, pure ())
  | levels + 1, currIndex, updatedPath, self =>
    match parent currIndex, updatedPath.getLast? with
    | some currIndex, some node =>
      if currIndex < self.nonLeafNodes.length then
        writePath levels currIndex updatedPath.dropLast
          { self with nonLeafNodes := self.nonLeafNodes.set currIndex node }
      else (self, raise (.panic .indexOutOfBounds))
    | _, _ => (self, raise (.panic .unwrapNone))

/-- The writes of a successful `update` or `check_update`. -/
def writeLeafAndPath (self : MerkleTree P) (i : Nat) (updatedLeafHash : P.LeafDigest)
    (updatedPath : List P.InnerDigest) : MerkleTree P × Outcome Unit :=
  writePath (self.height - 1) (convertIndexToLastLevel i self.height) updatedPath
    { self with leafNodes := self.leafNodes.set i updatedLeafHash }

/-- `MerkleTree::update`. -/
def update (self : MerkleTree P) (i : Nat) (newLeaf : P.Leaf) : MerkleTree P × Outcome Unit :=
  if i < self.leafNodes.length then
    match self.updatedPath i newLeaf with
    | .error fault => (self, .error fault)
    | .ok (updatedLeafHash, updatedPath) => self.writeLeafAndPath i updatedLeafHash updatedPath
  else (self, raise (.panic (.assertion "index out of range")))

/-- `MerkleTree::check_update`. -/
def checkUpdate (self : MerkleTree P) (i : Nat) (newLeaf : P.Leaf) (assertedNewRoot : P.InnerDigest) :
    MerkleTree P × Outcome Bool :=
  if i < self.leafNodes.length then
    match self.updatedPath i newLeaf with
    | .error fault => (self, .error fault)
    | .ok (updatedLeafHash, updatedPath) =>
      match updatedPath[0]? with
      | none => (self, raise (.panic .indexOutOfBounds))
      | some newRoot =>
        if newRoot ≠ assertedNewRoot then (self, pure false)
        else
          let (tree, result) := self.writeLeafAndPath i updatedLeafHash updatedPath
          (tree, (fun _ => true) <$> result)
  else (self, raise (.panic (.assertion "index out of range")))

end MerkleTree

end CryptoPrimitives.Merkle
