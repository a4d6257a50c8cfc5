import CryptoPrimitives.Crh.SpongeHash
import CryptoPrimitives.Framework.RootBinding
import CryptoPrimitives.MerkleTree.Constraints

/-!
# Trees of field elements

`FieldMTConfig` of the tests: Poseidon for both hashes of a tree, with `IdentityDigestConverter`, natively and in
the circuit.

* `fieldGadget_valueCorrect`: the gadgets of `FieldMTConfigVar` are what the path gadget asks for, so
  `fieldGadget_agrees`: root and updates agree with the native tree.
* `exists_new_same_root`: a leaf of two elements is hashed as a node is, so the root does not bind the height of a
  tree.
-/

namespace CryptoPrimitives.Merkle

open HashTree (levelOf)
open Poseidon (CRH.evaluate TwoToOneCRH.compress CRHGadget.evaluate TwoToOneCRHGadget.compress)
open Sponge (PoseidonConfig)
open Synthesis (Computes)

/-- The parameters of a `PoseidonConfig` that `new` accepts, with a rate. -/
structure PoseidonParameters (p : Nat) where
  config : PoseidonConfig (ZMod p)
  accepted : config.Accepted
  rate_pos : 0 < config.rate

namespace PoseidonParameters

variable {p : Nat} (parameters : PoseidonParameters p)

/-- `CRH::evaluate(..).unwrap()`. -/
def evaluate (input : List (ZMod p)) : ZMod p :=
  match CRH.evaluate parameters.config input with
  | .ok digest => digest
  | .error _ => 0

/-- `TwoToOneCRH::compress(..).unwrap()`. -/
def compress (leftInput rightInput : ZMod p) : ZMod p :=
  match TwoToOneCRH.compress parameters.config leftInput rightInput with
  | .ok digest => digest
  | .error _ => 0

variable [Fact p.Prime]

theorem evaluate_eq (input : List (ZMod p)) : CRH.evaluate parameters.config input = .ok (parameters.evaluate input) := by
  obtain ⟨digest, h⟩ := Poseidon.exists_hash parameters.accepted parameters.rate_pos [input]
  rw [evaluate, show CRH.evaluate parameters.config input = .ok digest from h]

theorem compress_eq (leftInput rightInput : ZMod p) :
    TwoToOneCRH.compress parameters.config leftInput rightInput = .ok (parameters.compress leftInput rightInput) := by
  obtain ⟨digest, h⟩ := Poseidon.exists_hash parameters.accepted parameters.rate_pos [[leftInput], [rightInput]]
  rw [compress, show TwoToOneCRH.compress parameters.config leftInput rightInput = .ok digest from h]

/-- The hash of a list of two is that of two digests. -/
theorem evaluate_pair (leftInput rightInput : ZMod p) :
    parameters.evaluate [leftInput, rightInput] = parameters.compress leftInput rightInput := by
  have h := Poseidon.compress_eq_evaluate parameters.rate_pos leftInput rightInput
  rw [evaluate_eq, compress_eq] at h
  exact (Except.ok.inj h).symm

end PoseidonParameters

/-- `FieldMTConfig`. -/
abbrev fieldConfig (p : Nat) : Config where
  Leaf := List (ZMod p)
  LeafDigest := ZMod p
  TwoToOneInput := ZMod p
  InnerDigest := ZMod p
  LeafParam := PoseidonParameters p
  TwoToOneParam := PoseidonParameters p
  leafHashEvaluate parameters input := .ok (parameters.evaluate input)
  convert item := .ok item
  evaluate parameters leftInput rightInput := .ok (parameters.compress leftInput rightInput)
  compress parameters leftInput rightInput := .ok (parameters.compress leftInput rightInput)

theorem fieldConfig_hashesSucceed {p : Nat} (leafParam twoToOneParam : PoseidonParameters p) :
    (fieldConfig p).HashesSucceed leafParam twoToOneParam :=
  ⟨fun _ => ⟨_, rfl⟩, fun _ => ⟨_, rfl⟩, fun _ _ => ⟨_, rfl⟩, fun _ _ => ⟨_, rfl⟩⟩

/-! ## In the circuit -/

/-- The operations of `FpVar<F>` that a digest is allocated, selected and compared with. -/
class FpDigestVar (p : outParam Nat) (V : Type) [FpVar p V] where
  newVariable : ZMod p → AllocationMode → Gadget V
  conditionallySelect : Boolean → V → V → Gadget V
  isEq : V → V → Gadget Boolean

class LawfulFpDigestVar (p : outParam Nat) (V : Type) [FpVar p V] [FpDigestVar p V] : Prop where
  newVariable_computes (x : ZMod p) (mode : AllocationMode) :
    Computes (FpDigestVar.newVariable x mode : Gadget V) fun v => FpVar.value v = x
  conditionallySelect_computes (cond : Boolean) (x y : V) :
    Computes (FpDigestVar.conditionallySelect cond x y) fun v =>
      FpVar.value v = if cond.value then FpVar.value x else FpVar.value y
  isEq_computes (x y : V) :
    Computes (FpDigestVar.isEq x y) fun b => b.value = (FpVar.value x == FpVar.value y)

instance {p : Nat} : FpDigestVar p (Assigned (ZMod p)) where
  newVariable x
    | .constant => pure (.constant x)
    | _ => pure (.var x)
  conditionallySelect cond x y := pure (.var (if cond.value then x.value else y.value))
  isEq x y := pure (.var (x.value == y.value))

instance {p : Nat} : LawfulFpDigestVar p (Assigned (ZMod p)) where
  newVariable_computes x mode := by cases mode <;> exact .pure rfl
  conditionallySelect_computes _ _ _ := .pure rfl
  isEq_computes _ _ := .pure rfl

/-- `FieldMTConfigVar`. The variables of the parameters hold them as they are. -/
abbrev fieldGadget (p : Nat) (V : Type) [FpVar p V] [Cs V] [FpDigestVar p V] : ConfigGadget (fieldConfig p) where
  Leaf := List V
  LeafDigest := V
  InputVar := V
  InnerDigest := V
  LeafParam := PoseidonParameters p
  TwoToOneParam := PoseidonParameters p
  leafValue leaf := leaf.map FpVar.value
  leafDigestValue := FpVar.value
  inputValue := FpVar.value
  innerDigestValue := FpVar.value
  leafParamValue parameters := parameters
  twoToOneParamValue parameters := parameters
  leafDigestNewVariable := FpDigestVar.newVariable
  innerDigestNewVariable := FpDigestVar.newVariable
  leafDigestSelect := FpDigestVar.conditionallySelect
  innerDigestSelect := FpDigestVar.conditionallySelect
  innerDigestIsEq := FpDigestVar.isEq
  leafHashEvaluate parameters input := CRHGadget.evaluate parameters.config input
  convert item := pure item
  evaluate parameters leftInput rightInput := TwoToOneCRHGadget.compress parameters.config leftInput rightInput
  compress parameters leftInput rightInput := TwoToOneCRHGadget.compress parameters.config leftInput rightInput

section

variable {p : Nat} [Fact p.Prime] {V : Type} [FpVar p V] [LawfulFpVar p V] [Cs V] [FpDigestVar p V]
  [LawfulFpDigestVar p V]

/-- The gadgets have the values of the native hashes, whatever they are called on. -/
theorem fieldGadget_valueCorrect : (fieldGadget p V).ValueCorrect where
  leafDigestNewVariable := LawfulFpDigestVar.newVariable_computes
  innerDigestNewVariable := LawfulFpDigestVar.newVariable_computes
  leafDigestSelect b x y := (LawfulFpDigestVar.conditionallySelect_computes b x y).mono fun _ h =>
    h.trans (apply_ite FpVar.value _ x y).symm
  innerDigestSelect b x y := (LawfulFpDigestVar.conditionallySelect_computes b x y).mono fun _ h =>
    h.trans (apply_ite FpVar.value _ x y).symm
  innerDigestIsEq := LawfulFpDigestVar.isEq_computes
  leafHashEvaluate parameters input y h := by
    refine Poseidon.evaluate_computes input ?_
    rw [parameters.evaluate_eq]
    exact congrArg Except.ok (Except.ok.inj h)
  convert _ _ h := .pure (Except.ok.inj h)
  evaluate parameters l r y h := by
    refine Poseidon.compress_computes parameters.rate_pos l r ?_
    rw [parameters.compress_eq]
    exact congrArg Except.ok (Except.ok.inj h)
  compress parameters l r y h := by
    refine Poseidon.compress_computes parameters.rate_pos l r ?_
    rw [parameters.compress_eq]
    exact congrArg Except.ok (Except.ok.inj h)

/-- The gadget agrees with every path of at most 63 siblings, and with every tree. -/
theorem fieldGadget_agrees (leafParams twoToOneParams : PoseidonParameters p) :
    (∀ path : Path (fieldConfig p), path.authPath.length < usizeBits →
      path.GadgetAgrees (fieldGadget p V) leafParams twoToOneParams) ∧
    ∀ t : MerkleTree (fieldConfig p), t.Reachable → t.leafHashParam = leafParams →
      t.twoToOneHashParam = twoToOneParams → ∀ i < t.leafNodes.length,
        t.GadgetUpdates (fieldGadget p V) leafParams twoToOneParams i := by
  have hs : (fieldConfig p).HashesSucceed leafParams twoToOneParams :=
    fieldConfig_hashesSucceed leafParams twoToOneParams
  exact ⟨fun path h => path.gadgetAgrees_of_lt fieldGadget_valueCorrect hs h,
    fun _ ht hl hp _ hi => MerkleTree.gadgetUpdates fieldGadget_valueCorrect hs ht hl hp hi⟩

end

/-- A path of a tree of eight leaves, over the field of five elements. -/
theorem fieldGadget_agrees_five : ∃ parameters : PoseidonParameters 5,
    Path.GadgetAgrees (fieldGadget 5 (Assigned (ZMod 5))) parameters parameters ⟨1, [2, 3], 6⟩ := by
  have hlength : [(2 : ZMod 5), 3].length < usizeBits := by decide
  have h5 : Fact (Nat.Prime 5) := ⟨by decide⟩
  let parameters : PoseidonParameters 5 := ⟨Sponge.smallConfig, Sponge.smallConfigOf_accepted 5, Nat.two_pos⟩
  exact ⟨parameters, (fieldGadget_agrees parameters parameters).1 ⟨1, [2, 3], 6⟩ hlength⟩

/-! ## The height of a tree -/

namespace MerkleTree

variable {p : Nat} [Fact p.Prime]

/-- The pairs of digests below the positions at a depth of a tree. -/
def leavesAtDepth (t : MerkleTree (fieldConfig p)) (d : Nat) : List (List (ZMod p)) :=
  let digest := levelOf (t.height - 2) t.leafAt t.nodeAt (d + 1)
  (List.range (2 ^ d)).map fun i => [digest (2 * i), digest (2 * i + 1)]

/-- With one set of parameters for leaves and nodes, those pairs hash to the digests at that depth. -/
theorem mapM_leavesAtDepth {t : MerkleTree (fieldConfig p)} (ht : t.Valid) (hparam : t.leafHashParam = t.twoToOneHashParam)
    {d : Nat} (hd : d ≤ t.height - 2) :
    ((t.leavesAtDepth d).mapM fun input => propagate ((fieldConfig p).leafHashEvaluate t.leafHashParam input) :
      Outcome (List (ZMod p))) = .ok ((List.range (2 ^ d)).map (t.nodeAt d)) := by
  rw [leavesAtDepth, List.mapM_map]
  refine Except.mapM_eq_map fun i hi => ?_
  have hnode := ht.isTree.inner_levelOf rfl hd (List.mem_range.mp hi)
  simp only [Function.comp_apply, propagate, PoseidonParameters.evaluate_pair, hparam]
  exact congrArg Except.ok (Except.ok.inj hnode)

/-- The root of a tree is that of a tree of any smaller height, over the digests inside the first one. -/
theorem exists_new_same_root {t : MerkleTree (fieldConfig p)} (ht : t.Reachable)
    (hparam : t.leafHashParam = t.twoToOneHashParam) {height : Nat} (hheight : 2 ≤ height) (hlt : height < t.height) :
    ∃ t', new t.leafHashParam t.twoToOneHashParam (t.leavesAtDepth (height - 1)) = .ok t' ∧ t'.height = height ∧
      t'.root = t.root := by
  obtain ⟨k, rfl⟩ : ∃ k, height = k + 2 := ⟨height - 2, by omega⟩
  have hlt : k < t.height - 2 := by omega
  have hdigests := mapM_leavesAtDepth ht.valid hparam (show k + 1 ≤ t.height - 2 from hlt)
  obtain ⟨t', hnew, hk⟩ := exists_newWithLeafDigest (fieldConfig_hashesSucceed t.leafHashParam t.twoToOneHashParam)
    (show ((List.range (2 ^ (k + 1))).map (t.nodeAt (k + 1))).length = 2 ^ (k + 1) by simp)
  obtain ⟨ht', hleaf, -, htwo⟩ := newWithLeafDigest_eq_ok.mp hnew
  refine ⟨t', ?_, hk, ?_⟩
  · rw [new, show k + 2 - 1 = k + 1 from rfl, hdigests, Except.ok_bind, hnew]
  -- the upper levels of `t` are the tree over the digests at the depth of the leaves of `t'`
  have htree' := ht'.isTree
  rw [htwo, show t'.height - 2 = k by omega] at htree'
  have hroot := (ht.valid.isTree.truncate rfl hlt).unique htree' (fun q hq => ?_) 0 (Nat.zero_le k) 0 Nat.one_pos
  · rw [ht'.root_eq, ht.valid.root_eq, hroot]
  · rw [leafAt, hleaf, List.getD_eq_getElem _ _ (by simpa using hq), List.getElem_map, List.getElem_range]

/-- A tree of four distinct leaf digests over the field of five elements. -/
theorem exists_new_same_root_five : ∃ t t' : MerkleTree (fieldConfig 5), t.leafNodes = [0, 1, 2, 3] ∧ t.height = 3 ∧
    t'.height = 2 ∧ new t.leafHashParam t.twoToOneHashParam (t.leavesAtDepth 1) = .ok t' ∧ t'.root = t.root := by
  have h5 : Fact (Nat.Prime 5) := ⟨by decide⟩
  let parameters : PoseidonParameters 5 := ⟨Sponge.smallConfig, Sponge.smallConfigOf_accepted 5, Nat.two_pos⟩
  obtain ⟨t, ht, hheight⟩ := exists_newWithLeafDigest (k := 1) (fieldConfig_hashesSucceed parameters parameters)
    (show [(0 : ZMod 5), 1, 2, 3].length = 2 ^ 2 from rfl)
  obtain ⟨-, hds, hleaf, htwo⟩ := newWithLeafDigest_eq_ok.mp ht
  have hreachable : t.Reachable := by
    refine .built ?_ ht
    exact (show 4 < 2 ^ usizeBits by decide)
  obtain ⟨t', h⟩ := exists_new_same_root hreachable (hleaf.trans htwo.symm) le_rfl (show 2 < t.height by omega)
  exact ⟨t, t', hds, hheight, h.2.1, h.1, h.2.2⟩

end MerkleTree

end CryptoPrimitives.Merkle
