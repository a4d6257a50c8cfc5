import CryptoPrimitives.Crh.Sha256Gadget
import CryptoPrimitives.MerkleTree.Constraints

/-!
# Trees of SHA-256 digests

`Sha256` for both hashes of a tree, with `ByteDigestConverter` natively and
`BytesVarDigestConverter` in the circuit. The first writes the length of a digest
before its bytes and the second does not, so the bottom hashes are of different
messages.

* `Path.message`: what is hashed at each level of a path, with either converter.
* `finalNode_eq_message`, `calculateRoot_computes_message`: both paths hash these.
* `calculateRoot_eq_iff_messagesCollide`: the converters disagree on every digest, and the
  roots on every path, unless two messages of one level collide.
-/

namespace CryptoPrimitives.Merkle

open Synthesis (Computes)
open Sha256 (Hasher sha256 length_sha256)
open Sha256.Sha256Gadget (digest digest_computes twoToOneEvaluate)

/-- A `Config` with `Sha256` for both hashes, and `ByteDigestConverter`. -/
abbrev sha256Config (hasher : Hasher) : Config where
  Leaf := List UInt8
  LeafDigest := List UInt8
  TwoToOneInput := List UInt8
  InnerDigest := List UInt8
  LeafParam := Unit
  TwoToOneParam := Unit
  leafHashEvaluate _ := hasher.evaluate
  convert item := .ok (serializeBytes item)
  evaluate _ := hasher.twoToOneEvaluate
  compress _ := hasher.compress

/-- `DigestVar`. -/
structure DigestVar (B : Type) where
  bytes : List B

namespace DigestVar

variable {B : Type} [UInt8Var B]

/-- `DigestVar::value`: the bytes fill a buffer of 32 zeros. -/
def value (self : DigestVar B) : List UInt8 :=
  (self.bytes.map UInt8Var.value).take 32 ++ List.replicate (32 - self.bytes.length) 0

/-- `DigestVar::to_bytes_le`. -/
def toBytesLe (self : DigestVar B) : Gadget (List B) := pure self.bytes

variable [UInt8DigestVar B]

/-- `DigestVar::new_variable`. -/
def newVariable (nativeBytes : List UInt8) (mode : AllocationMode) : Gadget (DigestVar B) :=
  if nativeBytes.length ≠ 32 then
    Synthesis.fail (.native (.panic (.explicit "DigestVar must be allocated with precisely 32 bytes")))
  else do
    let varBytes ← (List.range 32).mapM fun i => do
      let byte ← liftM (index nativeBytes i : Outcome UInt8)
      UInt8DigestVar.newVariable byte mode
    pure ⟨varBytes⟩

/-- `DigestVar::conditionally_select`. -/
def conditionallySelect (cond : Boolean) (trueValue falseValue : DigestVar B) : Gadget (DigestVar B) := do
  let bytes ← (trueValue.bytes.zip falseValue.bytes).mapM fun e =>
    UInt8DigestVar.conditionallySelect cond e.1 e.2
  pure ⟨bytes⟩

end DigestVar

/-- The `ConfigGadget` of `Sha256Gadget`, with `BytesVarDigestConverter`. -/
abbrev sha256Gadget (hasher : Hasher) (B W : Type) [UInt8Var B] [UInt32Var B W] [UInt8DigestVar B] :
    ConfigGadget (sha256Config hasher) where
  Leaf := List B
  LeafDigest := DigestVar B
  InputVar := List B
  InnerDigest := DigestVar B
  LeafParam := Unit
  TwoToOneParam := Unit
  leafValue leaf := leaf.map UInt8Var.value
  leafDigestValue := DigestVar.value
  inputValue input := input.map UInt8Var.value
  innerDigestValue := DigestVar.value
  leafParamValue _ := ()
  twoToOneParamValue _ := ()
  leafDigestNewVariable := DigestVar.newVariable
  innerDigestNewVariable := DigestVar.newVariable
  leafDigestSelect := DigestVar.conditionallySelect
  innerDigestSelect := DigestVar.conditionallySelect
  innerDigestIsEq x y := UInt8DigestVar.isEq x.bytes y.bytes
  leafHashEvaluate _ input := do
    let bytes ← digest W input
    pure ⟨bytes⟩
  convert := DigestVar.toBytesLe
  evaluate _ leftInput rightInput := do
    let bytes ← twoToOneEvaluate W leftInput rightInput
    pure ⟨bytes⟩
  compress _ leftInput rightInput := do
    let leftInput ← leftInput.toBytesLe
    let rightInput ← rightInput.toBytesLe
    let bytes ← twoToOneEvaluate W leftInput rightInput
    pure ⟨bytes⟩

/-! ## The messages of a path -/

section

variable {hasher : Hasher}

namespace Path

/-- The message that is hashed `j` levels above the parent of the leaf, with
`convert` between the layers. -/
def message (convert : List UInt8 → List UInt8) (self : Path (sha256Config hasher)) (leaf : List UInt8) :
    Nat → List UInt8
  | 0 =>
    let (left, right) := selectLeftRightChild self.leafIndex (sha256 leaf) self.leafSiblingHash
    convert left ++ convert right
  | j + 1 =>
    let (left, right) := selectLeftRightChild (self.leafIndex >>> (j + 1)) (sha256 (self.message convert leaf j))
      (self.siblingAt (self.authPath.length - j))
    left ++ right

/-- Natively and in the circuit, two different messages of one level have the same
digest. -/
def MessagesCollide (self : Path (sha256Config hasher)) (leaf : List UInt8) : Prop :=
  ∃ j ≤ self.authPath.length, self.message serializeBytes leaf j ≠ self.message id leaf j ∧
    sha256 (self.message serializeBytes leaf j) = sha256 (self.message id leaf j)

variable {self : Path (sha256Config hasher)} {leaf : List UInt8}

/-- `Path::verify` hashes the messages with the lengths. -/
theorem finalNode_eq_message (h : hasher.IsSha256) (self : Path (sha256Config hasher)) (leaf : List UInt8) :
    self.finalNode () () leaf = .ok (sha256 (self.message serializeBytes leaf self.authPath.length)) := by
  refine finalNode_eq_ok.mpr ⟨_, h.evaluate_eq leaf,
    fun d => sha256 (self.message serializeBytes leaf (self.authPath.length - d)), ⟨?_, fun d hd => ?_⟩, rfl⟩
  · rw [HashTree.bottomAt_eq, Nat.sub_self, message, selectLeftRightChild_eq]
    exact h.twoToOneEvaluate_eq _ _
  · obtain ⟨j, hj⟩ : ∃ j, self.authPath.length - d = j + 1 := ⟨self.authPath.length - d - 1, by omega⟩
    rw [HashTree.innerAt_eq, hj, message, selectLeftRightChild_eq, HashTree.anc,
      show self.authPath.length - (d + 1) = j by omega, show self.authPath.length + 1 - (d + 1) = j + 1 by omega,
      show self.authPath.length - j = d + 1 by omega, Nat.shiftRight_eq_div_pow]
    exact h.twoToOneEvaluate_eq _ _

/-- The lengths make the messages at the bottom different. -/
theorem message_zero_ne (self : Path (sha256Config hasher)) (leaf : List UInt8) :
    self.message serializeBytes leaf 0 ≠ self.message id leaf 0 := by
  intro h
  have hlen := congrArg List.length h
  simp only [message, serializeBytes, id, List.length_append, length_toLeBytes] at hlen
  omega

/-- A level whose messages are equal is above a level whose digests are. -/
theorem sha256_message_of_succ {j : Nat}
    (h : self.message serializeBytes leaf (j + 1) = self.message id leaf (j + 1)) :
    sha256 (self.message serializeBytes leaf j) = sha256 (self.message id leaf j) := by
  simp only [message, selectLeftRightChild_eq] at h
  have hlen := (length_sha256 (self.message serializeBytes leaf j)).trans
    (length_sha256 (self.message id leaf j)).symm
  split at h
  · exact (List.append_inj h hlen).1
  · exact (List.append_inj' h hlen).2

/-- Above equal digests all digests are equal. -/
theorem sha256_message_of_le {j k : Nat} (hjk : j ≤ k)
    (h : sha256 (self.message serializeBytes leaf j) = sha256 (self.message id leaf j)) :
    sha256 (self.message serializeBytes leaf k) = sha256 (self.message id leaf k) := by
  induction k, hjk using Nat.le_induction with
  | base => exact h
  | succ k _ ih => rw [message, message, ih]

/-- The last digests are equal exactly when the messages of some level collide. -/
theorem sha256_message_eq_iff (self : Path (sha256Config hasher)) (leaf : List UInt8) :
    sha256 (self.message id leaf self.authPath.length) =
      sha256 (self.message serializeBytes leaf self.authPath.length) ↔ self.MessagesCollide leaf := by
  rw [eq_comm]
  constructor
  · intro h
    generalize hk : self.authPath.length = k at h
    have hcollides : ∃ j ≤ k, self.message serializeBytes leaf j ≠ self.message id leaf j ∧
        sha256 (self.message serializeBytes leaf j) = sha256 (self.message id leaf j) := by
      clear hk
      induction k with
      | zero => exact ⟨0, le_rfl, self.message_zero_ne leaf, h⟩
      | succ k ih =>
        by_cases hne : self.message serializeBytes leaf (k + 1) = self.message id leaf (k + 1)
        · obtain ⟨j, hj, hcollides⟩ := ih (sha256_message_of_succ hne)
          exact ⟨j, Nat.le_succ_of_le hj, hcollides⟩
        · exact ⟨k + 1, le_rfl, hne, h⟩
    rw [← hk] at hcollides
    exact hcollides
  · rintro ⟨j, hj, -, h⟩
    exact sha256_message_of_le hj h

end Path

/-! ## The path in the circuit -/

section

variable {B W : Type} [UInt8Var B] [UInt32Var B W] [LawfulUIntVar B W] [UInt8DigestVar B] [LawfulUInt8DigestVar B]

namespace DigestVar

omit [UInt8DigestVar B] in
theorem value_of_length {self : DigestVar B} (h : self.bytes.length = 32) :
    self.value = self.bytes.map UInt8Var.value := by
  rw [value, List.take_of_length_le (by rw [List.length_map, h]), h, Nat.sub_self]
  exact List.append_nil _

omit [UInt8Var B] [UInt8DigestVar B] in
theorem toBytesLe_computes (self : DigestVar B) : Computes self.toBytesLe (· = self.bytes) := .pure rfl

theorem newVariable_computes {nativeBytes : List UInt8} (h : nativeBytes.length = 32) (mode : AllocationMode) :
    Computes (newVariable nativeBytes mode : Gadget (DigestVar B)) fun v =>
      v.value = nativeBytes ∧ v.bytes.length = 32 := by
  rw [newVariable, if_neg (not_not_intro h)]
  have hbyte : ∀ i ∈ List.range 32, Computes (do
      let byte ← liftM (index nativeBytes i : Outcome UInt8)
      UInt8DigestVar.newVariable byte mode : Gadget B) fun v => UInt8Var.value v = nativeBytes.getD i 0 := by
    intro i hi
    have hlt : i < nativeBytes.length := by rwa [h, ← List.mem_range]
    refine computes_liftM_bind (index_of_lt hlt) ?_
    rw [List.getD_eq_getElem _ _ hlt]
    exact LawfulUInt8DigestVar.newVariable_computes _ mode
  refine (Computes.mapM_map hbyte).bind fun varBytes hvalues => .pure ?_
  have hlen : varBytes.length = 32 := by
    rw [← List.length_map UInt8Var.value, hvalues, List.length_map, List.length_range]
  refine ⟨?_, hlen⟩
  rw [value_of_length hlen, hvalues, ← h]
  exact List.ext_getElem (by rw [List.length_map, List.length_range]) fun i hi hi' => by
    rw [List.getElem_map, List.getElem_range, List.getD_eq_getElem]

theorem conditionallySelect_computes (cond : Boolean) {x y : DigestVar B} (hx : x.bytes.length = 32)
    (hy : y.bytes.length = 32) : Computes (conditionallySelect cond x y) fun v =>
      v.bytes.length = 32 ∧ v.value = if cond.value then x.value else y.value := by
  refine (Computes.mapM_map fun e _ =>
    LawfulUInt8DigestVar.conditionallySelect_computes cond e.1 e.2).bind fun bytes hbytes => .pure ?_
  have hlen : bytes.length = 32 := by
    rw [← List.length_map UInt8Var.value, hbytes, List.length_map, List.length_zip, hx, hy, Nat.min_self]
  refine ⟨hlen, ?_⟩
  rw [value_of_length hlen, value_of_length hx, value_of_length hy, hbytes]
  split
  · show List.map (UInt8Var.value ∘ Prod.fst) _ = _
    rw [← List.map_map, List.map_fst_zip (by rw [hx, hy])]
  · show List.map (UInt8Var.value ∘ Prod.snd) _ = _
    rw [← List.map_map, List.map_snd_zip (by rw [hx, hy])]

end DigestVar

namespace PathVar

omit [LawfulUIntVar B W] in
theorem newVariable_sha256_computes {path : Path (sha256Config hasher)} (h : path.authPath.length < usizeBits)
    (hsibling : path.leafSiblingHash.length = 32) (hauth : ∀ n ∈ path.authPath, n.length = 32)
    (mode : AllocationMode) : Computes (newVariable (sha256Gadget hasher B W) (.ok path) mode) fun v =>
      v.Represents path ∧ v.leafSibling.bytes.length = 32 ∧ ∀ n ∈ v.authPath, n.bytes.length = 32 :=
  @newVariable_computes_of (sha256Config hasher) (sha256Gadget hasher B W) path h mode (fun v => v.bytes.length = 32)
    (fun v => v.bytes.length = 32) (DigestVar.newVariable_computes hsibling mode)
    fun n hn => DigestVar.newVariable_computes (hauth n hn) mode

/-- Two digests, in the order that a bit of the index asks for. -/
theorem conditionallySelect_children {bit : Boolean} {i : Nat} (hbit : bit.value = i.testBit 0) {x s : DigestVar B}
    (hx : x.bytes.length = 32) (hs : s.bytes.length = 32) {f : DigestVar B → DigestVar B → Gadget (DigestVar B)}
    {Q : DigestVar B → Prop} (hf : ∀ l r : DigestVar B, l.bytes.length = 32 → r.bytes.length = 32 →
      l.bytes.map UInt8Var.value = (selectLeftRightChild i x.value s.value).1 →
      r.bytes.map UInt8Var.value = (selectLeftRightChild i x.value s.value).2 → Computes (f l r) Q) :
    Computes (do
      let left ← DigestVar.conditionallySelect bit s x
      let right ← DigestVar.conditionallySelect bit x s
      f left right) Q := by
  refine (DigestVar.conditionallySelect_computes bit hs hx).bind fun l hl => ?_
  refine (DigestVar.conditionallySelect_computes bit hx hs).bind fun r hr => ?_
  refine hf l r hl.1 hr.1 ?_ ?_
  · rw [← DigestVar.value_of_length hl.1, hl.2, hbit, ite_testBit_zero, Path.selectLeftRightChild_eq]
  · rw [← DigestVar.value_of_length hr.1, hr.2, hbit, ite_testBit_zero, Path.selectLeftRightChild_eq]

omit [UInt8DigestVar B] [LawfulUInt8DigestVar B] in
/-- A two-to-one digest of digests. -/
theorem twoToOneEvaluate_computes {l r : List B} (hl : l.length = 32) (hr : r.length = 32) :
    Computes (do
      let bytes ← twoToOneEvaluate W l r
      pure ⟨bytes⟩ : Gadget (DigestVar B)) fun v =>
        v.bytes.length = 32 ∧ v.value = sha256 (l.map UInt8Var.value ++ r.map UInt8Var.value) := by
  refine (Sha256.Sha256Gadget.twoToOneEvaluate_computes (by omega)).bind fun bytes hbytes => .pure ⟨hbytes.1, ?_⟩
  rw [DigestVar.value_of_length hbytes.1]
  exact hbytes.2

/-- `calculate_root` hashes the messages without the lengths. -/
theorem calculateRoot_computes_message {self : PathVar (sha256Gadget hasher B W)} {path : Path (sha256Config hasher)}
    (h : self.Represents path) (hsibling : self.leafSibling.bytes.length = 32)
    (hauth : ∀ n ∈ self.authPath, n.bytes.length = 32) {leaf : List B} (hleaf : leaf.length < 2 ^ 61) :
    Computes (self.calculateRoot () () leaf) fun v => v.bytes.length = 32 ∧
      v.value = sha256 (path.message id (leaf.map UInt8Var.value) path.authPath.length) := by
  have hdigest : Computes (do
      let bytes ← digest W leaf
      pure ⟨bytes⟩ : Gadget (DigestVar B)) fun v =>
        v.bytes.length = 32 ∧ v.value = sha256 (leaf.map UInt8Var.value) := by
    refine (digest_computes hleaf).bind fun bytes hbytes => .pure ⟨hbytes.1, ?_⟩
    rw [DigestVar.value_of_length hbytes.1]
    exact hbytes.2
  refine hdigest.bind fun claimedLeafHash hclaimed => ?_
  refine conditionallySelect_children h.leafIsRightChild hclaimed.1 hsibling fun l r hl hr hleft hright => ?_
  refine l.toBytesLe_computes.bind ?_
  rintro _ rfl
  refine r.toBytesLe_computes.bind ?_
  rintro _ rfl
  refine (twoToOneEvaluate_computes hl hr).bind fun currHash hcurr => ?_
  have hbottom : currHash.value = sha256 (path.message id (leaf.map UInt8Var.value) 0) := by
    have hsib : DigestVar.value (B := B) self.leafSibling = path.leafSiblingHash := h.leafSibling
    rw [hcurr.2, hleft, hright, hclaimed.2, hsib]
    rfl
  have hlen : (self.path.reverse.zip self.authPath.reverse).length = path.authPath.length := h.length_zip
  -- the invariant is on the levels done
  have hloop : Computes ((self.path.reverse.zip self.authPath.reverse).foldlM (calculateLevel ()) currHash) _ :=
    Computes.foldlM (I := fun j v => v.bytes.length = 32 ∧
      v.value = sha256 (path.message id (leaf.map UInt8Var.value) j)) (fun j level hlevel curr hcurr => ?_)
      ⟨hcurr.1, hbottom⟩
  · rwa [hlen] at hloop
  · obtain ⟨bit, sibling⟩ := level
    obtain ⟨-, hbit, hsib⟩ := h.level hlevel
    have hsib : DigestVar.value (B := B) sibling = path.siblingAt (path.authPath.length - j) := hsib
    have hmem : sibling ∈ self.authPath := by
      have := List.mem_of_getElem? (List.getElem?_zip_eq_some.mp hlevel).2
      rwa [List.mem_reverse] at this
    refine conditionallySelect_children hbit hcurr.1 (hauth sibling hmem) fun l r hl hr hleft hright => ?_
    refine l.toBytesLe_computes.bind ?_
    rintro _ rfl
    refine r.toBytesLe_computes.bind ?_
    rintro _ rfl
    refine (twoToOneEvaluate_computes hl hr).mono fun v hv => ⟨hv.1, ?_⟩
    rw [hv.2, hleft, hright, hcurr.2, hsib, Path.message, Nat.shiftRight_eq_div_pow]

end PathVar

/-! ## Agreement of the roots -/

omit [UInt8DigestVar B] [LawfulUIntVar B W] [LawfulUInt8DigestVar B] in
/-- The converters give different bytes for every digest. -/
theorem toBytesLe_ne_convert (digest : DigestVar B) (h : digest.bytes.length = 32) :
    Computes digest.toBytesLe fun input =>
      (sha256Config hasher).convert digest.value ≠ .ok (input.map UInt8Var.value) := by
  refine digest.toBytesLe_computes.mono ?_
  rintro _ rfl heq
  have hlen := congrArg List.length (Except.ok.inj heq)
  rw [DigestVar.value_of_length h, serializeBytes, List.length_append, length_toLeBytes] at hlen
  omega

/-- The root of a path in the circuit, and the node of the native path. -/
theorem calculateRoot_computes_and_finalNode (hsha : hasher.IsSha256) (path : Path (sha256Config hasher))
    (h : path.authPath.length < usizeBits) (hsibling : path.leafSiblingHash.length = 32)
    (hauth : ∀ n ∈ path.authPath, n.length = 32) (leaf : List B) (hleaf : leaf.length < 2 ^ 61)
    (mode : AllocationMode) :
    path.finalNode () () (leaf.map UInt8Var.value) =
        .ok (sha256 (path.message serializeBytes (leaf.map UInt8Var.value) path.authPath.length)) ∧
      Computes (do
        let pathVar ← PathVar.newVariable (sha256Gadget hasher B W) (.ok path) mode
        pathVar.calculateRoot () () leaf) fun root =>
          DigestVar.value root = sha256 (path.message id (leaf.map UInt8Var.value) path.authPath.length) := by
  refine ⟨path.finalNode_eq_message hsha _, ?_⟩
  refine (PathVar.newVariable_sha256_computes h hsibling hauth mode).bind fun pathVar hpathVar => ?_
  obtain ⟨hrepresents, hsib, hnodes⟩ := hpathVar
  exact (PathVar.calculateRoot_computes_message hrepresents hsib hnodes hleaf).mono fun root hroot => hroot.2

/-- The converters feed different bytes to the bottom hash for every digest. So the
root of the circuit is the node of the native path only where, on some level, two
different messages have one digest. -/
theorem calculateRoot_eq_iff_messagesCollide (hsha : hasher.IsSha256) :
    (∀ digest : DigestVar B, digest.bytes.length = 32 →
      Computes ((sha256Gadget hasher B W).convert digest) fun input =>
        (sha256Config hasher).convert digest.value ≠ .ok (input.map UInt8Var.value)) ∧
    ∀ path : Path (sha256Config hasher), path.authPath.length < usizeBits → path.leafSiblingHash.length = 32 →
      (∀ n ∈ path.authPath, n.length = 32) → ∀ leaf : List B, leaf.length < 2 ^ 61 → ∀ mode,
      Computes (do
        let pathVar ← PathVar.newVariable (sha256Gadget hasher B W) (.ok path) mode
        pathVar.calculateRoot () () leaf) fun root =>
          (path.finalNode () () (leaf.map UInt8Var.value) = .ok (DigestVar.value root) ↔
            path.MessagesCollide (leaf.map UInt8Var.value)) := by
  refine ⟨toBytesLe_ne_convert, fun path h hsibling hauth leaf hleaf mode => ?_⟩
  obtain ⟨hfinal, hroot⟩ := calculateRoot_computes_and_finalNode (W := W) hsha path h hsibling hauth leaf hleaf mode
  refine hroot.mono fun root hroot => ?_
  rw [hfinal, hroot, Except.ok.injEq, eq_comm]
  exact path.sha256_message_eq_iff _

/-- The path of a tree of four leaves, to the second one. -/
def fourLeavesPath : Path (sha256Config .buffered) where
  leafSiblingHash := List.replicate 32 0
  authPath := [List.replicate 32 1]
  leafIndex := 1

/-- The leaf has a constant and an allocated byte. -/
theorem calculateRoot_eq_iff_messagesCollide_fourLeaves :
    let leaf : List (Assigned UInt8) := [.constant 7, .var 8]
    Computes (do
      let pathVar ← PathVar.newVariable (sha256Gadget .buffered (Assigned UInt8) (Assigned UInt32))
        (.ok fourLeavesPath) .witness
      pathVar.calculateRoot () () leaf) fun root =>
        (fourLeavesPath.finalNode () () (leaf.map UInt8Var.value) = .ok (DigestVar.value root) ↔
          fourLeavesPath.MessagesCollide (leaf.map UInt8Var.value)) := by
  intro leaf
  have hauth : ∀ n ∈ fourLeavesPath.authPath, n.length = 32 :=
    List.forall_mem_singleton.mpr List.length_replicate
  have hleaf : leaf.length < 2 ^ 61 := by decide
  exact (calculateRoot_eq_iff_messagesCollide Hasher.buffered_isSha256).2 fourLeavesPath (by decide)
    List.length_replicate hauth leaf hleaf .witness

/-- The path of a tree of two leaves, to the left leaf. -/
def twoLeavesPath : Path (sha256Config .buffered) where
  leafSiblingHash := List.replicate 32 0
  authPath := []
  leafIndex := 0

/-- The roots for the empty leaf of this tree. -/
theorem calculateRoot_ne_finalNode_twoLeaves :
    ∃ root, (do
      let pathVar ← PathVar.newVariable (sha256Gadget .buffered (Assigned UInt8) (Assigned UInt32))
        (.ok twoLeavesPath) .witness
      pathVar.calculateRoot () () []).run true = .ok (root, true) ∧
        twoLeavesPath.finalNode () () [] ≠ .ok (DigestVar.value root) := by
  have hne : sha256 (twoLeavesPath.message serializeBytes [] 0) ≠ sha256 (twoLeavesPath.message id [] 0) := by
    decide +kernel
  obtain ⟨hfinal, hroot⟩ := calculateRoot_computes_and_finalNode (B := Assigned UInt8) (W := Assigned UInt32)
    Hasher.buffered_isSha256 twoLeavesPath (by decide) (by decide) (by decide) [] (by decide) .witness
  obtain ⟨root, hrun, hvalue⟩ := hroot true
  refine ⟨root, hrun, fun heq => ?_⟩
  rw [hvalue] at heq
  exact hne (Except.ok.inj (hfinal.symm.trans heq))

end

end

end CryptoPrimitives.Merkle
