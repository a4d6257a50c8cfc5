import CryptoPrimitives.MerkleTree.LeafPosition
import CryptoPrimitives.MerkleTree.ProofBinding

/-!
# Updates in a circuit

A circuit that holds only a root updates it with `PathVar::update_leaf`, call after call, on paths of whoever
assigns the witnesses.

* `updateLeaf_sound`: where the constraints hold, the path is the proof that the tree generates at the position of
  the path, the old leaf is there, and the new root is that of the tree updated there; or the path collides with the
  tree.
* `updateLeaves_exact`: so it is after any number of calls, whose constraints hold exactly for such paths, up to a
  collision.
* `updateAndCheck_iff`: on a path allocated from a generated proof `update_and_check` is `check_update`.
-/

namespace CryptoPrimitives.Merkle

open Synthesis (Computes)
open Digits (ofBits map_testBit_ofBits)

variable {P : Config} {PG : ConfigGadget P}

namespace PathVar

/-- The index that the bits of the position stand for. -/
def leafIndex (self : PathVar PG) : Nat := ofBits (self.getLeafPosition.map Boolean.value)

/-- The native path of the gadget, at its own position. -/
abbrev toPath (self : PathVar PG) : Path P := self.nativePath self.leafIndex

/-- A path of a tree of this height: one bit for each sibling. -/
structure Fits (v : PathVar PG) (height : Nat) : Prop where
  length_path : v.path.length = v.authPath.length
  length_authPath : v.authPath.length = height - 2

theorem Fits.length_getLeafPosition {self : PathVar PG} {height : Nat} (h : self.Fits height) :
    (self.getLeafPosition.map Boolean.value).length = self.authPath.length + 1 := by
  rw [getLeafPosition, List.length_map, List.length_cons, List.length_reverse, h.length_path]

theorem Fits.represents {self : PathVar PG} {height : Nat} (h : self.Fits height) : self.Represents self.toPath := by
  have hl := h.length_getLeafPosition
  refine represents_of_position ?_
  rw [leafIndex, map_testBit_ofBits, ← hl, Nat.sub_self, List.replicate_zero, List.append_nil, List.take_length]

theorem Fits.leafIndex_lt {self : PathVar PG} {t : MerkleTree P} (h : self.Fits t.height) (ht : t.Valid) :
    self.leafIndex < t.leafNodes.length := by
  have hlt := Digits.ofBits_lt (self.getLeafPosition.map Boolean.value)
  have := ht.two_le_height
  rwa [h.length_getLeafPosition, h.length_authPath, show t.height - 2 + 1 = t.height - 1 by omega,
    ← ht.length_leafNodes] at hlt

theorem length_toPath {self : PathVar PG} {height : Nat} (h : self.Fits height) :
    self.toPath.authPath.length = height - 2 :=
  (List.length_map ..).trans h.length_authPath

section

variable {leafParams : PG.LeafParam} {twoToOneParams : PG.TwoToOneParam} {self : PathVar PG}

/-- No later constraint repairs one that does not hold. -/
theorem updateLeaf_run_true (hPG : PG.ValueCorrect)
    (hs : P.HashesSucceed (PG.leafParamValue leafParams) (PG.twoToOneParamValue twoToOneParams)) {p : Path P}
    (h : self.Represents p) {oldRoot v : PG.InnerDigest} {oldLeaf newLeaf : PG.Leaf} {s : Bool}
    (hrun : (self.updateLeaf leafParams twoToOneParams oldRoot oldLeaf newLeaf).run s = .ok (v, true)) : s = true := by
  obtain ⟨n, hn⟩ := p.exists_finalNode hs (PG.leafValue oldLeaf)
  obtain ⟨n', hn'⟩ := p.exists_finalNode hs (PG.leafValue newLeaf)
  obtain ⟨b, hb, -⟩ := verifyMembership_computes hPG h hn oldRoot s
  rw [updateLeaf, StateT.run_bind, hb, Except.ok_bind, StateT.run_bind, Except.bind_eq_ok] at hrun
  obtain ⟨⟨⟨⟩, s'⟩, henforce, hcalc⟩ := hrun
  obtain ⟨x, hx, -⟩ := calculateRoot_computes hPG h hn' s'
  rw [hx, Except.ok.injEq, Prod.mk.injEq] at hcalc
  rw [hcalc.2] at henforce
  exact ((b.enforceEqual_run .TRUE s).mp henforce).1

end

end PathVar

/-- A call of `update_leaf`: its path and its leaves. -/
structure LeafUpdate (PG : ConfigGadget P) where
  pathVar : PathVar PG
  oldLeaf : PG.Leaf
  newLeaf : PG.Leaf

namespace LeafUpdate

/-- The update of the tree. -/
def call (u : LeafUpdate PG) : Call P := .update u.pathVar.leafIndex (PG.leafValue u.newLeaf)

/-- The path is the proof that the tree generates, and the old leaf is at its index. -/
structure Opens (u : LeafUpdate PG) (t : MerkleTree P) : Prop where
  generateProof_eq : t.generateProof u.pathVar.leafIndex = .ok u.pathVar.toPath
  leafHashEvaluate_eq :
    P.leafHashEvaluate t.leafHashParam (PG.leafValue u.oldLeaf) = .ok (t.leafAt u.pathVar.leafIndex)

/-- The path collides with the tree. -/
def Collides (u : LeafUpdate PG) (t : MerkleTree P) : Prop := u.pathVar.toPath.Collides t (PG.leafValue u.oldLeaf)

end LeafUpdate

/-- Calls of `update_leaf`, each on the root that the one before returned. -/
def updateLeaves (leafParams : PG.LeafParam) (twoToOneParams : PG.TwoToOneParam) (oldRoot : PG.InnerDigest)
    (updates : List (LeafUpdate PG)) : Gadget PG.InnerDigest :=
  updates.foldlM (fun root u => u.pathVar.updateLeaf leafParams twoToOneParams root u.oldLeaf u.newLeaf) oldRoot

namespace MerkleTree

/-- The parameters of a tree are the values of those in the circuit. -/
structure HasParams (t : MerkleTree P) (leafParams : PG.LeafParam) (twoToOneParams : PG.TwoToOneParam) : Prop where
  leaf : t.leafHashParam = PG.leafParamValue leafParams
  twoToOne : t.twoToOneHashParam = PG.twoToOneParamValue twoToOneParams

section

variable {leafParams : PG.LeafParam} {twoToOneParams : PG.TwoToOneParam}
  (hPG : PG.ValueCorrect)
  (hs : P.HashesSucceed (PG.leafParamValue leafParams) (PG.twoToOneParamValue twoToOneParams))
include hPG hs

/-- The constraints of one call hold for a path and an old leaf of the tree, and the root returned is that of the
updated tree. -/
theorem updateLeaf_complete {t : MerkleTree P} (ht : t.Valid) (hp : t.HasParams leafParams twoToOneParams)
    {u : LeafUpdate PG} (hfit : u.pathVar.Fits t.height) (hopen : u.Opens t) {oldRoot : PG.InnerDigest}
    (hroot : t.root = .ok (PG.innerDigestValue oldRoot)) :
    ∃ v t', (u.pathVar.updateLeaf leafParams twoToOneParams oldRoot u.oldLeaf u.newLeaf).run true = .ok (v, true) ∧
      u.call.run t = (t', .ok true) ∧ t'.Valid ∧ t'.height = t.height ∧ t'.HasParams leafParams twoToOneParams ∧
      t'.root = .ok (PG.innerDigestValue v) := by
  have hi := hfit.leafIndex_lt ht
  have hs' : P.HashesSucceed t.leafHashParam t.twoToOneHashParam := by rwa [hp.leaf, hp.twoToOne]
  -- the tree with the new leaf
  obtain ⟨x, hx⟩ := hs'.leafHash (PG.leafValue u.newLeaf)
  obtain ⟨t', hr⟩ := exists_rebuilt ht hs' u.pathVar.leafIndex x
  obtain ⟨hupdate, -⟩ := updates_of_rebuilt ht hi hx hr
  have hagrees := agreesOff_of_rebuilt ht hr
  have hvalid := (newWithLeafDigest_eq_ok.mp hr).1
  -- the final nodes of the path
  have hold := finalNode_of_generateProof ht hi hopen.generateProof_eq hopen.leafHashEvaluate_eq (rebuilt_self ht hi)
  have hnew := finalNode_of_generateProof ht hi hopen.generateProof_eq hx hr
  rw [hp.leaf, hp.twoToOne] at hold hnew
  obtain ⟨hiff, hvalue⟩ := PathVar.updateLeaf_run hPG hfit.represents hold hnew oldRoot
  obtain ⟨v, hv⟩ := hiff.mpr (Except.ok.inj (ht.root_eq.symm.trans hroot))
  refine ⟨v, t', hv, ?_, hvalid, hagrees.height_eq, ⟨?_, ?_⟩, ?_⟩
  · simp only [LeafUpdate.call, Call.run, hupdate]
    rfl
  · rw [hagrees.leafHashParam_eq, hp.leaf]
  · rw [hagrees.twoToOneHashParam_eq, hp.twoToOne]
  · rw [hvalid.root_eq, hvalue v hv]

/-- Where the constraints of one call hold, the path is that of the tree and the old leaf is at its index, or path
and tree collide. -/
theorem updateLeaf_sound {t : MerkleTree P} (ht : t.Valid) (hp : t.HasParams leafParams twoToOneParams)
    {u : LeafUpdate PG} (hfit : u.pathVar.Fits t.height) {oldRoot v : PG.InnerDigest}
    (hroot : t.root = .ok (PG.innerDigestValue oldRoot))
    (hrun : (u.pathVar.updateLeaf leafParams twoToOneParams oldRoot u.oldLeaf u.newLeaf).run true = .ok (v, true)) :
    u.Opens t ∨ u.Collides t := by
  obtain ⟨n, hn⟩ := u.pathVar.toPath.exists_finalNode hs (PG.leafValue u.oldLeaf)
  obtain ⟨n', hn'⟩ := u.pathVar.toPath.exists_finalNode hs (PG.leafValue u.newLeaf)
  have hnroot := (PathVar.updateLeaf_run hPG hfit.represents hn hn' oldRoot).1.mp ⟨v, hrun⟩
  rw [← hp.leaf, ← hp.twoToOne] at hn
  exact (Path.eq_generateProof_or_collides ht (PathVar.length_toPath hfit) (hfit.leafIndex_lt ht) hroot
    (Path.verify_eq_ok.mpr ⟨n, hn, beq_iff_eq.mpr hnroot⟩)).imp (fun ⟨h, h'⟩ => ⟨h, h'⟩) id

/-- Each update is made on the proof and the old leaf of the tree that those before leave. -/
def AllOpen (t : MerkleTree P) : List (LeafUpdate PG) → Prop
  | [] => True
  | u :: updates => u.Opens t ∧ AllOpen (u.call.run t).1 updates

/-- The first update that is not made so collides with the tree that those before leave. -/
def OneCollides (t : MerkleTree P) : List (LeafUpdate PG) → Prop
  | [] => False
  | u :: updates => u.Collides t ∨ u.Opens t ∧ OneCollides (u.call.run t).1 updates

theorem updateLeaves_run_true {updates : List (LeafUpdate PG)} {height : Nat}
    (hfit : ∀ u ∈ updates, u.pathVar.Fits height) {oldRoot v : PG.InnerDigest} {s : Bool}
    (hrun : (updateLeaves leafParams twoToOneParams oldRoot updates).run s = .ok (v, true)) : s = true := by
  induction updates generalizing oldRoot s with
  | nil => exact (Prod.mk.inj (Except.ok.inj hrun)).2
  | cons u updates ih =>
    obtain ⟨hu, hupdates⟩ := List.forall_mem_cons.mp hfit
    rw [updateLeaves, List.foldlM_cons, StateT.run_bind, Except.bind_eq_ok] at hrun
    obtain ⟨⟨root, s'⟩, hstep, hrest⟩ := hrun
    obtain rfl := ih hupdates hrest
    exact PathVar.updateLeaf_run_true hPG hs hu.represents hstep

/-- For every tree that a caller can hold, every sequence of calls on paths of its height, and a circuit that starts
with its root: where all constraints hold, each path is the proof that the tree, updated by the calls before,
generates at the position of the path, with the old leaf there, and the circuit ends with the root of the tree updated
by all calls; or one of the paths collides with the tree. On such paths and leaves the constraints do hold. -/
theorem updateLeaves_exact {t : MerkleTree P} (ht : t.Reachable) (hp : t.HasParams leafParams twoToOneParams)
    {updates : List (LeafUpdate PG)} (hfit : ∀ u ∈ updates, u.pathVar.Fits t.height) {oldRoot : PG.InnerDigest}
    (hroot : t.root = .ok (PG.innerDigestValue oldRoot)) :
    (∀ v, (updateLeaves leafParams twoToOneParams oldRoot updates).run true = .ok (v, true) →
      t.AllOpen updates ∧ (t.runCalls (updates.map LeafUpdate.call)).root = .ok (PG.innerDigestValue v) ∨
        t.OneCollides updates) ∧
    (t.AllOpen updates → ∃ v, (updateLeaves leafParams twoToOneParams oldRoot updates).run true = .ok (v, true) ∧
      (t.runCalls (updates.map LeafUpdate.call)).root = .ok (PG.innerDigestValue v)) := by
  replace ht := ht.valid
  induction updates generalizing t oldRoot with
  | nil =>
    refine ⟨fun v hv => .inl ⟨trivial, ?_⟩, fun _ => ⟨oldRoot, rfl, hroot⟩⟩
    rw [← (Prod.mk.inj (Except.ok.inj hv)).1]
    exact hroot
  | cons u updates ih =>
    obtain ⟨hu, hupdates⟩ := List.forall_mem_cons.mp hfit
    by_cases hopen : u.Opens t
    · obtain ⟨root, t', hrun, hcall, ht', hheight, hp', hroot'⟩ := updateLeaf_complete hPG hs ht hp hu hopen hroot
      obtain ⟨hsound, hcomplete⟩ := ih hp' (by rwa [hheight]) hroot' ht'
      simp only [updateLeaves, List.foldlM_cons, StateT.run_bind, hrun, Except.ok_bind, AllOpen, OneCollides,
        List.map_cons, runCalls, hcall]
      refine ⟨fun v hv => ?_, fun hall => hcomplete hall.2⟩
      exact (hsound v hv).imp (fun h => ⟨⟨hopen, h.1⟩, h.2⟩) fun hc => .inr ⟨hopen, hc⟩
    · refine ⟨fun v hv => ?_, fun hall => absurd hall.1 hopen⟩
      rw [updateLeaves, List.foldlM_cons, StateT.run_bind, Except.bind_eq_ok] at hv
      obtain ⟨⟨root, s⟩, hstep, hrest⟩ := hv
      obtain rfl := updateLeaves_run_true hPG hs hupdates hrest
      exact .inr (.inl ((updateLeaf_sound hPG hs ht hp hu hroot hstep).resolve_left hopen))

/-- On a path allocated from the proof of a leaf, `update_and_check` has a satisfied circuit exactly for the old roots
and leaves that the proof is accepted with, and its result is then that of `check_update` on the tree. -/
theorem updateAndCheck_iff {t : MerkleTree P} (ht : t.Reachable) (hp : t.HasParams leafParams twoToOneParams) {i : Nat}
    (hi : i < t.leafNodes.length) :
    ∃ proof, t.generateProof i = .ok proof ∧ ∀ mode s, ∃ pathVar,
      (PathVar.newVariable PG (.ok proof) mode).run s = .ok (pathVar, s) ∧
      ∀ oldRoot newRoot oldLeaf newLeaf,
        ((∃ b, (pathVar.updateAndCheck leafParams twoToOneParams oldRoot newRoot oldLeaf newLeaf).run true =
            .ok (b, true)) ↔
          proof.verify t.leafHashParam t.twoToOneHashParam (PG.innerDigestValue oldRoot) (PG.leafValue oldLeaf) =
            .ok true) ∧
        ∀ b, (pathVar.updateAndCheck leafParams twoToOneParams oldRoot newRoot oldLeaf newLeaf).run true =
            .ok (b, true) →
          (t.checkUpdate i (PG.leafValue newLeaf) (PG.innerDigestValue newRoot)).2 = .ok b.value := by
  obtain ⟨proof, hproof, hgadget⟩ := gadgetUpdates hPG hs ht hp.leaf hp.twoToOne hi
  refine ⟨proof, hproof, fun mode s => ?_⟩
  obtain ⟨pathVar, hnew, hgadget⟩ := hgadget mode s
  refine ⟨pathVar, hnew, fun oldRoot newRoot oldLeaf newLeaf => ?_⟩
  obtain ⟨hiff, hvalue⟩ := hgadget oldRoot oldLeaf newLeaf
  -- the comparison adds no constraint that may fail
  have hrun (b : Boolean) : (pathVar.updateAndCheck leafParams twoToOneParams oldRoot newRoot oldLeaf newLeaf).run true =
      .ok (b, true) ↔ ∃ v, (pathVar.updateLeaf leafParams twoToOneParams oldRoot oldLeaf newLeaf).run true =
        .ok (v, true) ∧ (PG.innerDigestIsEq v newRoot).run true = .ok (b, true) := by
    rw [PathVar.updateAndCheck, StateT.run_bind, Except.bind_eq_ok]
    constructor
    · rintro ⟨⟨v, s'⟩, hv, hb⟩
      obtain ⟨b', hb', -⟩ := hPG.innerDigestIsEq v newRoot s'
      obtain ⟨-, rfl⟩ := Prod.mk.inj (Except.ok.inj (hb'.symm.trans hb))
      exact ⟨v, hv, hb⟩
    · rintro ⟨v, hv, hb⟩
      exact ⟨(v, true), hv, hb⟩
  rw [hp.leaf, hp.twoToOne]
  refine ⟨⟨fun ⟨b, hb⟩ => ?_, fun hverify => ?_⟩, fun b hb => ?_⟩
  · obtain ⟨v, hv, -⟩ := (hrun b).mp hb
    exact hiff.mp ⟨v, hv⟩
  · obtain ⟨v, hv⟩ := hiff.mpr hverify
    obtain ⟨b, hb, -⟩ := hPG.innerDigestIsEq v newRoot true
    exact ⟨b, (hrun b).mpr ⟨v, hv, hb⟩⟩
  · obtain ⟨v, hv, hb⟩ := (hrun b).mp hb
    obtain ⟨hok, hroot⟩ := hvalue v hv
    obtain ⟨b', hb', hbvalue⟩ := hPG.innerDigestIsEq v newRoot true
    obtain ⟨rfl, -⟩ := Prod.mk.inj (Except.ok.inj (hb'.symm.trans hb))
    obtain ⟨x, t', hx, hr, hupdate, hcheck⟩ | ⟨e, hupdate, -, -⟩ := updates_cases ht.valid hi (PG.leafValue newLeaf)
    · rw [hupdate, (newWithLeafDigest_eq_ok.mp hr).1.root_eq, Except.ok.injEq] at hroot
      rw [hcheck, hbvalue, ← hroot]
      split
      · rename_i heq
        exact congrArg Except.ok (beq_iff_eq.mpr heq).symm
      · rename_i hne
        exact congrArg Except.ok (beq_eq_false_iff_ne.mpr hne).symm
    · rw [hupdate] at hok
      exact nomatch hok

end

/-- Leaf 1 becomes 7, and then leaf 0 becomes 5 beside it. -/
def freeUpdates : List (LeafUpdate freeGadget) :=
  [⟨⟨[.var false], [.node (.leaf 2) (.leaf 3)], .leaf 0, .var true⟩, (1 : Nat), (7 : Nat)⟩,
    ⟨⟨[.var false], [.node (.leaf 2) (.leaf 3)], .leaf 7, .var false⟩, (0 : Nat), (5 : Nat)⟩]

theorem not_oneCollides_free (t : MerkleTree freeConfig) (updates : List (LeafUpdate freeGadget)) :
    ¬ t.OneCollides updates := by
  induction updates generalizing t with
  | nil => exact id
  | cons u updates ih =>
    rintro (h | ⟨-, h⟩)
    · exact freeConfig_not_collision h.collision
    · exact ih _ h

theorem updateLeaves_exact_free :
    freeTree.AllOpen freeUpdates ∧ (freeTree.runCalls (freeUpdates.map LeafUpdate.call)).root =
      .ok (.node (.node (.leaf 5) (.leaf 7)) (.node (.leaf 2) (.leaf 3))) := by
  have hfit : ∀ u ∈ freeUpdates, u.pathVar.Fits freeTree.height :=
    List.forall_mem_cons.mpr ⟨⟨rfl, rfl⟩, List.forall_mem_singleton.mpr ⟨rfl, rfl⟩⟩
  have hparams : @HasParams _ freeGadget freeTree () () := ⟨rfl, rfl⟩
  have hroot : freeTree.root =
    .ok (freeGadget.innerDigestValue (.node (.node (.leaf 0) (.leaf 1)) (.node (.leaf 2) (.leaf 3)))) := rfl
  obtain ⟨hsound, -⟩ := updateLeaves_exact freeGadget_valueCorrect freeConfig_hashesSucceed freeTree_reachable
    hparams hfit hroot
  exact (hsound _ rfl).resolve_right (not_oneCollides_free _ _)

theorem updateAndCheck_iff_free :
    ∃ proof, freeTree.generateProof 2 = .ok proof ∧ ∀ mode s, ∃ pathVar,
      (PathVar.newVariable freeGadget (.ok proof) mode).run s = .ok (pathVar, s) ∧
      ∀ oldRoot newRoot oldLeaf newLeaf,
        ((∃ b, (pathVar.updateAndCheck () () oldRoot newRoot oldLeaf newLeaf).run true = .ok (b, true)) ↔
          proof.verify () () oldRoot oldLeaf = .ok true) ∧
        ∀ b, (pathVar.updateAndCheck () () oldRoot newRoot oldLeaf newLeaf).run true = .ok (b, true) →
          (freeTree.checkUpdate 2 newLeaf newRoot).2 = .ok b.value :=
  updateAndCheck_iff freeGadget_valueCorrect freeConfig_hashesSucceed freeTree_reachable ⟨rfl, rfl⟩ (by decide)

end MerkleTree

end CryptoPrimitives.Merkle
