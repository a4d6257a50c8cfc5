import CryptoPrimitives.Crh.SpongeHash
import CryptoPrimitives.Sponge.TranscriptBinding

/-!
# Collisions of the sponge hashes

`CRH::evaluate` of `crh/poseidon` and `crh/rescue` on lists of any lengths. Neither writes the length of a list into the
state, so that zeros which fit into the last block do not change the hash.

* `absorbAndSqueeze_eq_hashBlocks`: the hash is an entry of the state that a chain of blocks ends in.
* `evaluate_collision`: with a permutation that is a bijection, the lists of one hash are those of the same blocks, and
  any others exhibit a collision of the sponge: in the entry of two last states, or in their capacity before.
-/

namespace CryptoPrimitives

open Chain (InnerCollision)
open Except (Bijects)
open Sponge
open Sponge.Reference (absorbChunk)

section

variable {F : Type} [CommRing F] {D : Duplex Outcome F}

/-! ## The hash of a chain -/

/-- The entry that is squeezed first, of the state after the blocks. -/
def hashBlocks (D : Duplex Outcome F) (blocks : List (List F)) : Outcome F := do
  let state ← Chain.run (absorbChunk D) (DuplexSponge.new D).state blocks
  index state D.capacity

/-- A sponge whose calls walk through the entries hashes to an entry of the state after the last block. -/
theorem absorbAndSqueeze_eq_hashBlocks (hD : D.Total) (hr : 0 < D.rate)
    {absorb : DuplexSponge F → List F → Outcome (DuplexSponge F)}
    {squeezeFieldElements : DuplexSponge F → Nat → Outcome (List F × DuplexSponge F)} {input : List F}
    (habsorb : absorb (.new D) input = absorbed <$> D.absorbAll ⟨(DuplexSponge.new D).state, 0⟩ input)
    (hsqueeze : ∀ s : DuplexSponge F, s.Valid D → squeezeFieldElements s 1 =
      D.turn (s.squeezeCursor D) >>= fun c => squeezed <$> D.squeezeMany 1 c) :
    absorbAndSqueeze absorb squeezeFieldElements (.new D) [input] = hashBlocks D (paddedBlocks D.rate input) := by
  have hl : (DuplexSponge.new D).state.length = D.capacity + D.rate := (new_valid D).length_state
  obtain ⟨c, hc, hvalid⟩ := Duplex.exists_absorbAll hD hr (c := ⟨(DuplexSponge.new D).state, 0⟩) ⟨hl, Nat.zero_le _⟩ input
  obtain ⟨block, hpermute, hblock⟩ := hD c.block hvalid.length_block
  have habsorbed : (absorbed c).Valid D := ⟨hvalid.length_block, hvalid.index_le⟩
  have hturn : D.turn ((absorbed c).squeezeCursor D) = .ok ⟨block, 0⟩ := by
    rw [show (absorbed c).squeezeCursor D = ⟨c.block, D.rate⟩ from rfl, Duplex.turn_rate, hpermute]
    rfl
  have hlt : D.capacity < block.length := by omega
  rw [hashBlocks, run_paddedBlocks hD hr hl, hc, absorbAndSqueeze, List.foldlM_cons, habsorb, hc]
  simp only [Except.ok_bind, Except.map_ok, List.foldlM_nil, pure_bind]
  rw [hsqueeze _ habsorbed, hturn, hpermute, Except.ok_bind, Except.ok_bind,
    Duplex.squeezeMany_block (c := ⟨block, 0⟩) (by simpa using Nat.succ_le_of_lt hr), index_of_lt hlt]
  have htake : (block.drop (D.capacity + 0)).take 1 = [block[D.capacity]] := by
    rw [Nat.add_zero, List.drop_eq_getElem_cons hlt]
    rfl
  rw [htake]
  rfl

/-- Last states that differ, but not in the entry that is the hash. -/
def OutputCollision (D : Duplex Outcome F) (xs ys : List (List F)) : Prop :=
  ∃ t t', Chain.run (absorbChunk D) (DuplexSponge.new D).state xs = .ok t ∧
    Chain.run (absorbChunk D) (DuplexSponge.new D).state ys = .ok t' ∧ t ≠ t' ∧ t[D.capacity]? = t'[D.capacity]?

/-- The chains of two lists collide at their ends, or in the capacity before. -/
def SpongeCollision (D : Duplex Outcome F) (xs ys : List F) : Prop :=
  OutputCollision D (paddedBlocks D.rate xs) (paddedBlocks D.rate ys) ∨
    InnerCollision (absorbChunk D) (List.take D.capacity) (DuplexSponge.new D).state (paddedBlocks D.rate xs)
      (paddedBlocks D.rate ys)

/-- A hash depends on the blocks alone, and it binds them unless the sponge has a collision. -/
structure BindsBlocks (D : Duplex Outcome F) (hash : List F → Outcome F) : Prop where
  eq_of_blocks (xs ys : List F) : paddedBlocks D.rate xs = paddedBlocks D.rate ys → hash xs = hash ys
  collision (xs ys : List F) : hash xs = hash ys →
    paddedBlocks D.rate xs = paddedBlocks D.rate ys ∨ SpongeCollision D xs ys

theorem bindsBlocks (hb : Bijects D.permute fun state => state.length = D.capacity + D.rate) (hD : D.Total)
    (hr : 0 < D.rate) {hash : List F → Outcome F}
    (hhash : ∀ input, hash input = hashBlocks D (paddedBlocks D.rate input)) : BindsBlocks D hash := by
  refine ⟨fun xs ys h => by rw [hhash, hhash, h], fun xs ys h => ?_⟩
  by_cases hne : paddedBlocks D.rate xs = paddedBlocks D.rate ys
  · exact .inl hne
  have hides := absorbChunk_hides hb
  have hl : (DuplexSponge.new D).state.length = D.capacity + D.rate := (new_valid D).length_state
  have hrun (input : List F) : ∃ t, Chain.run (absorbChunk D) (DuplexSponge.new D).state (paddedBlocks D.rate input) =
      .ok t ∧ D.capacity < t.length := by
    obtain ⟨c, hc, hvalid⟩ := Duplex.exists_absorbAll hD hr (c := ⟨(DuplexSponge.new D).state, 0⟩) ⟨hl, Nat.zero_le _⟩ input
    obtain ⟨block, hpermute, hblock⟩ := hD c.block hvalid.length_block
    exact ⟨block, by rw [run_paddedBlocks hD hr hl, hc]; exact hpermute, by omega⟩
  obtain ⟨t, ht, hlt⟩ := hrun xs
  obtain ⟨t', ht', hlt'⟩ := hrun ys
  rw [hhash, hhash, hashBlocks, hashBlocks, ht, ht', Except.ok_bind, Except.ok_bind, index_of_lt hlt, index_of_lt hlt', Except.ok.injEq] at h
  by_cases heq : t = t'
  · subst heq
    exact .inr (.inr (hides.innerCollision hl (fun _ => length_of_mem_paddedBlocks hr)
      (fun _ => length_of_mem_paddedBlocks hr) hne (paddedBlocks_ne_nil hr xs) (paddedBlocks_ne_nil hr ys) ht ht'))
  · refine .inr (.inl ⟨t, t', ht, ht', heq, ?_⟩)
    rw [List.getElem?_eq_getElem hlt, List.getElem?_eq_getElem hlt', h]

end

/-! ## The hashes -/

section

variable {p : Nat} [Fact p.Prime]

theorem Poseidon.CRH.evaluate_eq_hashBlocks {parameters : PoseidonConfig (ZMod p)} (h : parameters.Accepted)
    (hr : 0 < parameters.rate) (input : List (ZMod p)) :
    evaluate parameters input = hashBlocks parameters.duplex (paddedBlocks parameters.rate input) := by
  have hD := PoseidonConfig.duplex_total h hr
  refine absorbAndSqueeze_eq_hashBlocks hD hr ?_ fun s hs => ?_
  · rw [Poseidon.absorb_eq]
    by_cases hne : input = []
    · subst hne
      rfl
    · exact PoseidonSponge.absorb_eq hD.keepsWidth hr (new_valid _) hne
  · rw [PoseidonSponge.squeezeFieldElements_self]
    exact PoseidonSponge.squeezeNativeFieldElements_eq hD.keepsWidth hr hs 1

theorem Rescue.CRH.evaluate_eq_hashBlocks {parameters : RescueConfig (ZMod p)} (h : parameters.Accepted)
    (hr : 0 < parameters.rate) (input : List (ZMod p)) :
    evaluate parameters input = hashBlocks parameters.duplex (paddedBlocks parameters.rate input) := by
  have hD := RescueConfig.duplex_total h
  refine absorbAndSqueeze_eq_hashBlocks hD hr ?_ fun s hs => ?_
  · rw [Rescue.absorb_eq]
    by_cases hne : input = []
    · subst hne
      rfl
    · exact RescueSponge.absorb_eq hD.keepsWidth hr (new_valid _) hne
  · -- one element is not asked for from inside a block of one
    obtain ⟨c, hturn⟩ := Duplex.exists_turn hD hs.squeezeCursor
    obtain ⟨hl, hlt, -⟩ := Duplex.turn_valid hD.keepsWidth hr hs.squeezeCursor hturn
    have hn : c.index = 0 ∨ 1 ≠ parameters.duplex.rate := by omega
    rw [Rescue.squeezeFieldElements_eq, RescueSponge.squeezeNativeFieldElements_eq, hturn, Except.ok_bind, Except.ok_bind]
    exact RescueSponge.squeezeInternal_eq hD.keepsWidth hr ⟨hl, hlt.le⟩ hlt hn

theorem Poseidon.CRH.bindsBlocks {parameters : PoseidonConfig (ZMod p)} (h : parameters.Accepted)
    (hr : 0 < parameters.rate) (hmds : IsUnit (toMatrix (parameters.rate + parameters.capacity) parameters.mds))
    (hcoprime : Nat.Coprime parameters.alpha (p - 1)) (h2 : p = 2 → 0 < parameters.alpha) :
    BindsBlocks parameters.duplex (evaluate parameters) := by
  exact CryptoPrimitives.bindsBlocks (PoseidonConfig.duplex_bijects h hr hmds hcoprime h2)
    (PoseidonConfig.duplex_total h hr) hr (evaluate_eq_hashBlocks h hr)

theorem Rescue.CRH.bindsBlocks {parameters : RescueConfig (ZMod p)} (h : parameters.Accepted)
    (hr : 0 < parameters.rate) (hmds : IsUnit (toMatrix (parameters.rate + parameters.capacity) parameters.mds))
    (hinv : RescueSpongeVar.InverseExponents p parameters.alpha parameters.alphaInv) :
    BindsBlocks parameters.duplex (evaluate parameters) := by
  have hb := RescueConfig.permute_bijects h hmds hinv
  rw [Nat.add_comm] at hb
  exact CryptoPrimitives.bindsBlocks hb (RescueConfig.duplex_total h) hr (evaluate_eq_hashBlocks h hr)

/-- For all accepted parameters whose permutation is a bijection, and all lists: the hashes depend on the blocks alone,
and lists of one hash have the same blocks, or their blocks show a collision of the sponge. -/
theorem evaluate_collision :
    (∀ parameters : PoseidonConfig (ZMod p), parameters.Accepted → 0 < parameters.rate →
      IsUnit (toMatrix (parameters.rate + parameters.capacity) parameters.mds) →
      Nat.Coprime parameters.alpha (p - 1) → (p = 2 → 0 < parameters.alpha) →
      BindsBlocks parameters.duplex (Poseidon.CRH.evaluate parameters)) ∧
    ∀ parameters : RescueConfig (ZMod p), parameters.Accepted → 0 < parameters.rate →
      IsUnit (toMatrix (parameters.rate + parameters.capacity) parameters.mds) →
      RescueSpongeVar.InverseExponents p parameters.alpha parameters.alphaInv →
      BindsBlocks parameters.duplex (Rescue.CRH.evaluate parameters) :=
  ⟨fun _ h hr hmds hcoprime h2 => Poseidon.CRH.bindsBlocks h hr hmds hcoprime h2,
    fun _ h hr hmds hinv => Rescue.CRH.bindsBlocks h hr hmds hinv⟩

end

theorem evaluate_collision_small :
    BindsBlocks smallConfig.duplex (Poseidon.CRH.evaluate smallConfig) ∧
      BindsBlocks degree5Config.duplex (Rescue.CRH.evaluate degree5Config) := by
  have h5 : Fact (Nat.Prime 5) := ⟨by decide⟩
  have h7 : Fact (Nat.Prime 7) := ⟨by decide⟩
  exact ⟨(evaluate_collision (p := 5)).1 smallConfig (smallConfigOf_accepted 5) (by decide) isUnit_smallConfig (by decide)
    (by decide), (evaluate_collision (p := 7)).2 degree5Config (degree5ConfigOf_accepted 7 5) (by decide)
      isUnit_degree5Config ⟨4, rfl⟩⟩

/-- A zero at the end that fits into the block. -/
example : paddedBlocks 2 ([1] : List (ZMod 5)) = paddedBlocks 2 [1, 0] := by decide

end CryptoPrimitives
