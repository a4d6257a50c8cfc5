import CryptoPrimitives.Sponge.Blocks
import CryptoPrimitives.Sponge.Permutation

/-!
# What the state of a Poseidon sponge binds

Absorbing and squeezing in any order from a new sponge. A `Transcript` keeps what a run has added to the state, block by
block, and none of the values of the state.

* `run_tracks`: the state of a run is where the chain of the transcript's blocks ends.
* `run_binds`: runs that end in a squeeze leave one state if they have the same blocks, and else only where the sponge
  has a collision in its capacity. A squeeze is not a block of its own, so that what is absorbed before and after it may
  also be absorbed at once.
-/

namespace CryptoPrimitives.Sponge

open Chain (InnerCollision)
open Except (Bijects)
open Reference (absorbChunk)

variable {F : Type} [CommRing F] {D : Duplex Outcome F}

/-- The blocks that were permuted, the elements that are queued, and the number of outputs since the sponge turned to
squeezing. -/
structure Transcript (F : Type) where
  blocks : List (List F)
  absorbing : List F
  squeezeCount : Option Nat

namespace Transcript

def new : Transcript F := ⟨[], [], none⟩

def absorb (self : Transcript F) (input : List F) : Transcript F :=
  if input.isEmpty then self else { self with absorbing := self.absorbing ++ input, squeezeCount := none }

/-- Before an output, a used up block is permuted as it is. -/
def turn (rate : Nat) (blocks : List (List F)) (squeezeCount : Nat) : List (List F) :=
  if squeezeCount % rate = 0 ∧ squeezeCount ≠ 0 then blocks ++ [List.replicate rate 0] else blocks

def squeezeOutputs (rate : Nat) : Nat → List (List F) → Nat → Transcript F
  | 0, blocks, squeezeCount => ⟨blocks, [], some squeezeCount⟩
  | n + 1, blocks, squeezeCount => squeezeOutputs rate n (turn rate blocks squeezeCount) (squeezeCount + 1)

/-- The queue is permuted first. A squeeze of no elements also permutes a used up block. -/
def squeeze (rate : Nat) (self : Transcript F) (n : Nat) : Transcript F :=
  match self.squeezeCount with
  | none => squeezeOutputs rate n (self.blocks ++ paddedBlocks rate self.absorbing) 0
  | some squeezeCount =>
    if n = 0 then
      ⟨turn rate self.blocks squeezeCount, [],
        some (if squeezeCount % rate = 0 ∧ squeezeCount ≠ 0 then 0 else squeezeCount)⟩
    else squeezeOutputs rate n self.blocks squeezeCount

def call (rate : Nat) (self : Transcript F) : Call F → Transcript F
  | .absorb input => self.absorb input
  | .squeeze numElements => self.squeeze rate numElements

/-- The transcript of a run from a new sponge. -/
def ofCalls (rate : Nat) (calls : List (Call F)) : Transcript F := calls.foldl (call rate) new

end Transcript

/-- The state of the reference is where the chain of the blocks ends. -/
structure Tracks (D : Duplex Outcome F) (t : Transcript F) (r : Reference F) : Prop where
  run_blocks : Chain.run (absorbChunk D) (DuplexSponge.new D).state t.blocks = .ok r.state
  absorbing_eq : r.absorbing = t.absorbing
  squeezeCount_eq : r.squeezeCount = t.squeezeCount
  squeezing : t.squeezeCount ≠ none → t.absorbing = [] ∧ t.blocks ≠ []
  length_blocks : ∀ block ∈ t.blocks, block.length = D.rate

theorem new_tracks (D : Duplex Outcome F) : Tracks D .new (.new D) :=
  ⟨rfl, rfl, rfl, fun h => absurd rfl h, fun _ h => absurd h List.not_mem_nil⟩

theorem absorb_tracks {t : Transcript F} {r r' : Reference F} (h : Tracks D t r) {input : List F}
    (hr' : r.absorb input = .ok r') : Tracks D (t.absorb input) r' := by
  obtain ⟨state, absorbing, squeezeCount⟩ := r
  obtain ⟨hrun, rfl, rfl, hsqueezing, hlen⟩ := h
  rw [Reference.absorb] at hr'
  rw [Transcript.absorb]
  split at hr' <;> rename_i hempty
  · obtain rfl := Except.ok.inj hr'
    rw [if_pos hempty]
    exact ⟨hrun, rfl, rfl, hsqueezing, hlen⟩
  · rw [if_neg hempty]
    have hadded (r' : Reference F) (heq : (⟨state, t.absorbing ++ input, none⟩ : Reference F) = r') :
        Tracks D { t with absorbing := t.absorbing ++ input, squeezeCount := none } r' :=
      heq ▸ ⟨hrun, rfl, rfl, fun h => absurd rfl h, hlen⟩
    obtain ⟨blocks, absorbing, _ | squeezeCount⟩ := t
    · exact hadded r' (Except.ok.inj hr')
    · obtain ⟨rfl, -⟩ : absorbing = [] ∧ blocks ≠ [] := hsqueezing (Option.some_ne_none _)
      exact hadded r' (Except.ok.inj hr')

/-! ## Squeezing -/

theorem run_append (s : List F) (xs ys : List (List F)) :
    Chain.run (absorbChunk D) s (xs ++ ys) =
      Chain.run (absorbChunk D) s xs >>= fun s => Chain.run (absorbChunk D) s ys := List.foldlM_append

/-- A block of zeros is permuted as it is. -/
theorem run_zeros (state : List F) :
    Chain.run (absorbChunk D) state [List.replicate D.rate 0] = D.permute state := by
  have h := run_paddedBlocks_eq_chunks (D := D) state []
  rw [chunks_nil, List.foldlM_nil, pure_bind] at h
  exact h

theorem squeezeOutput_tracks {blocks : List (List F)} {state : List F} {squeezeCount : Nat} {output : F}
    {r' : Reference F} (hrun : Chain.run (absorbChunk D) (DuplexSponge.new D).state blocks = .ok state)
    (hr' : Reference.squeezeOutput D ⟨state, [], some squeezeCount⟩ = .ok (output, r')) :
    ∃ state', Chain.run (absorbChunk D) (DuplexSponge.new D).state (Transcript.turn D.rate blocks squeezeCount) =
      .ok state' ∧ r' = ⟨state', [], some (squeezeCount + 1)⟩ := by
  simp only [Reference.squeezeOutput, unwrapOption, Except.ok_bind] at hr'
  rw [Transcript.turn]
  split at hr' <;> rename_i hturn
  · obtain ⟨state', hpermute, hr'⟩ := Except.bind_eq_ok.mp hr'
    obtain ⟨output', -, hpure⟩ := Except.bind_eq_ok.mp hr'
    obtain ⟨-, rfl⟩ := Prod.mk.inj (Except.ok.inj hpure)
    exact ⟨state', by rw [if_pos hturn, run_append, hrun, Except.ok_bind, run_zeros, hpermute], rfl⟩
  · rw [pure_bind] at hr'
    obtain ⟨output', -, hpure⟩ := Except.bind_eq_ok.mp hr'
    obtain ⟨-, rfl⟩ := Prod.mk.inj (Except.ok.inj hpure)
    exact ⟨state, by rw [if_neg hturn, hrun], rfl⟩

theorem length_turn {blocks : List (List F)} {rate : Nat} (h : ∀ block ∈ blocks, block.length = rate)
    (squeezeCount : Nat) : ∀ block ∈ Transcript.turn rate blocks squeezeCount, block.length = rate := by
  rw [Transcript.turn]
  split
  · rw [List.forall_mem_append]
    exact ⟨h, List.forall_mem_singleton.mpr List.length_replicate⟩
  · exact h

theorem turn_ne_nil {blocks : List (List F)} (h : blocks ≠ []) (rate squeezeCount : Nat) :
    Transcript.turn rate blocks squeezeCount ≠ [] := by
  rw [Transcript.turn]
  split
  · exact List.append_ne_nil_of_left_ne_nil h _
  · exact h

theorem squeezeOutputs_tracks {n : Nat} {blocks : List (List F)} {state : List F} {squeezeCount : Nat} {outputs : List F}
    {r' : Reference F} (hrun : Chain.run (absorbChunk D) (DuplexSponge.new D).state blocks = .ok state)
    (hlen : ∀ block ∈ blocks, block.length = D.rate) (hne : blocks ≠ [])
    (hr' : Reference.squeezeOutputs D n ⟨state, [], some squeezeCount⟩ = .ok (outputs, r')) :
    Tracks D (Transcript.squeezeOutputs D.rate n blocks squeezeCount) r' := by
  induction n generalizing blocks state squeezeCount outputs with
  | zero =>
    obtain ⟨-, rfl⟩ := Prod.mk.inj (Except.ok.inj hr')
    exact ⟨hrun, rfl, rfl, fun _ => ⟨rfl, hne⟩, hlen⟩
  | succ n ih =>
    rw [Reference.squeezeOutputs, Except.bind_eq_ok] at hr'
    obtain ⟨⟨output, r₁⟩, hout, hr'⟩ := hr'
    obtain ⟨state₁, hrun₁, rfl⟩ := squeezeOutput_tracks hrun hout
    obtain ⟨⟨outputs₁, r₂⟩, houts, hpure⟩ := Except.bind_eq_ok.mp hr'
    obtain ⟨-, rfl⟩ := Prod.mk.inj (Except.ok.inj hpure)
    exact ih hrun₁ (length_turn hlen squeezeCount) (turn_ne_nil hne _ _) houts

theorem flush_eq (r : Reference F) (hmode : r.squeezeCount = none) :
    r.flush D = Chain.run (absorbChunk D) r.state (paddedBlocks D.rate r.absorbing) >>= fun state =>
      pure ⟨state, [], some 0⟩ := by
  obtain ⟨state, absorbing, squeezeCount⟩ := r
  obtain rfl : squeezeCount = none := hmode
  rw [run_paddedBlocks_eq_chunks, Reference.flush, bind_assoc]
  refine congrArg (_ >>= ·) (funext fun state => ?_)
  split <;> rfl

theorem squeeze_of_squeezing (state : List F) (squeezeCount n : Nat) :
    Reference.squeeze D ⟨state, [], some squeezeCount⟩ n =
      if n = 0 then
        if squeezeCount % D.rate = 0 ∧ squeezeCount ≠ 0 then
          D.permute state >>= fun state => pure ([], ⟨state, [], some 0⟩)
        else pure ([], ⟨state, [], some squeezeCount⟩)
      else Reference.squeezeOutputs D n ⟨state, [], some squeezeCount⟩ := by
  have hmode : Reference.mode ⟨state, [], some squeezeCount⟩ = .ok .squeezing := rfl
  by_cases hn : n = 0
  · subst hn
    simp only [Reference.squeeze, hmode, Except.ok_bind, unwrapOption, if_true]
    split <;> rfl
  · simp only [Reference.squeeze, hmode, Except.ok_bind, hn, if_false]
    rfl

theorem squeeze_tracks (hr : 0 < D.rate) {t : Transcript F} {r r' : Reference F} (h : Tracks D t r) {n : Nat}
    {output : List F} (hr' : r.squeeze D n = .ok (output, r')) : Tracks D (t.squeeze D.rate n) r' := by
  obtain ⟨state, absorbing, squeezeCount⟩ := r
  obtain ⟨hrun, rfl, rfl, hsqueezing, hlen⟩ := h
  obtain ⟨blocks, absorbing, _ | squeezeCount⟩ := t
  · rw [Reference.squeeze, show Reference.mode ⟨state, absorbing, none⟩ = .ok .absorbing from rfl, Except.ok_bind] at hr'
    obtain ⟨r₁, hflush, houts⟩ := Except.bind_eq_ok.mp hr'
    rw [flush_eq _ rfl] at hflush
    obtain ⟨state₁, hstate₁, hpure⟩ := Except.bind_eq_ok.mp hflush
    obtain rfl := Except.ok.inj hpure
    refine squeezeOutputs_tracks ?_ (List.forall_mem_append.mpr ⟨hlen, fun _ => length_of_mem_paddedBlocks hr⟩)
      (List.append_ne_nil_of_right_ne_nil _ (paddedBlocks_ne_nil hr absorbing)) houts
    rw [run_append, hrun, Except.ok_bind, hstate₁]
  · obtain ⟨rfl, hne⟩ : absorbing = [] ∧ blocks ≠ [] := hsqueezing (Option.some_ne_none _)
    simp only at hrun hlen
    rw [squeeze_of_squeezing] at hr'
    simp only [Transcript.squeeze]
    by_cases hn : n = 0
    · rw [if_pos hn] at hr' ⊢
      have hturned := length_turn hlen squeezeCount
      have hturnedNe := turn_ne_nil hne D.rate squeezeCount
      rw [Transcript.turn] at hturned hturnedNe ⊢
      split at hr' <;> rename_i hturn
      · rw [if_pos hturn] at hturned hturnedNe ⊢
        obtain ⟨state₁, hpermute, hpure⟩ := Except.bind_eq_ok.mp hr'
        obtain ⟨-, rfl⟩ := Prod.mk.inj (Except.ok.inj hpure)
        refine ⟨?_, rfl, by rw [if_pos hturn], fun _ => ⟨rfl, hturnedNe⟩, hturned⟩
        rw [run_append, hrun, Except.ok_bind, run_zeros, hpermute]
      · rw [if_neg hturn] at hturned ⊢
        obtain ⟨-, rfl⟩ := Prod.mk.inj (Except.ok.inj hr')
        exact ⟨hrun, rfl, by rw [if_neg hturn], fun _ => ⟨rfl, hne⟩, hturned⟩
    · rw [if_neg hn] at hr' ⊢
      exact squeezeOutputs_tracks hrun hlen hne hr'

/-! ## Runs -/

theorem run_tracks (hr : 0 < D.rate) {t : Transcript F} {r r' : Reference F} (h : Tracks D t r) {calls : List (Call F)}
    {outputs : List (List F)} (hr' : r.run D calls = .ok (outputs, r')) :
    Tracks D (calls.foldl (Transcript.call D.rate) t) r' := by
  induction calls generalizing t r outputs with
  | nil =>
    obtain ⟨-, rfl⟩ := Prod.mk.inj (Except.ok.inj hr')
    exact h
  | cons call calls ih =>
    cases call with
    | absorb input =>
      obtain ⟨r₁, habsorb, hr'⟩ := Except.bind_eq_ok.mp hr'
      exact ih (absorb_tracks h habsorb) hr'
    | squeeze numElements =>
      obtain ⟨⟨output, r₁⟩, hsqueeze, hr'⟩ := Except.bind_eq_ok.mp hr'
      obtain ⟨⟨outputs₁, r₂⟩, hrun, hpure⟩ := Except.bind_eq_ok.mp hr'
      obtain ⟨-, rfl⟩ := Prod.mk.inj (Except.ok.inj hpure)
      exact ih (squeeze_tracks hr h hsqueeze) hrun

theorem squeeze_squeezeCount (rate : Nat) (t : Transcript F) (n : Nat) : (t.squeeze rate n).squeezeCount ≠ none := by
  have houts (n : Nat) (blocks : List (List F)) (squeezeCount : Nat) :
      (Transcript.squeezeOutputs rate n blocks squeezeCount).squeezeCount ≠ none := by
    induction n generalizing blocks squeezeCount with
    | zero => exact Option.some_ne_none _
    | succ n ih => exact ih _ _
  rw [Transcript.squeeze]
  split
  · exact houts _ _ _
  · split
    · exact Option.some_ne_none _
    · exact houts _ _ _

/-- A run that ends in a squeeze leaves the state in which the chain of its blocks ends. -/
theorem PoseidonSponge.run_eq_chain (hD : D.Total) (hr : 0 < D.rate) {calls : List (Call F)} {n : Nat}
    {outputs : List (List F)} {s : DuplexSponge F}
    (h : PoseidonSponge.run D (.new D) (calls ++ [.squeeze n]) = .ok (outputs, s)) :
    let blocks := (Transcript.ofCalls D.rate (calls ++ [.squeeze n])).blocks
    Chain.run (absorbChunk D) (DuplexSponge.new D).state blocks = .ok s.state ∧
      (∀ block ∈ blocks, block.length = D.rate) ∧ blocks ≠ [] := by
  obtain ⟨outputs', s', r', hs', hr', hrefines⟩ := run_refines hD hr (new_refines D) (calls ++ [.squeeze n])
  obtain ⟨-, rfl⟩ := Prod.ext_iff.mp (Except.ok.inj (h.symm.trans hs'))
  have htracks := run_tracks hr (new_tracks D) hr'
  have hsqueezing : r'.squeezeCount ≠ none := by
    rw [htracks.squeezeCount_eq, List.foldl_append]
    exact squeeze_squeezeCount _ _ _
  refine ⟨?_, htracks.length_blocks, (htracks.squeezing (htracks.squeezeCount_eq ▸ hsqueezing)).2⟩
  cases hrefines with
  | absorbing _ _ => exact absurd rfl hsqueezing
  | squeezing _ => exact htracks.run_blocks

theorem PoseidonConfig.duplex_bijects {p : Nat} [Fact p.Prime] {config : PoseidonConfig (ZMod p)} (h : config.Accepted)
    (hr : 0 < config.rate) (hmds : IsUnit (toMatrix (config.rate + config.capacity) config.mds))
    (hcoprime : Nat.Coprime config.alpha (p - 1)) (h2 : p = 2 → 0 < config.alpha) :
    Bijects config.duplex.permute fun state => state.length = config.capacity + config.rate := by
  obtain ⟨n, hn⟩ := exists_inverseExponents hcoprime h2
  have hb := PoseidonConfig.permute_bijects h hmds hn (.inl (by omega))
  rwa [Nat.add_comm] at hb

/-- For all accepted parameters whose permutation is a bijection, and all runs that end in a squeeze: runs of the same
blocks leave the same state, and runs that leave one state have the same blocks, or different beginnings of their blocks
lead to one capacity. -/
theorem run_binds {p : Nat} [Fact p.Prime] {config : PoseidonConfig (ZMod p)} (h : config.Accepted) (hr : 0 < config.rate)
    (hmds : IsUnit (toMatrix (config.rate + config.capacity) config.mds)) (hcoprime : Nat.Coprime config.alpha (p - 1))
    (h2 : p = 2 → 0 < config.alpha) {calls calls' : List (Call (ZMod p))} {n n' : Nat}
    {outputs outputs' : List (List (ZMod p))} {s s' : DuplexSponge (ZMod p)}
    (hs : PoseidonSponge.run config.duplex (.new config.duplex) (calls ++ [.squeeze n]) = .ok (outputs, s))
    (hs' : PoseidonSponge.run config.duplex (.new config.duplex) (calls' ++ [.squeeze n']) = .ok (outputs', s')) :
    let blocks := (Transcript.ofCalls config.rate (calls ++ [.squeeze n])).blocks
    let blocks' := (Transcript.ofCalls config.rate (calls' ++ [.squeeze n'])).blocks
    (blocks = blocks' → s.state = s'.state) ∧
      (s.state = s'.state → blocks = blocks' ∨
        InnerCollision (absorbChunk config.duplex) (List.take config.capacity) (DuplexSponge.new config.duplex).state
          blocks blocks') := by
  intro blocks blocks'
  have hD := PoseidonConfig.duplex_total h hr
  obtain ⟨hrun, hlen, hne⟩ := PoseidonSponge.run_eq_chain hD hr hs
  obtain ⟨hrun', hlen', hne'⟩ := PoseidonSponge.run_eq_chain hD hr hs'
  constructor
  · intro heq
    have hchain : Chain.run (absorbChunk config.duplex) (DuplexSponge.new config.duplex).state blocks' = .ok s.state :=
      heq ▸ hrun
    exact Except.ok.inj (hchain.symm.trans hrun')
  · intro hstate
    rw [← hstate] at hrun'
    by_cases heq : blocks = blocks'
    · exact .inl heq
    · have hides := absorbChunk_hides (PoseidonConfig.duplex_bijects h hr hmds hcoprime h2)
      exact .inr (hides.innerCollision (new_valid _).length_state hlen hlen' heq hne hne' hrun hrun')

/-- Absorbing 1, squeezing and absorbing 2 leaves the state that absorbing 1, 0 and 2 does. -/
theorem run_binds_small : ∃ outputs outputs' s s',
    PoseidonSponge.run smallConfig.duplex (.new smallConfig.duplex) ([.absorb [1], .squeeze 1, .absorb [2]] ++ [.squeeze 1]) =
        .ok (outputs, s) ∧
      PoseidonSponge.run smallConfig.duplex (.new smallConfig.duplex) ([.absorb [1, 0, 2]] ++ [.squeeze 1]) =
        .ok (outputs', s') ∧
      s.state = s'.state := by
  have hblocks :
      (Transcript.ofCalls 2 ([.absorb [1], .squeeze 1, .absorb [2]] ++ [.squeeze 1] : List (Call (ZMod 5)))).blocks =
        (Transcript.ofCalls 2 ([.absorb [1, 0, 2]] ++ [.squeeze 1])).blocks := by decide
  have hcoprime : Nat.Coprime 3 (5 - 1) := by decide
  have hD := PoseidonConfig.duplex_total (smallConfigOf_accepted 5) (by decide)
  have h5 : Fact (Nat.Prime 5) := ⟨by decide⟩
  obtain ⟨outputs, s, -, hs, -⟩ := run_refines hD Nat.two_pos (new_refines _)
    ([.absorb [1], .squeeze 1, .absorb [2]] ++ [.squeeze 1])
  obtain ⟨outputs', s', -, hs', -⟩ := run_refines hD Nat.two_pos (new_refines _) ([.absorb [1, 0, 2]] ++ [.squeeze 1])
  exact ⟨outputs, outputs', s, s', hs, hs', (run_binds (smallConfigOf_accepted 5) Nat.two_pos isUnit_smallConfig
    hcoprime (by simp) hs hs').1 hblocks⟩

end CryptoPrimitives.Sponge
