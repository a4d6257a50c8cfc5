import CryptoPrimitives.Framework.Chain
import CryptoPrimitives.Sponge.Reference

/-!
# The blocks of a sponge

Lists as the blocks that are added to the state before it is permuted.

* `paddedBlocks`: zeros fill the last block up, so that a list is not determined by its blocks, but by these and its
  length (`paddedBlocks_inj`).
* `absorbChunk_hides`: the chain of blocks keeps the capacity hidden, over a permutation that is a bijection.
* `run_paddedBlocks`: it ends where the sponge does that absorbs the list and permutes.
-/

namespace CryptoPrimitives.Sponge

open Chain (Hides)
open Duplex (addAt)
open Except (Bijects)
open Reference (absorbChunk addZip)

section

variable {F : Type} [CommRing F]

/-- The blocks that a list is absorbed in. There is at least one, and zeros fill the last one up. -/
def paddedBlocks (rate : Nat) (input : List F) : List (List F) :=
  if input.isEmpty then [List.replicate rate 0]
  else (chunks rate input).map fun chunk => chunk ++ List.replicate (rate - chunk.length) 0

theorem paddedBlocks_ne_nil {rate : Nat} (hr : 0 < rate) (input : List F) : paddedBlocks rate input ≠ [] := by
  rw [paddedBlocks]
  split
  · exact List.cons_ne_nil _ _
  · rename_i h
    rw [chunks_eq hr fun hnil => h (List.isEmpty_iff.mpr hnil), List.map_cons]
    exact List.cons_ne_nil _ _

theorem length_of_mem_paddedBlocks {rate : Nat} (hr : 0 < rate) {input block : List F}
    (h : block ∈ paddedBlocks rate input) : block.length = rate := by
  rw [paddedBlocks] at h
  split at h
  · rw [List.mem_singleton.mp h, List.length_replicate]
  · obtain ⟨chunk, hchunk, rfl⟩ := List.mem_map.mp h
    have hle := length_le_of_mem_chunks hr hchunk
    rw [List.length_append, List.length_replicate, Nat.add_sub_cancel' hle]

/-- Lists of one length are told apart. -/
theorem paddedBlocks_inj {rate : Nat} (hr : 0 < rate) {xs ys : List F} (hl : xs.length = ys.length)
    (h : paddedBlocks rate xs = paddedBlocks rate ys) : xs = ys := by
  by_cases hx : xs = []
  · rw [hx, List.length_nil] at hl
    rw [hx, List.length_eq_zero_iff.mp hl.symm]
  · have hy : ys ≠ [] := by
      rintro rfl
      exact hx (List.length_eq_zero_iff.mp hl)
    rw [paddedBlocks, paddedBlocks, if_neg (by rwa [List.isEmpty_iff]), if_neg (by rwa [List.isEmpty_iff])] at h
    refine chunks_map_inj hr (fun chunk chunk' hlen heq => ?_) hl h
    rw [hlen] at heq
    exact List.append_cancel_right heq

/-! ## Blocks of full width -/

theorem addZip_append_replicate (state chunk : List F) (n : Nat) :
    addZip state (chunk ++ List.replicate n 0) = addZip state chunk := by
  induction state generalizing chunk n with
  | nil => cases chunk <;> cases n <;> rfl
  | cons s state ih =>
    cases chunk with
    | cons c chunk => rw [List.cons_append, addZip, addZip, ih]
    | nil =>
      cases n with
      | zero => rfl
      | succ n =>
        rw [List.nil_append, List.replicate_succ, addZip, add_zero]
        have h := ih [] n
        rw [List.nil_append] at h
        rw [h]
        cases state <;> rfl

theorem addZip_inj {state chunk chunk' : List F} (h : chunk.length = state.length) (h' : chunk'.length = state.length)
    (heq : addZip state chunk = addZip state chunk') : chunk = chunk' := by
  induction state generalizing chunk chunk' with
  | nil => rw [List.length_eq_zero_iff.mp h, List.length_eq_zero_iff.mp h']
  | cons s state ih =>
    obtain ⟨c, cs, rfl⟩ := List.exists_cons_of_length_eq_add_one h
    obtain ⟨c', cs', rfl⟩ := List.exists_cons_of_length_eq_add_one h'
    rw [addZip, addZip, List.cons.injEq, add_right_inj] at heq
    rw [heq.1, ih (Nat.succ.inj h) (Nat.succ.inj h') heq.2]

variable {D : Duplex Outcome F}

theorem absorbChunk_eq {state chunk : List F} (hs : state.length = D.capacity + D.rate) (hc : chunk.length = D.rate) :
    absorbChunk D state chunk = D.permute (addAt D.capacity chunk state) := by
  rw [absorbChunk, addAt_eq (by omega)]

/-- A block changes nothing of the capacity before it is permuted. -/
theorem absorbChunk_hides (hD : Bijects D.permute fun state => state.length = D.capacity + D.rate) :
    Hides (absorbChunk D) (fun state => state.length = D.capacity + D.rate) (fun chunk => chunk.length = D.rate)
      (List.take D.capacity) := by
  have hadded {state chunk : List F} (hs : state.length = D.capacity + D.rate) :
      (addAt D.capacity chunk state).length = D.capacity + D.rate := by rw [Duplex.length_addAt, hs]
  have hinj {s s' t : List F} {b b' : List F} (hs : s.length = D.capacity + D.rate)
      (hs' : s'.length = D.capacity + D.rate) (hb : b.length = D.rate) (hb' : b'.length = D.rate)
      (h : absorbChunk D s b = .ok t) (h' : absorbChunk D s' b' = .ok t) :
      s.take D.capacity ++ addZip (s.drop D.capacity) b = s'.take D.capacity ++ addZip (s'.drop D.capacity) b' := by
    rw [absorbChunk_eq hs hb] at h
    rw [absorbChunk_eq hs' hb'] at h'
    rw [← addAt_eq (by omega), ← addAt_eq (by omega)]
    exact hD.injective _ _ (hadded hs) (hadded hs') (h.trans h'.symm)
  refine ⟨fun hs hb h => ?_, fun hs hs' hb hb' h h' => ?_, fun {s _ _ _} hs hb hb' h h' => ?_⟩
  · rw [absorbChunk_eq hs hb] at h
    obtain ⟨t, ht, hpermute⟩ := hD.total _ (hadded hs)
    rwa [← Except.ok.inj (hpermute.symm.trans h)]
  · exact (List.append_inj (hinj hs hs' hb hb' h h') (by rw [List.length_take, List.length_take, hs, hs'])).1
  · have hdrop : (s.drop D.capacity).length = D.rate := by rw [List.length_drop, hs, Nat.add_sub_cancel_left]
    exact addZip_inj (hb.trans hdrop.symm) (hb'.trans hdrop.symm) (List.append_cancel_left (hinj hs hs hb hb' h h'))

/-- The blocks of a list are its chunks, or nothing that is permuted. -/
theorem run_paddedBlocks_eq_chunks (state input : List F) :
    Chain.run (absorbChunk D) state (paddedBlocks D.rate input) =
      (chunks D.rate input).foldlM (absorbChunk D) state >>= fun state =>
        if input.isEmpty then D.permute state else pure state := by
  rw [Chain.run, paddedBlocks]
  split
  · rename_i h
    have hzeros := addZip_append_replicate (state.drop D.capacity) [] D.rate
    have hnil : addZip (state.drop D.capacity) [] = state.drop D.capacity := by cases state.drop D.capacity <;> rfl
    rw [List.nil_append, hnil] at hzeros
    rw [List.isEmpty_iff.mp h, chunks_nil, List.foldlM_nil, pure_bind, List.foldlM_cons, absorbChunk, hzeros,
      List.take_append_drop]
    exact bind_pure _
  · have hpadded (s chunk : List F) : absorbChunk D s (chunk ++ List.replicate (D.rate - chunk.length) 0) =
        absorbChunk D s chunk := by rw [absorbChunk, absorbChunk, addZip_append_replicate]
    simp only [List.foldlM_map, hpadded]
    exact (bind_pure _).symm

/-- What the sponge absorbs entry by entry, and then permutes. -/
theorem run_paddedBlocks (hD : D.Total) (hr : 0 < D.rate) {state : List F} (hs : state.length = D.capacity + D.rate)
    (input : List F) :
    Chain.run (absorbChunk D) state (paddedBlocks D.rate input) =
      D.absorbAll ⟨state, 0⟩ input >>= fun c => D.permute c.block := by
  rw [run_paddedBlocks_eq_chunks]
  by_cases hne : input = []
  · rw [hne]
    rfl
  · have hempty : input.isEmpty ≠ true := fun h => hne (List.isEmpty_iff.mp h)
    simp only [absorbChunks_eq hD hr hs hne, if_neg hempty, bind_pure]

end

end CryptoPrimitives.Sponge
