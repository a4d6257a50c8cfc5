import CryptoPrimitives.Framework.Except
import Mathlib.Data.List.Induction

/-!
# Chains with a hidden part

A chain takes blocks into a state one after the other, each by a step that may fail. What a block cannot change of the
state is its hidden part.

* `Hides`: the state after a step determines the hidden part of the one before it, and with that one the block.
* `Hides.innerCollision`: then different chains that end in one state have met in the hidden part before.
-/

namespace Chain

section

variable {ε S B H : Type}

/-- The blocks taken in one after the other. -/
def run (step : S → B → Except ε S) (s : S) (blocks : List B) : Except ε S := blocks.foldlM step s

structure Hides (step : S → B → Except ε S) (Valid : S → Prop) (Block : B → Prop) (hidden : S → H) : Prop where
  valid {s t : S} {b : B} : Valid s → Block b → step s b = .ok t → Valid t
  hidden_eq {s s' t : S} {b b' : B} : Valid s → Valid s' → Block b → Block b' → step s b = .ok t → step s' b' = .ok t →
    hidden s = hidden s'
  block_eq {s t : S} {b b' : B} : Valid s → Block b → Block b' → step s b = .ok t → step s b' = .ok t → b = b'

/-- Different beginnings of two chains end in states with one hidden part, and these are different, or one of them is
where the chains start. -/
def InnerCollision (step : S → B → Except ε S) (hidden : S → H) (s : S) (xs ys : List B) : Prop :=
  ∃ us vs, (us <+: xs ∧ us.length < xs.length) ∧ (vs <+: ys ∧ vs.length < ys.length) ∧ us ≠ vs ∧
    ∃ t t', run step s us = .ok t ∧ run step s vs = .ok t' ∧ hidden t = hidden t' ∧ (t ≠ t' ∨ us = [] ∨ vs = [])

variable {step : S → B → Except ε S} {Valid : S → Prop} {Block : B → Prop} {hidden : S → H} {s t : S} {xs ys : List B}

theorem run_append_singleton {b : B} :
    run step s (xs ++ [b]) = .ok t ↔ ∃ u, run step s xs = .ok u ∧ step u b = .ok t := by
  rw [run, List.foldlM_append, Except.bind_eq_ok]
  refine exists_congr fun u => and_congr_right fun _ => ?_
  rw [List.foldlM_cons, Except.bind_eq_ok]
  constructor
  · rintro ⟨v, hv, hpure⟩
    rwa [← Except.ok.inj hpure]
  · exact fun h => ⟨t, h, rfl⟩

theorem InnerCollision.append (h : InnerCollision step hidden s xs ys) (xs' ys' : List B) :
    InnerCollision step hidden s (xs ++ xs') (ys ++ ys') := by
  obtain ⟨us, vs, ⟨hus, hltu⟩, ⟨hvs, hltv⟩, hrest⟩ := h
  refine ⟨us, vs, ⟨hus.trans (List.prefix_append xs xs'), ?_⟩, ⟨hvs.trans (List.prefix_append ys ys'), ?_⟩, hrest⟩
  · rw [List.length_append]
    omega
  · rw [List.length_append]
    omega

namespace Hides

variable (h : Hides step Valid Block hidden)
include h

theorem run_valid (hs : Valid s) (hxs : ∀ b ∈ xs, Block b) (ht : run step s xs = .ok t) : Valid t :=
  Except.foldlM_induction (fun _ _ hb _ hu hstep => h.valid hu (hxs _ hb) hstep) hs ht

theorem innerCollision (hs : Valid s) (hxs : ∀ b ∈ xs, Block b) (hys : ∀ b ∈ ys, Block b) (hne : xs ≠ ys)
    (hxnil : xs ≠ []) (hynil : ys ≠ []) (hx : run step s xs = .ok t) (hy : run step s ys = .ok t) :
    InnerCollision step hidden s xs ys := by
  -- back from the last blocks to where the states differ
  induction xs using List.reverseRecOn generalizing ys t with
  | nil => exact absurd rfl hxnil
  | append_singleton us b ih =>
    obtain ⟨vs, c, rfl⟩ := (List.eq_nil_or_concat' ys).resolve_left hynil
    obtain ⟨u, hu, hub⟩ := run_append_singleton.mp hx
    obtain ⟨v, hv, hvc⟩ := run_append_singleton.mp hy
    have hus : ∀ b ∈ us, Block b := fun b hb => hxs b (List.mem_append_left _ hb)
    have hvs : ∀ b ∈ vs, Block b := fun b hb => hys b (List.mem_append_left _ hb)
    have hb : Block b := hxs b (List.mem_append_right _ (List.mem_singleton_self b))
    have hc : Block c := hys c (List.mem_append_right _ (List.mem_singleton_self c))
    have huvalid := h.run_valid hs hus hu
    have hvvalid := h.run_valid hs hvs hv
    have hprefixes : us ≠ vs := by
      rintro rfl
      obtain rfl := Except.ok.inj (hu.symm.trans hv)
      exact hne (by rw [h.block_eq huvalid hb hc hub hvc])
    by_cases hmet : u ≠ v ∨ us = [] ∨ vs = []
    · refine ⟨us, vs, ⟨List.prefix_append us _, by simp⟩, ⟨List.prefix_append vs _, by simp⟩, hprefixes, u, v, hu, hv, ?_,
        hmet⟩
      exact h.hidden_eq huvalid hvvalid hb hc hub hvc
    · rw [not_or, not_or, not_not] at hmet
      obtain ⟨rfl, hunil, hvnil⟩ := hmet
      exact (ih hus hvs hprefixes hunil hvnil hu hv).append [b] [c]

end Hides

end

end Chain
