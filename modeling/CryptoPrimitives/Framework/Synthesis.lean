import CryptoPrimitives.Framework.Except

/-!
# Circuit synthesis

A gadget assigns a value to each variable it allocates and records constraints
on them. `Synthesis ε α` runs one over these values: its state says whether every
constraint recorded so far holds, and it stops with an `ε` where it cannot go on.

`Computes g p` says that `g` returns a result with `p` and that what it records
holds; it composes along sequences (`Computes.bind`), over lists
(`Computes.mapM`) and along folds (`Computes.foldlM`, `Computes.foldlM_foldl`). `Mirrors x g R` says that `g`
does so whenever the program `x` returns a value, and with a result that `R`
relates to it; it composes in the same ways, and over the `trace` of a run of calls
(`Mirrors.trace`).
-/

/-- What the calls `cs` return one after the other from a state, each with the state after
it. -/
def trace {m : Type → Type} [Monad m] {S C O : Type} (step : S → C → m (O × S)) : S → List C → m (List (O × S))
  | _, [] => pure []
  | s, c :: cs => do
    let r ← step s c
    let rs ← trace step r.2 cs
    pure (r :: rs)

/-- The gadgets: programs over a state that says whether the constraints recorded
so far hold. -/
abbrev Synthesis (ε α : Type) := StateT Bool (Except ε) α

namespace Synthesis

variable {ε α β σ : Type}

/-- Record a constraint that holds under the values assigned when `holds` is
true. -/
def enforce (holds : Bool) : Synthesis ε Unit := modify (· && holds)

/-- Stop with an error. -/
def fail (e : ε) : Synthesis ε α := fun _ => .error e

/-- `g` returns a result with `p`, and records constraints that hold. -/
def Computes (g : Synthesis ε α) (p : α → Prop) : Prop :=
  ∀ s, ∃ x, g.run s = .ok (x, s) ∧ p x

theorem Computes.pure {p : α → Prop} {x : α} (h : p x) : Computes (Pure.pure x : Synthesis ε α) p :=
  fun _ => ⟨x, rfl, h⟩

theorem Computes.mono {g : Synthesis ε α} {p q : α → Prop} (hg : Computes g p)
    (h : ∀ x, p x → q x) : Computes g q := fun s => by
  obtain ⟨x, hx, hp⟩ := hg s
  exact ⟨x, hx, h x hp⟩

/-- A gadget returns one result. -/
theorem Computes.exists_and {g : Synthesis ε α} {p q : α → Prop} (hp : Computes g p) (hq : Computes g q) :
    ∃ x, p x ∧ q x := by
  obtain ⟨x, hx, hpx⟩ := hp true
  obtain ⟨y, hy, hqy⟩ := hq true
  obtain ⟨rfl, -⟩ := Prod.mk.inj (Except.ok.inj (hx.symm.trans hy))
  exact ⟨x, hpx, hqy⟩

theorem Computes.bind {g : Synthesis ε α} {f : α → Synthesis ε β} {p : α → Prop} {q : β → Prop}
    (hg : Computes g p) (hf : ∀ x, p x → Computes (f x) q) : Computes (g >>= f) q := fun s => by
  obtain ⟨x, hx, hp⟩ := hg s
  obtain ⟨y, hy, hq⟩ := hf x hp s
  refine ⟨y, ?_, hq⟩
  rw [StateT.run_bind, hx]
  exact hy

/-- A value computed outside the circuit. -/
theorem Computes.lift {x : Except ε α} {p : α → Prop} {a : α} (hx : x = .ok a) (h : p a) :
    Computes (liftM x : Synthesis ε α) p := fun s => by
  rw [hx]
  exact ⟨a, rfl, h⟩

theorem Computes.enforce {holds : Bool} (h : holds = true) :
    Computes (enforce holds : Synthesis ε Unit) fun _ => True := fun s => by
  refine ⟨(), ?_, trivial⟩
  rw [h]
  exact congrArg (fun s => Except.ok ((), s)) (Bool.and_true s)

/-- A gadget run on each entry of a list. -/
theorem Computes.mapM {f : α → Synthesis ε β} {p : α → β → Prop} {xs : List α}
    (h : ∀ x ∈ xs, Computes (f x) (p x)) : Computes (xs.mapM f) (List.Forall₂ p xs) := by
  induction xs with
  | nil => exact .pure .nil
  | cons x xs ih =>
    rw [List.mapM_cons]
    refine (h x List.mem_cons_self).bind fun y hy => ?_
    refine (ih fun x hx => h x (List.mem_cons_of_mem _ hx)).bind fun ys hys => ?_
    exact .pure (.cons hy hys)

/-- A gadget run on each entry of a list, whose result has a value that the entry
determines. -/
theorem Computes.mapM_map {γ : Type} {f : α → Synthesis ε β} {value : β → γ} {g : α → γ} {xs : List α}
    (h : ∀ x ∈ xs, Computes (f x) fun y => value y = g x) :
    Computes (xs.mapM f) fun ys => ys.map value = xs.map g := by
  refine (Computes.mapM h).mono fun ys hys => ?_
  rw [map_eq_map_iff_forall₂]
  exact hys.flip

/-- A loop over a list: what each of its steps takes from the entries read before
to those read after. -/
theorem Computes.foldlM {f : σ → α → Synthesis ε σ} {I : Nat → σ → Prop} {xs : List α}
    (step : ∀ (i : Nat) (x : α), xs[i]? = some x → ∀ s, I i s → Computes (f s x) (I (i + 1))) {s : σ}
    (hs : I 0 s) : Computes (xs.foldlM f s) (I xs.length) := by
  induction xs generalizing I s with
  | nil => exact .pure hs
  | cons x xs ih =>
    rw [List.foldlM_cons]
    refine (step 0 x rfl s hs).bind fun s' hs' => ?_
    exact ih (I := fun i => I (i + 1)) (fun i y hy => step (i + 1) y hy) hs'

/-- A loop whose steps do to the value of the state what those of another loop do. -/
theorem Computes.foldlM_foldl {τ : Type} {f : σ → α → Synthesis ε σ} {g : τ → α → τ} {R : σ → τ → Prop} {xs : List α}
    (step : ∀ x ∈ xs, ∀ s t, R s t → Computes (f s x) fun s' => R s' (g t x)) {s : σ} {t : τ} (h : R s t) :
    Computes (xs.foldlM f s) fun s' => R s' (xs.foldl g t) := by
  induction xs generalizing s t with
  | nil => exact .pure h
  | cons x xs ih =>
    rw [List.foldlM_cons, List.foldl_cons]
    refine (step x List.mem_cons_self s t h).bind fun s' hs' => ?_
    exact ih (fun y hy => step y (List.mem_cons_of_mem _ hy)) hs'

/-! ## Gadgets that return nothing -/

/-- `g` returns no result. -/
def Rejects (g : Synthesis ε α) : Prop := ∀ s, ∃ e, g.run s = .error e

theorem Rejects.fail (e : ε) : Rejects (fail e : Synthesis ε α) := fun _ => ⟨e, rfl⟩

theorem Rejects.bind {g : Synthesis ε α} (h : Rejects g) (f : α → Synthesis ε β) : Rejects (g >>= f) := fun s => by
  obtain ⟨e, he⟩ := h s
  exact ⟨e, by rw [StateT.run_bind, he]; rfl⟩

theorem Computes.bind_rejects {g : Synthesis ε α} {f : α → Synthesis ε β} {p : α → Prop} (hg : Computes g p)
    (hf : ∀ x, p x → Rejects (f x)) : Rejects (g >>= f) := fun s => by
  obtain ⟨x, hx, hp⟩ := hg s
  obtain ⟨e, he⟩ := hf x hp s
  exact ⟨e, by rw [StateT.run_bind, hx]; exact he⟩

theorem Computes.not_rejects {g : Synthesis ε α} {p : α → Prop} (h : Computes g p) : ¬ Rejects g := fun hr => by
  obtain ⟨x, hx, -⟩ := h true
  obtain ⟨e, he⟩ := hr true
  exact nomatch hx.symm.trans he

/-- A gadget that returns nothing for an entry of a list, run on each entry. -/
theorem Rejects.mapM {f : α → Synthesis ε β} {xs : List α}
    (h : ∀ x ∈ xs, Rejects (f x) ∨ ∃ p, Computes (f x) p) (hx : ∃ x ∈ xs, Rejects (f x)) : Rejects (xs.mapM f) := by
  induction xs with
  | nil =>
    obtain ⟨x, hx, -⟩ := hx
    exact absurd hx List.not_mem_nil
  | cons x xs ih =>
    rw [List.mapM_cons]
    rcases h x List.mem_cons_self with hr | ⟨p, hc⟩
    · exact hr.bind _
    · refine hc.bind_rejects fun y _ => (ih (fun x hx => h x (List.mem_cons_of_mem _ hx)) ?_).bind _
      obtain ⟨x', hx', hr⟩ := hx
      rcases List.mem_cons.mp hx' with rfl | hx'
      · exact absurd hr hc.not_rejects
      · exact ⟨x', hx', hr⟩

/-! ## Gadgets of native programs -/

/-- Where the program `x` returns a value, `g` returns one that `R` relates to it, and
records constraints that hold. -/
def Mirrors {ε' : Type} (x : Except ε' α) (g : Synthesis ε β) (R : α → β → Prop) : Prop :=
  ∀ a, x = .ok a → Computes g (R a)

section

variable {ε' γ δ : Type} {R : α → β → Prop}

theorem Mirrors.pure {a : α} {b : β} (h : R a b) :
    Mirrors (Pure.pure a : Except ε' α) (Pure.pure b : Synthesis ε β) R := fun a' ha => by
  rw [← Except.ok.inj ha]
  exact .pure h

theorem Mirrors.bind {x : Except ε' α} {g : Synthesis ε β} {f : α → Except ε' γ} {k : β → Synthesis ε δ}
    {R' : γ → δ → Prop} (hx : Mirrors x g R) (h : ∀ a b, R a b → Mirrors (f a) (k b) R') :
    Mirrors (x >>= f) (g >>= k) R' := fun c hc => by
  obtain ⟨a, ha, hc⟩ := Except.bind_eq_ok.mp hc
  exact (hx a ha).bind fun b hb => h a b hb c hc

/-- A gadget whose result has the value that the program returns. -/
theorem Mirrors.bind_eq {x : Except ε' α} {g : Synthesis ε β} {value : β → α} {f : α → Except ε' γ}
    {k : β → Synthesis ε δ} {R' : γ → δ → Prop} (hx : Mirrors x g fun a b => value b = a)
    (h : ∀ b, Mirrors (f (value b)) (k b) R') : Mirrors (x >>= f) (g >>= k) R' :=
  hx.bind fun a b hab => by
    rw [← hab]
    exact h b

/-- Gadgets run on each entry of a list, for the program run on their values. -/
theorem Mirrors.mapM {f : α → Except ε' γ} {k : β → Synthesis ε δ} {g : β → α} {v : δ → γ}
    (h : ∀ b, Mirrors (f (g b)) (k b) fun c d => v d = c) (ys : List β) :
    Mirrors ((ys.map g).mapM f) (ys.mapM k) fun cs ds => ds.map v = cs := by
  induction ys with
  | nil => exact .pure rfl
  | cons b ys ih =>
    rw [List.map_cons, List.mapM_cons, List.mapM_cons]
    exact (h b).bind fun c d hd => ih.bind fun cs ds hds => .pure (by rw [List.map_cons, hd, hds])

theorem Mirrors.foldlM {σ' : Type} {f : σ → α → Except ε' σ} {k : σ' → β → Synthesis ε σ'} {g : β → α}
    {S : σ → σ' → Prop} (h : ∀ s s', S s s' → ∀ b, Mirrors (f s (g b)) (k s' b) S) (ys : List β) {s : σ}
    {s' : σ'} (hs : S s s') : Mirrors ((ys.map g).foldlM f s) (ys.foldlM k s') S := by
  induction ys generalizing s s' with
  | nil => exact .pure hs
  | cons b ys ih =>
    rw [List.map_cons, List.foldlM_cons, List.foldlM_cons]
    exact (h s s' hs b).bind fun s₁ s₁' hs₁ => ih hs₁

/-- Both run on the same list. -/
theorem Mirrors.mapM_same {f : α → Except ε' γ} {k : α → Synthesis ε δ} {v : δ → γ}
    (h : ∀ a, Mirrors (f a) (k a) fun c d => v d = c) (xs : List α) :
    Mirrors (xs.mapM f) (xs.mapM k) fun cs ds => ds.map v = cs := by
  have := Mirrors.mapM (f := f) (k := k) (g := id) h xs
  rwa [List.map_id] at this

theorem Mirrors.foldlM_same {σ' : Type} {f : σ → α → Except ε' σ} {k : σ' → α → Synthesis ε σ'}
    {S : σ → σ' → Prop} (h : ∀ s s', S s s' → ∀ a, Mirrors (f s a) (k s' a) S) (xs : List α) {s : σ}
    {s' : σ'} (hs : S s s') : Mirrors (xs.foldlM f s) (xs.foldlM k s') S := by
  have := Mirrors.foldlM (f := f) (k := k) (g := id) h xs hs
  rwa [List.map_id] at this

/-- Gadgets of each step are the gadgets of a run: what the calls return, and the states
after them, have the values of the run of the program. -/
theorem Mirrors.trace {S S' C C' O O' : Type} {step : S → C → Except ε' (O × S)}
    {stepVar : S' → C' → Synthesis ε (O' × S')} {f : S' → S} {g : C' → C} {v : O' → O}
    (h : ∀ s c, Mirrors (step (f s) (g c)) (stepVar s c) fun r r' => (v r'.1, f r'.2) = r) (s : S') (cs : List C') :
    Mirrors (trace step (f s) (cs.map g)) (trace stepVar s cs) fun rs rs' => rs'.map (Prod.map v f) = rs := by
  induction cs generalizing s with
  | nil => exact .pure rfl
  | cons c cs ih =>
    refine (h s c).bind_eq fun r => ?_
    refine (ih r.2).bind_eq fun rs => ?_
    exact .pure rfl

end

end Synthesis
