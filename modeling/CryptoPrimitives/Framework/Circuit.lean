import CryptoPrimitives.Framework.Except

/-!
# Constraint systems

A circuit assigns values to the variables it allocates, and emits constraints on the
assignments of all variables. Whoever checks the constraints may assign any values: what
a circuit means is what all assignments have in common that satisfy its constraints.

* `Builds w g H S`: where the variables so far have the values `w`, the circuit `g`
  returns a result; the values it assigns satisfy what it emits, and leave the result
  with `H`; and `S` holds of the result under every assignment that satisfies what it
  emits. It composes along sequences (`Builds.bind`).
* `Realizes w g f ev`: under every such assignment, the result of `g` stands for that of
  the program `f`. It composes along sequences (`Realizes.bind`), over lists
  (`Realizes.mapM`) and along folds (`Realizes.foldlM`).
-/

/-- A constraint, by the assignments that satisfy it. -/
abbrev Constraint (F : Type) := (Nat → F) → Prop

/-- The values assigned to the variables allocated so far, and the constraints. -/
structure ConstraintSystem (F : Type) where
  assignment : List F
  constraints : List (Constraint F)

/-- A program that allocates variables and emits constraints, and may fail. -/
abbrev Circuit (ε F α : Type) := StateT (ConstraintSystem F) (Except ε) α

namespace Circuit

variable {ε F α β γ : Type}

/-- Allocate a variable with this value. -/
def allocate (x : F) : Circuit ε F Nat := fun cs =>
  .ok (cs.assignment.length, { cs with assignment := cs.assignment ++ [x] })

/-- Emit a constraint. -/
def emit (c : Constraint F) : Circuit ε F Unit := fun cs =>
  .ok ((), { cs with constraints := cs.constraints ++ [c] })

/-- What `f` reads of the values assigned so far. -/
def assigned [Zero F] (f : (Nat → F) → α) : Circuit ε F α := fun cs =>
  .ok (f fun i => cs.assignment.getD i 0, cs)

/-- Stop with an error. -/
def fail (e : ε) : Circuit ε F α := fun _ => .error e

/-- `ρ` assigns the values `w` to the variables allocated first. -/
def Extends (w : List F) (ρ : Nat → F) : Prop := ∀ i x, w[i]? = some x → ρ i = x

def Satisfies (ρ : Nat → F) (constraints : List (Constraint F)) : Prop := ∀ c ∈ constraints, c ρ

/-- What `f` reads of an assignment is determined by the values `w`. -/
def Fixed (w : List F) (f : (Nat → F) → α) : Prop := ∀ ρ ρ', Extends w ρ → Extends w ρ' → f ρ = f ρ'

theorem Extends.of_prefix {w w' : List F} {ρ : Nat → F} (hw : w <+: w') (h : Extends w' ρ) : Extends w ρ :=
  fun i x hi => by
    obtain ⟨added, rfl⟩ := hw
    obtain ⟨hlt, -⟩ := List.getElem?_eq_some_iff.mp hi
    exact h i x (by rwa [List.getElem?_append_left hlt])

theorem Fixed.mono {w w' : List F} {f : (Nat → F) → α} (hw : w <+: w') (h : Fixed w f) : Fixed w' f :=
  fun ρ ρ' hρ hρ' => h ρ ρ' (hρ.of_prefix hw) (hρ'.of_prefix hw)

theorem Fixed.map {w : List F} {f : (Nat → F) → α} (h : Fixed w f) (g : α → β) : Fixed w fun ρ => g (f ρ) :=
  fun ρ ρ' hρ hρ' => congrArg g (h ρ ρ' hρ hρ')

theorem Fixed.map₂ {w : List F} {f : (Nat → F) → α} {g : (Nat → F) → β} (hf : Fixed w f) (hg : Fixed w g)
    (h : α → β → γ) : Fixed w fun ρ => h (f ρ) (g ρ) :=
  fun ρ ρ' hρ hρ' => congrArg₂ h (hf ρ ρ' hρ hρ') (hg ρ ρ' hρ hρ')

theorem fixed_const (w : List F) (x : α) : Fixed w fun _ => x := fun _ _ _ _ => rfl

theorem fixed_list {w : List F} {f : (Nat → F) → β → α} {ys : List β} :
    Fixed w (fun ρ => ys.map (f ρ)) ↔ ∀ y ∈ ys, Fixed w fun ρ => f ρ y := by
  refine ⟨fun h y hy ρ ρ' hρ hρ' => ?_, fun h ρ ρ' hρ hρ' => List.map_congr_left fun y hy => h y hy ρ ρ' hρ hρ'⟩
  exact List.map_inj_left.mp (h ρ ρ' hρ hρ') y hy

theorem satisfies_append {ρ : Nat → F} {cs cs' : List (Constraint F)} :
    Satisfies ρ (cs ++ cs') ↔ Satisfies ρ cs ∧ Satisfies ρ cs' := List.forall_mem_append

theorem extends_getD [Zero F] (w : List F) : Extends w fun i => w.getD i 0 := fun i x hi => by
  show w.getD i 0 = x
  rw [List.getD_eq_getElem?_getD, hi, Option.getD_some]

/-! ## What a circuit builds -/

/-- From the values `w`, `g` returns a result. With the values that it has assigned then,
`H` holds of the result and all they determine satisfies what `g` emits; whatever
satisfies what `g` emits has `S` with the result. -/
def Builds (w : List F) (g : Circuit ε F α) (H : List F → α → Prop) (S : (Nat → F) → α → Prop) : Prop :=
  ∀ constraints, ∃ x w' emitted, g.run ⟨w, constraints⟩ = .ok (x, ⟨w', constraints ++ emitted⟩) ∧ w <+: w' ∧
    H w' x ∧ (∀ ρ, Extends w' ρ → Satisfies ρ emitted) ∧ ∀ ρ, Satisfies ρ emitted → S ρ x

section

variable {w : List F} {g : Circuit ε F α} {k : α → Circuit ε F β} {H : List F → α → Prop}
  {H' : List F → β → Prop} {S : (Nat → F) → α → Prop} {S' : (Nat → F) → β → Prop}

theorem Builds.pure {x : α} (hH : H w x) (hS : ∀ ρ, S ρ x) : Builds w (Pure.pure x : Circuit ε F α) H S :=
  fun _ => ⟨x, w, [], by rw [List.append_nil]; rfl, List.prefix_refl w, hH, fun _ _ => nofun, fun ρ _ => hS ρ⟩

theorem Builds.mono {H₁ : List F → α → Prop} {S₁ : (Nat → F) → α → Prop} (h : Builds w g H S)
    (hH : ∀ w' x, w <+: w' → (∀ ρ, Extends w' ρ → S ρ x) → H w' x → H₁ w' x)
    (hS : ∀ ρ x, S ρ x → S₁ ρ x) : Builds w g H₁ S₁ := fun constraints => by
  obtain ⟨x, w', emitted, hrun, hw, hx, hhonest, hsound⟩ := h constraints
  refine ⟨x, w', emitted, hrun, hw, ?_, hhonest, fun ρ hρ => hS ρ x (hsound ρ hρ)⟩
  exact hH w' x hw (fun ρ hρ => hsound ρ (hhonest ρ hρ)) hx

/-- The values assigned satisfy what the first circuit emits, so that the second one may
rely on what it means. -/
theorem Builds.bind (hg : Builds w g H S)
    (hk : ∀ x w', w <+: w' → H w' x → (∀ ρ, Extends w' ρ → S ρ x) → Builds w' (k x) H' fun ρ y => S ρ x → S' ρ y) :
    Builds w (g >>= k) H' S' := fun constraints => by
  obtain ⟨x, w', emitted, hrun, hw, hx, hhonest, hsound⟩ := hg constraints
  obtain ⟨y, w'', emitted', hrun', hw', hy, hhonest', hsound'⟩ :=
    hk x w' hw hx (fun ρ hρ => hsound ρ (hhonest ρ hρ)) (constraints ++ emitted)
  refine ⟨y, w'', emitted ++ emitted', ?_, hw.trans hw', hy, fun ρ hρ => ?_, fun ρ hρ => ?_⟩
  · rw [StateT.run_bind, hrun, ← List.append_assoc]
    exact hrun'
  · exact satisfies_append.mpr ⟨hhonest ρ (hρ.of_prefix hw'), hhonest' ρ hρ⟩
  · obtain ⟨hρ, hρ'⟩ := satisfies_append.mp hρ
    exact hsound' ρ hρ' (hsound ρ hρ)

/-- Circuits run on each entry of a list. -/
theorem Builds.mapM {k : α → Circuit ε F β} {H : List F → α → β → Prop} {S : (Nat → F) → α → β → Prop} {xs : List α}
    (hmono : ∀ w₁ w₂ x y, w₁ <+: w₂ → H w₁ x y → H w₂ x y)
    (h : ∀ x ∈ xs, ∀ w', w <+: w' → Builds w' (k x) (fun w'' y => H w'' x y) fun ρ y => S ρ x y) :
    Builds w (xs.mapM k) (fun w' ys => List.Forall₂ (H w') xs ys) fun ρ ys => List.Forall₂ (S ρ) xs ys := by
  induction xs generalizing w with
  | nil => exact .pure .nil fun _ => .nil
  | cons x xs ih =>
    rw [List.mapM_cons]
    refine (h x List.mem_cons_self w (List.prefix_refl w)).bind fun y w₁ hw₁ hy _ => ?_
    refine (ih fun z hz w₂ hw₂ => h z (List.mem_cons_of_mem _ hz) w₂ (hw₁.trans hw₂)).bind fun ys w₂ hw₂ hys _ => ?_
    exact .pure (.cons (hmono _ _ _ _ hw₂ hy) hys) fun ρ hys hy => .cons hy hys

/-- Circuits that return nothing, run on each entry of a list. -/
theorem Builds.forM {k : α → Circuit ε F Unit} {S : (Nat → F) → α → Prop} {xs : List α}
    (h : ∀ x ∈ xs, ∀ w', w <+: w' → Builds w' (k x) (fun _ _ => True) fun ρ _ => S ρ x) :
    Builds w (xs.forM k) (fun _ _ => True) fun ρ _ => ∀ x ∈ xs, S ρ x := by
  induction xs generalizing w with
  | nil => exact .pure trivial fun _ => List.forall_mem_nil _
  | cons x xs ih =>
    refine (h x List.mem_cons_self w (List.prefix_refl w)).bind fun _ w₁ hw₁ _ _ => ?_
    refine (ih fun z hz w₂ hw₂ => h z (List.mem_cons_of_mem _ hz) w₂ (hw₁.trans hw₂)).mono (fun _ _ _ _ h => h)
      fun ρ _ hxs hx => ?_
    exact List.forall_mem_cons.mpr ⟨hx, hxs⟩

/-- What a circuit that has run has built. -/
theorem Builds.of_run {constraints emitted : List (Constraint F)} {w' : List F} {x : α} (h : Builds w g H S)
    (hrun : g.run ⟨w, constraints⟩ = .ok (x, ⟨w', constraints ++ emitted⟩)) :
    w <+: w' ∧ H w' x ∧ (∀ ρ, Extends w' ρ → Satisfies ρ emitted) ∧ ∀ ρ, Satisfies ρ emitted → S ρ x := by
  obtain ⟨x₁, w₁, emitted₁, hrun₁, hw, hx, hhonest, hsound⟩ := h constraints
  simp only [hrun, Except.ok.injEq, Prod.mk.injEq, ConstraintSystem.mk.injEq, List.append_cancel_left_eq] at hrun₁
  obtain ⟨rfl, rfl, rfl⟩ := hrun₁
  exact ⟨hw, hx, hhonest, hsound⟩

/-- Two facts about what one circuit builds. -/
theorem Builds.and {H₁ : List F → α → Prop} {S₁ : (Nat → F) → α → Prop} (h : Builds w g H S) (h₁ : Builds w g H₁ S₁) :
    Builds w g (fun w' x => H w' x ∧ H₁ w' x) fun ρ x => S ρ x ∧ S₁ ρ x := fun constraints => by
  obtain ⟨x, w', emitted, hrun, hw, hx, hhonest, hsound⟩ := h constraints
  obtain ⟨-, hx₁, -, hsound₁⟩ := h₁.of_run hrun
  exact ⟨x, w', emitted, hrun, hw, ⟨hx, hx₁⟩, hhonest, fun ρ hρ => ⟨hsound ρ hρ, hsound₁ ρ hρ⟩⟩

theorem allocate_builds (w : List F) (x : F) :
    Builds w (allocate x : Circuit ε F Nat) (fun w' i => w' = w ++ [x] ∧ i = w.length) fun _ _ => True :=
  fun _ => ⟨w.length, w ++ [x], [], by rw [List.append_nil]; rfl, List.prefix_append w [x],
    ⟨rfl, rfl⟩, fun _ _ => nofun, fun _ _ => trivial⟩

theorem assigned_builds [Zero F] {f : (Nat → F) → α} (hf : Fixed w f) :
    Builds w (assigned f : Circuit ε F α) (fun w' x => w' = w ∧ ∀ ρ, Extends w ρ → f ρ = x) fun _ _ => True :=
  fun _ => ⟨_, w, [], by rw [List.append_nil]; rfl, List.prefix_refl w,
    ⟨rfl, fun ρ hρ => hf ρ _ hρ (extends_getD w)⟩, fun _ _ => nofun, fun _ _ => trivial⟩

/-- What no assignment changes. -/
theorem assigned_builds_const [Zero F] {f : (Nat → F) → α} (hf : ∀ ρ ρ', f ρ = f ρ') :
    Builds w (assigned f : Circuit ε F α) (fun w' _ => w' = w) fun ρ x => f ρ = x :=
  fun _ => ⟨_, w, [], by rw [List.append_nil]; rfl, List.prefix_refl w, rfl, fun _ _ => nofun, fun ρ _ => hf ρ _⟩

theorem emit_builds {c : Constraint F} (h : ∀ ρ, Extends w ρ → c ρ) :
    Builds w (emit c : Circuit ε F Unit) (fun w' _ => w' = w) fun ρ _ => c ρ :=
  fun _ => ⟨(), w, [c], rfl, List.prefix_refl w, rfl, fun _ hρ => List.forall_mem_singleton.mpr (h _ hρ),
    fun _ hρ => hρ c (List.mem_singleton_self c)⟩

end

/-! ## Circuits of native programs -/

/-- Where `f` returns a value under the values assigned, `g` returns a result, and `ev`
reads off it what `f` returns: under the values assigned, which determine it, and under
every assignment that satisfies what `g` emits. -/
def Realizes {ε' : Type} (w : List F) (g : Circuit ε F β) (f : (Nat → F) → Except ε' α) (ev : (Nat → F) → β → α) :
    Prop :=
  (∀ ρ, Extends w ρ → ∃ a, f ρ = .ok a) →
    Builds w g (fun w' y => Fixed w' fun ρ => ev ρ y) fun ρ y => f ρ = .ok (ev ρ y)

section

variable {ε' δ : Type} {w : List F} {ev : (Nat → F) → β → α}

theorem Realizes.pure {y : β} (hy : Fixed w fun ρ => ev ρ y) {f : (Nat → F) → Except ε' α}
    (hf : ∀ ρ, f ρ = .ok (ev ρ y)) : Realizes w (Pure.pure y : Circuit ε F β) f ev :=
  fun _ => .pure hy hf

theorem Builds.realizes {g : Circuit ε F β} {f : (Nat → F) → α}
    (h : Builds w g (fun w' y => Fixed w' fun ρ => ev ρ y) fun ρ y => ev ρ y = f ρ) :
    Realizes w g (fun ρ => (.ok (f ρ) : Except ε' α)) ev :=
  fun _ => h.mono (fun _ _ _ _ hy => hy) fun ρ y hy => by rw [hy]

/-- A program that returns a value under every assignment. -/
theorem Realizes.builds {g : Circuit ε F β} {f : (Nat → F) → α}
    (h : Realizes w g (fun ρ => (.ok (f ρ) : Except ε' α)) ev) :
    Builds w g (fun w' y => Fixed w' fun ρ => ev ρ y) fun ρ y => ev ρ y = f ρ :=
  (h fun ρ _ => ⟨f ρ, rfl⟩).mono (fun _ _ _ _ hy => hy) fun _ _ hy => (Except.ok.inj hy).symm

theorem Realizes.bind {g : Circuit ε F β} {f : (Nat → F) → Except ε' α} (hg : Realizes w g f ev)
    {k : β → Circuit ε F δ} {h : (Nat → F) → α → Except ε' γ} {ev' : (Nat → F) → δ → γ}
    (hk : ∀ y w', w <+: w' → (Fixed w' fun ρ => ev ρ y) → Realizes w' (k y) (fun ρ => h ρ (ev ρ y)) ev') :
    Realizes w (g >>= k) (fun ρ => f ρ >>= h ρ) ev' := fun hok => by
  have hf (ρ : Nat → F) (hρ : Extends w ρ) : ∃ a, f ρ = .ok a := by
    obtain ⟨c, hc⟩ := hok ρ hρ
    obtain ⟨a, ha, -⟩ := Except.bind_eq_ok.mp hc
    exact ⟨a, ha⟩
  refine (hg hf).bind fun y w' hw hy hS => ?_
  have hh (ρ : Nat → F) (hρ : Extends w' ρ) : ∃ c, h ρ (ev ρ y) = .ok c := by
    obtain ⟨c, hc⟩ := hok ρ (hρ.of_prefix hw)
    have hc : (f ρ >>= h ρ) = .ok c := hc
    rw [hS ρ hρ, Except.ok_bind] at hc
    exact ⟨c, hc⟩
  refine (hk y w' hw hy hh).mono (fun _ _ _ _ h => h) fun ρ z hz hy => ?_
  show (f ρ >>= h ρ) = .ok (ev' ρ z)
  rw [hy, Except.ok_bind]
  exact hz

theorem Realizes.congr {g : Circuit ε F β} {f f' : (Nat → F) → Except ε' α} (h : Realizes w g f ev)
    (hf : ∀ ρ, f' ρ = f ρ) : Realizes w g f' ev := by
  rwa [show f' = f from funext hf]

/-- Circuits run on each entry of a list. -/
theorem Realizes.mapM {k : γ → Circuit ε F β} {f : (Nat → F) → δ → Except ε' α} {read : (Nat → F) → γ → δ}
    {xs : List γ} (hxs : ∀ x ∈ xs, Fixed w fun ρ => read ρ x)
    (h : ∀ x ∈ xs, ∀ w', w <+: w' → (Fixed w' fun ρ => read ρ x) → Realizes w' (k x) (fun ρ => f ρ (read ρ x)) ev) :
    Realizes w (xs.mapM k) (fun ρ => (xs.map (read ρ)).mapM (f ρ)) fun ρ ys => ys.map (ev ρ) := by
  induction xs generalizing w with
  | nil => exact .pure (fixed_const w []) fun _ => rfl
  | cons x xs ih =>
    simp only [List.mapM_cons, List.map_cons]
    refine (h x List.mem_cons_self w (List.prefix_refl w) (hxs x List.mem_cons_self)).bind fun y w' hw hy => ?_
    refine (ih (fun z hz => (hxs z (List.mem_cons_of_mem _ hz)).mono hw) fun z hz w'' hw' hz' =>
      h z (List.mem_cons_of_mem _ hz) w'' (hw.trans hw') hz').bind fun ys w'' hw' hys => ?_
    refine .pure ?_ fun ρ => rfl
    exact fixed_list.mpr (List.forall_mem_cons.mpr ⟨hy.mono hw', fixed_list.mp hys⟩)

/-- A loop over a list. -/
theorem Realizes.foldlM {k : β → γ → Circuit ε F β} {f : (Nat → F) → α → γ → Except ε' α} {xs : List γ}
    (h : ∀ x ∈ xs, ∀ w' s, w <+: w' → (Fixed w' fun ρ => ev ρ s) → Realizes w' (k s x) (fun ρ => f ρ (ev ρ s) x) ev)
    {s : β} (hs : Fixed w fun ρ => ev ρ s) :
    Realizes w (xs.foldlM k s) (fun ρ => xs.foldlM (f ρ) (ev ρ s)) ev := by
  induction xs generalizing w s with
  | nil => exact .pure hs fun _ => rfl
  | cons x xs ih =>
    simp only [List.foldlM_cons]
    refine (h x List.mem_cons_self w s (List.prefix_refl w) hs).bind fun s' w' hw hs' => ?_
    exact ih (fun y hy w'' s hw' hs => h y (List.mem_cons_of_mem _ hy) w'' s (hw.trans hw') hs) hs'

end

end Circuit
