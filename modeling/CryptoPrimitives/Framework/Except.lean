import Mathlib.Data.List.GetD
import Mathlib.Data.List.Forall2
import Mathlib.Tactic.Cases

/-!
# Programs that may fail

When a sequence, a `mapM` and a fold in `Except` return a value.
-/

/-- Lists are mapped to the same one exactly when their entries are, one by one. -/
theorem map_eq_map_iff_forall₂ {α β γ : Type*} {f : α → γ} {g : β → γ} {xs : List α} {ys : List β} :
    xs.map f = ys.map g ↔ List.Forall₂ (fun x y => f x = g y) xs ys := by
  rw [← List.forall₂_eq_eq_eq, List.forall₂_map_left_iff, List.forall₂_map_right_iff]

namespace Except

variable {ε α β σ : Type}

@[simp] theorem ok_bind (x : α) (f : α → Except ε β) : (ok x >>= f) = f x := rfl

@[simp] theorem error_bind (e : ε) (f : α → Except ε β) :
    ((error e : Except ε α) >>= f) = .error e := rfl

@[simp] theorem pure_eq_ok (x : α) : (pure x : Except ε α) = .ok x := rfl

/-- A sequence returns a value exactly when both its parts do. -/
theorem bind_eq_ok {x : Except ε α} {f : α → Except ε β} {y : β} :
    (x >>= f) = .ok y ↔ ∃ a, x = .ok a ∧ f a = .ok y := by
  cases x <;> simp

@[simp] theorem map_eq_ok {x : Except ε α} {f : α → β} {y : β} :
    f <$> x = .ok y ↔ ∃ a, x = .ok a ∧ f a = y := by
  cases x <;> simp [Functor.map, Except.map]

/-- `mapM` returns a list exactly when every call returns the entry of the list
at its place. -/
theorem mapM_eq_ok {f : α → Except ε β} {xs : List α} {ys : List β} :
    xs.mapM f = .ok ys ↔ List.Forall₂ (fun x y => f x = .ok y) xs ys := by
  induction xs generalizing ys with
  | nil => cases ys <;> simp
  | cons x xs ih =>
    simp only [List.mapM_cons, bind_eq_ok, pure_eq_ok, ih, Except.ok.injEq]
    constructor
    · rintro ⟨y, hy, ys', hys, rfl⟩
      exact .cons hy hys
    · rintro (_ | ⟨hy, hys⟩)
      exact ⟨_, hy, _, hys, rfl⟩

/-- A call on each number below `n`. -/
theorem mapM_range_eq_ok {f : Nat → Except ε β} {n : Nat} {ys : List β} (d : β) :
    (List.range n).mapM f = .ok ys ↔ ys.length = n ∧ ∀ i < n, f i = .ok (ys.getD i d) := by
  rw [mapM_eq_ok, List.forall₂_iff_get]
  constructor
  · rintro ⟨hl, h⟩
    rw [List.length_range] at hl
    refine ⟨hl.symm, fun i hi => ?_⟩
    have hget := h i (by rwa [List.length_range]) (hl ▸ hi)
    rwa [List.get_eq_getElem, List.get_eq_getElem, List.getElem_range, ← List.getD_eq_getElem ys d] at hget
  · rintro ⟨hl, h⟩
    refine ⟨List.length_range.trans hl.symm, fun i hi hi' => ?_⟩
    rw [List.get_eq_getElem, List.get_eq_getElem, List.getElem_range, ← List.getD_eq_getElem ys d]
    exact h i (hl ▸ hi')

theorem mapM_eq_map {f : α → Except ε β} {g : α → β} {xs : List α} (h : ∀ x ∈ xs, f x = .ok (g x)) :
    xs.mapM f = .ok (xs.map g) := by
  rw [mapM_eq_ok, List.forall₂_map_right_iff, List.forall₂_same]
  exact h

theorem mapM_congr {f g : α → Except ε β} {xs : List α} (h : ∀ x ∈ xs, f x = g x) : xs.mapM f = xs.mapM g := by
  induction xs with
  | nil => rfl
  | cons x xs ih =>
    rw [List.mapM_cons, List.mapM_cons, h x List.mem_cons_self, ih fun y hy => h y (List.mem_cons_of_mem _ hy)]

theorem exists_mapM {f : α → Except ε β} {xs : List α} (h : ∀ x ∈ xs, ∃ y, f x = .ok y) :
    ∃ ys, xs.mapM f = .ok ys := by
  induction xs with
  | nil => exact ⟨[], rfl⟩
  | cons x xs ih =>
    obtain ⟨y, hy⟩ := h x List.mem_cons_self
    obtain ⟨ys, hys⟩ := ih fun x hx => h x (List.mem_cons_of_mem _ hx)
    exact ⟨y :: ys, mapM_eq_ok.mpr (.cons hy (mapM_eq_ok.mp hys))⟩

theorem exists_map_eq_ok {x : Except ε α} {f : α → β} : (∃ y, f <$> x = .ok y) ↔ ∃ a, x = .ok a := by
  simp only [map_eq_ok]
  exact ⟨fun ⟨_, a, ha, _⟩ => ⟨a, ha⟩, fun ⟨a, ha⟩ => ⟨f a, a, ha, rfl⟩⟩

/-- A `mapM` returns a list exactly when each of its calls returns. -/
theorem exists_mapM_eq_ok {f : α → Except ε β} {xs : List α} :
    (∃ ys, xs.mapM f = .ok ys) ↔ ∀ x ∈ xs, ∃ y, f x = .ok y := by
  refine ⟨fun ⟨ys, hys⟩ x hx => ?_, exists_mapM⟩
  obtain ⟨i, hi, rfl⟩ := List.mem_iff_getElem.mp hx
  have h := mapM_eq_ok.mp hys
  exact ⟨_, h.get hi (h.length_eq ▸ hi)⟩

/-- A `mapM` whose calls succeed where `p` holds, and else fail with one error, does so where `p`
holds everywhere. -/
theorem mapM_ok_or {f : α → Except ε β} {p : α → Prop} {e : ε}
    (h : ∀ x, (p x ∧ ∃ y, f x = .ok y) ∨ ¬ p x ∧ f x = .error e) (xs : List α) :
    ((∀ x ∈ xs, p x) ∧ ∃ ys, xs.mapM f = .ok ys) ∨ (¬ ∀ x ∈ xs, p x) ∧ xs.mapM f = .error e := by
  induction xs with
  | nil => exact .inl ⟨nofun, [], rfl⟩
  | cons x xs ih =>
    rw [List.forall_mem_cons, List.mapM_cons]
    obtain ⟨hx, y, hy⟩ | ⟨hx, he⟩ := h x
    · rw [hy, ok_bind]
      obtain ⟨hxs, ys, hys⟩ | ⟨hxs, he⟩ := ih
      · exact .inl ⟨⟨hx, hxs⟩, y :: ys, by rw [hys]; rfl⟩
      · exact .inr ⟨fun h => hxs h.2, by rw [he]; rfl⟩
    · exact .inr ⟨fun h => hx h.1, by rw [he]; rfl⟩

/-- A `mapM` over lists put together is the lists of their `mapM`s put together. -/
theorem mapM_flatMap {γ : Type} (f : β → Except ε γ) (g : α → List β) (xs : List α) :
    (xs.flatMap g).mapM f = List.flatten <$> xs.mapM fun x => (g x).mapM f := by
  induction xs with
  | nil => rfl
  | cons x xs ih =>
    rw [List.flatMap_cons, List.mapM_append, ih, List.mapM_cons]
    cases (g x).mapM f with
    | error e => rfl
    | ok ys => cases xs.mapM fun x => (g x).mapM f <;> rfl

/-- What every call returns holds of every entry. -/
theorem forall_of_mapM {f : α → Except ε β} {P : β → Prop} {xs : List α} {ys : List β}
    (h : ∀ x ∈ xs, ∀ y, f x = .ok y → P y) (hys : xs.mapM f = .ok ys) : ∀ y ∈ ys, P y := by
  intro y hy
  obtain ⟨i, hi, rfl⟩ := List.mem_iff_getElem.mp hy
  have hcalls := mapM_eq_ok.mp hys
  have hi' : i < xs.length := by rwa [hcalls.length_eq]
  exact h _ (List.getElem_mem hi') _ (hcalls.get hi' hi)

theorem length_mapM {f : α → Except ε β} {xs : List α} {ys : List β} (h : xs.mapM f = .ok ys) :
    ys.length = xs.length := (mapM_eq_ok.mp h).length_eq.symm

theorem forM_eq_ok {f : α → Except ε Unit} {xs : List α} {u : Unit} :
    xs.forM f = .ok u ↔ ∀ x ∈ xs, f x = .ok () := by
  induction xs with
  | nil => simp
  | cons x xs ih =>
    rw [show (x :: xs).forM f = (f x >>= fun _ => xs.forM f) from rfl, bind_eq_ok]
    simp only [ih, List.forall_mem_cons, exists_and_right]
    exact and_congr_left fun _ => ⟨fun ⟨_, h⟩ => h, fun h => ⟨_, h⟩⟩

/-- A fold returns a value, and keeps what its steps keep, where each step does. -/
theorem exists_foldlM {f : σ → α → Except ε σ} {P : σ → Prop} {xs : List α}
    (h : ∀ s, ∀ x ∈ xs, P s → ∃ s', f s x = .ok s' ∧ P s') {s : σ} (hs : P s) :
    ∃ s', xs.foldlM f s = .ok s' ∧ P s' := by
  induction xs generalizing s with
  | nil => exact ⟨s, rfl, hs⟩
  | cons x xs ih =>
    obtain ⟨s₁, h₁, hs₁⟩ := h s x List.mem_cons_self hs
    obtain ⟨s', h', hs'⟩ := ih (fun s y hy => h s y (List.mem_cons_of_mem _ hy)) hs₁
    exact ⟨s', by rw [List.foldlM_cons, h₁, ok_bind, h'], hs'⟩

/-- The results of a `mapM`, paired with the entries of another list. -/
theorem mem_zip_of_mapM {γ : Type} {f : α → Except ε β} {xs : List α} {ys : List β} {ks : List γ}
    (h : xs.mapM f = .ok ys) {k : γ} {x : α} {y : β} (hmem : (k, x) ∈ ks.zip xs) (hxy : f x = .ok y) :
    (k, y) ∈ ks.zip ys := by
  obtain ⟨n, hn⟩ := List.mem_iff_getElem?.mp hmem
  obtain ⟨hk, hx⟩ := List.getElem?_zip_eq_some.mp hn
  obtain ⟨hl, hf⟩ := List.forall₂_iff_get.mp (mapM_eq_ok.mp h)
  obtain ⟨hlt, rfl⟩ := List.getElem?_eq_some_iff.mp hx
  have hy : ys[n]? = some y := by
    rw [List.getElem?_eq_getElem (hl ▸ hlt)]
    exact congrArg some (Except.ok.inj ((hf n hlt (hl ▸ hlt)).symm.trans hxy))
  exact List.mem_iff_getElem?.mpr ⟨n, List.getElem?_zip_eq_some.mpr ⟨hk, hy⟩⟩

/-- What each step of a fold that returns a value keeps, the whole fold keeps. -/
theorem foldlM_induction {f : σ → α → Except ε σ} {P : σ → Prop} {xs : List α}
    (step : ∀ s, ∀ x ∈ xs, ∀ s', P s → f s x = .ok s' → P s') {s s' : σ} (hs : P s)
    (h : xs.foldlM f s = .ok s') : P s' := by
  induction xs generalizing s with
  | nil =>
    obtain rfl : s = s' := by simpa using h
    exact hs
  | cons x xs ih =>
    rw [List.foldlM_cons, bind_eq_ok] at h
    obtain ⟨s₁, h₁, h⟩ := h
    exact ih (fun s y hy => step s y (List.mem_cons_of_mem _ hy))
      (step s x List.mem_cons_self s₁ hs h₁) h

/-! ## Bijections -/

/-- On the values with `P`, `f` returns values with `P`, and each of them for exactly one. -/
structure Bijects (f : α → Except ε α) (P : α → Prop) : Prop where
  total : ∀ x, P x → ∃ y, P y ∧ f x = .ok y
  injective : ∀ x y, P x → P y → f x = f y → x = y
  surjective : ∀ y, P y → ∃ x, P x ∧ f x = .ok y

namespace Bijects

variable {f g : α → Except ε α} {P : α → Prop}

theorem pure : Bijects (fun x => (.ok x : Except ε α)) P where
  total x hx := ⟨x, hx, rfl⟩
  injective _ _ _ _ h := Except.ok.inj h
  surjective y hy := ⟨y, hy, rfl⟩

theorem congr (hf : Bijects f P) (h : ∀ x, P x → g x = f x) : Bijects g P where
  total x hx := by rw [h x hx]; exact hf.total x hx
  injective x y hx hy heq := by
    rw [h x hx, h y hy] at heq
    exact hf.injective x y hx hy heq
  surjective y hy := by
    obtain ⟨x, hx, hxy⟩ := hf.surjective y hy
    exact ⟨x, hx, (h x hx).trans hxy⟩

theorem bind (hf : Bijects f P) (hg : Bijects g P) : Bijects (fun x => f x >>= g) P where
  total x hx := by
    obtain ⟨y, hy, hxy⟩ := hf.total x hx
    rw [hxy]
    exact hg.total y hy
  injective x y hx hy heq := by
    obtain ⟨x', hx', hfx⟩ := hf.total x hx
    obtain ⟨y', hy', hfy⟩ := hf.total y hy
    refine hf.injective x y hx hy ?_
    rw [hfx, hfy, ok_bind, ok_bind] at heq
    rw [hfx, hfy, hg.injective x' y' hx' hy' heq]
  surjective z hz := by
    obtain ⟨y, hy, hyz⟩ := hg.surjective z hz
    obtain ⟨x, hx, hxy⟩ := hf.surjective y hy
    exact ⟨x, hx, by rw [hxy, ok_bind, hyz]⟩

/-- A loop of such steps. -/
theorem foldlM {f : α → β → Except ε α} {xs : List β} (h : ∀ i ∈ xs, Bijects (f · i) P) :
    Bijects (fun x => xs.foldlM f x) P := by
  induction xs with
  | nil => exact pure
  | cons i xs ih => exact (h i List.mem_cons_self).bind (ih fun j hj => h j (List.mem_cons_of_mem _ hj))

end Bijects

end Except
