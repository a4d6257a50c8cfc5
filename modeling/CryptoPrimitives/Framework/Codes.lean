import CryptoPrimitives.Framework.PrefixCode
import Mathlib.Data.List.Forall2
import Mathlib.Tactic.Cases

/-!
# Codes of lists, options and pairs

`R x l` says that the value `x` is written as `l`; there may be values that are not written. A code is `Injective`
when a list is that of one value, and `Delimited` when what is behind it makes no difference.

* `Delimited.list_injective`: values that are delimited may be written one after another, as a list.
* `Delimited.option`, `Injective.option`: a tag in front of an optional value keeps both, and
  `Delimited.prod`, `Delimited.prod_injective` say what a pair needs.
* `Overruns.not_injective_list`: a code that is another one with zeros behind it cannot be told apart from that one
  in a list where a zero is a value, and lists are such codes (`overruns_list`).
-/

namespace Code

variable {α β γ : Type} {R : α → List β → Prop} {S : γ → List β → Prop}

/-- No list is the code of two values. -/
def Injective (R : α → List β → Prop) : Prop := ∀ ⦃x y : α⦄ ⦃l : List β⦄, R x l → R y l → x = y

/-- No code is empty, and a code followed by anything determines its value, and where it ends. -/
structure Delimited (R : α → List β → Prop) : Prop where
  ne_nil {x : α} {l : List β} : R x l → l ≠ []
  eq_of_append {x y : α} {l m s t : List β} : R x l → R y m → l ++ s = m ++ t → x = y ∧ l = m

/-- The codes of the values of a list, one after another. -/
def list (R : α → List β → Prop) (xs : List α) (l : List β) : Prop :=
  ∃ ls, List.Forall₂ R xs ls ∧ ls.flatten = l

/-- The tag `a` where there is no value, and `b` in front of one. -/
def option (a b : β) (R : α → List β → Prop) : Option α → List β → Prop
  | none, l => l = [a]
  | some x, l => ∃ m, R x m ∧ l = b :: m

/-- One value, and then the other. -/
def prod (R : α → List β → Prop) (S : γ → List β → Prop) (x : α × γ) (l : List β) : Prop :=
  ∃ m n, R x.1 m ∧ S x.2 n ∧ l = m ++ n

theorem Delimited.injective (h : Delimited R) : Injective R := fun _ _ _ hx hy =>
  (h.eq_of_append (s := []) (t := []) hx hy rfl).1

theorem Injective.mono {R' : α → List β → Prop} (h : Injective R) (hR : ∀ x l, R' x l → R x l) : Injective R' :=
  fun _ _ _ hx hy => h (hR _ _ hx) (hR _ _ hy)

theorem Delimited.mono {R' : α → List β → Prop} (h : Delimited R) (hR : ∀ x l, R' x l → R x l) : Delimited R' where
  ne_nil hx := h.ne_nil (hR _ _ hx)
  eq_of_append hx hy := h.eq_of_append (hR _ _ hx) (hR _ _ hy)

/-- Codes of one length. -/
theorem Injective.delimited (h : Injective R) {n : Nat} (hn : 0 < n) (hlen : ∀ x l, R x l → l.length = n) :
    Delimited R where
  ne_nil {x l} hx hnil := by
    have := hlen x l hx
    rw [hnil, List.length_nil] at this
    omega
  eq_of_append {x y l m s t} hx hy heq := by
    obtain ⟨rfl, -⟩ := List.append_inj heq ((hlen x l hx).trans (hlen y m hy).symm)
    exact ⟨h hx hy, rfl⟩

/-- Values whose codes are those of a self-delimiting code. -/
theorem delimited_of_selfDelimiting {enc : γ → List β} (h : SelfDelimiting enc) (f : γ → α)
    (henc : ∀ x l, R x l → ∃ c, f c = x ∧ enc c = l) : Delimited R where
  ne_nil {x l} hx hnil := by
    obtain ⟨c, -, rfl⟩ := henc x l hx
    exact h.ne_nil c hnil
  eq_of_append {x y l m s t} hx hy heq := by
    obtain ⟨c, rfl, rfl⟩ := henc x l hx
    obtain ⟨d, rfl, rfl⟩ := henc y m hy
    obtain rfl := h.eq_of_append heq
    exact ⟨rfl, rfl⟩

/-! ## Lists -/

@[simp] theorem list_nil {l : List β} : list R [] l ↔ l = [] := by
  constructor
  · rintro ⟨ls, hls, rfl⟩
    rw [List.forall₂_nil_left_iff.mp hls, List.flatten_nil]
  · rintro rfl
    exact ⟨[], .nil, rfl⟩

theorem list_cons {x : α} {xs : List α} {l : List β} :
    list R (x :: xs) l ↔ ∃ m n, R x m ∧ list R xs n ∧ l = m ++ n := by
  constructor
  · rintro ⟨ls, hls, rfl⟩
    obtain ⟨m, ms, hm, hms, rfl⟩ := List.forall₂_cons_left_iff.mp hls
    exact ⟨m, ms.flatten, hm, ⟨ms, hms, rfl⟩, rfl⟩
  · rintro ⟨m, n, hm, ⟨ns, hns, rfl⟩, rfl⟩
    exact ⟨m :: ns, .cons hm hns, rfl⟩

theorem list_singleton {x : α} {l : List β} : list R [x] l ↔ R x l := by
  simp only [list_cons, list_nil]
  constructor
  · rintro ⟨m, n, hm, rfl, rfl⟩
    rwa [List.append_nil]
  · exact fun h => ⟨l, [], h, rfl, (List.append_nil l).symm⟩

theorem list_replicate {x : α} {l : List β} (h : R x l) (n : Nat) :
    list R (List.replicate n x) (List.replicate n l).flatten :=
  ⟨List.replicate n l, List.forall₂_iff_get.mpr ⟨by simp, by simpa using fun _ _ => h⟩, rfl⟩

theorem Delimited.list_injective (h : Delimited R) : Injective (list R) := by
  intro xs
  induction xs with
  | nil =>
    rintro (_ | ⟨y, ys⟩) l hx hy
    · rfl
    · obtain rfl := list_nil.mp hx
      obtain ⟨m, n, hm, -, hnil⟩ := list_cons.mp hy
      exact absurd (List.append_eq_nil_iff.mp hnil.symm).1 (h.ne_nil hm)
  | cons x xs ih =>
    rintro (_ | ⟨y, ys⟩) l hx hy
    · obtain rfl := list_nil.mp hy
      obtain ⟨m, n, hm, -, hnil⟩ := list_cons.mp hx
      exact absurd (List.append_eq_nil_iff.mp hnil.symm).1 (h.ne_nil hm)
    · obtain ⟨m, n, hm, hn, rfl⟩ := list_cons.mp hx
      obtain ⟨m', n', hm', hn', heq⟩ := list_cons.mp hy
      obtain ⟨rfl, rfl⟩ := h.eq_of_append hm hm' heq
      obtain rfl := List.append_cancel_left heq
      rw [ih hn hn']

theorem Injective.of_list (h : Injective (list R)) : Injective R := fun _ _ _ hx hy =>
  List.singleton_inj.mp (h (list_singleton.mpr hx) (list_singleton.mpr hy))

/-! ## Options and pairs -/

section

variable {a b : β} (hab : a ≠ b)
include hab

theorem Injective.option (h : Injective R) : Injective (option a b R) := by
  rintro (_ | x) (_ | y) l hx hy
  · rfl
  · obtain ⟨m, -, rfl⟩ := hy
    exact absurd (List.cons.inj hx).1.symm hab
  · obtain ⟨m, -, rfl⟩ := hx
    exact absurd (List.cons.inj hy).1.symm hab
  · obtain ⟨m, hm, rfl⟩ := hx
    obtain ⟨n, hn, heq⟩ := hy
    obtain ⟨-, rfl⟩ := List.cons.inj heq
    rw [h hm hn]

theorem Delimited.option (h : Delimited R) : Delimited (option a b R) where
  ne_nil {x l} hx hnil := by
    subst hnil
    cases x with
    | none => exact List.cons_ne_nil _ _ hx.symm
    | some x =>
      obtain ⟨m, -, heq⟩ := hx
      exact List.cons_ne_nil _ _ heq.symm
  eq_of_append {x y l m s t} hx hy heq := by
    cases x with
    | none =>
      obtain rfl : l = [a] := hx
      cases y with
      | none => exact ⟨rfl, hy.symm⟩
      | some y =>
        obtain ⟨m, -, rfl⟩ := hy
        exact absurd (List.cons.inj heq).1 hab
    | some x =>
      obtain ⟨l, hl, rfl⟩ := hx
      cases y with
      | none =>
        obtain rfl : m = [a] := hy
        exact absurd (List.cons.inj heq).1.symm hab
      | some y =>
        obtain ⟨m, hm, rfl⟩ := hy
        obtain ⟨rfl, rfl⟩ := h.eq_of_append hl hm (List.cons.inj heq).2
        exact ⟨rfl, rfl⟩

end

theorem Injective.of_option {a b : β} (h : Injective (Code.option a b R)) : Injective R := fun _ _ l hx hy =>
  Option.some.inj (h (l := b :: l) ⟨l, hx, rfl⟩ ⟨l, hy, rfl⟩)

theorem Delimited.prod_injective (h : Delimited R) (h' : Injective S) : Injective (prod R S) := by
  rintro ⟨x, x'⟩ ⟨y, y'⟩ l ⟨m, n, hm, hn, rfl⟩ ⟨m', n', hm', hn', heq⟩
  obtain ⟨rfl, rfl⟩ := h.eq_of_append hm hm' heq
  obtain rfl := List.append_cancel_left heq
  exact Prod.ext rfl (h' hn hn')

theorem Delimited.prod (h : Delimited R) (h' : Delimited S) : Delimited (prod R S) where
  ne_nil := by
    rintro x _ ⟨m, n, hm, hn, rfl⟩ hnil
    exact h.ne_nil hm (List.append_eq_nil_iff.mp hnil).1
  eq_of_append := by
    rintro ⟨x, x'⟩ ⟨y, y'⟩ _ _ s t ⟨m, n, hm, hn, rfl⟩ ⟨m', n', hm', hn', rfl⟩ heq
    rw [List.append_assoc, List.append_assoc] at heq
    obtain ⟨rfl, rfl⟩ := h.eq_of_append hm hm' heq
    obtain ⟨rfl, rfl⟩ := h'.eq_of_append hn hn' (List.append_cancel_left heq)
    exact ⟨rfl, rfl⟩

/-- Nothing behind the value. -/
theorem prod_nil {x : α × Unit} {l : List β} : prod R (fun _ l => l = []) x l ↔ R x.1 l := by
  constructor
  · rintro ⟨m, n, hm, rfl, rfl⟩
    rwa [List.append_nil]
  · exact fun h => ⟨l, [], h, rfl, (List.append_nil l).symm⟩

theorem Injective.prod_nil (h : Injective R) : Injective (Code.prod R fun (_ : Unit) l => l = []) := fun _ _ _ hx hy =>
  Prod.ext (h (Code.prod_nil.mp hx) (Code.prod_nil.mp hy)) rfl

theorem Delimited.prod_nil (h : Delimited R) : Delimited (Code.prod R fun (_ : Unit) l => l = []) where
  ne_nil hx := h.ne_nil (Code.prod_nil.mp hx)
  eq_of_append hx hy heq := by
    obtain ⟨hxy, hlm⟩ := h.eq_of_append (Code.prod_nil.mp hx) (Code.prod_nil.mp hy) heq
    exact ⟨Prod.ext hxy rfl, hlm⟩

/-! ## Codes that run over -/

/-- The code of one value is that of another one, with zeros behind it. -/
def Overruns (zero : β) (R : α → List β → Prop) : Prop :=
  ∃ x y l n, x ≠ y ∧ R y l ∧ R x (l ++ List.replicate n zero)

variable {zero one : β}

theorem overruns_list {x : α} {n : Nat} (h : R x (List.replicate n zero)) : Overruns zero (list R) :=
  ⟨[x], [], [], n, List.cons_ne_nil x [], list_nil.mpr rfl, list_singleton.mpr h⟩

theorem Overruns.option (h : Overruns zero R) : Overruns zero (option zero one R) := by
  obtain ⟨x, y, l, n, hne, hy, hx⟩ := h
  exact ⟨some x, some y, one :: l, n, fun heq => hne (Option.some.inj heq), ⟨l, hy, rfl⟩, ⟨_, hx, rfl⟩⟩

/-- A value that is written as a zero is not told apart from the zeros behind a code. -/
theorem Overruns.not_injective_list (h : Overruns zero R) {z : α} (hz : R z [zero]) : ¬ Injective (list R) := by
  obtain ⟨x, y, l, n, hne, hy, hx⟩ := h
  have hzeros : list R (List.replicate n z) (List.replicate n zero) := by
    simpa using list_replicate hz n
  intro hinj
  have heq := hinj (list_singleton.mpr hx) (list_cons.mpr ⟨l, _, hy, hzeros, rfl⟩)
  exact hne (List.cons.inj heq).1

theorem not_injective_list_of_nil {z : α} (hz : R z []) : ¬ Injective (list R) := fun hinj =>
  List.cons_ne_nil z [] (hinj (list_singleton.mpr hz) (list_nil.mpr rfl))

end Code
