import Mathlib.Data.List.Basic

/-!
# Self-delimiting codes

`SelfDelimiting enc`: where the code of a value ends can be read off from the code itself,
so that a list of values is determined by the codes written one after another
(`SelfDelimiting.flatMap_injective`).

* `selfDelimiting_header`: a length in front of the contents makes such a code;
* `SelfDelimiting.prepend`: so does anything of a fixed length in front of one;
* `SelfDelimiting.of_flatMap`: and a code that can be expanded into one, with anything
  behind it.
-/

variable {α β γ : Type}

/-- No code is empty, and a code followed by anything determines its value. -/
structure SelfDelimiting (enc : α → List β) : Prop where
  ne_nil (x : α) : enc x ≠ []
  eq_of_append {x y : α} {s t : List β} : enc x ++ s = enc y ++ t → x = y

namespace SelfDelimiting

/-- The codes of a list of values determine it. -/
theorem flatMap_injective {enc : α → List β} (h : SelfDelimiting enc) :
    Function.Injective fun xs : List α => xs.flatMap enc := by
  intro xs ys hxy
  simp only at hxy
  induction xs generalizing ys with
  | nil =>
    cases ys with
    | nil => rfl
    | cons y ys =>
      rw [List.flatMap_nil, List.flatMap_cons] at hxy
      exact absurd (List.append_eq_nil_iff.mp hxy.symm).1 (h.ne_nil y)
  | cons x xs ih =>
    cases ys with
    | nil =>
      rw [List.flatMap_nil, List.flatMap_cons] at hxy
      exact absurd (List.append_eq_nil_iff.mp hxy).1 (h.ne_nil x)
    | cons y ys =>
      rw [List.flatMap_cons, List.flatMap_cons] at hxy
      obtain rfl := h.eq_of_append hxy
      rw [ih (List.append_cancel_left hxy)]

theorem injective {enc : α → List β} (h : SelfDelimiting enc) : Function.Injective enc := fun x y hxy =>
  h.eq_of_append (s := []) (t := []) (by rw [hxy])

theorem prepend {enc : α → List β} (h : SelfDelimiting enc) (front : α → List β) {n : Nat}
    (hfront : ∀ x, (front x).length = n) : SelfDelimiting fun x => front x ++ enc x where
  ne_nil x := fun hnil => h.ne_nil x (List.append_eq_nil_iff.mp hnil).2
  eq_of_append {x y s t} hxy := by
    rw [List.append_assoc, List.append_assoc] at hxy
    exact h.eq_of_append (List.append_inj hxy ((hfront x).trans (hfront y).symm)).2

theorem of_flatMap {enc : α → List β} {enc' : α → List γ} (h : SelfDelimiting enc) {expand : γ → List β}
    (hexpand : ∀ x, ∃ junk, (enc' x).flatMap expand = enc x ++ junk) : SelfDelimiting enc' where
  ne_nil x := fun hnil => by
    obtain ⟨junk, hx⟩ := hexpand x
    rw [hnil, List.flatMap_nil] at hx
    exact h.ne_nil x (List.append_eq_nil_iff.mp hx.symm).1
  eq_of_append {x y s t} hxy := by
    obtain ⟨junk, hx⟩ := hexpand x
    obtain ⟨junk', hy⟩ := hexpand y
    have hflat := congrArg (List.flatMap expand) hxy
    rw [List.flatMap_append, List.flatMap_append, hx, hy, List.append_assoc, List.append_assoc] at hflat
    exact h.eq_of_append hflat

end SelfDelimiting

/-- Contents behind their length. -/
theorem selfDelimiting_header (header : Nat → List β) (content : α → List β) {n : Nat} (hn : 0 < n)
    (hlen : ∀ k, (header k).length = n)
    (hheader : ∀ x y, header (content x).length = header (content y).length → (content x).length = (content y).length)
    (hcontent : Function.Injective content) : SelfDelimiting fun x => header (content x).length ++ content x where
  ne_nil x := fun hnil => by
    have := congrArg List.length (List.append_eq_nil_iff.mp hnil).1
    rw [hlen, List.length_nil] at this
    omega
  eq_of_append {x y s t} hxy := by
    rw [List.append_assoc, List.append_assoc] at hxy
    obtain ⟨hh, hrest⟩ := List.append_inj hxy ((hlen _).trans (hlen _).symm)
    exact hcontent (List.append_inj hrest (hheader x y hh)).1
