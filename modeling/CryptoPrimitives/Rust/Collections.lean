import Mathlib.Data.List.Destutter
import Mathlib.Data.List.Sort
import Mathlib.Data.List.TakeDrop

/-!
# The collections of the standard library

Of `usize` keys, as the source uses them:

* `sortUnstable`, `dedup`: the methods of `Vec`; one after the other they give
  the elements in strictly ascending order (`mem_sortDedup`,
  `pairwise_sortDedup`), which is also how a `BTreeSet` is traversed
  (`btreeSet`);
* `binarySearch`: `xs.binary_search(&x).is_ok()`, which finds the members of an
  ascending vector (`binarySearch_eq`);
* `BTreeMap`: what `get` returns for each key;

and of slices `chunks` (`chunks_eq`): the parts of a list (`flatten_chunks`), of which
`chunks_flatten` makes the chunks again. `chunks_append_replicate`, `chunks_flatMap`: the
chunks of a list filled up to a whole number of them, and of one whose entries are written
out in a fixed width.
-/

namespace CryptoPrimitives

/-- `Vec::sort_unstable`. -/
def sortUnstable (xs : List Nat) : List Nat := xs.insertionSort (· ≤ ·)

/-- `Vec::dedup`: drop each element equal to the one before it. -/
def dedup (xs : List Nat) : List Nat := xs.destutter (· ≠ ·)

/-- A `BTreeSet` with the elements `xs`, in the order of its iterator. -/
def btreeSet (xs : List Nat) : List Nat := dedup (sortUnstable xs)

theorem mem_sortUnstable {xs : List Nat} {x : Nat} : x ∈ sortUnstable xs ↔ x ∈ xs :=
  List.mem_insertionSort _

theorem nodup_sortUnstable {xs : List Nat} (h : xs.Nodup) : (sortUnstable xs).Nodup :=
  (List.perm_insertionSort _ xs).nodup_iff.mpr h

theorem pairwise_sortUnstable (xs : List Nat) : (sortUnstable xs).Pairwise (· ≤ ·) :=
  List.pairwise_insertionSort _ _

/-- On a sorted vector, `dedup` removes all repetitions. -/
theorem dedup_of_pairwise {xs : List Nat} (h : xs.Pairwise (· ≤ ·)) : dedup xs = xs.dedup :=
  h.destutter_eq_dedup

theorem mem_sortDedup {xs : List Nat} {x : Nat} : x ∈ dedup (sortUnstable xs) ↔ x ∈ xs := by
  rw [dedup_of_pairwise (pairwise_sortUnstable xs), List.mem_dedup, mem_sortUnstable]

theorem pairwise_sortDedup (xs : List Nat) : (dedup (sortUnstable xs)).Pairwise (· < ·) := by
  rw [dedup_of_pairwise (pairwise_sortUnstable xs)]
  have hs := (pairwise_sortUnstable xs).sublist (List.dedup_sublist _)
  exact hs.imp₂ (fun _ _ hle hne => lt_of_le_of_ne hle hne) (List.nodup_dedup _)

theorem mem_btreeSet {xs : List Nat} {x : Nat} : x ∈ btreeSet xs ↔ x ∈ xs := mem_sortDedup

theorem pairwise_btreeSet (xs : List Nat) : (btreeSet xs).Pairwise (· < ·) := pairwise_sortDedup xs

theorem nodup_btreeSet (xs : List Nat) : (btreeSet xs).Nodup := (pairwise_btreeSet xs).imp Nat.ne_of_lt

theorem length_btreeSet (xs : List Nat) : (btreeSet xs).length = xs.dedup.length :=
  ((List.perm_ext_iff_of_nodup (nodup_btreeSet xs) (List.nodup_dedup xs)).mpr fun x => by
    rw [mem_btreeSet, List.mem_dedup]).length_eq

/-- Ascending vectors with the same members are the same. -/
theorem eq_of_pairwise_lt {xs ys : List Nat} (hx : xs.Pairwise (· < ·)) (hy : ys.Pairwise (· < ·))
    (h : ∀ a, a ∈ xs ↔ a ∈ ys) : xs = ys :=
  ((List.perm_ext_iff_of_nodup (hx.imp Nat.ne_of_lt) (hy.imp Nat.ne_of_lt)).mpr h).eq_of_pairwise
    (fun _ _ _ _ h₁ h₂ => absurd h₁ (Nat.lt_asymm h₂)) hx hy

theorem btreeSet_of_pairwise {xs : List Nat} (h : xs.Pairwise (· < ·)) : btreeSet xs = xs :=
  eq_of_pairwise_lt (pairwise_btreeSet xs) h fun _ => mem_btreeSet

/-! ## Binary search -/

/-- One probe of the middle element for each unit of fuel. -/
def binarySearchFrom (x : Nat) : Nat → List Nat → Bool
  | 0, _ => false
  | fuel + 1, xs =>
    match xs.drop (xs.length / 2) with
    | [] => false
    | y :: ys =>
      if y = x then true
      else if y < x then binarySearchFrom x fuel ys
      else binarySearchFrom x fuel (xs.take (xs.length / 2))

/-- `xs.binary_search(&x).is_ok()`. -/
def binarySearch (xs : List Nat) (x : Nat) : Bool := binarySearchFrom x xs.length xs

theorem binarySearchFrom_eq {x : Nat} : ∀ (fuel : Nat) (xs : List Nat), xs.length ≤ fuel →
    xs.Pairwise (· < ·) → binarySearchFrom x fuel xs = decide (x ∈ xs)
  | 0, xs, hl, _ => by
    obtain rfl : xs = [] := List.length_eq_zero_iff.mp (Nat.le_zero.mp hl)
    rfl
  | fuel + 1, xs, hl, hs => by
    have e := (List.take_append_drop (xs.length / 2) xs).symm
    rw [binarySearchFrom]
    split
    · rename_i hd
      obtain rfl : xs = [] := by
        have := congrArg List.length hd
        rw [List.length_drop, List.length_nil] at this
        exact List.length_eq_zero_iff.mp (by omega)
      rfl
    · rename_i y ys hd
      rw [hd] at e
      have hs' := hs
      rw [e, List.pairwise_append] at hs'
      obtain ⟨hlow, hhigh, hsep⟩ := hs'
      have hy : ys.length ≤ fuel := by
        have := congrArg List.length hd
        rw [List.length_drop, List.length_cons] at this
        omega
      have hmem : x ∈ xs ↔ x ∈ xs.take (xs.length / 2) ∨ x = y ∨ x ∈ ys := by
        conv_lhs => rw [e]
        simp
      split
      · rename_i h
        exact (decide_eq_true (hmem.mpr (.inr (.inl h.symm)))).symm
      · rename_i hne
        split
        · rename_i hlt
          rw [binarySearchFrom_eq fuel ys hy (List.pairwise_cons.mp hhigh).2, decide_eq_decide, hmem]
          refine ⟨fun h => .inr (.inr h), fun h => ?_⟩
          rcases h with h | h | h
          · exact absurd (hsep x h y List.mem_cons_self) (Nat.lt_asymm hlt)
          · exact absurd h.symm hne
          · exact h
        · rename_i hge
          rw [binarySearchFrom_eq fuel _ (by rw [List.length_take]; omega) hlow, decide_eq_decide, hmem]
          refine ⟨fun h => .inl h, fun h => ?_⟩
          rcases h with h | h | h
          · exact h
          · exact absurd h.symm hne
          · exact absurd ((List.pairwise_cons.mp hhigh).1 x h) hge

/-- On an ascending vector, binary search finds exactly the members. -/
theorem binarySearch_eq {xs : List Nat} (h : xs.Pairwise (· < ·)) (x : Nat) :
    binarySearch xs x = decide (x ∈ xs) :=
  binarySearchFrom_eq _ xs (Nat.le_refl _) h

/-! ## Maps -/

/-- `BTreeMap<usize, β>`, as the result of `get`. -/
def BTreeMap (β : Type) : Type := Nat → Option β

namespace BTreeMap

variable {β : Type}

def new : BTreeMap β := fun _ => none

def get (m : BTreeMap β) (k : Nat) : Option β := m k

def insert (m : BTreeMap β) (k : Nat) (v : β) : BTreeMap β :=
  fun k' => if k' = k then some v else m.get k'

@[simp] theorem get_new (k : Nat) : (new : BTreeMap β).get k = none := rfl

theorem get_insert (m : BTreeMap β) (k k' : Nat) (v : β) :
    (m.insert k v).get k' = if k' = k then some v else m.get k' := rfl

@[simp] theorem get_insert_self (m : BTreeMap β) (k : Nat) (v : β) : (m.insert k v).get k = some v := by
  simp [get_insert]

theorem get_insert_of_ne {m : BTreeMap β} {k k' : Nat} {v : β} (h : k' ≠ k) :
    (m.insert k v).get k' = m.get k' := by
  simp [get_insert, h]

end BTreeMap

/-! ## Slices -/

/-- `xs.chunks(size)` for a positive `size`: slices of `size` elements, and one of
those left. -/
def chunks {α : Type} (size : Nat) (xs : List α) : List (List α) := go xs.length xs
where
  go : Nat → List α → List (List α)
    | 0, _ => []
    | fuel + 1, xs => if xs.isEmpty then [] else xs.take size :: go fuel (xs.drop size)

@[simp] theorem chunks_nil {α : Type} (size : Nat) : chunks size ([] : List α) = [] := rfl

theorem chunks_go {α : Type} {size fuel fuel' : Nat} (hs : 0 < size) {xs : List α}
    (hf : xs.length ≤ fuel) (hf' : xs.length ≤ fuel') : chunks.go size fuel xs = chunks.go size fuel' xs := by
  have hnil : ∀ fuel, chunks.go size fuel ([] : List α) = [] := fun fuel => by cases fuel <;> rfl
  induction fuel generalizing fuel' xs with
  | zero => rw [List.length_eq_zero_iff.mp (Nat.le_zero.mp hf), hnil, hnil]
  | succ fuel ih =>
    cases fuel' with
    | zero => rw [List.length_eq_zero_iff.mp (Nat.le_zero.mp hf'), hnil, hnil]
    | succ fuel' =>
      simp only [chunks.go]
      split
      · rfl
      · rename_i hne
        have hpos : 0 < xs.length := List.length_pos_iff.mpr fun h => hne (List.isEmpty_iff.mpr h)
        rw [ih (by rw [List.length_drop]; omega)
          (show (xs.drop size).length ≤ fuel' by rw [List.length_drop]; omega)]

theorem chunks_eq {α : Type} {size : Nat} (hs : 0 < size) {xs : List α} (h : xs ≠ []) :
    chunks size xs = xs.take size :: chunks size (xs.drop size) := by
  have hpos : 0 < xs.length := List.length_pos_iff.mpr h
  have hempty : xs.isEmpty ≠ true := fun hnil => h (List.isEmpty_iff.mp hnil)
  obtain ⟨fuel, hfuel⟩ : ∃ fuel, xs.length = fuel + 1 := ⟨xs.length - 1, by omega⟩
  rw [chunks, hfuel, chunks.go, if_neg hempty, chunks,
    chunks_go hs (by rw [List.length_drop]; omega) le_rfl]

theorem chunks_of_lt {α : Type} {size : Nat} {xs : List α} (h : xs ≠ []) (hl : xs.length ≤ size) :
    chunks size xs = [xs] := by
  have hpos : 0 < xs.length := List.length_pos_iff.mpr h
  rw [chunks_eq (by omega) h, List.take_of_length_le hl, List.drop_of_length_le hl, chunks_nil]

/-- What holds of no entries, and of a list where it does of what follows the first chunk,
holds of every list. -/
theorem chunks_induction {α : Type} {size : Nat} (hs : 0 < size) {motive : List α → Prop} (nil : motive [])
    (cons : ∀ xs, xs ≠ [] → motive (xs.drop size) → motive xs) (xs : List α) : motive xs := by
  induction h : xs.length using Nat.strongRecOn generalizing xs with
  | _ n ih =>
    by_cases hnil : xs = []
    · rwa [hnil]
    · have hpos : 0 < xs.length := List.length_pos_iff.mpr hnil
      exact cons xs hnil (ih _ (by rw [List.length_drop]; omega) _ rfl)

theorem chunks_map {α β : Type} {size : Nat} (hs : 0 < size) (f : α → β) (xs : List α) :
    chunks size (xs.map f) = (chunks size xs).map (List.map f) := by
  induction xs using chunks_induction hs with
  | nil => rfl
  | cons xs hnil ih =>
    rw [chunks_eq hs hnil, chunks_eq hs fun h => hnil (List.map_eq_nil_iff.mp h), List.map_cons, List.map_take,
      ← List.map_drop, ih]

theorem flatten_chunks {α : Type} {size : Nat} (hs : 0 < size) (xs : List α) : (chunks size xs).flatten = xs := by
  induction xs using chunks_induction hs with
  | nil => rfl
  | cons xs hnil ih => rw [chunks_eq hs hnil, List.flatten_cons, ih, List.take_append_drop]

/-- What the first elements of every list have, of those that are reached by dropping them. -/
theorem forall_mem_chunks {α : Type} {size : Nat} (hs : 0 < size) {P Q : List α → Prop}
    (htake : ∀ xs, Q xs → P (xs.take size)) (hdrop : ∀ xs, Q xs → Q (xs.drop size)) {xs chunk : List α} (hx : Q xs)
    (h : chunk ∈ chunks size xs) : P chunk := by
  induction xs using chunks_induction hs with
  | nil => exact absurd h List.not_mem_nil
  | cons xs hnil ih =>
    rw [chunks_eq hs hnil] at h
    rcases List.mem_cons.mp h with rfl | h
    · exact htake xs hx
    · exact ih (hdrop xs hx) h

theorem length_le_of_mem_chunks {α : Type} {size : Nat} (hs : 0 < size) {xs chunk : List α}
    (h : chunk ∈ chunks size xs) : chunk.length ≤ size :=
  forall_mem_chunks hs (P := fun chunk => chunk.length ≤ size) (Q := fun _ => True) (fun _ _ => List.length_take_le ..)
    (fun _ _ => trivial) trivial h

/-- Chunks of a multiple of `d` elements. -/
theorem dvd_length_of_mem_chunks {α : Type} {size d : Nat} (hs : 0 < size) (hd : d ∣ size) {xs chunk : List α}
    (hx : d ∣ xs.length) (h : chunk ∈ chunks size xs) : d ∣ chunk.length := by
  refine forall_mem_chunks hs (P := fun chunk => d ∣ chunk.length) (Q := fun xs => d ∣ xs.length) (fun xs hx => ?_)
    (fun xs hx => ?_) hx h
  · rw [List.length_take]
    rcases Nat.le_total size xs.length with hle | hle
    · rwa [Nat.min_eq_left hle]
    · rwa [Nat.min_eq_right hle]
  · rw [List.length_drop]
    exact Nat.dvd_sub hx hd

/-- Lists of one length are the chunks of that length of what they make up. -/
theorem chunks_flatten {α : Type} {size : Nat} (hs : 0 < size) {xss : List (List α)}
    (h : ∀ xs ∈ xss, xs.length = size) : chunks size xss.flatten = xss := by
  induction xss with
  | nil => rfl
  | cons xs xss ih =>
    obtain ⟨hxs, hxss⟩ := List.forall_mem_cons.mp h
    have hnil : (xs :: xss).flatten ≠ [] := fun hnil => by
      rw [List.flatten_cons, List.append_eq_nil_iff] at hnil
      rw [hnil.1, List.length_nil] at hxs
      omega
    rw [chunks_eq hs hnil, List.flatten_cons, List.take_left' hxs, List.drop_left' hxs, ih hxss]

/-- A list is determined by its length and by what tells apart chunks of one length. -/
theorem chunks_map_inj {α β : Type} {size : Nat} (hs : 0 < size) {f : List α → β}
    (hf : ∀ xs ys : List α, xs.length = ys.length → f xs = f ys → xs = ys) {xs ys : List α}
    (hl : xs.length = ys.length) (h : (chunks size xs).map f = (chunks size ys).map f) : xs = ys := by
  induction xs using chunks_induction hs generalizing ys with
  | nil =>
    rw [List.length_nil] at hl
    rw [List.length_eq_zero_iff.mp hl.symm]
  | cons xs hnil ih =>
    have hnil' : ys ≠ [] := List.length_pos_iff.mp (hl ▸ List.length_pos_iff.mpr hnil)
    rw [chunks_eq hs hnil, chunks_eq hs hnil', List.map_cons, List.map_cons, List.cons.injEq] at h
    have htake := hf _ _ (by rw [List.length_take, List.length_take, hl]) h.1
    have hdrop := ih (by rw [List.length_drop, List.length_drop, hl]) h.2
    rw [← List.take_append_drop size xs, ← List.take_append_drop size ys, htake, hdrop]

/-- Chunks of a list that has a whole number of them. -/
theorem chunks_of_length {α : Type} {size : Nat} (hs : 0 < size) {n : Nat} {xs : List α} (h : xs.length = size * n) :
    (chunks size xs).length = n ∧ ∀ chunk ∈ chunks size xs, chunk.length = size := by
  induction n generalizing xs with
  | zero =>
    rw [List.length_eq_zero_iff.mp h]
    exact ⟨rfl, nofun⟩
  | succ n ih =>
    rw [Nat.mul_succ] at h
    have hnil : xs ≠ [] := fun hnil => by
      rw [hnil, List.length_nil] at h
      omega
    have hdrop : (xs.drop size).length = size * n := by
      rw [List.length_drop]
      omega
    obtain ⟨hlen, hall⟩ := ih hdrop
    rw [chunks_eq hs hnil, List.length_cons, hlen]
    exact ⟨rfl, List.forall_mem_cons.mpr ⟨List.length_take_of_le (by omega), hall⟩⟩

theorem length_chunks {α : Type} {size : Nat} (hs : 0 < size) (xs : List α) :
    (chunks size xs).length = (xs.length + (size - 1)) / size := by
  induction xs using chunks_induction hs with
  | nil =>
    rw [List.length_nil, Nat.zero_add, Nat.div_eq_of_lt (by omega)]
    rfl
  | cons xs hnil ih =>
    have hpos : 0 < xs.length := List.length_pos_iff.mpr hnil
    rw [chunks_eq hs hnil, List.length_cons, ih, List.length_drop,
      Nat.div_eq_sub_div hs (show size ≤ xs.length + (size - 1) by omega)]
    by_cases hle : size ≤ xs.length
    · rw [Nat.sub_add_comm hle]
    · rw [Nat.div_eq_of_lt (show xs.length - size + (size - 1) < size by omega),
        Nat.div_eq_of_lt (show xs.length + (size - 1) - size < size by omega)]

/-- The chunks of a list that is filled up with an entry, under a function that fills up
each chunk with it. -/
theorem chunks_append_replicate {α β : Type} {size : Nat} (hs : 0 < size) {f : List α → β} {x : α}
    (hf : ∀ chunk, f (chunk ++ List.replicate (size - chunk.length) x) = f chunk) {n : Nat} {xs : List α}
    (h : xs.length ≤ size * n) :
    (chunks size (xs ++ List.replicate (size * n - xs.length) x)).map f =
      (chunks size xs).map f ++ List.replicate (n - (chunks size xs).length) (f []) := by
  induction n generalizing xs with
  | zero =>
    rw [List.length_eq_zero_iff.mp (Nat.le_zero.mp h)]
    rfl
  | succ n ih =>
    have htake : (xs ++ List.replicate (size * (n + 1) - xs.length) x).take size =
        xs.take size ++ List.replicate (size - (xs.take size).length) x := by
      rw [List.take_append, List.take_replicate, List.length_take, Nat.mul_succ]
      congr 2
      omega
    have hdrop : (xs ++ List.replicate (size * (n + 1) - xs.length) x).drop size =
        xs.drop size ++ List.replicate (size * n - (xs.drop size).length) x := by
      rw [List.drop_append, List.drop_replicate, List.length_drop, Nat.mul_succ]
      congr 2
      omega
    have hlen : (xs.drop size).length ≤ size * n := by
      rw [Nat.mul_succ] at h
      rw [List.length_drop]
      omega
    have hnil : xs ++ List.replicate (size * (n + 1) - xs.length) x ≠ [] := by
      rw [← List.length_pos_iff, List.length_append, List.length_replicate, Nat.mul_succ]
      omega
    rw [chunks_eq hs hnil, htake, hdrop, List.map_cons, hf, ih hlen]
    by_cases hxs : xs = []
    · rw [hxs, List.take_nil, List.drop_nil, chunks_nil]
      rfl
    · rw [chunks_eq hs hxs, List.map_cons, List.cons_append, List.length_cons, Nat.add_sub_add_right]

section

variable {α β : Type} {width : Nat} {f : α → List β}

theorem take_flatMap (hf : ∀ x, (f x).length = width) (n : Nat) (xs : List α) :
    (xs.flatMap f).take (width * n) = (xs.take n).flatMap f := by
  induction n generalizing xs with
  | zero => rfl
  | succ n ih =>
    cases xs with
    | nil => rw [List.flatMap_nil, List.take_nil, List.take_nil, List.flatMap_nil]
    | cons x xs =>
      rw [List.flatMap_cons, List.take_succ_cons, List.flatMap_cons, Nat.mul_succ, Nat.add_comm,
        List.take_append, hf, Nat.add_sub_cancel_left, ih, List.take_of_length_le (by rw [hf]; omega)]

theorem drop_flatMap (hf : ∀ x, (f x).length = width) (n : Nat) (xs : List α) :
    (xs.flatMap f).drop (width * n) = (xs.drop n).flatMap f := by
  induction n generalizing xs with
  | zero => rfl
  | succ n ih =>
    cases xs with
    | nil => rw [List.flatMap_nil, List.drop_nil, List.drop_nil, List.flatMap_nil]
    | cons x xs =>
      rw [List.flatMap_cons, List.drop_succ_cons, Nat.mul_succ, Nat.add_comm, List.drop_append, hf,
        Nat.add_sub_cancel_left, ih, List.drop_of_length_le (by rw [hf]; omega), List.nil_append]

/-- Chunks of entries of one width. -/
theorem chunks_flatMap (hw : 0 < width) (hf : ∀ x, (f x).length = width) {size : Nat} (hs : 0 < size) (xs : List α) :
    chunks (width * size) (xs.flatMap f) = (chunks size xs).map (List.flatMap f) := by
  induction xs using chunks_induction hs with
  | nil => rfl
  | cons xs hnil ih =>
    obtain ⟨x, xs', rfl⟩ := List.exists_cons_of_ne_nil hnil
    have hbits : (x :: xs').flatMap f ≠ [] := fun hbits => by
      rw [List.flatMap_cons, List.append_eq_nil_iff, ← List.length_eq_zero_iff, hf] at hbits
      omega
    rw [chunks_eq (Nat.mul_pos hw hs) hbits, chunks_eq hs hnil, List.map_cons, take_flatMap hf, drop_flatMap hf, ih]

end

end CryptoPrimitives
