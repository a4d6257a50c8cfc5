import CryptoPrimitives.Framework.Except
import Mathlib.Algebra.Ring.Nat

/-!
# How a call of the source ends

A `Result<T, Error>` of the source is `Except Error T`. A function that may also
panic, or loop forever, is an `Outcome`: it returns a value, or stops with a
`Fault`. What can stop a call is raised through `Faults`, so that the helpers of
`CoPath::verify`, which may also stop with `return false`, share the operations
below:

* `index`, `slice`, `cloneFromSlice`: `xs[i]`, `xs[i..j]`, and assigning to a slice;
* `unwrapOption`, `unwrap`: `.unwrap()` of an `Option` and of a `Result`;
* `propagate`: the `?` operator;
* `usizeMul`, `usizeAdd`, `usizeSub`, `usizeDiv`, `usizeDivCeil`, `usizeShr`: `usize` and `u64`
  arithmetic, which panics on overflow as in the profiles with overflow checks.

`*_eq_ok` say when each one returns a value, as `Except.bind_eq_ok` does for a
sequence.
-/

namespace CryptoPrimitives

/-- `lib.rs`: the errors of the library. The boxed errors of other crates are
kept as their texts. -/
inductive Error where
  | incorrectInputLength (len : Nat)
  | notPrimeOrder
  | genericError (e : String)
  | serializationError (e : String)
deriving DecidableEq, Repr

/-- What a panic reports. -/
inductive Panic where
  | indexOutOfBounds
  | overflow
  | unwrapNone
  | unwrapErr (e : Error)
  | assertion (message : String)
  | explicit (message : String)
deriving DecidableEq, Repr

/-- Why a call returns no value: `Err`, a panic, or a loop that never ends. -/
inductive Fault where
  | err (e : Error)
  | panic (p : Panic)
  | diverge
deriving DecidableEq, Repr

abbrev Outcome := Except Fault

/-- Ways to stop that include every `Fault`. -/
class Faults (ε : Type) where
  ofFault : Fault → ε

instance : Faults Fault := ⟨id⟩

section

variable {ε α : Type} [Faults ε]

/-- Stop with a fault. -/
def raise (f : Fault) : Except ε α := .error (Faults.ofFault f)

/-- `xs[i]`. -/
def index (xs : List α) (i : Nat) : Except ε α :=
  match xs[i]? with
  | some x => .ok x
  | none => raise (.panic .indexOutOfBounds)

/-- `xs[start..end]`. -/
def slice (xs : List α) (start stop : Nat) : Except ε (List α) :=
  if start ≤ stop ∧ stop ≤ xs.length then .ok ((xs.drop start).take (stop - start))
  else raise (.panic .indexOutOfBounds)

/-- `xs[start..stop].clone_from_slice(ys)`. -/
def cloneFromSlice (xs : List α) (start stop : Nat) (ys : List α) : Except ε (List α) :=
  if start ≤ stop ∧ stop ≤ xs.length then
    if ys.length = stop - start then .ok (xs.take start ++ ys ++ xs.drop stop)
    else raise (.panic (.explicit "destination and source slices have different lengths"))
  else raise (.panic .indexOutOfBounds)

/-- `o.unwrap()` of an `Option`. -/
def unwrapOption : Option α → Except ε α
  | some x => .ok x
  | none => raise (.panic .unwrapNone)

/-- `r.unwrap()` of a `Result`. -/
def unwrap : Except Error α → Except ε α
  | .ok x => .ok x
  | .error e => raise (.panic (.unwrapErr e))

/-- `r?`. -/
def propagate : Except Error α → Except ε α
  | .ok x => .ok x
  | .error e => raise (.err e)

/-- `assert!(c, message)`. -/
def assert (c : Bool) (message : String) : Except ε Unit :=
  if c then .ok () else raise (.panic (.assertion message))

/-- `assert_eq!(a, b)`. -/
def assertEq [DecidableEq α] (a b : α) : Except ε Unit :=
  assert (decide (a = b)) "assertion `left == right` failed"

/-- The bits of a `usize`. -/
abbrev usizeBits : Nat := 64

/-- `a * b` on `usize`. -/
def usizeMul (a b : Nat) : Except ε Nat :=
  if a * b < 2 ^ usizeBits then .ok (a * b) else raise (.panic .overflow)

/-- `a + b` on `usize`. -/
def usizeAdd (a b : Nat) : Except ε Nat :=
  if a + b < 2 ^ usizeBits then .ok (a + b) else raise (.panic .overflow)

/-- `a - b` on `usize`. -/
def usizeSub (a b : Nat) : Except ε Nat :=
  if b ≤ a then .ok (a - b) else raise (.panic .overflow)

/-- `a / b` on `usize`. -/
def usizeDiv (a b : Nat) : Except ε Nat :=
  if b = 0 then raise (.panic (.explicit "attempt to divide by zero")) else .ok (a / b)

/-- `a.div_ceil(b)` on `usize`. -/
def usizeDivCeil (a b : Nat) : Except ε Nat := do
  let quotient ← usizeDiv a b
  pure (if 0 < a % b then quotient + 1 else quotient)

/-- `a >> b` on `usize`. -/
def usizeShr (a b : Nat) : Except ε Nat :=
  if b < usizeBits then .ok (a >>> b) else raise (.panic .overflow)

@[simp] theorem raise_ne_ok {f : Fault} {x : α} : (raise f : Except ε α) ≠ .ok x := nofun

theorem ite_raise_eq_ok {c : Prop} [Decidable c] {f : Fault} {x y : α} :
    (if c then .ok x else raise f : Except ε α) = .ok y ↔ c ∧ x = y := by
  split <;> simp [*]

@[simp] theorem index_eq_ok {xs : List α} {i : Nat} {x : α} :
    (index xs i : Except ε α) = .ok x ↔ xs[i]? = some x := by
  unfold index
  split <;> simp_all

theorem index_of_lt {xs : List α} {i : Nat} (h : i < xs.length) :
    (index xs i : Except ε α) = .ok xs[i] := by
  simp [h]

theorem index_getD {xs : List α} {i : Nat} (h : i < xs.length) (d : α) :
    (index xs i : Except ε α) = .ok (xs.getD i d) := by
  rw [index_of_lt h, List.getD_eq_getElem?_getD, List.getElem?_eq_getElem h, Option.getD_some]

theorem index_map {β : Type} (f : α → β) (xs : List α) (i : Nat) :
    (index (xs.map f) i : Except ε β) = f <$> index xs i := by
  rw [index, index, List.getElem?_map]
  cases xs[i]? with
  | none => rfl
  | some x => rfl

theorem slice_of_le {xs : List α} {start stop : Nat} (h : start ≤ stop) (hl : stop ≤ xs.length) :
    (slice xs start stop : Except ε (List α)) = .ok ((xs.drop start).take (stop - start)) :=
  if_pos ⟨h, hl⟩

theorem slice_map {β : Type} (f : α → β) (xs : List α) (start stop : Nat) :
    (slice (xs.map f) start stop : Except ε (List β)) = List.map f <$> slice xs start stop := by
  rw [slice, slice, List.length_map]
  split
  · rw [← List.map_drop, ← List.map_take]
    rfl
  · rfl

theorem cloneFromSlice_of_le {xs ys : List α} {start stop : Nat} (h : start + ys.length = stop)
    (hl : stop ≤ xs.length) : (cloneFromSlice xs start stop ys : Except ε (List α)) =
      .ok (xs.take start ++ ys ++ xs.drop stop) := by
  rw [cloneFromSlice, if_pos ⟨by omega, hl⟩, if_pos (by omega)]

@[simp] theorem unwrapOption_eq_ok {o : Option α} {x : α} :
    (unwrapOption o : Except ε α) = .ok x ↔ o = some x := by
  cases o <;> simp [unwrapOption]

@[simp] theorem unwrap_eq_ok {r : Except Error α} {x : α} :
    (unwrap r : Except ε α) = .ok x ↔ r = .ok x := by
  cases r <;> simp [unwrap]

@[simp] theorem propagate_eq_ok {r : Except Error α} {x : α} :
    (propagate r : Except ε α) = .ok x ↔ r = .ok x := by
  cases r <;> simp [propagate]

theorem propagate_bind {β : Type} (r : Except Error α) (f : α → Except Error β) :
    (propagate (r >>= f) : Except ε β) = propagate r >>= fun x => propagate (f x) := by
  cases r <;> rfl

theorem unwrap_bind {β : Type} (r : Except Error α) (f : α → Except Error β) :
    (unwrap (r >>= f) : Except ε β) = unwrap r >>= fun x => unwrap (f x) := by
  cases r <;> rfl

@[simp] theorem propagate_ok (x : α) : (propagate (.ok x) : Except ε α) = .ok x := rfl

@[simp] theorem unwrap_ok (x : α) : (unwrap (.ok x) : Except ε α) = .ok x := rfl

@[simp] theorem assert_eq_ok {c : Bool} {message : String} {u : Unit} :
    (assert c message : Except ε Unit) = .ok u ↔ c = true := by
  rw [assert, ite_raise_eq_ok, and_iff_left rfl]

@[simp] theorem assertEq_eq_ok [DecidableEq α] {a b : α} {u : Unit} :
    (assertEq a b : Except ε Unit) = .ok u ↔ a = b := by
  rw [assertEq, assert_eq_ok, decide_eq_true_eq]

@[simp] theorem usizeMul_eq_ok {a b c : Nat} :
    (usizeMul a b : Except ε Nat) = .ok c ↔ a * b < 2 ^ usizeBits ∧ a * b = c := by
  rw [usizeMul, ite_raise_eq_ok]

@[simp] theorem usizeAdd_eq_ok {a b c : Nat} :
    (usizeAdd a b : Except ε Nat) = .ok c ↔ a + b < 2 ^ usizeBits ∧ a + b = c := by
  rw [usizeAdd, ite_raise_eq_ok]

theorem usizeSub_of_le {a b : Nat} (h : b ≤ a) : (usizeSub a b : Except ε Nat) = .ok (a - b) := if_pos h

/-- The quotient is rounded up. -/
theorem usizeDivCeil_eq {a b : Nat} (hb : 0 < b) :
    (usizeDivCeil a b : Except ε Nat) = .ok ((a + b - 1) / b) := by
  have hdiv := Nat.div_add_mod' a b
  have hmod := Nat.mod_lt a hb
  rw [usizeDivCeil, usizeDiv, if_neg (Nat.ne_of_gt hb), Except.ok_bind]
  refine congrArg Except.ok (Nat.div_eq_of_lt_le ?_ ?_).symm
  · split
    · rw [Nat.add_mul, one_mul]
      omega
    · omega
  · rw [Nat.add_mul, one_mul]
    split
    · rw [Nat.add_mul, one_mul]
      omega
    · omega

@[simp] theorem usizeShr_eq_ok {a b c : Nat} :
    (usizeShr a b : Except ε Nat) = .ok c ↔ b < usizeBits ∧ a >>> b = c := by
  rw [usizeShr, ite_raise_eq_ok]

end

end CryptoPrimitives
