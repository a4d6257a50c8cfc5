import Mathlib.Data.Nat.Digits.Defs

/-!
# Numbers as bits and as limbs

Lists of bits are read least significant first, limbs are the digits in base
`2 ^ w`.

* `ofDigits_lowDigits`, `ofBits_testBit`: the low digits of a number, and its low
  bits, stand for its remainder.
* `limb_add_two_pow`: adding a power of two above a number adds limb by limb.
* `foldl_limbs`: the limbs, most significant first, determine the number.
-/

namespace Digits

/-- The number that bits stand for. -/
def ofBits (bits : List Bool) : Nat := Nat.ofDigits 2 (bits.map Bool.toNat)

@[simp] theorem ofBits_nil : ofBits [] = 0 := rfl

theorem ofBits_cons (b : Bool) (bits : List Bool) : ofBits (b :: bits) = b.toNat + 2 * ofBits bits :=
  Nat.ofDigits_cons

theorem ofBits_append (xs ys : List Bool) : ofBits (xs ++ ys) = ofBits xs + 2 ^ xs.length * ofBits ys := by
  rw [ofBits, List.map_append, Nat.ofDigits_append, List.length_map]
  rfl

theorem ofBits_concat (xs : List Bool) (b : Bool) : ofBits (xs ++ [b]) = ofBits xs + 2 ^ xs.length * b.toNat := by
  rw [ofBits_append, ofBits_cons, ofBits_nil, Nat.mul_zero, Nat.add_zero]

/-- The lowest digits of a number. -/
theorem ofDigits_lowDigits (b n m : Nat) :
    Nat.ofDigits b ((List.range m).map fun i => n / b ^ i % b) = n % b ^ m := by
  induction m with
  | zero => exact (Nat.mod_one n).symm
  | succ m ih =>
    rw [List.range_succ, List.map_append, List.map_cons, List.map_nil, Nat.ofDigits_append, ih,
      Nat.ofDigits_singleton, List.length_map, List.length_range, Nat.mod_pow_succ]

/-- The lowest bits of a number. -/
theorem ofBits_testBit (n width : Nat) : ofBits ((List.range width).map n.testBit) = n % 2 ^ width := by
  rw [← ofDigits_lowDigits, ofBits, List.map_map]
  exact congrArg _ (List.map_congr_left fun i _ => Nat.toNat_testBit n i)

theorem ofBits_lt (bits : List Bool) : ofBits bits < 2 ^ bits.length := by
  induction bits with
  | nil => exact Nat.one_pos
  | cons b bits ih =>
    have hb := Bool.toNat_lt b
    rw [ofBits_cons, List.length_cons, pow_succ]
    omega

/-- Bits of one length are determined by their number. -/
theorem ofBits_inj {xs ys : List Bool} (hl : xs.length = ys.length) (h : ofBits xs = ofBits ys) : xs = ys := by
  induction xs generalizing ys with
  | nil => rw [List.length_eq_zero_iff.mp hl.symm]
  | cons x xs ih =>
    cases ys with
    | nil => exact absurd hl (Nat.succ_ne_zero _)
    | cons y ys =>
      rw [ofBits_cons, ofBits_cons] at h
      have hxs : ofBits xs = ofBits ys := by
        have hx := Bool.toNat_lt x
        have hy := Bool.toNat_lt y
        omega
      have hbit : x.toNat = y.toNat := by omega
      rw [ih (Nat.succ.inj hl) hxs, (show x = y by cases x <;> cases y <;> first | rfl | exact nomatch hbit)]

theorem ofBits_take (bits : List Bool) (n : Nat) : ofBits (bits.take n) = ofBits bits % 2 ^ n := by
  by_cases h : bits.length ≤ n
  · rw [List.take_of_length_le h, Nat.mod_eq_of_lt ((ofBits_lt bits).trans_le (Nat.pow_le_pow_right Nat.two_pos h))]
  · have hlen : (bits.take n).length = n := List.length_take_of_le (by omega)
    have hlt := ofBits_lt (bits.take n)
    rw [hlen] at hlt
    conv_rhs => rw [← List.take_append_drop n bits, ofBits_append, hlen, Nat.add_mul_mod_self_left]
    exact (Nat.mod_eq_of_lt hlt).symm

theorem ofBits_drop (bits : List Bool) (n : Nat) : ofBits (bits.drop n) = ofBits bits / 2 ^ n := by
  by_cases h : bits.length ≤ n
  · rw [List.drop_of_length_le h, ofBits_nil,
      Nat.div_eq_of_lt ((ofBits_lt bits).trans_le (Nat.pow_le_pow_right Nat.two_pos h))]
  · have hlen : (bits.take n).length = n := List.length_take_of_le (by omega)
    have hlt := ofBits_lt (bits.take n)
    rw [hlen] at hlt
    conv_rhs => rw [← List.take_append_drop n bits, ofBits_append, hlen,
      Nat.add_mul_div_left _ _ (Nat.two_pow_pos n), Nat.div_eq_of_lt hlt, Nat.zero_add]

theorem ofBits_replicate_false (n : Nat) : ofBits (List.replicate n false) = 0 := by
  induction n with
  | zero => rfl
  | succ n ih => rw [List.replicate_succ, ofBits_cons, ih]; rfl

/-- The low bits of the number of some bits are these, with zeros above them. -/
theorem map_testBit_ofBits (bits : List Bool) (n : Nat) :
    (List.range n).map (ofBits bits).testBit = (bits ++ List.replicate (n - bits.length) false).take n := by
  refine ofBits_inj ?_ ?_
  · rw [List.length_map, List.length_range, List.length_take, List.length_append, List.length_replicate]
    omega
  · rw [ofBits_testBit, ofBits_take, ofBits_append, ofBits_replicate_false, Nat.mul_zero, Nat.add_zero]

/-- A number has the low bits of its bits. -/
theorem take_testBit_ofBits (n : Nat) {bits : List Bool} (h : bits.length ≤ n) :
    ((List.range n).map (ofBits bits).testBit).take bits.length = bits := by
  rw [map_testBit_ofBits, List.take_take, Nat.min_eq_left h, List.take_left]

/-! ## Limbs -/

/-- Digit `k` of `n` in base `2 ^ w`. -/
def limb (w n k : Nat) : Nat := n / 2 ^ (w * k) % 2 ^ w

theorem limb_lt (w n k : Nat) : limb w n k < 2 ^ w := Nat.mod_lt _ (Nat.two_pow_pos w)

@[simp] theorem limb_zero (w k : Nat) : limb w 0 k = 0 := by
  rw [limb, Nat.zero_div, Nat.zero_mod]

/-- No limb carries when a power of two above a number is added to it. -/
theorem limb_add_two_pow {w n j : Nat} (h : n < 2 ^ j) (k : Nat) :
    limb w (n + 2 ^ j) k = limb w n k + limb w (2 ^ j) k := by
  by_cases hjk : j < w * k
  · -- both are below the limb
    have hpow : 2 ^ (j + 1) ≤ 2 ^ (w * k) := Nat.pow_le_pow_right Nat.two_pos hjk
    rw [pow_succ] at hpow
    rw [limb, limb, limb, Nat.div_eq_of_lt (by omega), Nat.div_eq_of_lt (by omega), Nat.div_eq_of_lt (by omega),
      Nat.zero_mod]
  · obtain ⟨i, rfl⟩ : ∃ i, j = w * k + i := ⟨j - w * k, by omega⟩
    have hsplit : 2 ^ (w * k + i) = 2 ^ (w * k) * 2 ^ i := pow_add ..
    have hlt : n / 2 ^ (w * k) < 2 ^ i := by
      rw [Nat.div_lt_iff_lt_mul (Nat.two_pow_pos _), mul_comm, ← hsplit]
      exact h
    rw [limb, limb, limb, hsplit, Nat.add_mul_div_left _ _ (Nat.two_pow_pos _),
      Nat.mul_div_cancel_left _ (Nat.two_pow_pos _)]
    by_cases hi : i < w
    · -- the power of two is in the limb, above the number
      have hpow : 2 ^ (i + 1) ≤ 2 ^ w := Nat.pow_le_pow_right Nat.two_pos hi
      have hpos := Nat.two_pow_pos i
      rw [pow_succ] at hpow
      rw [Nat.mod_eq_of_lt (by omega), Nat.mod_eq_of_lt (by omega), Nat.mod_eq_of_lt (by omega)]
    · -- it is above the limb
      obtain ⟨e, rfl⟩ : ∃ e, i = w + e := ⟨i - w, by omega⟩
      rw [pow_add, Nat.add_mul_mod_self_left, Nat.mul_mod_right, Nat.add_zero]

theorem mod_two_pow_succ (w n m : Nat) :
    n % 2 ^ (w * (m + 1)) = limb w n m * 2 ^ (w * m) + n % 2 ^ (w * m) := by
  rw [Nat.mul_succ, pow_add, Nat.mod_mul, limb, Nat.add_comm, Nat.mul_comm]

theorem limb_zero_right (w n : Nat) : limb w n 0 = n % 2 ^ w := by
  rw [limb, Nat.mul_zero, pow_zero, Nat.div_one]

theorem limb_succ (w n k : Nat) : limb w n (k + 1) = limb w (n / 2 ^ w) k := by
  rw [limb, limb, Nat.div_div_eq_div_mul, ← pow_add, Nat.mul_succ, Nat.add_comm]

/-- So many limbs determine a number below the power of two. -/
theorem limb_inj {w count m n : Nat} (hm : m < 2 ^ (w * count)) (hn : n < 2 ^ (w * count))
    (h : ∀ k < count, limb w m k = limb w n k) : m = n := by
  rw [← Nat.mod_eq_of_lt hm, ← Nat.mod_eq_of_lt hn]
  clear hm hn
  induction count with
  | zero => rw [Nat.mul_zero, pow_zero, Nat.mod_one, Nat.mod_one]
  | succ count ih =>
    rw [mod_two_pow_succ, mod_two_pow_succ, h count (Nat.lt_succ_self count), ih fun k hk => h k (Nat.lt_succ_of_lt hk)]

/-- All limbs are those of a number. -/
theorem exists_limb_eq {w count : Nat} (x : Nat → Nat) (hx : ∀ k < count, x k < 2 ^ w) :
    ∃ n < 2 ^ (w * count), ∀ k < count, limb w n k = x k := by
  induction count generalizing x with
  | zero => exact ⟨0, by simp, fun k hk => absurd hk (Nat.not_lt_zero k)⟩
  | succ count ih =>
    obtain ⟨n, hlt, hn⟩ := ih (fun k => x (k + 1)) fun k hk => hx (k + 1) (Nat.succ_lt_succ hk)
    have h0 : x 0 < 2 ^ w := hx 0 (Nat.succ_pos count)
    refine ⟨x 0 + 2 ^ w * n, ?_, fun k hk => ?_⟩
    · rw [Nat.mul_succ, Nat.add_comm (w * count), pow_add]
      have hmul := Nat.mul_le_mul_left (2 ^ w) (Nat.succ_le_of_lt hlt)
      rw [Nat.mul_succ] at hmul
      omega
    · cases k with
      | zero => rw [limb_zero_right, Nat.add_mul_mod_self_left, Nat.mod_eq_of_lt h0]
      | succ k =>
        rw [limb_succ, Nat.add_mul_div_left _ _ (Nat.two_pow_pos w), Nat.div_eq_of_lt h0, Nat.zero_add]
        exact hn k (Nat.lt_of_succ_lt_succ hk)

/-- Reading limbs from the most significant one down. -/
theorem foldl_limbs (w n m a : Nat) :
    ((List.range m).reverse.map (limb w n)).foldl (fun acc d => acc * 2 ^ w + d) a =
      a * 2 ^ (w * m) + n % 2 ^ (w * m) := by
  induction m generalizing a with
  | zero => rw [Nat.mul_zero, pow_zero, Nat.mod_one, Nat.mul_one]; rfl
  | succ m ih =>
    rw [List.range_succ, List.reverse_append, List.reverse_singleton, List.singleton_append, List.map_cons,
      List.foldl_cons, ih, mod_two_pow_succ, Nat.mul_succ, pow_add]
    ring

end Digits
