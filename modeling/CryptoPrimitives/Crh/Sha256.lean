import CryptoPrimitives.Framework.BlockStream
import CryptoPrimitives.Rust.Collections
import CryptoPrimitives.Rust.Outcome
import CryptoPrimitives.Rust.Uint

/-!
# SHA-256

The hash function of FIPS 180-4, for messages of bytes: what the gadget is to
compute. `rootFloor_spec`: the constants are bits of the roots they are defined by.

The native hash calls the crate `sha2` (`Hasher`). `IsSha256` is what it relies on.
-/

namespace CryptoPrimitives.Sha256

open BlockStream (absorb)

/-! ## Functions and constants -/

def ch (x y z : UInt32) : UInt32 := (x &&& y) ^^^ (~~~x &&& z)

def maj (x y z : UInt32) : UInt32 := (x &&& y) ^^^ (x &&& z) ^^^ (y &&& z)

/-- `ROTR`. -/
def rotr (n x : UInt32) : UInt32 := (x >>> n) ||| (x <<< (32 - n))

/-- `SHR`. -/
def shr (n x : UInt32) : UInt32 := x >>> n

def bigSigma0 (x : UInt32) : UInt32 := rotr 2 x ^^^ rotr 13 x ^^^ rotr 22 x

def bigSigma1 (x : UInt32) : UInt32 := rotr 6 x ^^^ rotr 11 x ^^^ rotr 25 x

def smallSigma0 (x : UInt32) : UInt32 := rotr 7 x ^^^ rotr 18 x ^^^ shr 3 x

def smallSigma1 (x : UInt32) : UInt32 := rotr 17 x ^^^ rotr 19 x ^^^ shr 10 x

/-- The root of degree `k` of `n`, rounded down, bit by bit. -/
def rootFloor (bits k n : Nat) : Nat :=
  (List.range bits).reverse.foldl (fun r i => if (r + 2 ^ i) ^ k ≤ n then r + 2 ^ i else r) 0

/-- The first 32 bits of the fractional part of the root of degree `k` of a prime. -/
def rootConstant (k prime : Nat) : UInt32 := UInt32.ofNat (rootFloor 36 k (prime * 2 ^ (32 * k)))

/-- The first sixty-four primes. -/
def primes : List Nat :=
  (List.range 312).filter fun n => 2 ≤ n ∧ ∀ d ∈ List.range n, 2 ≤ d → ¬ d ∣ n

/-- The constants `K`. -/
def roundConstants : List UInt32 := primes.map (rootConstant 3)

/-- It is the root, of numbers whose root has no more bits. -/
theorem rootFloor_spec {bits k n : Nat} (hk : 0 < k) (h : n < (2 ^ bits) ^ k) :
    rootFloor bits k n ^ k ≤ n ∧ n < (rootFloor bits k n + 1) ^ k := by
  have hbits (r : Nat) (hr : r ^ k ≤ n) (hn : n < (r + 2 ^ bits) ^ k) :
      ((List.range bits).reverse.foldl (fun r i => if (r + 2 ^ i) ^ k ≤ n then r + 2 ^ i else r) r) ^ k ≤ n ∧
        n < ((List.range bits).reverse.foldl (fun r i => if (r + 2 ^ i) ^ k ≤ n then r + 2 ^ i else r) r + 1) ^ k := by
    clear h
    induction bits generalizing r with
    | zero => exact ⟨hr, hn⟩
    | succ bits ih =>
      rw [List.range_succ, List.reverse_append, List.reverse_singleton, List.singleton_append, List.foldl_cons]
      split
      · rename_i hle
        exact ih _ hle (by rwa [Nat.add_assoc, ← Nat.two_mul, ← Nat.pow_succ'])
      · rename_i hlt
        exact ih _ hr (Nat.lt_of_not_le hlt)
  exact hbits 0 (by rw [Nat.zero_pow hk]; exact Nat.zero_le n) (by rwa [Nat.zero_add])

/-! ## The hash -/

/-- The working variables, and the hash value. -/
structure HashValue where
  a : UInt32
  b : UInt32
  c : UInt32
  d : UInt32
  e : UInt32
  f : UInt32
  g : UInt32
  h : UInt32
deriving DecidableEq, Repr

namespace HashValue

def toList (v : HashValue) : List UInt32 := [v.a, v.b, v.c, v.d, v.e, v.f, v.g, v.h]

/-- The initial hash value `H(0)`. -/
def initial : HashValue where
  a := rootConstant 2 2
  b := rootConstant 2 3
  c := rootConstant 2 5
  d := rootConstant 2 7
  e := rootConstant 2 11
  f := rootConstant 2 13
  g := rootConstant 2 17
  h := rootConstant 2 19

def add (v w : HashValue) : HashValue where
  a := v.a + w.a
  b := v.b + w.b
  c := v.c + w.c
  d := v.d + w.d
  e := v.e + w.e
  f := v.f + w.f
  g := v.g + w.g
  h := v.h + w.h

/-- A round with the constant `k` and the word `w` of the schedule. -/
def round (v : HashValue) (k w : UInt32) : HashValue :=
  let t1 := v.h + bigSigma1 v.e + ch v.e v.f v.g + k + w
  let t2 := bigSigma0 v.a + maj v.a v.b v.c
  { a := t1 + t2, b := v.a, c := v.b, d := v.c, e := v.d + t1, f := v.e, g := v.f, h := v.g }

end HashValue

/-- The message schedule: the words of a block, and `n` words after them. -/
def schedule (words : List UInt32) : Nat → List UInt32
  | 0 => words
  | n + 1 =>
    let w := schedule words n
    w ++ [smallSigma1 (w.getD (n + 14) 0) + w.getD (n + 9) 0 + smallSigma0 (w.getD (n + 1) 0) + w.getD n 0]

/-- The words of a block of bytes. -/
def blockWords (block : List UInt8) : List UInt32 := (chunks 4 block).map fromBeBytes

/-- The hash value after a block. -/
def compress (v : HashValue) (block : List UInt8) : HashValue :=
  let w := schedule (blockWords block) 48
  v.add ((List.range 64).foldl (fun v t => v.round (roundConstants.getD t 0) (w.getD t 0)) v)

/-- The bytes after a message of `len` bytes: a bit 1, as few bits 0 as lead to 64 bits
before the end of a block, and there the number of bits. -/
def padding (len : Nat) : List UInt8 :=
  0x80 :: List.replicate ((119 - len % 64) % 64) 0 ++ toBeBytes 8 (8 * len)

/-- SHA-256. -/
def sha256 (message : List UInt8) : List UInt8 :=
  (absorb 64 compress .initial (message ++ padding message.length)).1.toList.flatMap fun word =>
    toBeBytes 4 word.toNat

theorem length_sha256 (message : List UInt8) : (sha256 message).length = 32 := by
  have hbytes (word : UInt32) : (toBeBytes 4 word.toNat).length = 4 := by
    rw [toBeBytes, List.length_map, List.length_reverse, List.length_range]
  simp only [sha256, HashValue.toList, List.flatMap_cons, List.flatMap_nil, List.length_append, hbytes,
    List.length_nil]

/-- The one-block message of the standard's example. -/
example : sha256 [0x61, 0x62, 0x63] =
    [0xba, 0x78, 0x16, 0xbf, 0x8f, 0x01, 0xcf, 0xea, 0x41, 0x41, 0x40, 0xde, 0x5d, 0xae, 0x22, 0x23,
     0xb0, 0x03, 0x61, 0xa3, 0x96, 0x17, 0x7a, 0x9c, 0xb4, 0x10, 0xff, 0x61, 0xf2, 0x00, 0x15, 0xad] := by
  decide +kernel

/-! ## The native hash -/

/-- `Sha256` of the crate `sha2`, which is not part of the repository. -/
structure Hasher where
  State : Type
  default : State
  update : State → List UInt8 → State
  finalize : State → List UInt8
  digest : List UInt8 → List UInt8

/-- What the crate documents: the SHA-256 digest of a message, given whole or in pieces. -/
structure Hasher.IsSha256 (hasher : Hasher) : Prop where
  digest_eq (input : List UInt8) : hasher.digest input = sha256 input
  finalize_eq (pieces : List (List UInt8)) :
    hasher.finalize (pieces.foldl hasher.update hasher.default) = sha256 pieces.flatten

namespace Hasher

variable {hasher : Hasher}

/-- `CRHScheme::evaluate`. -/
def evaluate (hasher : Hasher) (input : List UInt8) : Except Error (List UInt8) := pure (hasher.digest input)

/-- `TwoToOneCRHScheme::evaluate`. -/
def twoToOneEvaluate (hasher : Hasher) (leftInput rightInput : List UInt8) : Except Error (List UInt8) :=
  let h := hasher.default
  let h := hasher.update h leftInput
  let h := hasher.update h rightInput
  pure (hasher.finalize h)

/-- `TwoToOneCRHScheme::compress`. -/
def compress (hasher : Hasher) (leftInput rightInput : List UInt8) : Except Error (List UInt8) :=
  hasher.twoToOneEvaluate leftInput rightInput

theorem IsSha256.evaluate_eq (h : hasher.IsSha256) (input : List UInt8) :
    hasher.evaluate input = .ok (sha256 input) := congrArg Except.ok (h.digest_eq input)

theorem IsSha256.twoToOneEvaluate_eq (h : hasher.IsSha256) (leftInput rightInput : List UInt8) :
    hasher.twoToOneEvaluate leftInput rightInput = .ok (sha256 (leftInput ++ rightInput)) := by
  have hpieces := h.finalize_eq [leftInput, rightInput]
  rw [List.flatten_cons, List.flatten_singleton] at hpieces
  exact congrArg Except.ok hpieces

/-- A hasher that buffers the whole message. -/
def buffered : Hasher where
  State := List UInt8
  default := []
  update := (· ++ ·)
  finalize := sha256
  digest := sha256

theorem buffered_isSha256 : buffered.IsSha256 where
  digest_eq _ := rfl
  finalize_eq pieces := by
    have hbuffer (buffer : List UInt8) : pieces.foldl (· ++ ·) buffer = buffer ++ pieces.flatten := by
      induction pieces generalizing buffer with
      | nil => exact (List.append_nil buffer).symm
      | cons piece pieces ih => rw [List.foldl_cons, ih, List.flatten_cons, List.append_assoc]
    exact congrArg sha256 (hbuffer [])

end Hasher

end CryptoPrimitives.Sha256
