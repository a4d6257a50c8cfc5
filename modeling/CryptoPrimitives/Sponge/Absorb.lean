import CryptoPrimitives.Framework.PrefixCode
import CryptoPrimitives.Rust.Collections
import CryptoPrimitives.Rust.Outcome
import CryptoPrimitives.Rust.PrimeField
import CryptoPrimitives.Rust.Uint
import Mathlib.Data.UInt
import Mathlib.Tactic.NormNum.Prime

/-!
# What a sponge absorbs for byte strings

The encodings of byte strings in `sponge/absorb.rs`, as bytes and as field elements, and
the elements that `fork` absorbs.

* `exists_expand_chunks`: the elements that bytes are packed into expand to the bytes, and
  zeros behind them;
* `separates_encodings`: lists of byte strings, encoded one after another, differ when the
  lists do.
-/

namespace CryptoPrimitives.Sponge

open PrimeField (modulusBitSize fromLeBytesModOrder)

/-- A `String` or a `Vec<u8>`. No allocation has more than `isize::MAX` bytes. -/
@[ext]
structure ByteString where
  bytes : List UInt8
  length_lt : bytes.length < 2 ^ 63

/-- `[u8]::to_field_elements`. -/
def toFieldElements (p : Nat) (bytes : List UInt8) : Outcome (List (ZMod p)) :=
  let maxSize := (modulusBitSize p - 1) / 8
  if maxSize = 0 then raise (.panic (.explicit "chunk size must be non-zero"))
  else pure ((chunks maxSize bytes).map (fromLeBytesModOrder p))

namespace Absorb

/-- `usize::to_sponge_bytes`. -/
def usizeToSpongeBytes (n : Nat) : List UInt8 := toLeBytes 8 n

/-- `usize::to_sponge_field_elements`. -/
def usizeToSpongeFieldElements (p n : Nat) : List (ZMod p) := [(n % 2 ^ 64 : Nat)]

/-- `u8::batch_to_sponge_field_elements`. -/
def batchToSpongeFieldElements (p : Nat) (batch : List UInt8) : Outcome (List (ZMod p)) :=
  toFieldElements p (toLeBytes 8 batch.length ++ batch)

/-- `String::to_sponge_bytes`. -/
def stringToSpongeBytes (self : ByteString) : List UInt8 :=
  usizeToSpongeBytes self.bytes.length ++ self.bytes

/-- `String::to_sponge_field_elements`. -/
def stringToSpongeFieldElements (p : Nat) (self : ByteString) : Outcome (List (ZMod p)) :=
  batchToSpongeFieldElements p self.bytes

/-- `to_sponge_bytes_with_length` of a `Vec<u8>`. -/
def vecToSpongeBytesWithLength (self : ByteString) : List UInt8 :=
  usizeToSpongeBytes self.bytes.length ++ self.bytes

/-- `to_sponge_field_elements_with_length` of a `Vec<u8>`. -/
def vecToSpongeFieldElementsWithLength (p : Nat) (self : ByteString) : Outcome (List (ZMod p)) := do
  let elements ← batchToSpongeFieldElements p self.bytes
  pure (usizeToSpongeFieldElements p self.bytes.length ++ elements)

/-- The elements that `CryptographicSponge::fork` absorbs. -/
def forkElements (p : Nat) (domain : List UInt8) : Outcome (List (ZMod p)) :=
  batchToSpongeFieldElements p (usizeToSpongeBytes domain.length ++ domain)

/-- The encodings of a list, one after another. -/
def encodeAll {β : Type} (enc : ByteString → Outcome (List β)) (xs : List ByteString) : Outcome (List β) := do
  let codes ← xs.mapM enc
  pure codes.flatten

/-- Each list has an encoding, which no other list has. -/
def Separates {β : Type} (enc : ByteString → Outcome (List β)) : Prop :=
  ∀ xs, ∃ code, encodeAll enc xs = .ok code ∧ ∀ ys, encodeAll enc ys = .ok code → ys = xs

theorem separates_of_selfDelimiting {β : Type} {enc : ByteString → Outcome (List β)} {code : ByteString → List β}
    (henc : ∀ x, enc x = .ok (code x)) (h : SelfDelimiting code) : Separates enc := by
  have hall (xs : List ByteString) : encodeAll enc xs = .ok (xs.flatMap code) := by
    rw [encodeAll, Except.mapM_eq_map fun x _ => henc x]
    rfl
  refine fun xs => ⟨_, hall xs, fun ys hys => h.flatMap_injective ?_⟩
  rw [hall] at hys
  exact Except.ok.inj hys

end Absorb

/-! ## Packing -/

section

variable {p : Nat}

/-- The most bytes that go into an element. -/
abbrev maxSize (p : Nat) : Nat := (modulusBitSize p - 1) / 8

variable [Fact p.Prime]

theorem val_fromLeBytesModOrder {chunk : List UInt8} (h : chunk.length ≤ maxSize p) :
    (fromLeBytesModOrder p chunk).val = leNumber chunk := by
  refine ZMod.val_natCast_of_lt ?_
  calc leNumber chunk < 256 ^ chunk.length := leNumber_lt chunk
    _ ≤ 256 ^ maxSize p := Nat.pow_le_pow_right (by decide) h
    _ = 2 ^ (8 * maxSize p) := by rw [pow_mul]; rfl
    _ ≤ 2 ^ (modulusBitSize p - 1) := Nat.pow_le_pow_right Nat.two_pos (Nat.mul_div_le _ 8)
    _ ≤ p := PrimeField.two_pow_le (Fact.out : p.Prime).ne_zero

/-- The bytes of the elements that bytes are packed into are the bytes, and zeros behind
them. -/
theorem exists_expand_chunks (h : 0 < maxSize p) (bytes : List UInt8) :
    ∃ n, ((chunks (maxSize p) bytes).map (fromLeBytesModOrder p)).flatMap (fun x => toLeBytes (maxSize p) x.val) =
      bytes ++ List.replicate n 0 := by
  induction bytes using chunks_induction h with
  | nil => exact ⟨0, rfl⟩
  | cons bytes hnil ih =>
    have hchunk : (bytes.take (maxSize p)).length ≤ maxSize p := List.length_take_le ..
    obtain ⟨n, hn⟩ := ih
    rw [chunks_eq h hnil, List.map_cons, List.flatMap_cons, hn, val_fromLeBytesModOrder hchunk,
      toLeBytes_leNumber hchunk]
    by_cases hle : maxSize p ≤ bytes.length
    · refine ⟨n, ?_⟩
      rw [List.length_take_of_le hle, Nat.sub_self, List.replicate_zero, List.append_nil, ← List.append_assoc,
        List.take_append_drop]
    · -- the last chunk
      refine ⟨maxSize p - bytes.length + n, ?_⟩
      rw [List.take_of_length_le (by omega), List.drop_of_length_le (by omega), List.nil_append,
        List.append_assoc, List.replicate_append_replicate]

end

/-! ## The encodings -/

namespace Absorb

theorem ByteString.toLeBytes_length_inj {x y : ByteString}
    (h : toLeBytes 8 x.bytes.length = toLeBytes 8 y.bytes.length) : x.bytes.length = y.bytes.length := by
  have hx := x.length_lt
  have hy := y.length_lt
  exact toLeBytes_inj (by omega) (by omega) h

theorem selfDelimiting_stringToSpongeBytes : SelfDelimiting stringToSpongeBytes :=
  selfDelimiting_header (toLeBytes 8) ByteString.bytes (by decide) (length_toLeBytes 8)
    (fun _ _ => ByteString.toLeBytes_length_inj) fun _ _ => ByteString.ext

theorem selfDelimiting_vecToSpongeBytesWithLength : SelfDelimiting vecToSpongeBytesWithLength :=
  selfDelimiting_stringToSpongeBytes

section

variable {p : Nat} [Fact p.Prime]

/-- The elements that bytes are packed into. -/
def packed (p : Nat) (bytes : List UInt8) : List (ZMod p) :=
  (chunks (maxSize p) bytes).map (fromLeBytesModOrder p)

theorem selfDelimiting_packed (h : 0 < maxSize p) {code : ByteString → List UInt8} (hcode : SelfDelimiting code) :
    SelfDelimiting fun x => packed p (code x) :=
  hcode.of_flatMap fun x => by
    obtain ⟨n, hn⟩ := exists_expand_chunks h (code x)
    exact ⟨_, hn⟩

omit [Fact p.Prime] in
theorem toFieldElements_eq (h : 0 < maxSize p) (bytes : List UInt8) :
    toFieldElements p bytes = .ok (packed p bytes) := if_neg (Nat.ne_of_gt h)

omit [Fact p.Prime] in
theorem maxSize_pos (h : 9 ≤ modulusBitSize p) : 0 < maxSize p := Nat.div_pos (by omega) (by decide)

theorem separates_stringToSpongeFieldElements (h : 9 ≤ modulusBitSize p) :
    Separates (stringToSpongeFieldElements p) :=
  separates_of_selfDelimiting (fun _ => toFieldElements_eq (maxSize_pos h) _)
    (selfDelimiting_packed (maxSize_pos h) selfDelimiting_stringToSpongeBytes)

theorem separates_vecToSpongeFieldElementsWithLength (h : 9 ≤ modulusBitSize p) :
    Separates (vecToSpongeFieldElementsWithLength p) := by
  refine separates_of_selfDelimiting (fun x => ?_)
    ((selfDelimiting_packed (maxSize_pos h) selfDelimiting_stringToSpongeBytes).prepend
      (fun x => usizeToSpongeFieldElements p x.bytes.length) fun _ => rfl)
  rw [vecToSpongeFieldElementsWithLength, batchToSpongeFieldElements, toFieldElements_eq (maxSize_pos h)]
  rfl

theorem forkElements_ne (h : 9 ≤ modulusBitSize p) {d₁ d₂ : ByteString} (hne : d₁ ≠ d₂) :
    ∃ e₁ e₂, forkElements p d₁.bytes = .ok e₁ ∧ forkElements p d₂.bytes = .ok e₂ ∧ e₁ ≠ e₂ := by
  have hcode := selfDelimiting_stringToSpongeBytes.prepend
    (fun x => toLeBytes 8 (stringToSpongeBytes x).length) fun _ => length_toLeBytes 8 _
  exact ⟨_, _, toFieldElements_eq (maxSize_pos h) _, toFieldElements_eq (maxSize_pos h) _,
    fun heq => hne ((selfDelimiting_packed (maxSize_pos h) hcode).injective heq)⟩

/-- Lists of byte strings have different encodings, in each way to encode them, and forks
under different domains absorb different elements. -/
theorem separates_encodings (h : 9 ≤ modulusBitSize p) :
    Separates (fun x => pure (stringToSpongeBytes x)) ∧
    Separates (fun x => pure (vecToSpongeBytesWithLength x)) ∧
    Separates (stringToSpongeFieldElements p) ∧
    Separates (vecToSpongeFieldElementsWithLength p) ∧
    ∀ d₁ d₂ : ByteString, d₁ ≠ d₂ →
      ∃ e₁ e₂, forkElements p d₁.bytes = .ok e₁ ∧ forkElements p d₂.bytes = .ok e₂ ∧ e₁ ≠ e₂ :=
  ⟨separates_of_selfDelimiting (fun _ => rfl) selfDelimiting_stringToSpongeBytes,
    separates_of_selfDelimiting (fun _ => rfl) selfDelimiting_vecToSpongeBytesWithLength,
    separates_stringToSpongeFieldElements h, separates_vecToSpongeFieldElementsWithLength h,
    fun _ _ => forkElements_ne h⟩

end

/-- One byte goes into an element of this field. -/
theorem separates_encodings_nine : Separates (stringToSpongeFieldElements 257) ∧
    Separates (vecToSpongeFieldElementsWithLength 257) ∧
    ∃ e₁ e₂, forkElements 257 [0] = .ok e₁ ∧ forkElements 257 [0, 0] = .ok e₂ ∧ e₁ ≠ e₂ := by
  have hsize : 9 ≤ modulusBitSize 257 := by decide +kernel
  have h257 : Fact (Nat.Prime 257) := ⟨by norm_num⟩
  obtain ⟨-, -, hstring, hvec, hfork⟩ := separates_encodings hsize
  refine ⟨hstring, hvec, hfork ⟨[0], by decide⟩ ⟨[0, 0], by decide⟩ fun h => ?_⟩
  exact absurd (congrArg ByteString.bytes h) (by decide)

end Absorb

end CryptoPrimitives.Sponge
