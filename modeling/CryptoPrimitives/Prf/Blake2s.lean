import CryptoPrimitives.Crh.Sha256

/-!
# BLAKE2s

The hash function of RFC 7693 without a key, for messages of bytes: what the gadget is
to compute. `dataBlocks_eq`: the message is padded block by block.
-/

namespace CryptoPrimitives.Blake2s

/-- The initialization vector: the first 32 bits of the fractional parts of the square
roots of the first eight primes. -/
def IV : List UInt32 := (Sha256.primes.take 8).map (Sha256.rootConstant 2)

/-- The message schedule of each round. -/
def sigma : List (List Nat) := [
  [0, 1, 2, 3, 4, 5, 6, 7, 8, 9, 10, 11, 12, 13, 14, 15],
  [14, 10, 4, 8, 9, 15, 13, 6, 1, 12, 0, 2, 11, 7, 5, 3],
  [11, 8, 12, 0, 5, 2, 15, 13, 10, 14, 3, 6, 7, 1, 9, 4],
  [7, 9, 3, 1, 13, 12, 11, 14, 2, 6, 5, 10, 4, 0, 15, 8],
  [9, 0, 5, 7, 2, 4, 10, 15, 14, 1, 11, 12, 6, 8, 3, 13],
  [2, 12, 6, 10, 0, 11, 8, 3, 4, 13, 7, 5, 15, 14, 1, 9],
  [12, 5, 1, 15, 14, 13, 4, 10, 0, 7, 6, 3, 9, 2, 8, 11],
  [13, 11, 7, 14, 12, 1, 3, 9, 5, 0, 15, 4, 8, 6, 2, 10],
  [6, 15, 14, 9, 11, 3, 0, 8, 12, 2, 13, 7, 1, 4, 10, 5],
  [10, 2, 8, 4, 7, 6, 1, 5, 15, 11, 9, 14, 3, 12, 13, 0]]

/-- The mixing function `G`, with the rotations of BLAKE2s. -/
def G (v : List UInt32) (a b c d : Nat) (x y : UInt32) : List UInt32 :=
  let v := v.set a (v.getD a 0 + v.getD b 0 + x)
  let v := v.set d (rotateRight (v.getD d 0 ^^^ v.getD a 0) 16)
  let v := v.set c (v.getD c 0 + v.getD d 0)
  let v := v.set b (rotateRight (v.getD b 0 ^^^ v.getD c 0) 12)
  let v := v.set a (v.getD a 0 + v.getD b 0 + y)
  let v := v.set d (rotateRight (v.getD d 0 ^^^ v.getD a 0) 8)
  let v := v.set c (v.getD c 0 + v.getD d 0)
  v.set b (rotateRight (v.getD b 0 ^^^ v.getD c 0) 7)

/-- Round `i` of the compression function, on the words `m` of a block. -/
def round (m v : List UInt32) (i : Nat) : List UInt32 :=
  let s := sigma.getD (i % 10) []
  let word (k : Nat) := m.getD (s.getD k 0) 0
  let v := G v 0 4 8 12 (word 0) (word 1)
  let v := G v 1 5 9 13 (word 2) (word 3)
  let v := G v 2 6 10 14 (word 4) (word 5)
  let v := G v 3 7 11 15 (word 6) (word 7)
  let v := G v 0 5 10 15 (word 8) (word 9)
  let v := G v 1 6 11 12 (word 10) (word 11)
  let v := G v 2 7 8 13 (word 12) (word 13)
  G v 3 4 9 14 (word 14) (word 15)

/-- The local work vector at the beginning of the compression function. -/
def workVector (h : List UInt32) (t : Nat) (f : Bool) : List UInt32 :=
  let v := h ++ IV
  let v := v.set 12 (v.getD 12 0 ^^^ UInt32.ofNat (t % 2 ^ 32))
  let v := v.set 13 (v.getD 13 0 ^^^ UInt32.ofNat (t >>> 32))
  if f then v.set 14 (v.getD 14 0 ^^^ 0xFFFFFFFF) else v

/-- Word `i` of the state xored with those of the two halves of the work vector. -/
def finish (v h : List UInt32) (i : Nat) : List UInt32 :=
  h.set i (h.getD i 0 ^^^ v.getD i 0 ^^^ v.getD (i + 8) 0)

/-- The compression function `F`. -/
def F (h m : List UInt32) (t : Nat) (f : Bool) : List UInt32 :=
  (List.range 8).foldl (finish ((List.range 10).foldl (round m) (workVector h t f))) h

/-- `u32::from_le_bytes`. -/
def wordLe (bytes : List UInt8) : UInt32 := UInt32.ofNat (leNumber bytes)

/-- The number `dd` of data blocks. An empty message has one. -/
def blockCount (len : Nat) : Nat := max 1 ((len + 63) / 64)

/-- The data blocks `d[0..dd-1]`: the words of the message, padded with zeros. -/
def dataBlocks (message : List UInt8) : List (List UInt32) :=
  (chunks 64 (message ++ List.replicate (64 * blockCount message.length - message.length) 0)).map fun block =>
    (chunks 4 block).map wordLe

/-- The state after a message, from the state `h`. -/
def blake2sFrom (h : List UInt32) (message : List UInt8) : List UInt32 :=
  let d := dataBlocks message
  let dd := d.length
  let h := (List.range (dd - 1)).foldl (fun h i => F h (d.getD i []) ((i + 1) * 64) false) h
  F h (d.getD (dd - 1) []) message.length true

/-- Unkeyed BLAKE2s with a digest of `nn` bytes. -/
def blake2s (nn : Nat) (message : List UInt8) : List UInt8 :=
  let h := IV.set 0 (IV.getD 0 0 ^^^ 0x01010000 ^^^ UInt32.ofNat nn)
  ((blake2sFrom h message).flatMap fun word => toLeBytes 4 word.toNat).take nn

/-- BLAKE2s-256. -/
def blake2s256 (message : List UInt8) : List UInt8 := blake2s 32 message

/-- The example of the RFC. -/
example : blake2s256 [0x61, 0x62, 0x63] =
    [0x50, 0x8c, 0x5e, 0x8c, 0x32, 0x7c, 0x14, 0xe2, 0xe1, 0xa7, 0x2b, 0xa3, 0x4e, 0xeb, 0x45, 0x2f,
     0x37, 0x45, 0x8b, 0x20, 0x9e, 0xd6, 0x3a, 0x29, 0x4d, 0x99, 0x9b, 0x4c, 0x86, 0x67, 0x59, 0x82] := by
  decide +kernel

/-! ## The blocks -/

/-- There is a last block, and each has sixteen words. -/
theorem length_dataBlocks (message : List UInt8) :
    (dataBlocks message).length = blockCount message.length ∧ ∀ block ∈ dataBlocks message, block.length = 16 := by
  have hlen : (message ++ List.replicate (64 * blockCount message.length - message.length) 0).length =
      64 * blockCount message.length := by
    rw [List.length_append, List.length_replicate, blockCount]
    omega
  obtain ⟨hcount, hchunks⟩ := chunks_of_length (by omega) hlen
  refine ⟨by rw [dataBlocks, List.length_map, hcount], fun block hblock => ?_⟩
  obtain ⟨bytes, hbytes, rfl⟩ := List.mem_map.mp hblock
  rw [List.length_map, (chunks_of_length (by omega) (show bytes.length = 4 * 16 from hchunks bytes hbytes)).1]

/-- The words of a block of bytes, padded with zeros. -/
def blockWords (block : List UInt8) : List UInt32 :=
  (chunks 4 (block ++ List.replicate (64 - block.length) 0)).map wordLe

theorem blockWords_eq {block : List UInt8} (h : block.length ≤ 64) :
    blockWords block = (chunks 4 block).map wordLe ++ List.replicate (16 - (chunks 4 block).length) 0 := by
  have hzeros (chunk : List UInt8) : wordLe (chunk ++ List.replicate (4 - chunk.length) 0) = wordLe chunk := by
    rw [wordLe, leNumber_append_replicate, wordLe]
  exact chunks_append_replicate (n := 16) (by omega) hzeros h

/-- Each block is padded on its own, and an empty message has a block. -/
theorem dataBlocks_eq (message : List UInt8) :
    dataBlocks message =
      if ((chunks 64 message).map blockWords).isEmpty then [List.replicate 16 0]
      else (chunks 64 message).map blockWords := by
  have hpad (chunk : List UInt8) : blockWords (chunk ++ List.replicate (64 - chunk.length) 0) = blockWords chunk := by
    have hfull : 64 - (chunk ++ List.replicate (64 - chunk.length) (0 : UInt8)).length = 0 := by
      rw [List.length_append, List.length_replicate]
      omega
    rw [blockWords, hfull, List.replicate_zero, List.append_nil, blockWords]
  have hle : message.length ≤ 64 * blockCount message.length := by
    rw [blockCount]
    omega
  have hcount := length_chunks (show 0 < 64 by omega) message
  have hblocks : dataBlocks message =
      (chunks 64 (message ++ List.replicate (64 * blockCount message.length - message.length) 0)).map blockWords := by
    have hlen : (message ++ List.replicate (64 * blockCount message.length - message.length) (0 : UInt8)).length =
        64 * blockCount message.length := by
      rw [List.length_append, List.length_replicate]
      omega
    refine List.map_congr_left fun block hblock => ?_
    rw [blockWords, (chunks_of_length (by omega) hlen).2 block hblock, Nat.sub_self, List.replicate_zero,
      List.append_nil]
  rw [hblocks, chunks_append_replicate (by omega) hpad hle]
  cases hm : chunks 64 message with
  | nil =>
    rw [hm, List.length_nil] at hcount
    rw [show blockCount message.length = 1 by rw [blockCount]; omega]
    show [blockWords []] = [List.replicate 16 0]
    rw [blockWords_eq (show ([] : List UInt8).length ≤ 64 from Nat.zero_le 64)]
    rfl
  | cons block blocks =>
    rw [hm, List.length_cons] at hcount
    rw [List.length_cons, show blockCount message.length - (blocks.length + 1) = 0 by rw [blockCount]; omega]
    exact List.append_nil _

end CryptoPrimitives.Blake2s
