import Kovanica.Lib.Word

/-!
# BLAKE3

The hash of an input of at most one chunk, 1024 bytes, which is all the
development evaluates: the blocks of the chunk are compressed in turn, the last
one as the root.  Words are natural numbers below `2 ^ 32`, and every one is
evaluated before it is used, so that the kernel can run the rounds.
-/

namespace Kovanica.Lib.Blake3

/-- `k n`, with `n` evaluated first. -/
def force {α : Type} (n : Nat) (k : Nat → α) : α := Nat.rec (k 0) (fun m _ => k (m + 1)) n

/-- Wrapping addition of 32-bit words. -/
def add (a b : Nat) : Nat := (a + b) % 2 ^ 32

/-- Rotation to the right. -/
def rotr (x n : Nat) : Nat := (x >>> n ||| x <<< (32 - n)) % 2 ^ 32

/-- The initial chaining value. -/
def iv : List Nat :=
  [0x6A09E667, 0xBB67AE85, 0x3C6EF372, 0xA54FF53A, 0x510E527F, 0x9B05688C, 0x1F83D9AB, 0x5BE0CD19]

/-- The quarter round, with two message words. -/
def mix {α : Type} (a b c d x y : Nat) (k : Nat → Nat → Nat → Nat → α) : α :=
  force (add (a + b) x) fun a =>
  force (rotr (d ^^^ a) 16) fun d =>
  force (add c d) fun c =>
  force (rotr (b ^^^ c) 12) fun b =>
  force (add (a + b) y) fun a =>
  force (rotr (d ^^^ a) 8) fun d =>
  force (add c d) fun c =>
  force (rotr (b ^^^ c) 7) fun b => k a b c d

/-- The rounds: the columns and then the diagonals of the state, and the message
words permuted for the next one. -/
def rounds : Nat → List Nat → List Nat → List Nat
  | n + 1, [a0, a1, a2, a3, b0, b1, b2, b3, c0, c1, c2, c3, d0, d1, d2, d3],
      [m0, m1, m2, m3, m4, m5, m6, m7, m8, m9, m10, m11, m12, m13, m14, m15] =>
      mix a0 b0 c0 d0 m0 m1 fun a0 b0 c0 d0 =>
      mix a1 b1 c1 d1 m2 m3 fun a1 b1 c1 d1 =>
      mix a2 b2 c2 d2 m4 m5 fun a2 b2 c2 d2 =>
      mix a3 b3 c3 d3 m6 m7 fun a3 b3 c3 d3 =>
      mix a0 b1 c2 d3 m8 m9 fun a0 b1 c2 d3 =>
      mix a1 b2 c3 d0 m10 m11 fun a1 b2 c3 d0 =>
      mix a2 b3 c0 d1 m12 m13 fun a2 b3 c0 d1 =>
      mix a3 b0 c1 d2 m14 m15 fun a3 b0 c1 d2 =>
      rounds n [a0, a1, a2, a3, b0, b1, b2, b3, c0, c1, c2, c3, d0, d1, d2, d3]
        [m2, m6, m3, m10, m7, m0, m4, m13, m1, m11, m12, m5, m9, m14, m15, m8]
  | _, state, _ => state

/-- Compress one block of `len` bytes: the next chaining value.  The chunk counter
is zero. -/
def compress (chain words : List Nat) (len flags : Nat) : List Nat :=
  let state := rounds 7 (chain ++ iv.take 4 ++ [0, 0, len, flags]) words
  (state.take 8).zipWith (· ^^^ ·) (state.drop 8)

/-- The words of a block, padded with zeros. -/
def blockWords : Nat → List U8 → List Nat
  | 0, _ => []
  | n + 1, a :: b :: c :: d :: rest =>
      force (ofLeBytes [a, b, c, d]) fun w => w :: blockWords n rest
  | n + 1, rest => force (ofLeBytes rest) fun w => w :: blockWords n []

/-- The blocks of a chunk, the first with the flags `start`; the last one has the
flags for the end of a chunk and for the root. -/
def chunk : (fuel : Nat) → (chain : List Nat) → List U8 → (start : Nat) → List Nat
  | 0, chain, _, _ => chain
  | fuel + 1, chain, bytes, start =>
      if bytes.length ≤ 64 then
        compress chain (blockWords 16 bytes) bytes.length (start ||| 10)
      else chunk fuel (compress chain (blockWords 16 bytes) 64 start) (bytes.drop 64) 0

/-- The hash of at most 1024 bytes. -/
def hash (bytes : List U8) : Bytes 32 :=
  ⟨((chunk 16 iv bytes 1).flatMap (toLeBytes 4) ++ List.replicate 32 0).take 32, by simp⟩

example : (hash [97, 98, 99]).val.take 8 = [0x64, 0x37, 0xb3, 0xac, 0x38, 0x46, 0x51, 0x33] := by
  decide +kernel

end Kovanica.Lib.Blake3
