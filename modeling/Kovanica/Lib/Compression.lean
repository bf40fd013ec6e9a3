import Kovanica.Lib.Blake3

/-!
# BLAKE3 in long evaluations

The compression function of `Kovanica.Lib.Blake3` again, for hashes that are evaluated
one out of the other a thousand times.  The state is a record and not a list, and every
word is an arithmetic operation the kernel computes in one step, which is evaluated
where it is first used.  `compress_eq` says that nothing else has changed.
-/

namespace Kovanica.Lib.Blake3

theorem force_eq {α : Type} (n : Nat) (k : Nat → α) : force n k = k n := by
  cases n with
  | zero => rfl
  | succ n => rfl

/-! ## The rounds -/

/-- Wrapping addition. -/
def plus (a b : Nat) : Nat := (a.add b).mod 4294967296

/-- Rotation by `n` to the right, which is by `m` to the left. -/
def turn (x n m : Nat) : Nat := ((x.shiftRight n).lor (x.shiftLeft m)).mod 4294967296

/-- The quarter round. -/
def quarter {α : Type} (a b c d x y : Nat) (k : Nat → Nat → Nat → Nat → α) : α :=
  let a := plus (a.add b) x
  let d := turn (d.xor a) 16 16
  let c := plus c d
  let b := turn (b.xor c) 12 20
  let a := plus (a.add b) y
  let d := turn (d.xor a) 8 24
  let c := plus c d
  let b := turn (b.xor c) 7 25
  k a b c d

/-- Sixteen words: a state, by its four rows, or a message. -/
structure Words where
  (a0 a1 a2 a3 b0 b1 b2 b3 c0 c1 c2 c3 d0 d1 d2 d3 : Nat)

namespace Words

def toList (w : Words) : List Nat :=
  [w.a0, w.a1, w.a2, w.a3, w.b0, w.b1, w.b2, w.b3, w.c0, w.c1, w.c2, w.c3, w.d0, w.d1, w.d2, w.d3]

/-- The columns, and then the diagonals. -/
def round (s m : Words) : Words :=
  quarter s.a0 s.b0 s.c0 s.d0 m.a0 m.a1 fun a0 b0 c0 d0 =>
  quarter s.a1 s.b1 s.c1 s.d1 m.a2 m.a3 fun a1 b1 c1 d1 =>
  quarter s.a2 s.b2 s.c2 s.d2 m.b0 m.b1 fun a2 b2 c2 d2 =>
  quarter s.a3 s.b3 s.c3 s.d3 m.b2 m.b3 fun a3 b3 c3 d3 =>
  quarter a0 b1 c2 d3 m.c0 m.c1 fun a0 b1 c2 d3 =>
  quarter a1 b2 c3 d0 m.c2 m.c3 fun a1 b2 c3 d0 =>
  quarter a2 b3 c0 d1 m.d0 m.d1 fun a2 b3 c0 d1 =>
  quarter a3 b0 c1 d2 m.d2 m.d3 fun a3 b0 c1 d2 =>
  ⟨a0, a1, a2, a3, b0, b1, b2, b3, c0, c1, c2, c3, d0, d1, d2, d3⟩

/-- The message of the next round. -/
def permute (m : Words) : Words :=
  ⟨m.a2, m.b2, m.a3, m.c2, m.b3, m.a0, m.b0, m.d1, m.a1, m.c3, m.d0, m.b1, m.c1, m.d2, m.d3, m.c0⟩

/-- `n` rounds. -/
def rounds : Nat → Words → Words → Words
  | 0, s, _ => s
  | n + 1, s, m => rounds n (s.round m) m.permute

end Words

theorem mix_eq {α : Type} (a b c d x y : Nat) (k : Nat → Nat → Nat → Nat → α) :
    mix a b c d x y k = quarter a b c d x y k := by
  simp only [mix, force_eq]
  rfl

theorem rounds_toList (n : Nat) (s m : Words) :
    rounds n s.toList m.toList = (Words.rounds n s m).toList := by
  induction n generalizing s m with
  | zero => rfl
  | succ n ih =>
      rw [Words.rounds, ← ih]
      show rounds (n + 1) [_, _, _, _, _, _, _, _, _, _, _, _, _, _, _, _]
        [_, _, _, _, _, _, _, _, _, _, _, _, _, _, _, _] = _
      simp only [rounds, mix_eq]
      rfl

/-! ## Chaining values -/

/-- A chaining value, or a hash. -/
structure Chain where
  (h0 h1 h2 h3 h4 h5 h6 h7 : Nat)
deriving DecidableEq

namespace Chain

def toList (c : Chain) : List Nat := [c.h0, c.h1, c.h2, c.h3, c.h4, c.h5, c.h6, c.h7]

/-- The initial one. -/
def initial : Chain :=
  ⟨0x6A09E667, 0xBB67AE85, 0x3C6EF372, 0xA54FF53A, 0x510E527F, 0x9B05688C, 0x1F83D9AB, 0x5BE0CD19⟩

/-- The bytes of its words. -/
def bytes (c : Chain) : Bytes 32 := ⟨c.toList.flatMap (toLeBytes 4), by simp [toList]⟩

/-- All of its words are words. -/
def Fits (c : Chain) : Prop := ∀ w ∈ c.toList, w < 2 ^ 32

instance (c : Chain) : Decidable c.Fits :=
  inferInstanceAs (Decidable (∀ w ∈ c.toList, w < 2 ^ 32))

end Chain

/-- The two halves of a state together, evaluated. -/
def Words.output (s : Words) : Chain :=
  force (s.a0.xor s.c0) fun h0 =>
  force (s.a1.xor s.c1) fun h1 =>
  force (s.a2.xor s.c2) fun h2 =>
  force (s.a3.xor s.c3) fun h3 =>
  force (s.b0.xor s.d0) fun h4 =>
  force (s.b1.xor s.d1) fun h5 =>
  force (s.b2.xor s.d2) fun h6 =>
  force (s.b3.xor s.d3) fun h7 => ⟨h0, h1, h2, h3, h4, h5, h6, h7⟩

/-- The state a block is compressed in. -/
def Chain.state (c : Chain) (len flags : Nat) : Words :=
  ⟨c.h0, c.h1, c.h2, c.h3, c.h4, c.h5, c.h6, c.h7, 0x6A09E667, 0xBB67AE85, 0x3C6EF372, 0xA54FF53A,
    0, 0, len, flags⟩

/-- `compress`. -/
def Chain.compress (c : Chain) (m : Words) (len flags : Nat) : Chain :=
  (Words.rounds 7 (c.state len flags) m).output

theorem compress_eq (c : Chain) (m : Words) (len flags : Nat) :
    Blake3.compress c.toList m.toList len flags = (c.compress m len flags).toList := by
  have hstate : c.toList ++ iv.take 4 ++ [0, 0, len, flags] = (c.state len flags).toList := rfl
  rw [Blake3.compress, hstate, rounds_toList, Chain.compress, Words.output]
  simp only [force_eq]
  rfl

/-! ### Bounds -/

theorem plus_lt (a b : Nat) : plus a b < 2 ^ 32 := Nat.mod_lt _ (by decide)

theorem turn_lt (x n m : Nat) : turn x n m < 2 ^ 32 := Nat.mod_lt _ (by decide)

/-- A round leaves words only. -/
theorem Words.round_lt (s m : Words) : ∀ w ∈ (s.round m).toList, w < 2 ^ 32 := by
  simp only [Words.round, quarter, Words.toList, List.forall_mem_cons, plus_lt, turn_lt, true_and]
  exact fun w hw => absurd hw List.not_mem_nil

theorem Words.rounds_lt (n : Nat) (s m : Words) :
    ∀ w ∈ (Words.rounds (n + 1) s m).toList, w < 2 ^ 32 := by
  induction n generalizing s m with
  | zero => exact s.round_lt m
  | succ n ih => exact ih (s.round m) m.permute

theorem Words.fits_output {s : Words} (h : ∀ w ∈ s.toList, w < 2 ^ 32) : s.output.Fits := by
  simp only [Words.toList, List.forall_mem_cons] at h
  obtain ⟨ha0, ha1, ha2, ha3, hb0, hb1, hb2, hb3, hc0, hc1, hc2, hc3, hd0, hd1, hd2, hd3, _⟩ := h
  simp only [Words.output, force_eq, Chain.Fits, Chain.toList, List.forall_mem_cons]
  exact ⟨Nat.xor_lt_two_pow ha0 hc0, Nat.xor_lt_two_pow ha1 hc1, Nat.xor_lt_two_pow ha2 hc2,
    Nat.xor_lt_two_pow ha3 hc3, Nat.xor_lt_two_pow hb0 hd0, Nat.xor_lt_two_pow hb1 hd1,
    Nat.xor_lt_two_pow hb2 hd2, Nat.xor_lt_two_pow hb3 hd3, fun w hw => absurd hw List.not_mem_nil⟩

theorem fits_compress (c : Chain) (m : Words) (len flags : Nat) :
    (c.compress m len flags).Fits :=
  Words.fits_output (Words.rounds_lt 6 (c.state len flags) m)

/-! ## Hashing words -/

theorem blockWords_nil (n : Nat) : blockWords n [] = List.replicate n 0 := by
  induction n with
  | zero => rfl
  | succ n ih =>
      rw [blockWords, force_eq, ih]
      · rfl
      · intros
        simp_all

/-- Words come back from their bytes. -/
theorem blockWords_flatMap {words : List Nat} (h : ∀ w ∈ words, w < 2 ^ 32) (n : Nat)
    (rest : List U8) : blockWords (words.length + n) (words.flatMap (toLeBytes 4) ++ rest) =
      words ++ blockWords n rest := by
  induction words with
  | nil => rw [List.length_nil, Nat.zero_add]; rfl
  | cons w words ih =>
      have hword : ofLeBytes (toLeBytes 4 w) = w :=
        ofLeBytes_toLeBytes 4 w (h w (List.mem_cons_self ..))
      have hrest := ih fun w' hw' => h w' (List.mem_cons_of_mem _ hw')
      have hcount : (w :: words).length + n = words.length + n + 1 := by
        rw [List.length_cons]
        omega
      rw [hcount, List.flatMap_cons, List.append_assoc, List.cons_append, ← hrest]
      show force (ofLeBytes (toLeBytes 4 w)) _ = _
      rw [force_eq, hword]
      rfl

/-- The message of a block of at most sixteen words. -/
theorem blockWords_eq {words : List Nat} (h : ∀ w ∈ words, w < 2 ^ 32)
    (hlen : words.length ≤ 16) : blockWords 16 (words.flatMap (toLeBytes 4)) =
      words ++ List.replicate (16 - words.length) 0 := by
  have hwords := blockWords_flatMap h (16 - words.length) []
  rwa [List.append_nil, blockWords_nil, Nat.add_sub_cancel' hlen] at hwords

theorem length_flatMap_toLeBytes (words : List Nat) :
    (words.flatMap (toLeBytes 4)).length = 4 * words.length := by
  induction words with
  | nil => rfl
  | cons w words ih =>
      rw [List.flatMap_cons, List.length_append, length_toLeBytes, ih, List.length_cons]
      omega

/-- The hash of two blocks, the second one padded. -/
theorem hash_words (first : Words) {second : List Nat} {last : Words}
    (hfirst : ∀ w ∈ first.toList, w < 2 ^ 32) (hsecond : ∀ w ∈ second, w < 2 ^ 32)
    (hpos : second ≠ []) (hlen : second.length ≤ 16)
    (hlast : second ++ List.replicate (16 - second.length) 0 = last.toList) :
    Blake3.hash ((first.toList ++ second).flatMap (toLeBytes 4)) =
      ((Chain.initial.compress first 64 1).compress last (4 * second.length) 10).bytes := by
  have hfirstLength : (first.toList.flatMap (toLeBytes 4)).length = 64 := by
    rw [length_flatMap_toLeBytes]
    rfl
  have hsecondLength := length_flatMap_toLeBytes second
  have hsecondPos : 0 < second.length := List.length_pos_iff.2 hpos
  have hwords : blockWords 16 (first.toList.flatMap (toLeBytes 4) ++
      second.flatMap (toLeBytes 4)) = first.toList := by
    have hall := blockWords_flatMap hfirst 0 (second.flatMap (toLeBytes 4))
    rwa [blockWords, List.append_nil] at hall
  have hdrop : (first.toList.flatMap (toLeBytes 4) ++ second.flatMap (toLeBytes 4)).drop 64 =
      second.flatMap (toLeBytes 4) := by
    rw [← hfirstLength, List.drop_left]
  have hfirstChunk : ¬ (first.toList.flatMap (toLeBytes 4) ++
      second.flatMap (toLeBytes 4)).length ≤ 64 := by
    rw [List.length_append, hfirstLength, hsecondLength]
    omega
  have hsecondChunk : (second.flatMap (toLeBytes 4)).length ≤ 64 := by
    rw [hsecondLength]
    omega
  have hchunk : chunk 16 iv ((first.toList ++ second).flatMap (toLeBytes 4)) 1 =
      ((Chain.initial.compress first 64 1).compress last (4 * second.length) 10).toList := by
    rw [List.flatMap_append, chunk, if_neg hfirstChunk, hwords, hdrop, chunk,
      if_pos hsecondChunk, blockWords_eq hsecond hlen, hlast, hsecondLength]
    have hiv : iv = Chain.initial.toList := rfl
    have hflags : 0 ||| 10 = 10 := rfl
    rw [hiv, compress_eq, compress_eq, hflags]
  apply Subtype.ext
  show ((chunk 16 iv _ 1).flatMap (toLeBytes 4) ++ List.replicate 32 0).take 32 = _
  rw [hchunk]
  exact List.take_left' (length_flatMap_toLeBytes _)

end Kovanica.Lib.Blake3
