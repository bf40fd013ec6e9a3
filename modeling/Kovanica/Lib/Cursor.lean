import Kovanica.Lib.Codec

/-!
# Readers over a buffer and a position

The readers of the code keep the whole buffer and a position in it.  Here a
slice outside the buffer, or a subtraction below zero, is a failure of its own
kind.  `Follows c r` says that `c` does on the buffer what `r` does on the
bytes still unread, so that a decoder built by the rules below never leaves its
buffer.

## Main results

* `Follows.decodeAll_eq`: over the buffer and over the list a decoder returns the same.
* `Follows.decodeAll_ne_outOfRange`: it never slices outside of its buffer.
-/

namespace Kovanica.Lib

/-- How a read over a buffer fails: with the decoder's error, or out of range.  The second stands
for the panic of a slice, and the theorems say that it never comes. -/
inductive ReadFailure (ε : Type) where
  | error (e : ε)
  | outOfRange
deriving DecidableEq

/-- A decoder over a buffer and a position; it returns the new position.  This is how the readers
of the code are written. -/
abbrev Cursor (ε α : Type) : Type := Vec U8 → Nat → Except (ReadFailure ε) (α × Nat)

namespace Cursor

variable {ε α β : Type}

def pure (a : α) : Cursor ε α := fun _ pos => .ok (a, pos)

def bind (c : Cursor ε α) (f : α → Cursor ε β) : Cursor ε β := fun buf pos =>
  match c buf pos with
  | .error e => .error e
  | .ok (a, pos') => f a buf pos'

instance : Monad (Cursor ε) where
  pure := Cursor.pure
  bind := Cursor.bind

def fail (e : ε) : Cursor ε α := fun _ _ => .error (.error e)

/-- `self.buf.len() - self.pos`. -/
def remaining : Cursor ε Nat := fun buf pos =>
  if pos ≤ buf.val.length then .ok (buf.val.length - pos, pos) else .error .outOfRange

/-- `self.buf[self.pos..self.pos + n]`, and the position moved past it. -/
def slice (n : Nat) : Cursor ε (Bytes n) := fun buf pos =>
  if h : pos + n ≤ buf.val.length then
    .ok (⟨(buf.val.drop pos).take n, by rw [List.length_take, List.length_drop]; omega⟩, pos + n)
  else .error .outOfRange

/-- `read_array::<n>()`. -/
def readArray (eof : ε) (n : Nat) : Cursor ε (Bytes n) :=
  remaining >>= fun left => if left < n then fail eof else slice n

/-- `read_slice(len)`. -/
def readSlice (eof : ε) (len : Nat) : Cursor ε (List U8) :=
  readArray eof len >>= fun bytes => Pure.pure bytes.val

/-- A little-endian word of `n` bytes. -/
def readWord (eof : ε) (n w : Nat) : Cursor ε (Word w) :=
  readArray eof n >>= fun bytes => Pure.pure (Word.cast w (ofLeBytes bytes.val))

/-- `read_count(min)`. -/
def readCount (eof : ε) (min : Nat) : Cursor ε Nat :=
  readWord eof 8 64 >>= fun n => remaining >>= fun left =>
    if 0 < min ∧ left / min < n.val then fail eof else Pure.pure n.val

/-- `count` values read one after another. -/
def readMany (c : Cursor ε α) : Nat → Cursor ε (List α)
  | 0 => Pure.pure []
  | count + 1 => c >>= fun a => readMany c count >>= fun rest => Pure.pure (a :: rest)

/-- What was read under a 64-bit count, as a vector. -/
def toVec (eof : ε) (items : List α) : Cursor ε (Vec α) :=
  match Vec.ofList? items with
  | some items => Pure.pure items
  | none => fail eof

/-- Nothing may follow what `c` reads. -/
def toEnd (trailing : ε) (c : Cursor ε α) : Cursor ε α :=
  c >>= fun a => remaining >>= fun left => if left ≠ 0 then fail trailing else Pure.pure a

/-- Decode a whole buffer, from its first byte on. -/
def decodeAll (trailing : ε) (c : Cursor ε α) (buf : Vec U8) : Except (ReadFailure ε) α :=
  match toEnd trailing c buf 0 with
  | .error e => .error e
  | .ok (a, _) => .ok a

/-! ## Staying inside the buffer -/

/-- From every position inside the buffer, `c` fails where `r` fails on the bytes
from there on, and otherwise reads the same value and stops where `r` stops. -/
structure Follows (c : Cursor ε α) (r : Reader ε α) : Prop where
  error : ∀ (buf : Vec U8) pos e, pos ≤ buf.val.length → r (buf.val.drop pos) = .error e →
    c buf pos = .error (.error e)
  ok : ∀ (buf : Vec U8) pos a rest, pos ≤ buf.val.length →
    r (buf.val.drop pos) = .ok (a, rest) →
    ∃ pos', pos' ≤ buf.val.length ∧ rest = buf.val.drop pos' ∧ c buf pos = .ok (a, pos')

theorem bind_of_ok {c : Cursor ε α} {f : α → Cursor ε β} {buf : Vec U8} {pos pos' : Nat} {a : α}
    (h : c buf pos = .ok (a, pos')) : (c >>= f) buf pos = f a buf pos' := by
  show Cursor.bind c f buf pos = f a buf pos'
  rw [Cursor.bind, h]

theorem bind_of_error {c : Cursor ε α} {f : α → Cursor ε β} {buf : Vec U8} {pos : Nat}
    {e : ReadFailure ε} (h : c buf pos = .error e) : (c >>= f) buf pos = .error e := by
  show Cursor.bind c f buf pos = .error e
  rw [Cursor.bind, h]

theorem remaining_of_le {buf : Vec U8} {pos : Nat} (h : pos ≤ buf.val.length) :
    remaining (ε := ε) buf pos = .ok (buf.val.length - pos, pos) := if_pos h

theorem Follows.pure (a : α) : Follows (Pure.pure a : Cursor ε α) (Pure.pure a) where
  error := fun _ _ _ _ h => by cases h
  ok := by
    intro buf pos b rest hpos h
    obtain ⟨rfl, rfl⟩ := Reader.pure_eq_ok.1 h
    exact ⟨pos, hpos, rfl, rfl⟩

theorem Follows.fail (e : ε) : Follows (Cursor.fail e : Cursor ε α) (Reader.fail e) where
  error := by
    intro buf pos e' _ h
    rw [← Except.error.inj h]
    rfl
  ok := fun _ _ _ _ _ h => by cases h

theorem follows_toVec (eof : ε) (items : List α) :
    Follows (toVec eof items) (Reader.toVec eof items) := by
  unfold toVec Reader.toVec
  cases Vec.ofList? items with
  | none => exact .fail eof
  | some items => exact .pure items

theorem Follows.bind {c : Cursor ε α} {r : Reader ε α} {f : α → Cursor ε β}
    {g : α → Reader ε β} (hc : Follows c r) (hf : ∀ a, Follows (f a) (g a)) :
    Follows (c >>= f) (r >>= g) where
  error := by
    intro buf pos e hpos h
    cases hr : r (buf.val.drop pos) with
    | error e' =>
        have he : (r >>= g) (buf.val.drop pos) = .error e' := by
          show Reader.bind r g (buf.val.drop pos) = .error e'
          rw [Reader.bind, hr]
        rw [he] at h
        rw [bind_of_error (hc.error buf pos e' hpos hr), Except.error.inj h]
    | ok out =>
        obtain ⟨a, rest⟩ := out
        obtain ⟨pos', hpos', rfl, hread⟩ := hc.ok buf pos a rest hpos hr
        rw [Reader.bind_ok hr] at h
        rw [bind_of_ok hread]
        exact (hf a).error buf pos' e hpos' h
  ok := by
    intro buf pos b rest hpos h
    obtain ⟨a, mid, hr, h⟩ := Reader.bind_eq_ok.1 h
    obtain ⟨pos', hpos', rfl, hread⟩ := hc.ok buf pos a mid hpos hr
    rw [bind_of_ok hread]
    exact (hf a).ok buf pos' b rest hpos' h

theorem follows_readArray (eof : ε) (n : Nat) :
    Follows (readArray eof n) (Reader.readArray eof n) where
  error := by
    intro buf pos e hpos h
    unfold Reader.readArray at h
    split at h
    · rename_i hshort
      rw [List.length_drop] at hshort
      rw [readArray, bind_of_ok (remaining_of_le hpos), if_pos hshort, Except.error.inj h]
      rfl
    · cases h
  ok := by
    intro buf pos a rest hpos h
    unfold Reader.readArray at h
    split at h
    · cases h
    · rename_i hfit
      rw [List.length_drop] at hfit
      simp only [Except.ok.injEq, Prod.mk.injEq] at h
      refine ⟨pos + n, by omega, ?_, ?_⟩
      · rw [← h.2, List.drop_drop]
      · rw [readArray, bind_of_ok (remaining_of_le hpos), if_neg hfit, slice,
          dif_pos (by omega), ← h.1]

theorem follows_readWord (eof : ε) (n w : Nat) :
    Follows (readWord eof n w) (Reader.readWord eof n w) :=
  (follows_readArray eof n).bind fun _ => .pure _

theorem follows_readSlice (eof : ε) (len : Nat) :
    Follows (readSlice eof len) (Reader.readSlice eof len) := by
  have h := (follows_readArray eof len).bind fun bytes => Follows.pure bytes.val
  have heq : Reader.readSlice eof len =
      Reader.readArray eof len >>= fun bytes => Pure.pure bytes.val := by
    funext rest
    show _ = Reader.bind _ _ rest
    unfold Reader.readSlice Reader.bind Reader.readArray
    split <;> rfl
  rwa [heq]

theorem follows_readCount (eof : ε) (min : Nat) :
    Follows (readCount eof min) (Reader.readCount eof min) := by
  apply (follows_readWord eof 8 64).bind
  intro n
  constructor
  · intro buf pos e hpos h
    rw [List.length_drop] at h
    rw [bind_of_ok (remaining_of_le hpos)]
    split at h
    · rename_i hlarge
      rw [if_pos hlarge, Except.error.inj h]
      rfl
    · cases h
  · intro buf pos a rest hpos h
    rw [List.length_drop] at h
    rw [bind_of_ok (remaining_of_le hpos)]
    split at h
    · cases h
    · rename_i hfit
      simp only [Except.ok.injEq, Prod.mk.injEq] at h
      rw [if_neg hfit]
      exact ⟨pos, hpos, h.2.symm, by rw [← h.1]; rfl⟩

theorem follows_readMany {c : Cursor ε α} {r : Reader ε α} (h : Follows c r) (count : Nat) :
    Follows (readMany c count) (Reader.readMany r count) := by
  induction count with
  | zero => exact .pure []
  | succ count ih => exact h.bind fun a => ih.bind fun rest => .pure (a :: rest)

theorem follows_counted {c : Cursor ε α} {r : Reader ε α} (h : Follows c r) (eof : ε)
    (min : Nat) : Follows (readCount eof min >>= readMany c)
      (Reader.readCount eof min >>= Reader.readMany r) :=
  (follows_readCount eof min).bind (follows_readMany h)

/-- Over a buffer, every input ends as it does over a list. -/
theorem Follows.decodeAll_eq {c : Cursor ε α} {r : Reader ε α} (h : Follows c r) (trailing : ε)
    (buf : Vec U8) :
    decodeAll trailing c buf =
      (Reader.decodeAll trailing r buf.val).mapError ReadFailure.error := by
  unfold decodeAll Reader.decodeAll
  cases hread : r buf.val with
  | error e =>
      have hfail := h.error buf 0 e (Nat.zero_le _) hread
      rw [toEnd, bind_of_error hfail]
      rfl
  | ok out =>
      obtain ⟨a, rest⟩ := out
      obtain ⟨pos, hpos, rfl, hstop⟩ := h.ok buf 0 a rest (Nat.zero_le _) hread
      rw [toEnd, bind_of_ok hstop, bind_of_ok (remaining_of_le hpos)]
      by_cases hend : buf.val.length - pos = 0
      · have hempty : (buf.val.drop pos).isEmpty = true := by
          rw [List.isEmpty_iff, List.drop_eq_nil_iff]
          omega
        simp only [hend, hempty, ne_eq, not_true_eq_false, if_false, if_true]
        rfl
      · have hnonempty : (buf.val.drop pos).isEmpty = false := by
          rw [List.isEmpty_eq_false_iff, Ne, List.drop_eq_nil_iff]
          omega
        simp only [hend, hnonempty, ne_eq, not_false_eq_true, if_true, Bool.false_eq_true,
          if_false]
        rfl

/-- Over a buffer nothing is read out of range. -/
theorem Follows.decodeAll_ne_outOfRange {c : Cursor ε α} {r : Reader ε α} (h : Follows c r)
    (trailing : ε) (buf : Vec U8) : decodeAll trailing c buf ≠ .error .outOfRange := by
  rw [h.decodeAll_eq]
  cases Reader.decodeAll trailing r buf.val with
  | error e => exact fun heq => by cases heq
  | ok a => exact fun heq => by cases heq

end Cursor

end Kovanica.Lib
