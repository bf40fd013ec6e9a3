import Kovanica.Lib.Word

/-!
# Files with a cursor

A file is its bytes and a position in them.  Writing replaces what lies under
the cursor and extends the file where that runs out; reading either takes all
the bytes asked for or moves to the end.

## Main results

* `AtEnd.writeAll`: at the end of a file, writing appends and stays at the end.
* `readExact_of_unread`, `readExact_of_short`, `readExact_of_atEnd`: reading, by what is left.
* `exists_cut`: where a cut through a sequence of records falls.
-/

namespace Kovanica.Lib

/-- An open file: its bytes and a cursor that never lies behind them.  What the operating system
adds to this, buffers and synchronisation, is left out. -/
structure File where
  bytes : List U8
  pos : Nat
  pos_le : pos ≤ bytes.length

namespace File

/-- A file just created. -/
def empty : File := ⟨[], 0, le_refl 0⟩

/-- A file just opened: the cursor is at the start. -/
def ofBytes (bytes : List U8) : File := ⟨bytes, 0, Nat.zero_le _⟩

/-- `write_all(data)`. -/
def writeAll (f : File) (data : List U8) : File where
  bytes := f.bytes.take f.pos ++ data ++ f.bytes.drop (f.pos + data.length)
  pos := f.pos + data.length
  pos_le := by
    have := f.pos_le
    simp only [List.length_append, List.length_take, List.length_drop]
    omega

/-- `read_exact(n)`: `none` when the file ends first. -/
def readExact (f : File) (n : Nat) : Option (List U8) × File :=
  if h : f.pos + n ≤ f.bytes.length then
    (some ((f.bytes.drop f.pos).take n), ⟨f.bytes, f.pos + n, h⟩)
  else (none, ⟨f.bytes, f.bytes.length, le_refl _⟩)

/-- What lies behind the cursor. -/
def unread (f : File) : List U8 := f.bytes.drop f.pos

/-- The cursor is at the end. -/
def AtEnd (f : File) : Prop := f.pos = f.bytes.length

@[simp] theorem unread_ofBytes (bytes : List U8) : (ofBytes bytes).unread = bytes := rfl

@[simp] theorem bytes_ofBytes (bytes : List U8) : (ofBytes bytes).bytes = bytes := rfl

theorem length_unread (f : File) : f.unread.length = f.bytes.length - f.pos := List.length_drop

theorem atEnd_empty : empty.AtEnd := rfl

/-- At the end of the file, writing appends. -/
theorem AtEnd.writeAll {f : File} (h : f.AtEnd) (data : List U8) :
    (f.writeAll data).bytes = f.bytes ++ data ∧ (f.writeAll data).AtEnd := by
  have hend : f.pos = f.bytes.length := h
  have hbytes : (f.writeAll data).bytes = f.bytes ++ data := by
    show f.bytes.take f.pos ++ data ++ f.bytes.drop (f.pos + data.length) = _
    rw [hend, List.take_length, List.drop_eq_nil_iff.2 (by omega), List.append_nil]
  refine ⟨hbytes, ?_⟩
  show f.pos + data.length = _
  rw [hbytes, List.length_append, hend]

/-- What lies behind the cursor is read, and the cursor moves past it. -/
theorem readExact_of_unread {f : File} {data rest : List U8} (h : f.unread = data ++ rest) :
    ∃ f', f.readExact data.length = (some data, f') ∧ f'.unread = rest ∧ f'.bytes = f.bytes := by
  have hlen := f.length_unread
  have hpos := f.pos_le
  rw [h, List.length_append] at hlen
  have hfit : f.pos + data.length ≤ f.bytes.length := by omega
  refine ⟨⟨f.bytes, f.pos + data.length, hfit⟩, ?_, ?_, rfl⟩
  · rw [readExact, dif_pos hfit]
    have htake : (f.bytes.drop f.pos).take data.length = data := by
      show f.unread.take data.length = data
      rw [h, List.take_left' rfl]
    rw [htake]
  · show f.bytes.drop (f.pos + data.length) = rest
    have hdrop : f.unread.drop data.length = rest := by rw [h, List.drop_left' rfl]
    rwa [unread, List.drop_drop] at hdrop

/-- Where the file ends first, nothing is read and the cursor moves to the end. -/
theorem readExact_of_short {f : File} {n : Nat} (h : f.unread.length < n) :
    ∃ f', f.readExact n = (none, f') ∧ f'.AtEnd ∧ f'.bytes = f.bytes := by
  have hlen := f.length_unread
  have hpos := f.pos_le
  refine ⟨⟨f.bytes, f.bytes.length, le_refl _⟩, ?_, rfl, rfl⟩
  rw [readExact, dif_neg (by omega)]

/-- At the end of the file nothing is read. -/
theorem readExact_of_atEnd {f : File} (h : f.unread = []) {n : Nat} (hn : 0 < n) :
    ∃ f', f.readExact n = (none, f') ∧ f'.AtEnd ∧ f'.bytes = f.bytes := by
  apply readExact_of_short
  rw [h, List.length_nil]
  exact hn

/-! ## Cut files -/

/-- A cut of a sequence of chunks falls on its end, or into one of the chunks. -/
theorem exists_cut {α : Type} (chunk : α → List U8) (l : List α) {n : Nat}
    (hn : n ≤ (l.flatMap chunk).length) :
    n = (l.flatMap chunk).length ∨ ∃ before a after r, l = before ++ a :: after ∧
      r < (chunk a).length ∧ n = (before.flatMap chunk).length + r := by
  induction l generalizing n with
  | nil =>
      left
      simpa using hn
  | cons a l ih =>
      rw [List.flatMap_cons, List.length_append] at hn ⊢
      by_cases hfirst : n < (chunk a).length
      · right
        exact ⟨[], a, l, n, rfl, hfirst, by simp⟩
      · rcases ih (n := n - (chunk a).length) (by omega) with hend | hinside
        · left
          omega
        · obtain ⟨before, b, after, r, rfl, hr, heq⟩ := hinside
          right
          refine ⟨a :: before, b, after, r, rfl, hr, ?_⟩
          rw [List.flatMap_cons, List.length_append]
          omega

end File

end Kovanica.Lib
