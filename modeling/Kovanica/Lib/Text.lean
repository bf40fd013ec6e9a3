import Kovanica.Lib.Word
import Mathlib.Data.List.Basic

/-!
# Lines of text

Words, decimal numerals and hexadecimal digits in a line of text, as the standard library
of Rust and the `hex` package read them, and that they read back what is printed.

## Main results

* `words_join`, `trim_join`: words that are joined by blanks are read again.
* `parseWord_repr`: so is a number that is printed.
* `oneLine_of_notMem`: a text is one line if no line break stands in it, which is how the texts
  of errors are checked, piece by piece.
-/

namespace Kovanica.Lib

/-! ## Lines -/

/-- The text has no line break, so that it can stand on one line of a protocol and be told
apart from the lines around it. -/
def OneLine (s : String) : Prop := '\n' ∉ s.toList

instance (s : String) : Decidable (OneLine s) := inferInstanceAs (Decidable (¬ _ ∈ _))

@[simp] theorem oneLine_append (s t : String) : OneLine (s ++ t) ↔ OneLine s ∧ OneLine t := by
  simp [OneLine, not_or]

/-- A text that is written out: `simp` looks through its characters.  With `oneLine_append`
this settles texts joined from such texts and others. -/
@[simp low] theorem oneLine_of_notMem {s : String} (h : '\n' ∉ s.toList) : OneLine s := h

@[simp] theorem oneLine_toString (s : String) : OneLine (toString s) ↔ OneLine s := Iff.rfl

@[simp] theorem oneLine_repr (n : Nat) : OneLine n.repr := by
  intro h
  rw [Nat.toList_repr] at h
  exact absurd (Nat.isDigit_of_mem_toDigits (by decide) (by decide) h) (by decide)

theorem oneLine_join (sep : String) (hsep : OneLine sep) {words : List String}
    (h : ∀ w ∈ words, OneLine w) : OneLine (sep.intercalate words) := by
  induction words with
  | nil => exact List.not_mem_nil
  | cons w rest ih =>
      cases rest with
      | nil => simpa using h w (List.mem_singleton.2 rfl)
      | cons w' rest =>
          have hrest := ih fun v hv => h v (List.mem_cons_of_mem _ hv)
          have hfirst := h w (List.mem_cons_self ..)
          simp only [String.intercalate_cons_cons, oneLine_append]
          exact ⟨⟨hfirst, hsep⟩, hrest⟩

/-! ## Sizes -/

theorem utf8ByteSize_ofList (l : List Char) :
    (String.ofList l).utf8ByteSize = (l.map Char.utf8Size).sum := by
  induction l with
  | nil => rfl
  | cons c l ih => simp [String.ofList_cons, ih]

/-! ## Words -/

/-- `char::is_whitespace`: the Unicode property `White_Space`. -/
def isWhitespace (c : Char) : Bool :=
  let n := c.toNat
  decide (9 ≤ n ∧ n ≤ 13) || decide (n ∈ [0x20, 0x85, 0xA0, 0x1680]) ||
    decide (0x2000 ≤ n ∧ n ≤ 0x200A) || decide (n ∈ [0x2028, 0x2029, 0x202F, 0x205F, 0x3000])

/-- The words of a text, of which `word` is the beginning of the first. -/
def splitWords : (word : List Char) → List Char → List String
  | word, [] => if word.isEmpty then [] else [String.ofList word]
  | word, c :: rest =>
      if isWhitespace c then
        if word.isEmpty then splitWords [] rest else String.ofList word :: splitWords [] rest
      else splitWords (word ++ [c]) rest

/-- `s.split_whitespace()`. -/
def words (s : String) : List String := splitWords [] s.toList

/-- `s.trim()`. -/
def trim (s : String) : String :=
  String.ofList ((s.toList.dropWhile isWhitespace).reverse.dropWhile isWhitespace).reverse

/-- A text that is one word: not empty, and without white space.  A line joined from such texts
is split into the same texts again. -/
def IsWord (s : String) : Prop := s ≠ "" ∧ ∀ c ∈ s.toList, isWhitespace c = false

instance (s : String) : Decidable (IsWord s) :=
  decidable_of_iff (s ≠ "" ∧ s.toList.all (fun c => !isWhitespace c) = true) (by simp [IsWord])

theorem IsWord.oneLine {s : String} (h : IsWord s) : OneLine s := by
  intro hmem
  exact absurd (h.2 _ hmem) (by decide)

theorem splitWords_append {word : List Char} (hword : ∀ c ∈ word, isWhitespace c = false)
    (before rest : List Char) :
    splitWords before (word ++ rest) = splitWords (before ++ word) rest := by
  induction word generalizing before with
  | nil => simp
  | cons c word ih =>
      obtain ⟨hc, hword⟩ := List.forall_mem_cons.1 hword
      rw [List.cons_append, splitWords, hc, if_neg (by decide), ih hword, List.append_assoc,
        List.singleton_append]

/-- Words with blanks between them are read back. -/
theorem words_join {l : List String} (h : ∀ w ∈ l, IsWord w) : words (" ".intercalate l) = l := by
  have hblank : isWhitespace ' ' = true := by decide
  induction l with
  | nil => rfl
  | cons w rest ih =>
      obtain ⟨hw, hrest⟩ := List.forall_mem_cons.1 h
      have hne : w.toList.isEmpty = false := by
        rw [List.isEmpty_eq_false_iff, Ne, String.toList_eq_nil_iff]
        exact hw.1
      cases rest with
      | nil =>
          have hsplit := splitWords_append hw.2 [] []
          rw [List.append_nil, List.nil_append] at hsplit
          rw [String.intercalate_singleton, words, hsplit, splitWords, hne]
          simp
      | cons w' rest =>
          have hlater := ih hrest
          rw [words] at hlater
          have hline : (" ".intercalate (w :: w' :: rest)).toList =
              w.toList ++ ' ' :: (" ".intercalate (w' :: rest)).toList := by
            rw [String.intercalate_cons_cons, String.toList_append, String.toList_append,
              List.append_assoc]
            rfl
          rw [words, hline, splitWords_append hw.2, List.nil_append, splitWords, if_pos hblank, hne,
            if_neg (by decide), hlater, String.ofList_toList]

theorem IsWord.head {w : String} (h : IsWord w) :
    ∃ c rest, w.toList = c :: rest ∧ isWhitespace c = false := by
  cases hw : w.toList with
  | nil => exact absurd (String.toList_eq_nil_iff.1 hw) h.1
  | cons c rest => exact ⟨c, rest, rfl, h.2 c (hw ▸ List.mem_cons_self ..)⟩

theorem IsWord.last {w : String} (h : IsWord w) :
    ∃ c rest, w.toList.reverse = c :: rest ∧ isWhitespace c = false := by
  cases hw : w.toList.reverse with
  | nil => exact absurd (String.toList_eq_nil_iff.1 (List.reverse_eq_nil_iff.1 hw)) h.1
  | cons c rest =>
      exact ⟨c, rest, rfl, h.2 c (List.mem_reverse.1 (hw ▸ List.mem_cons_self ..))⟩

/-- A line of words begins and ends with one. -/
theorem ends_join {w : String} {l : List String} (h : ∀ v ∈ w :: l, IsWord v) :
    (∃ c rest, (" ".intercalate (w :: l)).toList = c :: rest ∧ isWhitespace c = false) ∧
      ∃ c rest, (" ".intercalate (w :: l)).toList.reverse = c :: rest ∧ isWhitespace c = false := by
  induction l generalizing w with
  | nil =>
      have hw := h w (List.mem_cons_self ..)
      rw [String.intercalate_singleton]
      exact ⟨hw.head, hw.last⟩
  | cons w' rest ih =>
      obtain ⟨hw, hrest⟩ := List.forall_mem_cons.1 h
      obtain ⟨c, word, hword, hc⟩ := hw.head
      obtain ⟨_, c', word', hword', hc'⟩ := ih hrest
      rw [String.intercalate_cons_cons, String.toList_append, String.toList_append]
      refine ⟨⟨c, word ++ " ".toList ++ (" ".intercalate (w' :: rest)).toList, ?_, hc⟩,
        c', word' ++ (w.toList ++ " ".toList).reverse, ?_, hc'⟩
      · rw [hword]
        rfl
      · rw [List.reverse_append, hword']
        rfl

/-- Words with blanks between them have no blanks around them. -/
theorem trim_join {l : List String} (h : ∀ w ∈ l, IsWord w) :
    trim (" ".intercalate l) = " ".intercalate l := by
  cases l with
  | nil => rfl
  | cons w rest =>
      obtain ⟨⟨c, chars, hchars, hc⟩, c', chars', hchars', hc'⟩ := ends_join h
      have hfront : (" ".intercalate (w :: rest)).toList.dropWhile isWhitespace =
          (" ".intercalate (w :: rest)).toList := by
        rw [hchars, List.dropWhile_cons_of_neg (by simp [hc])]
      rw [trim, hfront, hchars', List.dropWhile_cons_of_neg (by simp [hc']), ← hchars',
        List.reverse_reverse, String.ofList_toList]

theorem isWord_of_mem_splitWords {word rest : List Char}
    (hword : ∀ c ∈ word, isWhitespace c = false) {w : String} (hw : w ∈ splitWords word rest) :
    IsWord w := by
  have hdone : ¬ word.isEmpty = true → IsWord (String.ofList word) := by
    intro hne
    refine ⟨fun heq => hne ?_, by rwa [String.toList_ofList]⟩
    rw [List.isEmpty_iff, ← String.toList_ofList (l := word), heq]
    rfl
  induction rest generalizing word with
  | nil =>
      rw [splitWords] at hw
      split at hw
      · cases hw
      · obtain rfl := List.mem_singleton.1 hw
        exact hdone ‹_›
  | cons c rest ih =>
      rw [splitWords] at hw
      split at hw
      · split at hw
        · exact ih (by simp) hw (by simp)
        · rcases List.mem_cons.1 hw with rfl | hw
          · exact hdone ‹_›
          · exact ih (by simp) hw (by simp)
      · rename_i hc
        have hword' : ∀ c' ∈ word ++ [c], isWhitespace c' = false := by
          intro c' hc'
          rcases List.mem_append.1 hc' with hold | hnew
          · exact hword c' hold
          · rw [List.mem_singleton.1 hnew, Bool.eq_false_iff]
            exact hc
        refine ih hword' hw fun _ => ?_
        refine ⟨fun heq => ?_, by rwa [String.toList_ofList]⟩
        have hnil := congrArg String.toList heq
        rw [String.toList_ofList] at hnil
        exact List.append_ne_nil_of_right_ne_nil _ (List.cons_ne_nil c []) hnil

theorem isWord_of_mem_words {s w : String} (hw : w ∈ words s) : IsWord w :=
  isWord_of_mem_splitWords (fun _ hc => absurd hc List.not_mem_nil) hw

/-! ## Separators -/

def splitChars (c : Char) : List Char → List (List Char)
  | [] => [[]]
  | d :: rest =>
      if d = c then [] :: splitChars c rest
      else
        match splitChars c rest with
        | [] => [[d]]
        | w :: ws => (d :: w) :: ws

/-- `s.split(c)`. -/
def split (c : Char) (s : String) : List String := (splitChars c s.toList).map String.ofList

/-- `s.split_once(c)`. -/
def splitOnce (c : Char) (s : String) : Option (String × String) :=
  let before := s.toList.takeWhile fun d => d != c
  let after := s.toList.dropWhile fun d => d != c
  if after.isEmpty then none else some (String.ofList before, String.ofList after.tail)

/-! ## Numerals -/

/-- `s.parse::<uN>()`: decimal digits, after at most one plus sign. -/
def parseWord (w : Nat) (s : String) : Option (Word w) :=
  let digits := match s.toList with
    | '+' :: rest => rest
    | chars => chars
  if h : digits ≠ [] ∧ digits.all Char.isDigit = true ∧ Nat.ofDigitChars 10 digits 0 < 2 ^ w then
    some ⟨Nat.ofDigitChars 10 digits 0, h.2.2⟩
  else none

/-- A printed number is read back. -/
theorem parseWord_repr {w : Nat} (n : Word w) : parseWord w n.val.repr = some n := by
  have hdigits : ∀ c ∈ Nat.toDigits 10 n.val, c.isDigit = true := fun c hc =>
    Nat.isDigit_of_mem_toDigits (by decide) (by decide) hc
  have hplus : (match Nat.toDigits 10 n.val with
      | '+' :: rest => rest
      | chars => chars) = Nat.toDigits 10 n.val := by
    split
    · rename_i rest heq
      have hsign := hdigits '+' (heq ▸ List.mem_cons_self ..)
      exact absurd hsign (by decide)
    · rfl
  simp only [parseWord, Nat.toList_repr, hplus, Nat.ofDigitChars_ten_toDigits]
  rw [dif_pos ⟨Nat.toDigits_ne_nil, List.all_eq_true.2 hdigits, n.isLt⟩]

theorem isWord_repr (n : Nat) : IsWord n.repr := by
  refine ⟨Nat.repr_ne_empty, fun c hc => ?_⟩
  rw [Nat.toList_repr] at hc
  have hdigit := Nat.isDigit_of_mem_toDigits (by decide) (by decide) hc
  have hrange : 48 ≤ c.toNat ∧ c.toNat ≤ 57 := by
    simp only [Char.isDigit, ge_iff_le, Bool.and_eq_true, decide_eq_true_eq] at hdigit
    exact ⟨hdigit.1, hdigit.2⟩
  simp only [isWhitespace, List.mem_cons, List.not_mem_nil, or_false, Bool.or_eq_false_iff,
    decide_eq_false_iff_not]
  omega

/-! ## Hexadecimal -/

/-- The value of a hexadecimal digit, of either case. -/
def hexValue (c : Char) : Option Nat :=
  if '0' ≤ c ∧ c ≤ '9' then some (c.toNat - 48)
  else if 'a' ≤ c ∧ c ≤ 'f' then some (c.toNat - 87)
  else if 'A' ≤ c ∧ c ≤ 'F' then some (c.toNat - 55)
  else none

/-- The bytes of pairs of digits. -/
def hexBytes : List Char → Option (List U8)
  | [] => some []
  | [_] => none
  | high :: low :: rest =>
      match hexValue high, hexValue low, hexBytes rest with
      | some h, some l, some bytes => some (Word.cast 8 (16 * h + l) :: bytes)
      | _, _, _ => none

/-- `hex::decode`. -/
def hexDecode (s : String) : Option (List U8) := hexBytes s.toList

end Kovanica.Lib
