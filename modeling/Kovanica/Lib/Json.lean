import Kovanica.Lib.Text

/-!
# JSON texts

Values, the text they are written as, without blanks, and a reader of such texts.  The
reader takes whole numbers and the short escapes only, so what it reads every JSON parser
reads; it refuses control characters in strings, as they do.  The writer escapes quotes,
backslashes and line feeds and nothing else: its text is read back exactly when no other
control character stands in it.

## Main results

* `readValue_chars`: the reader takes the text of a value and stops behind it.
* `read_text_iff`: a text is read back exactly if it is legible.
-/

namespace Kovanica.Lib

/-- A JSON value; numbers are whole.  Objects keep the order of their members, since the bodies
are compared as texts. -/
inductive Json where
  | null
  | bool (b : Bool)
  | num (n : Int)
  | str (s : String)
  | arr (items : List Json)
  | obj (members : List (String × Json))

namespace Json

/-! ## Writing -/

/-- A character as it stands in a string. -/
def escape (c : Char) : List Char :=
  if c = '"' then ['\\', '"']
  else if c = '\\' then ['\\', '\\']
  else if c = '\n' then ['\\', 'n']
  else [c]

/-- A string in quotes. -/
def quoted (s : String) : List Char := '"' :: (s.toList.flatMap escape ++ ['"'])

/-- Texts with commas between them. -/
def joined (texts : List (List Char)) : List Char := [','].intercalate texts

/-- The text of a truth value. -/
def boolChars (b : Bool) : List Char :=
  if b then ['t', 'r', 'u', 'e'] else ['f', 'a', 'l', 's', 'e']

mutual

/-- The text of a value. -/
def chars : Json → List Char
  | null => ['n', 'u', 'l', 'l']
  | bool b => boolChars b
  | num n => n.repr.toList
  | str s => quoted s
  | arr items => '[' :: (joined (itemTexts items) ++ [']'])
  | obj members => '\x7b' :: (joined (memberTexts members) ++ ['\x7d'])

def itemTexts : List Json → List (List Char)
  | [] => []
  | item :: rest => item.chars :: itemTexts rest

def memberTexts : List (String × Json) → List (List Char)
  | [] => []
  | (key, value) :: rest => (quoted key ++ ':' :: value.chars) :: memberTexts rest

end

/-- The text of a value. -/
def text (v : Json) : String := String.ofList v.chars

theorem itemTexts_eq (items : List Json) : itemTexts items = items.map chars := by
  induction items with
  | nil => rfl
  | cons item rest ih => rw [itemTexts, ih, List.map_cons]

theorem memberTexts_eq (members : List (String × Json)) :
    memberTexts members = members.map fun m => quoted m.1 ++ ':' :: m.2.chars := by
  induction members with
  | nil => rfl
  | cons m rest ih =>
      obtain ⟨key, value⟩ := m
      rw [memberTexts, ih, List.map_cons]

theorem joined_cons_cons (t t' : List Char) (rest : List (List Char)) :
    joined (t :: t' :: rest) = t ++ ',' :: joined (t' :: rest) := by
  simp [joined]

/-! ## Reading -/

/-- What follows a backslash. -/
def unescape (c : Char) : Option Char :=
  if c = '"' ∨ c = '\\' ∨ c = '/' then some c
  else if c = 'n' then some '\n'
  else if c = 'r' then some '\r'
  else if c = 't' then some '\t'
  else if c = 'b' then some '\x08'
  else if c = 'f' then some '\x0c'
  else none

/-- A control character, which no JSON text may hold in a string. -/
def IsControl (c : Char) : Prop := c.toNat < 32

instance (c : Char) : Decidable (IsControl c) := inferInstanceAs (Decidable (_ < _))

/-- The characters up to the closing quote, and what is left. -/
def readString : List Char → Option (List Char × List Char)
  | [] => none
  | c :: rest =>
      if c = '"' then some ([], rest)
      else if c = '\\' then
        match rest with
        | [] => none
        | e :: rest => do
            let d ← unescape e
            let (s, rest) ← readString rest
            return (d :: s, rest)
      else if IsControl c then none
      else (readString rest).map fun r => (c :: r.1, r.2)

/-- Digits without a leading zero, and what is left. -/
def readNat (cs : List Char) : Option (Nat × List Char) :=
  let digits := cs.takeWhile Char.isDigit
  if digits = [] ∨ (digits.head? = some '0' ∧ digits.length ≠ 1) then none
  else some (Nat.ofDigitChars 10 digits 0, cs.dropWhile Char.isDigit)

/-- The rest after a word that must stand here. -/
def readWord (word : List Char) (v : Json) (cs : List Char) : Option (Json × List Char) :=
  if word.isPrefixOf cs then some (v, cs.drop word.length) else none

mutual

/-- A value, and what is left.  The first argument bounds the steps. -/
def readValue : Nat → List Char → Option (Json × List Char)
  | 0, _ => none
  | _ + 1, [] => none
  | fuel + 1, c :: rest =>
      if c = '"' then (readString rest).map fun r => (str (String.ofList r.1), r.2)
      else if c = '[' then
        if rest.head? = some ']' then some (arr [], rest.tail)
        else (readItems fuel rest).map fun r => (arr r.1, r.2)
      else if c = '\x7b' then
        if rest.head? = some '\x7d' then some (obj [], rest.tail)
        else (readMembers fuel rest).map fun r => (obj r.1, r.2)
      else if c = 'n' then readWord ['u', 'l', 'l'] null rest
      else if c = 't' then readWord ['r', 'u', 'e'] (bool true) rest
      else if c = 'f' then readWord ['a', 'l', 's', 'e'] (bool false) rest
      else if c = '-' then (readNat rest).map fun r => (num (-r.1), r.2)
      else (readNat (c :: rest)).map fun r => (num r.1, r.2)

/-- The items of an array that is not empty, up to its closing bracket. -/
def readItems : Nat → List Char → Option (List Json × List Char)
  | 0, _ => none
  | fuel + 1, cs => do
      let (item, rest) ← readValue fuel cs
      if rest.head? = some ']' then return ([item], rest.tail)
      if rest.head? = some ',' then
        let (items, rest) ← readItems fuel rest.tail
        return (item :: items, rest)
      none

/-- The members of an object that is not empty, up to its closing brace. -/
def readMembers : Nat → List Char → Option (List (String × Json) × List Char)
  | 0, _ => none
  | fuel + 1, cs => do
      guard (cs.head? = some '"')
      let (key, rest) ← readString cs.tail
      guard (rest.head? = some ':')
      let (value, rest) ← readValue fuel rest.tail
      if rest.head? = some '\x7d' then return ([(String.ofList key, value)], rest.tail)
      if rest.head? = some ',' then
        let (members, rest) ← readMembers fuel rest.tail
        return ((String.ofList key, value) :: members, rest)
      none

end

/-- The value a text is of, nothing following it. -/
def read (s : String) : Option Json :=
  match readValue (s.toList.length + 1) s.toList with
  | some (v, []) => some v
  | _ => none

/-! ## Strings and numbers -/

/-- A text without control characters. -/
def Clean (cs : List Char) : Prop := ∀ c ∈ cs, ¬ IsControl c

theorem clean_append {cs ds : List Char} : Clean (cs ++ ds) ↔ Clean cs ∧ Clean ds :=
  List.forall_mem_append

theorem clean_cons {c : Char} {cs : List Char} : Clean (c :: cs) ↔ ¬ IsControl c ∧ Clean cs :=
  List.forall_mem_cons

theorem readString_escape {c : Char} (hc : Clean (escape c)) (rest : List Char) :
    readString (escape c ++ rest) = (readString rest).map fun r => (c :: r.1, r.2) := by
  unfold escape at hc ⊢
  split
  · subst_vars
    cases hread : readString rest <;> simp [readString, unescape, hread]
  split
  · subst_vars
    cases hread : readString rest <;> simp [readString, unescape, hread]
  split
  · subst_vars
    cases hread : readString rest <;> simp [readString, unescape, hread]
  · rename_i hquote hslash hline
    rw [if_neg hquote, if_neg hslash, if_neg hline] at hc
    have hplain : ¬ IsControl c := hc c (List.mem_singleton.2 rfl)
    rw [List.singleton_append, readString.eq_def]
    simp only [if_neg hquote, if_neg hslash, if_neg hplain]

theorem readString_flatMap {cs : List Char} (h : Clean (cs.flatMap escape)) (rest : List Char) :
    readString (cs.flatMap escape ++ '"' :: rest) = some (cs, rest) := by
  induction cs with
  | nil =>
      rw [List.flatMap_nil, List.nil_append, readString.eq_def]
      rfl
  | cons c cs ih =>
      rw [List.flatMap_cons, clean_append] at h
      rw [List.flatMap_cons, List.append_assoc, readString_escape h.1, ih h.2]
      rfl

theorem readString_quoted {s : String} (h : Clean (quoted s)) (rest : List Char) :
    ∃ cs, quoted s ++ rest = '"' :: cs ∧ readString cs = some (s.toList, rest) := by
  refine ⟨s.toList.flatMap escape ++ '"' :: rest, ?_, ?_⟩
  · simp [quoted]
  · rw [quoted, clean_cons, clean_append] at h
    exact readString_flatMap h.2.1 rest

/-- A text that does not go on with a digit. -/
def NoDigit (rest : List Char) : Prop := ∀ c ∈ rest.head?, c.isDigit = false

theorem digitChar_ne_zero : ∀ n < 10, 0 < n → n.digitChar ≠ '0' := by decide

/-- A numeral begins with a zero only for zero. -/
theorem head?_toDigits {n : Nat} (h : 0 < n) : (Nat.toDigits 10 n).head? ≠ some '0' := by
  induction n using Nat.strong_induction_on with
  | _ n ih =>
      by_cases hlt : n < 10
      · rw [Nat.toDigits_of_lt_base hlt, List.head?_cons, Ne, Option.some_inj]
        exact digitChar_ne_zero n hlt h
      · have hle : 10 ≤ n := by omega
        rw [Nat.toDigits_of_base_le (by decide) hle,
          List.head?_append_of_ne_nil _ Nat.toDigits_ne_nil]
        exact ih (n / 10) (by omega) (by omega)

theorem readNat_toDigits (n : Nat) {rest : List Char} (hrest : NoDigit rest) :
    readNat (Nat.toDigits 10 n ++ rest) = some (n, rest) := by
  have hdigits : ∀ c ∈ Nat.toDigits 10 n, c.isDigit = true := fun c hc =>
    Nat.isDigit_of_mem_toDigits (by decide) (by decide) hc
  have hstop : rest.takeWhile Char.isDigit = [] ∧ rest.dropWhile Char.isDigit = rest := by
    cases rest with
    | nil => exact ⟨rfl, rfl⟩
    | cons c rest =>
        have hc : c.isDigit = false := hrest c rfl
        simp [List.takeWhile, List.dropWhile, hc]
  have htake : (Nat.toDigits 10 n ++ rest).takeWhile Char.isDigit = Nat.toDigits 10 n := by
    rw [List.takeWhile_append_of_pos hdigits, hstop.1, List.append_nil]
  have hdrop : (Nat.toDigits 10 n ++ rest).dropWhile Char.isDigit = rest := by
    rw [List.dropWhile_append_of_pos hdigits, hstop.2]
  have hzero : ¬ ((Nat.toDigits 10 n).head? = some '0' ∧ (Nat.toDigits 10 n).length ≠ 1) := by
    rintro ⟨hhead, hlen⟩
    cases Nat.eq_zero_or_pos n with
    | inl hn =>
        subst hn
        exact hlen rfl
    | inr hn => exact head?_toDigits hn hhead
  unfold readNat
  simp only [htake, hdrop, Nat.ofDigitChars_ten_toDigits]
  rw [if_neg (not_or.2 ⟨Nat.toDigits_ne_nil, hzero⟩)]

theorem noDigit_cons {c : Char} {rest : List Char} (h : c.isDigit = false) :
    NoDigit (c :: rest) := by
  intro c' hc'
  obtain rfl := Option.some.inj hc'
  exact h

/-! ## Values -/

mutual

/-- How many steps a value takes to read. -/
def steps : Json → Nat
  | null => 1
  | bool _ => 1
  | num _ => 1
  | str _ => 1
  | arr items => 1 + itemSteps items
  | obj members => 1 + memberSteps members

def itemSteps : List Json → Nat
  | [] => 0
  | item :: rest => 1 + item.steps + itemSteps rest

def memberSteps : List (String × Json) → Nat
  | [] => 0
  | (_, value) :: rest => 1 + value.steps + memberSteps rest

end

/-- The text of a number. -/
theorem toList_repr (n : Int) : n.repr.toList =
    if n < 0 then '-' :: Nat.toDigits 10 n.natAbs else Nat.toDigits 10 n.natAbs := by
  cases n with
  | ofNat n =>
      have hn : ¬ Int.ofNat n < 0 := by simp
      rw [if_neg hn, Int.repr, Nat.toList_repr]
      rfl
  | negSucc n =>
      have hn : Int.negSucc n < 0 := Int.negSucc_lt_zero n
      rw [if_pos hn, Int.repr, String.toList_append, Nat.toList_repr]
      rfl

/-- A digit begins nothing but a number. -/
theorem isDigit_ne {c : Char} (h : c.isDigit = true) :
    c ≠ '"' ∧ c ≠ '[' ∧ c ≠ '\x7b' ∧ c ≠ 'n' ∧ c ≠ 't' ∧ c ≠ 'f' ∧ c ≠ '-' ∧ c ≠ ']' := by
  refine ⟨?_, ?_, ?_, ?_, ?_, ?_, ?_, ?_⟩ <;>
  · rintro rfl
    revert h
    decide

theorem exists_toDigits (n : Nat) :
    ∃ c rest, Nat.toDigits 10 n = c :: rest ∧ c.isDigit = true := by
  cases hdigits : Nat.toDigits 10 n with
  | nil => exact absurd hdigits Nat.toDigits_ne_nil
  | cons c rest =>
      have hc : c ∈ Nat.toDigits 10 n := hdigits ▸ List.mem_cons_self ..
      exact ⟨c, rest, rfl, Nat.isDigit_of_mem_toDigits (by decide) (by decide) hc⟩

/-- No value begins with a closing bracket. -/
theorem head?_chars (v : Json) (rest : List Char) : (v.chars ++ rest).head? ≠ some ']' := by
  cases v with
  | null => simp [chars]
  | bool b => cases b <;> simp [chars, boolChars]
  | num n =>
      obtain ⟨c, digits, hdigits, hc⟩ := exists_toDigits n.natAbs
      rw [chars, toList_repr, hdigits]
      split
      · simp
      · simpa using (isDigit_ne hc).2.2.2.2.2.2.2
  | str s => simp [chars, quoted]
  | arr items => simp [chars]
  | obj members => simp [chars]

theorem readValue_num (n : Int) (fuel : Nat) {rest : List Char} (hrest : NoDigit rest) :
    readValue (fuel + 1) (n.repr.toList ++ rest) = some (num n, rest) := by
  rw [toList_repr]
  split
  · rename_i hneg
    have hn : -(n.natAbs : Int) = n := by omega
    have hread := readNat_toDigits n.natAbs hrest
    rw [List.cons_append, readValue, if_neg (by decide), if_neg (by decide), if_neg (by decide),
      if_neg (by decide), if_neg (by decide), if_neg (by decide), if_pos rfl, hread,
      Option.map_some]
    dsimp only
    rw [hn]
  · rename_i hpos
    have hn : (n.natAbs : Int) = n := by omega
    obtain ⟨c, digits, hdigits, hc⟩ := exists_toDigits n.natAbs
    obtain ⟨h1, h2, h3, h4, h5, h6, h7, _⟩ := isDigit_ne hc
    have hread := readNat_toDigits n.natAbs hrest
    rw [hdigits, List.cons_append] at hread
    rw [hdigits, List.cons_append, readValue]
    simp only [if_neg h1, if_neg h2, if_neg h3, if_neg h4, if_neg h5, if_neg h6, if_neg h7, hread,
      Option.map_some, hn]

mutual

/-- The text of a value is read back, whatever follows it but a digit. -/
theorem readValue_chars : ∀ (v : Json) (fuel : Nat) (rest : List Char), v.steps ≤ fuel →
    Clean v.chars → NoDigit rest → readValue fuel (v.chars ++ rest) = some (v, rest)
  | v, 0, _, hfuel, _, _ => by cases v <;> simp [steps] at hfuel
  | null, fuel + 1, rest, _, _, _ => by simp [chars, readValue, readWord]
  | bool true, fuel + 1, rest, _, _, _ => by simp [chars, boolChars, readValue, readWord]
  | bool false, fuel + 1, rest, _, _, _ => by simp [chars, boolChars, readValue, readWord]
  | num n, fuel + 1, rest, _, _, hrest => by rw [chars, readValue_num n fuel hrest]
  | str s, fuel + 1, rest, _, hclean, _ => by
      rw [chars] at hclean ⊢
      obtain ⟨cs, hcs, hread⟩ := readString_quoted hclean rest
      rw [hcs, readValue, if_pos rfl, hread]
      simp
  | arr [], fuel + 1, rest, _, _, _ => by simp [chars, itemTexts, joined, readValue]
  | arr (item :: items), fuel + 1, rest, hfuel, hclean, _ => by
      have hsteps : itemSteps (item :: items) ≤ fuel := by
        rw [steps] at hfuel
        omega
      rw [chars, clean_cons, clean_append] at hclean
      have hread := readItems_chars item items fuel rest hsteps hclean.2.1
      have hopen : (joined (itemTexts (item :: items)) ++ ']' :: rest).head? ≠ some ']' := by
        rw [itemTexts]
        cases items with
        | nil => simpa [joined, itemTexts] using head?_chars item (']' :: rest)
        | cons item' items =>
            rw [itemTexts, joined_cons_cons, List.append_assoc]
            exact head?_chars item _
      rw [chars, List.cons_append, List.append_assoc, List.singleton_append, readValue,
        if_neg (by decide), if_pos rfl, if_neg hopen, hread]
      rfl
  | obj [], fuel + 1, rest, _, _, _ => by simp [chars, memberTexts, joined, readValue]
  | obj ((key, value) :: members), fuel + 1, rest, hfuel, hclean, _ => by
      have hsteps : memberSteps ((key, value) :: members) ≤ fuel := by
        rw [steps] at hfuel
        omega
      rw [chars, clean_cons, clean_append] at hclean
      have hread := readMembers_chars key value members fuel rest hsteps hclean.2.1
      have hopen : (joined (memberTexts ((key, value) :: members)) ++ '\x7d' :: rest).head? ≠
          some '\x7d' := by
        rw [memberTexts]
        cases members <;> simp [joined, memberTexts, quoted]
      rw [chars, List.cons_append, List.append_assoc, List.singleton_append, readValue,
        if_neg (by decide), if_neg (by decide), if_pos rfl, if_neg hopen, hread]
      rfl

theorem readItems_chars : ∀ (item : Json) (items : List Json) (fuel : Nat) (rest : List Char),
    itemSteps (item :: items) ≤ fuel → Clean (joined (itemTexts (item :: items))) →
    readItems fuel (joined (itemTexts (item :: items)) ++ ']' :: rest) =
      some (item :: items, rest)
  | _, _, 0, _, hfuel, _ => by simp [itemSteps] at hfuel
  | item, [], fuel + 1, rest, hfuel, hclean => by
      have hsteps : item.steps ≤ fuel := by
        rw [itemSteps, itemSteps] at hfuel
        omega
      have htext : joined (itemTexts [item]) = item.chars := by simp [joined, itemTexts]
      rw [htext] at hclean ⊢
      have hread := readValue_chars item fuel (']' :: rest) hsteps hclean (noDigit_cons rfl)
      rw [readItems, hread]
      rfl
  | item, item' :: items, fuel + 1, rest, hfuel, hclean => by
      have hsteps : item.steps ≤ fuel ∧ itemSteps (item' :: items) ≤ fuel := by
        rw [itemSteps] at hfuel
        omega
      rw [itemTexts, itemTexts, joined_cons_cons, clean_append, clean_cons] at hclean
      have hfirst := readValue_chars item fuel
        (',' :: (joined (itemTexts (item' :: items)) ++ ']' :: rest)) hsteps.1 hclean.1
        (noDigit_cons rfl)
      have hrest := readItems_chars item' items fuel rest hsteps.2 hclean.2.2
      rw [itemTexts, itemTexts, joined_cons_cons, List.append_assoc, List.cons_append, readItems]
      rw [itemTexts] at hfirst hrest
      rw [hfirst]
      simp [hrest]

theorem readMembers_chars : ∀ (key : String) (value : Json) (members : List (String × Json))
    (fuel : Nat) (rest : List Char), memberSteps ((key, value) :: members) ≤ fuel →
    Clean (joined (memberTexts ((key, value) :: members))) →
    readMembers fuel (joined (memberTexts ((key, value) :: members)) ++ '\x7d' :: rest) =
      some ((key, value) :: members, rest)
  | _, _, _, 0, _, hfuel, _ => by simp [memberSteps] at hfuel
  | key, value, [], fuel + 1, rest, hfuel, hclean => by
      have hsteps : value.steps ≤ fuel := by
        rw [memberSteps, memberSteps] at hfuel
        omega
      have htext : joined (memberTexts [(key, value)]) = quoted key ++ ':' :: value.chars := by
        simp [joined, memberTexts]
      rw [htext] at hclean ⊢
      rw [clean_append, clean_cons] at hclean
      have hvalue := readValue_chars value fuel ('\x7d' :: rest) hsteps hclean.2.2
        (noDigit_cons rfl)
      obtain ⟨cs, hcs, hkey⟩ := readString_quoted hclean.1
        (':' :: (value.chars ++ '\x7d' :: rest))
      rw [List.append_assoc, List.cons_append, hcs, readMembers]
      simp [hkey, hvalue]
  | key, value, (key', value') :: members, fuel + 1, rest, hfuel, hclean => by
      have hsteps : value.steps ≤ fuel ∧ memberSteps ((key', value') :: members) ≤ fuel := by
        rw [memberSteps] at hfuel
        omega
      rw [memberTexts, memberTexts, joined_cons_cons, clean_append, clean_append, clean_cons,
        clean_cons] at hclean
      have hvalue := readValue_chars value fuel
        (',' :: (joined (memberTexts ((key', value') :: members)) ++ '\x7d' :: rest)) hsteps.1
        hclean.1.2.2 (noDigit_cons rfl)
      have hrest := readMembers_chars key' value' members fuel rest hsteps.2 hclean.2.2
      obtain ⟨cs, hcs, hkey⟩ := readString_quoted hclean.1.1 (':' :: (value.chars ++
        ',' :: (joined (memberTexts ((key', value') :: members)) ++ '\x7d' :: rest)))
      rw [memberTexts] at hrest hvalue hcs hkey
      rw [memberTexts, memberTexts, joined_cons_cons, List.append_assoc, List.append_assoc,
        List.cons_append, List.cons_append, hcs, readMembers]
      simp [hkey, hvalue, hrest]

end

mutual

theorem steps_le_length : ∀ v : Json, v.steps ≤ v.chars.length
  | null => by simp [steps, chars]
  | bool b => by cases b <;> simp [steps, chars, boolChars]
  | num n => by
      obtain ⟨c, digits, hdigits, _⟩ := exists_toDigits n.natAbs
      rw [steps, chars, toList_repr, hdigits]
      split <;> simp
  | str s => by simp [steps, chars, quoted]
  | arr items => by
      have hitems := itemSteps_le_length items
      rw [steps, chars, List.length_cons, List.length_append, List.length_singleton]
      omega
  | obj members => by
      have hmembers := memberSteps_le_length members
      rw [steps, chars, List.length_cons, List.length_append, List.length_singleton]
      omega

theorem itemSteps_le_length : ∀ items : List Json,
    itemSteps items ≤ (joined (itemTexts items)).length + 1
  | [] => by simp [itemSteps]
  | [item] => by
      have hitem := steps_le_length item
      have htext : joined (itemTexts [item]) = item.chars := by simp [joined, itemTexts]
      rw [itemSteps, itemSteps, htext]
      omega
  | item :: item' :: items => by
      have hitem := steps_le_length item
      have hrest := itemSteps_le_length (item' :: items)
      rw [itemTexts] at hrest
      rw [itemSteps, itemTexts, itemTexts, joined_cons_cons, List.length_append, List.length_cons]
      omega

theorem memberSteps_le_length : ∀ members : List (String × Json),
    memberSteps members ≤ (joined (memberTexts members)).length + 1
  | [] => by simp [memberSteps]
  | [(key, value)] => by
      have hvalue := steps_le_length value
      have htext : joined (memberTexts [(key, value)]) = quoted key ++ ':' :: value.chars := by
        simp [joined, memberTexts]
      rw [memberSteps, memberSteps, htext, List.length_append, List.length_cons]
      omega
  | (key, value) :: (key', value') :: members => by
      have hvalue := steps_le_length value
      have hrest := memberSteps_le_length ((key', value') :: members)
      rw [memberTexts] at hrest
      rw [memberSteps, memberTexts, memberTexts, joined_cons_cons, List.length_append,
        List.length_append, List.length_cons, List.length_cons]
      omega

end

/-! ## What is read holds no control character -/

/-- What a reader takes. -/
def Takes (cs rest : List Char) : Prop := ∃ used, cs = used ++ rest ∧ Clean used

namespace Takes

theorem refl (cs : List Char) : Takes cs cs := ⟨[], rfl, fun _ hc => absurd hc List.not_mem_nil⟩

theorem trans {cs mid rest : List Char} (h : Takes cs mid) (h' : Takes mid rest) :
    Takes cs rest := by
  obtain ⟨used, rfl, hused⟩ := h
  obtain ⟨used', rfl, hused'⟩ := h'
  exact ⟨used ++ used', (List.append_assoc ..).symm, clean_append.2 ⟨hused, hused'⟩⟩

theorem cons {c : Char} {cs rest : List Char} (hc : ¬ IsControl c) (h : Takes cs rest) :
    Takes (c :: cs) rest := by
  obtain ⟨used, rfl, hused⟩ := h
  exact ⟨c :: used, rfl, clean_cons.2 ⟨hc, hused⟩⟩

/-- A character that must stand there. -/
theorem head {c : Char} {cs : List Char} (hc : ¬ IsControl c) (h : cs.head? = some c) :
    Takes cs cs.tail := by
  cases cs with
  | nil => cases h
  | cons d cs =>
      obtain rfl := Option.some.inj h
      exact .cons hc (.refl cs)

end Takes

theorem not_isControl_of_unescape {e d : Char} (h : unescape e = some d) : ¬ IsControl e := by
  intro hcontrol
  have hne : e ≠ '"' ∧ e ≠ '\\' ∧ e ≠ '/' ∧ e ≠ 'n' ∧ e ≠ 'r' ∧ e ≠ 't' ∧ e ≠ 'b' ∧ e ≠ 'f' := by
    refine ⟨?_, ?_, ?_, ?_, ?_, ?_, ?_, ?_⟩ <;>
    · rintro rfl
      revert hcontrol
      decide
  simp [unescape, hne] at h

theorem readString_takes {cs s rest : List Char} (h : readString cs = some (s, rest)) :
    Takes cs rest := by
  fun_induction readString cs generalizing s rest with
  | case1 => cases h
  | case2 rest' =>
      obtain ⟨_, rfl⟩ := Prod.mk.inj (Option.some.inj h)
      exact .cons (by decide) (.refl _)
  | case3 => cases h
  | case4 _ e rest' ih =>
      obtain ⟨d, hd, h⟩ := Option.bind_eq_some_iff.1 h
      obtain ⟨⟨s', rest''⟩, hread, h⟩ := Option.bind_eq_some_iff.1 h
      obtain ⟨_, rfl⟩ := Prod.mk.inj (Option.some.inj h)
      exact .cons (by decide) (.cons (not_isControl_of_unescape hd) (ih hread))
  | case5 => cases h
  | case6 c rest' _ _ hplain ih =>
      obtain ⟨⟨s', rest''⟩, hread, h⟩ := Option.map_eq_some_iff.1 h
      obtain ⟨_, rfl⟩ := Prod.mk.inj h
      exact .cons hplain (ih hread)

theorem readNat_takes {cs rest : List Char} {n : Nat} (h : readNat cs = some (n, rest)) :
    Takes cs rest := by
  unfold readNat at h
  dsimp only at h
  split at h
  · cases h
  obtain ⟨_, rfl⟩ := Prod.mk.inj (Option.some.inj h)
  refine ⟨cs.takeWhile Char.isDigit, List.takeWhile_append_dropWhile.symm, fun c hc => ?_⟩
  have hdigit : c.isDigit = true := List.all_eq_true.1 List.all_takeWhile c hc
  have hge : 48 ≤ c.toNat := by
    simp only [Char.isDigit, ge_iff_le, Bool.and_eq_true, decide_eq_true_eq] at hdigit
    exact hdigit.1
  rw [IsControl]
  omega

theorem readWord_takes {word cs rest : List Char} {v v' : Json} (hword : Clean word)
    (h : readWord word v cs = some (v', rest)) : Takes cs rest := by
  unfold readWord at h
  split at h
  · rename_i hpre
    obtain ⟨_, rfl⟩ := Prod.mk.inj (Option.some.inj h)
    obtain ⟨after, rfl⟩ := List.isPrefixOf_iff_prefix.1 hpre
    exact ⟨word, by rw [List.drop_left], hword⟩
  · cases h

/-- The reader of values has taken a part of its text, if those of items and of members do so
with less fuel. -/
theorem readValue_takes {fuel : Nat}
    (hitems : ∀ cs items rest, readItems fuel cs = some (items, rest) → Takes cs rest)
    (hmembers : ∀ cs members rest, readMembers fuel cs = some (members, rest) → Takes cs rest)
    {cs rest : List Char} {v : Json} (h : readValue (fuel + 1) cs = some (v, rest)) :
    Takes cs rest := by
  cases cs with
  | nil => simp [readValue] at h
  | cons c cs =>
      rw [readValue] at h
      split at h
      · obtain ⟨r, hread, h⟩ := Option.map_eq_some_iff.1 h
        obtain ⟨_, rfl⟩ := Prod.mk.inj h
        subst_vars
        exact .cons (by decide) (readString_takes hread)
      split at h
      · subst_vars
        split at h
        · rename_i hclose
          obtain ⟨_, rfl⟩ := Prod.mk.inj (Option.some.inj h)
          exact .cons (by decide) (.head (by decide) hclose)
        · obtain ⟨r, hread, h⟩ := Option.map_eq_some_iff.1 h
          obtain ⟨_, rfl⟩ := Prod.mk.inj h
          exact .cons (by decide) (hitems _ _ _ hread)
      split at h
      · subst_vars
        split at h
        · rename_i hclose
          obtain ⟨_, rfl⟩ := Prod.mk.inj (Option.some.inj h)
          exact .cons (by decide) (.head (by decide) hclose)
        · obtain ⟨r, hread, h⟩ := Option.map_eq_some_iff.1 h
          obtain ⟨_, rfl⟩ := Prod.mk.inj h
          exact .cons (by decide) (hmembers _ _ _ hread)
      split at h
      · subst_vars
        exact .cons (by decide) (readWord_takes (by simp [Clean, IsControl]) h)
      split at h
      · subst_vars
        exact .cons (by decide) (readWord_takes (by simp [Clean, IsControl]) h)
      split at h
      · subst_vars
        exact .cons (by decide) (readWord_takes (by simp [Clean, IsControl]) h)
      split at h
      · obtain ⟨r, hread, h⟩ := Option.map_eq_some_iff.1 h
        obtain ⟨_, rfl⟩ := Prod.mk.inj h
        subst_vars
        exact .cons (by decide) (readNat_takes hread)
      · obtain ⟨r, hread, h⟩ := Option.map_eq_some_iff.1 h
        obtain ⟨_, rfl⟩ := Prod.mk.inj h
        exact readNat_takes hread

/-- So has the reader of the items of an array. -/
theorem readItems_takes {fuel : Nat}
    (hvalue : ∀ cs v rest, readValue fuel cs = some (v, rest) → Takes cs rest)
    (hitems : ∀ cs items rest, readItems fuel cs = some (items, rest) → Takes cs rest)
    {cs rest : List Char} {items : List Json} (h : readItems (fuel + 1) cs = some (items, rest)) :
    Takes cs rest := by
  rw [readItems] at h
  obtain ⟨⟨item, mid⟩, hitem, h⟩ := Option.bind_eq_some_iff.1 h
  have hfirst := hvalue _ _ _ hitem
  dsimp only at h
  split at h
  · rename_i hclose
    obtain ⟨_, rfl⟩ := Prod.mk.inj (Option.some.inj h)
    exact hfirst.trans (.head (by decide) hclose)
  split at h
  · rename_i hcomma
    obtain ⟨⟨items', rest'⟩, hread, h⟩ := Option.bind_eq_some_iff.1 h
    obtain ⟨_, rfl⟩ := Prod.mk.inj (Option.some.inj h)
    exact hfirst.trans ((Takes.head (by decide) hcomma).trans (hitems _ _ _ hread))
  · cases h

/-- And that of the members of an object. -/
theorem readMembers_takes {fuel : Nat}
    (hvalue : ∀ cs v rest, readValue fuel cs = some (v, rest) → Takes cs rest)
    (hmembers : ∀ cs members rest, readMembers fuel cs = some (members, rest) → Takes cs rest)
    {cs rest : List Char} {members : List (String × Json)}
    (h : readMembers (fuel + 1) cs = some (members, rest)) : Takes cs rest := by
  rw [readMembers] at h
  obtain ⟨_, hquote, h⟩ := Option.bind_eq_some_iff.1 h
  obtain ⟨⟨key, afterKey⟩, hkey, h⟩ := Option.bind_eq_some_iff.1 h
  obtain ⟨_, hcolon, h⟩ := Option.bind_eq_some_iff.1 h
  obtain ⟨⟨value, mid⟩, hread, h⟩ := Option.bind_eq_some_iff.1 h
  rw [Option.guard_eq_some'] at hquote hcolon
  have hfirst : Takes cs mid :=
    (Takes.head (by decide) hquote).trans ((readString_takes hkey).trans
      ((Takes.head (by decide) hcolon).trans (hvalue _ _ _ hread)))
  dsimp only at h
  split at h
  · rename_i hclose
    obtain ⟨_, rfl⟩ := Prod.mk.inj (Option.some.inj h)
    exact hfirst.trans (.head (by decide) hclose)
  split at h
  · rename_i hcomma
    obtain ⟨⟨members', rest'⟩, hmore, h⟩ := Option.bind_eq_some_iff.1 h
    obtain ⟨_, rfl⟩ := Prod.mk.inj (Option.some.inj h)
    exact hfirst.trans ((Takes.head (by decide) hcomma).trans (hmembers _ _ _ hmore))
  · cases h

theorem read_takes (fuel : Nat) :
    (∀ cs v rest, readValue fuel cs = some (v, rest) → Takes cs rest) ∧
      (∀ cs items rest, readItems fuel cs = some (items, rest) → Takes cs rest) ∧
      ∀ cs members rest, readMembers fuel cs = some (members, rest) → Takes cs rest := by
  induction fuel with
  | zero =>
      refine ⟨?_, ?_, ?_⟩
      · intro _ _ _ h
        simp [readValue] at h
      · intro _ _ _ h
        simp [readItems] at h
      · intro _ _ _ h
        simp [readMembers] at h
  | succ fuel ih =>
      obtain ⟨hvalue, hitems, hmembers⟩ := ih
      exact ⟨fun _ _ _ h => readValue_takes hitems hmembers h,
        fun _ _ _ h => readItems_takes hvalue hitems h,
        fun _ _ _ h => readMembers_takes hvalue hmembers h⟩

/-- What is read has no control character in it. -/
theorem clean_of_read {s : String} {v : Json} (h : read s = some v) : Clean s.toList := by
  unfold read at h
  split at h
  · rename_i v' hread
    obtain ⟨used, hused, hclean⟩ := (read_takes _).1 _ _ _ hread
    rw [hused, List.append_nil]
    exact hclean
  · cases h

/-- The text of a value is read back exactly if no control character stands in it. -/
theorem read_text_iff (v : Json) : read v.text = some v ↔ Clean v.chars := by
  constructor
  · intro h
    have hclean := clean_of_read h
    rwa [text, String.toList_ofList] at hclean
  · intro h
    rw [read, text, String.toList_ofList]
    have hsteps : v.steps ≤ v.chars.length + 1 := Nat.le_succ_of_le (steps_le_length v)
    have hend : NoDigit [] := fun _ hc => by cases hc
    have hread := readValue_chars v (v.chars.length + 1) [] hsteps h hend
    rw [List.append_nil] at hread
    rw [hread]

/-! ## Values whose text is read back -/

theorem read_text_eq_iff (v v' : Json) : read v.text = some v' ↔ Clean v.chars ∧ v = v' := by
  constructor
  · intro h
    have hclean := clean_of_read h
    rw [text, String.toList_ofList] at hclean
    have hread := (read_text_iff v).2 hclean
    exact ⟨hclean, Option.some.inj (hread.symm.trans h)⟩
  · rintro ⟨hclean, rfl⟩
    exact (read_text_iff v).2 hclean

/-- A character that its escape makes fit to stand in a string. -/
def legible (c : Char) : Bool := c == '\n' || !decide (IsControl c)

/-- A string without control characters but line feeds.  These are the strings that come through
an escape that knows quotes, backslashes and line feeds only. -/
def Legible (s : String) : Prop := s.toList.all legible = true

instance (cs : List Char) : Decidable (Clean cs) :=
  decidable_of_iff (cs.all (fun c => !decide (IsControl c)) = true) (by simp [Clean])

instance (s : String) : Decidable (Legible s) := inferInstanceAs (Decidable (_ = true))

theorem clean_escape {c : Char} : Clean (escape c) ↔ legible c = true := by
  unfold escape
  split
  · subst_vars
    decide
  split
  · subst_vars
    decide
  split
  · subst_vars
    decide
  · rename_i hline
    simp [Clean, legible, hline]

@[simp] theorem clean_quoted (s : String) : Clean (quoted s) ↔ Legible s := by
  have hbody : Clean (s.toList.flatMap escape) ↔ Legible s := by
    unfold Legible
    induction s.toList with
    | nil => simp [Clean]
    | cons c cs ih =>
        rw [List.flatMap_cons, clean_append, clean_escape, ih, List.all_cons, Bool.and_eq_true]
  have hquote : ¬ IsControl '"' := by decide
  rw [quoted, clean_cons, clean_append, hbody]
  simp [Clean, hquote]

theorem clean_joined (texts : List (List Char)) :
    Clean (joined texts) ↔ ∀ t ∈ texts, Clean t := by
  have hcomma : ¬ IsControl ',' := by decide
  induction texts with
  | nil => simp [joined, Clean]
  | cons t rest ih =>
      cases rest with
      | nil => simp [joined]
      | cons t' rest =>
          rw [joined_cons_cons, clean_append, clean_cons]
          simp only [ih, List.forall_mem_cons, hcomma, not_false_eq_true, true_and]

@[simp] theorem clean_null : Clean null.chars := by
  rw [chars]
  decide

@[simp] theorem clean_bool (b : Bool) : Clean (bool b).chars := by
  rw [chars]
  cases b <;> decide

@[simp] theorem clean_num (n : Int) : Clean (num n).chars := by
  have hdigit : ∀ m : Nat, Clean (Nat.toDigits 10 m) := by
    intro m c hc hcontrol
    have hdig := Nat.isDigit_of_mem_toDigits (by decide) (by decide) hc
    have hge : 48 ≤ c.toNat := by
      simp [Char.isDigit] at hdig
      exact hdig.1
    unfold IsControl at hcontrol
    omega
  rw [chars, toList_repr]
  split
  · exact clean_cons.2 ⟨by decide, hdigit _⟩
  · exact hdigit _

@[simp] theorem clean_str (s : String) : Clean (str s).chars ↔ Legible s := by
  rw [chars, clean_quoted]

theorem clean_arr (items : List Json) :
    Clean (arr items).chars ↔ ∀ v ∈ items, Clean v.chars := by
  have hopen : ¬ IsControl '[' := by decide
  have hclose : Clean [']'] := by decide
  rw [chars, clean_cons, clean_append, clean_joined, itemTexts_eq, List.forall_mem_map]
  simp only [hopen, not_false_eq_true, true_and, hclose, and_true]

@[simp] theorem clean_arr_nil : Clean (arr []).chars := by
  rw [chars]
  decide

@[simp] theorem clean_arr_map {α : Type} (items : List α) (g : α → Json) :
    Clean (arr (items.map g)).chars ↔ ∀ x ∈ items, Clean (g x).chars := by
  rw [clean_arr, List.forall_mem_map]

@[simp] theorem clean_obj (members : List (String × Json)) :
    Clean (obj members).chars ↔ ∀ m ∈ members, Legible m.1 ∧ Clean m.2.chars := by
  have hopen : ¬ IsControl '\x7b' := by decide
  have hclose : Clean ['\x7d'] := by decide
  have hcolon : ¬ IsControl ':' := by decide
  rw [chars, clean_cons, clean_append, clean_joined, memberTexts_eq, List.forall_mem_map]
  simp only [hopen, not_false_eq_true, true_and, hclose, and_true, clean_append, clean_quoted,
    clean_cons, hcolon]

end Json

end Kovanica.Lib
