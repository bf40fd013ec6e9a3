import Kovanica.Lib.Word

/-!
# Bounds-checked readers

A reader consumes a prefix of the unread bytes or fails.  `Reader.Reads r bytes a`
says that `r` turns exactly the bytes `bytes` into `a`, whatever follows them;
the rules below compose such facts along the structure of a decoder, so that a
round trip is proved field by field.  `Reader.Canonical r enc` is the other
direction: `r` accepts nothing but encodings.  `Reader.Incremental eof r` says what
becomes of an accepted input that is extended or cut off.

## Main results

* `Reads.bind_nil`, `Reads.map`, `reads_counted`: a round trip follows the structure of the
  decoder, down to its last field.
* `readCount_eq_ok`: a count that was accepted is one the unread bytes have room for.
* `Canonical.decodeAll_cut`, `Incremental.decodeAll_cut`, `Incremental.decodeAll_extend`: an
  input that is cut off is too short, and one that goes on has bytes left over.
-/

namespace Kovanica.Lib

/-- A decoder over the bytes still unread, failing with errors of type `ε`.  What it returns
besides the value are the bytes it has not read. -/
abbrev Reader (ε α : Type) : Type := List U8 → Except ε (α × List U8)

namespace Reader

variable {ε α β : Type}

def pure (a : α) : Reader ε α := fun rest => .ok (a, rest)

def bind (r : Reader ε α) (f : α → Reader ε β) : Reader ε β := fun rest =>
  match r rest with
  | .error e => .error e
  | .ok (a, rest') => f a rest'

instance : Monad (Reader ε) where
  pure := Reader.pure
  bind := Reader.bind

/-- `read_array::<n>()`, failing with `eof` when fewer than `n` bytes are left. -/
def readArray (eof : ε) (n : Nat) : Reader ε (Bytes n) := fun rest =>
  if h : rest.length < n then .error eof
  else .ok (⟨rest.take n, by rw [List.length_take]; omega⟩, rest.drop n)

/-- `read_slice(len)`: the next `len` bytes. -/
def readSlice (eof : ε) (len : Nat) : Reader ε (List U8) := fun rest =>
  if rest.length < len then .error eof else .ok (rest.take len, rest.drop len)

/-- A little-endian word of `n` bytes. -/
def readWord (eof : ε) (n w : Nat) : Reader ε (Word w) :=
  readArray eof n >>= fun bytes => Pure.pure (Word.cast w (ofLeBytes bytes.val))

/-- `read_count(min)`: a 64-bit length prefix, refused when that many elements
of at least `min` bytes each cannot fit in what is left. -/
def readCount (eof : ε) (min : Nat) : Reader ε Nat :=
  readWord eof 8 64 >>= fun n rest =>
    if 0 < min ∧ rest.length / min < n.val then .error eof else .ok (n.val, rest)

/-- `read_count(min)` with an error of its own for a count that is too large. -/
def readCountOr (eof large : ε) (min : Nat) : Reader ε Nat :=
  readWord eof 8 64 >>= fun n rest =>
    if 0 < min ∧ rest.length / min < n.val then .error large else .ok (n.val, rest)

def fail (e : ε) : Reader ε α := fun _ => .error e

/-- A result that reads nothing. -/
def lift (x : Except ε α) : Reader ε α := fun rest => x.map fun a => (a, rest)

/-- What was read under a 64-bit count, as a vector; a longer list is never read. -/
def toVec (eof : ε) (items : List α) : Reader ε (Vec α) :=
  match Vec.ofList? items with
  | some items => Pure.pure items
  | none => fail eof

/-- `count` values read one after another. -/
def readMany (r : Reader ε α) : Nat → Reader ε (List α)
  | 0 => Pure.pure []
  | count + 1 => r >>= fun a => readMany r count >>= fun rest => Pure.pure (a :: rest)

/-- Decode a whole buffer: nothing may follow what `r` reads. -/
def decodeAll (trailing : ε) (r : Reader ε α) (bytes : List U8) : Except ε α :=
  match r bytes with
  | .error e => .error e
  | .ok (a, rest) => if rest.isEmpty then .ok a else .error trailing

/-! ## Reading back what was written -/

/-- `r` turns the bytes `bytes` into `a` and leaves what follows untouched.  This composes along
a decoder: the bytes of the parts are the bytes of the whole. -/
def Reads (r : Reader ε α) (bytes : List U8) (a : α) : Prop :=
  ∀ rest, r (bytes ++ rest) = .ok (a, rest)

theorem bind_ok {r : Reader ε α} {f : α → Reader ε β} {bytes rest : List U8} {a : α}
    (h : r bytes = .ok (a, rest)) : (r >>= f) bytes = f a rest := by
  change Reader.bind r f bytes = f a rest
  rw [Reader.bind, h]

theorem Reads.pure (a : α) : Reads (Pure.pure a : Reader ε α) [] a := fun _ => rfl

theorem Reads.bind {r : Reader ε α} {f : α → Reader ε β} {bytes bytes' : List U8} {a : α}
    {b : β} (hr : Reads r bytes a) (hf : Reads (f a) bytes' b) :
    Reads (r >>= f) (bytes ++ bytes') b := by
  intro rest
  rw [List.append_assoc, bind_ok (hr _), hf]

/-- What comes after reads nothing. -/
theorem Reads.bind_nil {r : Reader ε α} {f : α → Reader ε β} {bytes : List U8} {a : α} {b : β}
    (hr : Reads r bytes a) (hf : Reads (f a) [] b) : Reads (r >>= f) bytes b := fun rest =>
  (bind_ok (hr rest)).trans (hf rest)

/-- The last field of a record: nothing is read after it. -/
theorem Reads.map {r : Reader ε α} {bytes : List U8} {a : α} (hr : Reads r bytes a)
    (g : α → β) : Reads (r >>= fun x => Pure.pure (g x)) bytes (g a) := fun rest =>
  (bind_ok (hr rest)).trans rfl

theorem reads_lift {x : Except ε α} {a : α} (h : x = .ok a) : Reads (lift x) [] a := by
  intro rest
  rw [lift, h]
  rfl

theorem reads_toVec (eof : ε) (items : Vec α) : Reads (toVec eof items.val) [] items := by
  intro rest
  rw [toVec, Vec.ofList?, dif_pos items.property]
  rfl

theorem reads_readArray (eof : ε) {n : Nat} (bytes : Bytes n) :
    Reads (readArray eof n) bytes.val bytes := by
  intro rest
  obtain ⟨bytes, hlen⟩ := bytes
  have hfit : ¬ (bytes ++ rest).length < n := by
    rw [List.length_append]
    omega
  have htake : (bytes ++ rest).take n = bytes := by
    rw [← hlen, List.take_left']
    rfl
  have hdrop : (bytes ++ rest).drop n = rest := by
    rw [← hlen, List.drop_left']
    rfl
  simp only [readArray, dif_neg hfit, htake, hdrop]

theorem reads_readSlice (eof : ε) (bytes : List U8) :
    Reads (readSlice eof bytes.length) bytes bytes := by
  intro rest
  have hfit : ¬ (bytes ++ rest).length < bytes.length := by
    rw [List.length_append]
    omega
  rw [readSlice, if_neg hfit, List.take_left' rfl, List.drop_left' rfl]

theorem reads_readWord (eof : ε) {n w : Nat} (h : 2 ^ w = 256 ^ n) (v : Word w) :
    Reads (readWord eof n w) (toLeBytes n v.val) v := by
  have hbytes := reads_readArray eof ⟨toLeBytes n v.val, length_toLeBytes n v.val⟩
  have hv : v.val < 256 ^ n := h ▸ v.isLt
  intro rest
  refine (bind_ok (hbytes rest)).trans ?_
  have hcast : Word.cast w (ofLeBytes (toLeBytes n v.val)) = v := by
    rw [ofLeBytes_toLeBytes n v.val hv]
    exact Fin.ext (Word.cast_of_lt v.isLt)
  exact congrArg (fun x => Except.ok (x, rest)) hcast

/-- A length prefix followed by enough bytes is read back. -/
theorem readCount_append (eof : ε) {min n : Nat} (hn : n < 2 ^ 64) {rest : List U8}
    (hfit : n * min ≤ rest.length) :
    readCount eof min (toLeBytes 8 n ++ rest) = .ok (n, rest) := by
  have hword := reads_readWord eof (n := 8) (w := 64) (by decide) ⟨n, hn⟩ rest
  refine (bind_ok hword).trans ?_
  refine if_neg ?_
  rintro ⟨hmin, hlt⟩
  exact absurd ((Nat.le_div_iff_mul_le hmin).2 hfit) (by simpa using hlt)

theorem reads_readMany {r : Reader ε α} {enc : α → List U8} {l : List α}
    (h : ∀ a ∈ l, Reads r (enc a) a) : Reads (readMany r l.length) (l.flatMap enc) l := by
  induction l with
  | nil => exact Reads.pure []
  | cons a l ih =>
      have hl := ih fun b hb => h b (List.mem_cons_of_mem a hb)
      exact (h a (List.mem_cons_self ..)).bind (hl.map (List.cons a))

/-- Encodings of at least `min` bytes each take so many bytes together. -/
theorem mul_le_length_flatMap {enc : α → List U8} {l : List α} {min : Nat}
    (hmin : ∀ a ∈ l, min ≤ (enc a).length) : l.length * min ≤ (l.flatMap enc).length := by
  induction l with
  | nil => simp
  | cons a l ih =>
      have ha := hmin a (List.mem_cons_self ..)
      have hl := ih fun b hb => hmin b (List.mem_cons_of_mem a hb)
      rw [List.length_cons, List.flatMap_cons, List.length_append, Nat.succ_mul]
      omega

/-- A length-prefixed sequence is read back, given that no element is shorter
than the reader's `min`. -/
theorem reads_counted {r : Reader ε α} {enc : α → List U8} {l : List α} (eof : ε) (min : Nat)
    (hlen : l.length < 2 ^ 64) (hmin : ∀ a ∈ l, min ≤ (enc a).length)
    (h : ∀ a ∈ l, Reads r (enc a) a) :
    Reads (readCount eof min >>= readMany r) (toLeBytes 8 l.length ++ l.flatMap enc) l := by
  have hsize := mul_le_length_flatMap hmin
  intro rest
  rw [List.append_assoc]
  rw [bind_ok (readCount_append eof hlen (by rw [List.length_append]; omega))]
  exact reads_readMany h rest

/-- A length-prefixed byte string is read back. -/
theorem reads_countedSlice (eof : ε) (bytes : List U8) (hlen : bytes.length < 2 ^ 64) :
    Reads (readCount eof 1 >>= readSlice eof) (toLeBytes 8 bytes.length ++ bytes) bytes := by
  intro rest
  rw [List.append_assoc]
  rw [bind_ok (readCount_append eof hlen (by rw [List.length_append]; omega))]
  exact reads_readSlice eof bytes rest

/-! ## What is accepted was written -/

/-- Whatever `r` accepts starts with the encoding of the value it returns.  With the round trip
this makes the decoder the inverse of the encoder, and no two inputs decode alike. -/
def Canonical (r : Reader ε α) (enc : α → List U8) : Prop :=
  ∀ bytes a rest, r bytes = .ok (a, rest) → bytes = enc a ++ rest

theorem bind_eq_ok {r : Reader ε α} {f : α → Reader ε β} {bytes rest : List U8} {b : β} :
    (r >>= f) bytes = .ok (b, rest) ↔
      ∃ a mid, r bytes = .ok (a, mid) ∧ f a mid = .ok (b, rest) := by
  show Reader.bind r f bytes = .ok (b, rest) ↔ _
  unfold Reader.bind
  cases r bytes with
  | error e => simp
  | ok out =>
      constructor
      · exact fun h => ⟨out.1, out.2, rfl, h⟩
      · rintro ⟨a, mid, hout, h⟩
        rwa [(Except.ok.inj hout : out = (a, mid))]

theorem pure_eq_ok {a b : α} {bytes rest : List U8} :
    (Pure.pure a : Reader ε α) bytes = .ok (b, rest) ↔ a = b ∧ bytes = rest := by
  show (Except.ok (a, bytes) : Except ε (α × List U8)) = .ok (b, rest) ↔ _
  simp

theorem lift_eq_ok {x : Except ε α} {a : α} {bytes rest : List U8} :
    lift x bytes = .ok (a, rest) ↔ x = .ok a ∧ bytes = rest := by
  unfold lift
  cases x with
  | error e => simp [Except.map]
  | ok a' => simp [Except.map]

theorem canonical_readArray (eof : ε) (n : Nat) : Canonical (readArray eof n) Subtype.val := by
  intro bytes a rest h
  unfold readArray at h
  split at h
  · cases h
  · simp only [Except.ok.injEq, Prod.mk.injEq] at h
    rw [← h.1, ← h.2, List.take_append_drop]

theorem readSlice_eq_ok {eof : ε} {len : Nat} {bytes slice rest : List U8}
    (h : readSlice eof len bytes = .ok (slice, rest)) :
    slice.length = len ∧ bytes = slice ++ rest := by
  unfold readSlice at h
  split at h
  · cases h
  · rename_i hfit
    obtain ⟨rfl, rfl⟩ := Prod.mk.inj (Except.ok.inj h)
    rw [List.length_take, List.take_append_drop]
    exact ⟨by omega, rfl⟩

theorem canonical_readWord (eof : ε) {n w : Nat} (h : 2 ^ w = 256 ^ n) :
    Canonical (readWord eof n w) fun v => toLeBytes n v.val := by
  intro bytes v rest hread
  obtain ⟨digits, mid, hdigits, hv⟩ := bind_eq_ok.1 hread
  obtain ⟨rfl, rfl⟩ := pure_eq_ok.1 hv
  have hlt := ofLeBytes_lt digits.val
  rw [digits.property, ← h] at hlt
  have hback := toLeBytes_ofLeBytes digits.val
  rw [digits.property] at hback
  show bytes = toLeBytes n (Word.cast w (ofLeBytes digits.val)).val ++ mid
  rw [canonical_readArray eof n bytes digits mid hdigits, Word.cast_of_lt hlt, hback]

/-- An accepted length prefix leaves room for that many elements. -/
theorem readCount_eq_ok {eof : ε} {min n : Nat} {bytes rest : List U8}
    (h : readCount eof min bytes = .ok (n, rest)) :
    bytes = toLeBytes 8 n ++ rest ∧ n < 2 ^ 64 ∧ (0 < min → n * min ≤ rest.length) := by
  obtain ⟨v, mid, hv, hn⟩ := bind_eq_ok.1 h
  have hbytes := canonical_readWord eof (by decide) bytes v mid hv
  split at hn
  · cases hn
  · rename_i hfit
    simp only [Except.ok.injEq, Prod.mk.injEq] at hn
    rw [← hn.1, ← hn.2]
    refine ⟨hbytes, v.isLt, fun hmin => ?_⟩
    apply (Nat.le_div_iff_mul_le hmin).1
    omega

theorem readMany_eq_ok {r : Reader ε α} {enc : α → List U8} (hr : Canonical r enc) {n : Nat}
    {bytes rest : List U8} {l : List α} (h : readMany r n bytes = .ok (l, rest)) :
    l.length = n ∧ bytes = l.flatMap enc ++ rest := by
  induction n generalizing bytes l with
  | zero =>
      obtain ⟨rfl, rfl⟩ := pure_eq_ok.1 h
      simp
  | succ n ih =>
      obtain ⟨a, mid, ha, h⟩ := bind_eq_ok.1 h
      obtain ⟨l', mid', hl', h⟩ := bind_eq_ok.1 h
      obtain ⟨rfl, rfl⟩ := pure_eq_ok.1 h
      obtain ⟨hlen, hmid⟩ := ih hl'
      rw [hr bytes a mid ha, hmid]
      simp [hlen]

theorem canonical_counted {r : Reader ε α} {enc : α → List U8} (hr : Canonical r enc) (eof : ε)
    (min : Nat) : Canonical (readCount eof min >>= readMany r) fun l =>
      toLeBytes 8 l.length ++ l.flatMap enc := by
  intro bytes l rest h
  obtain ⟨n, mid, hn, hl⟩ := bind_eq_ok.1 h
  obtain ⟨hlen, hmid⟩ := readMany_eq_ok hr hl
  show bytes = toLeBytes 8 l.length ++ l.flatMap enc ++ rest
  rw [(readCount_eq_ok hn).1, hmid, hlen, List.append_assoc]

theorem toVec_eq_ok {eof : ε} {items : List α} {bytes rest : List U8} {v : Vec α}
    (h : toVec eof items bytes = .ok (v, rest)) : v.val = items ∧ bytes = rest := by
  unfold toVec Vec.ofList? at h
  by_cases hfit : items.length < 2 ^ 64
  · rw [dif_pos hfit] at h
    obtain ⟨rfl, rfl⟩ := pure_eq_ok.1 h
    exact ⟨rfl, rfl⟩
  · rw [dif_neg hfit] at h
    cases h

theorem canonical_countedSlice (eof : ε) : Canonical (readCount eof 1 >>= readSlice eof)
    fun bytes => toLeBytes 8 bytes.length ++ bytes := by
  intro bytes slice rest h
  obtain ⟨n, mid, hn, hslice⟩ := bind_eq_ok.1 h
  obtain ⟨hlen, hmid⟩ := readSlice_eq_ok hslice
  show bytes = toLeBytes 8 slice.length ++ slice ++ rest
  rw [(readCount_eq_ok hn).1, hlen, List.append_assoc, hmid]

/-! ## Readers that return the same -/

/-- The two readers return the same values, and may fail with different errors. -/
def Agree (r r' : Reader ε α) : Prop := ∀ bytes out, r bytes = .ok out ↔ r' bytes = .ok out

namespace Agree

variable {r r' : Reader ε α}

theorem reads (h : Agree r r') {bytes : List U8} {a : α} (hr : Reads r bytes a) :
    Reads r' bytes a := fun rest => (h _ _).1 (hr rest)

theorem canonical (h : Agree r r') {enc : α → List U8} (hr : Canonical r enc) :
    Canonical r' enc := fun bytes a rest hread => hr bytes a rest ((h _ _).2 hread)

theorem bind (h : Agree r r') (f : α → Reader ε β) : Agree (r >>= f) (r' >>= f) := by
  intro bytes out
  rw [bind_eq_ok, bind_eq_ok]
  simp only [h bytes _]

end Agree

theorem agree_readCountOr (eof large : ε) (min : Nat) :
    Agree (readCount eof min) (readCountOr eof large min) := by
  intro bytes out
  obtain ⟨n, rest⟩ := out
  unfold readCount readCountOr
  rw [bind_eq_ok, bind_eq_ok]
  refine exists_congr fun v => exists_congr fun mid => and_congr_right fun _ => ?_
  split
  · exact ⟨fun h => (by cases h), fun h => (by cases h)⟩
  · exact Iff.rfl

/-! ## Longer and shorter inputs -/

/-- What follows is left unread, and on an input cut off `r` reads something or fails
with `eof`. -/
structure Incremental (eof : ε) (r : Reader ε α) : Prop where
  extend : ∀ {bytes a rest}, r bytes = .ok (a, rest) →
    ∀ ext, r (bytes ++ ext) = .ok (a, rest ++ ext)
  cut : ∀ {bytes ext out}, r (bytes ++ ext) = .ok out →
    r bytes = .error eof ∨ ∃ out', r bytes = .ok out'

theorem Incremental.pure (eof : ε) (a : α) : Incremental eof (Pure.pure a : Reader ε α) where
  extend := by
    intro bytes b rest h ext
    obtain ⟨rfl, rfl⟩ := pure_eq_ok.1 h
    rfl
  cut := fun _ => .inr ⟨_, rfl⟩

theorem Incremental.fail (eof e : ε) : Incremental eof (Reader.fail e : Reader ε α) where
  extend := fun h => by cases h
  cut := fun h => by cases h

theorem Incremental.bind {eof : ε} {r : Reader ε α} {f : α → Reader ε β}
    (hr : Incremental eof r) (hf : ∀ a, Incremental eof (f a)) : Incremental eof (r >>= f) where
  extend := by
    intro bytes b rest h ext
    obtain ⟨a, mid, ha, hb⟩ := bind_eq_ok.1 h
    rw [bind_ok (hr.extend ha ext), (hf a).extend hb ext]
  cut := by
    intro bytes ext ⟨b, rest⟩ h
    obtain ⟨a, mid, ha, hb⟩ := bind_eq_ok.1 h
    rcases hr.cut ha with heof | ⟨⟨a', mid'⟩, hshort⟩
    · left
      show Reader.bind r f bytes = .error eof
      rw [Reader.bind, heof]
    · have hlong := (hr.extend hshort ext).symm.trans ha
      obtain ⟨rfl, rfl⟩ := Prod.mk.inj (Except.ok.inj hlong)
      rw [bind_ok hshort]
      exact (hf a').cut hb

theorem incremental_readArray (eof : ε) (n : Nat) : Incremental eof (readArray eof n) where
  extend := by
    intro bytes a rest h ext
    have hbytes := canonical_readArray eof n bytes a rest h
    rw [hbytes, List.append_assoc]
    exact reads_readArray eof a (rest ++ ext)
  cut := by
    intro bytes ext out _
    unfold readArray
    by_cases hshort : bytes.length < n
    · exact .inl (dif_pos hshort)
    · exact .inr ⟨_, dif_neg hshort⟩

theorem incremental_readSlice (eof : ε) (len : Nat) : Incremental eof (readSlice eof len) where
  extend := by
    intro bytes a rest h ext
    unfold readSlice at h ⊢
    split at h
    · cases h
    · rename_i hfit
      have hfit' : ¬ (bytes ++ ext).length < len := by
        rw [List.length_append]
        omega
      obtain ⟨rfl, rfl⟩ := Prod.mk.inj (Except.ok.inj h)
      rw [if_neg hfit', List.take_append_of_le_length (not_lt.1 hfit),
        List.drop_append_of_le_length (not_lt.1 hfit)]
  cut := by
    intro bytes ext out _
    unfold readSlice
    by_cases hshort : bytes.length < len
    · exact .inl (if_pos hshort)
    · exact .inr ⟨_, if_neg hshort⟩

theorem incremental_readWord (eof : ε) (n w : Nat) : Incremental eof (readWord eof n w) :=
  (incremental_readArray eof n).bind fun _ => .pure eof _

theorem incremental_readCount (eof : ε) (min : Nat) : Incremental eof (readCount eof min) := by
  apply (incremental_readWord eof 8 64).bind
  intro n
  constructor
  · intro bytes a rest h ext
    split at h
    · cases h
    · rename_i hfit
      obtain ⟨rfl, rfl⟩ := Prod.mk.inj (Except.ok.inj h)
      have hfit' : ¬ (0 < min ∧ (bytes ++ ext).length / min < n.val) := by
        intro ⟨hmin, hlt⟩
        have hle : bytes.length / min ≤ (bytes ++ ext).length / min := by
          apply Nat.div_le_div_right
          rw [List.length_append]
          omega
        exact hfit ⟨hmin, by omega⟩
      exact if_neg hfit'
  · intro bytes ext out _
    by_cases hlarge : 0 < min ∧ bytes.length / min < n.val
    · exact .inl (if_pos hlarge)
    · exact .inr ⟨_, if_neg hlarge⟩

theorem incremental_toVec (eof : ε) (items : List α) : Incremental eof (toVec eof items) := by
  unfold toVec
  cases Vec.ofList? items with
  | none => exact .fail eof eof
  | some items => exact .pure eof items

theorem incremental_readMany {eof : ε} {r : Reader ε α} (h : Incremental eof r) (count : Nat) :
    Incremental eof (readMany r count) := by
  induction count with
  | zero => exact .pure eof []
  | succ count ih => exact h.bind fun a => ih.bind fun rest => .pure eof (a :: rest)

theorem incremental_counted {eof : ε} {r : Reader ε α} (h : Incremental eof r) (min : Nat) :
    Incremental eof (readCount eof min >>= readMany r) :=
  (incremental_readCount eof min).bind (incremental_readMany h)

theorem decodeAll_eq_ok {trailing : ε} {r : Reader ε α} {bytes : List U8} {a : α} :
    decodeAll trailing r bytes = .ok a ↔ r bytes = .ok (a, []) := by
  unfold decodeAll
  cases hread : r bytes with
  | error e => simp
  | ok out =>
      obtain ⟨a', rest⟩ := out
      cases rest <;> simp

/-- Cut off anywhere, an accepted buffer ends too early. -/
theorem Incremental.decodeAll_cut {eof trailing : ε} {r : Reader ε α} (h : Incremental eof r)
    {bytes ext : List U8} {a : α} (hread : decodeAll trailing r (bytes ++ ext) = .ok a)
    (hext : ext ≠ []) : decodeAll trailing r bytes = .error eof := by
  rw [decodeAll_eq_ok] at hread
  rcases h.cut hread with heof | ⟨⟨a', rest⟩, hshort⟩
  · rw [decodeAll, heof]
  · have hlong := (h.extend hshort ext).symm.trans hread
    have hnil : rest ++ ext = [] := (Prod.mk.inj (Except.ok.inj hlong)).2
    exact absurd (List.append_eq_nil_iff.1 hnil).2 hext

/-- Whatever follows an accepted buffer is left over. -/
theorem Incremental.decodeAll_extend {eof trailing : ε} {r : Reader ε α} (h : Incremental eof r)
    {bytes ext : List U8} {a : α} (hread : decodeAll trailing r bytes = .ok a) (hext : ext ≠ []) :
    decodeAll trailing r (bytes ++ ext) = .error trailing := by
  have hlong := h.extend (decodeAll_eq_ok.1 hread) ext
  rw [List.nil_append] at hlong
  have hleft : ext.isEmpty = false := List.isEmpty_eq_false_iff.2 hext
  simp only [decodeAll, hlong, hleft, Bool.false_eq_true, if_false]

/-- An encoding that is read back does not go on to be another one. -/
theorem Canonical.decodeAll_cut {trailing : ε} {r : Reader ε α} {enc : α → List U8}
    (hr : Canonical r enc)
    (hreads : ∀ bytes a, decodeAll trailing r bytes = .ok a → Reads r (enc a) a)
    {bytes ext : List U8} {a : α} (hread : decodeAll trailing r (bytes ++ ext) = .ok a)
    (hext : ext ≠ []) : ∃ e, decodeAll trailing r bytes = .error e := by
  cases hshort : decodeAll trailing r bytes with
  | error e => exact ⟨e, rfl⟩
  | ok a' =>
      have hbytes := hr _ _ _ (decodeAll_eq_ok.1 hshort)
      have hagain := hreads bytes a' hshort ext
      rw [List.append_nil] at hbytes
      rw [← hbytes, decodeAll_eq_ok.1 hread] at hagain
      exact absurd (Prod.mk.inj (Except.ok.inj hagain)).2.symm hext

/-! ## Errors -/

/-- Every error of `r` is one of these.  The rules below carry the property along a decoder, so
that its errors are known without running it. -/
def FailsWith (P : ε → Prop) (r : Reader ε α) : Prop := ∀ bytes e, r bytes = .error e → P e

namespace FailsWith

variable {P : ε → Prop}

theorem pure (a : α) : FailsWith P (Pure.pure a : Reader ε α) := fun _ _ h => by cases h

theorem fail {e : ε} (he : P e) : FailsWith P (Reader.fail e : Reader ε α) := by
  intro bytes e' h
  obtain rfl := Except.error.inj h
  exact he

theorem bind {r : Reader ε α} {f : α → Reader ε β} (hr : FailsWith P r)
    (hf : ∀ a, FailsWith P (f a)) : FailsWith P (r >>= f) := by
  intro bytes e h
  change Reader.bind r f bytes = .error e at h
  unfold Reader.bind at h
  split at h
  · rename_i e' hread
    obtain rfl := Except.error.inj h
    exact hr bytes _ hread
  · exact hf _ _ _ h

theorem readArray {eof : ε} (heof : P eof) (n : Nat) : FailsWith P (readArray eof n) := by
  intro bytes e h
  unfold Reader.readArray at h
  split at h
  · obtain rfl := Except.error.inj h
    exact heof
  · cases h

theorem readSlice {eof : ε} (heof : P eof) (len : Nat) : FailsWith P (readSlice eof len) := by
  intro bytes e h
  unfold Reader.readSlice at h
  split at h
  · obtain rfl := Except.error.inj h
    exact heof
  · cases h

theorem readWord {eof : ε} (heof : P eof) (n w : Nat) : FailsWith P (readWord eof n w) :=
  (readArray heof n).bind fun _ => .pure _

theorem readCount {eof : ε} (heof : P eof) (min : Nat) : FailsWith P (readCount eof min) := by
  apply (readWord heof 8 64).bind
  intro n bytes e h
  dsimp only at h
  split at h
  · obtain rfl := Except.error.inj h
    exact heof
  · cases h

theorem toVec {eof : ε} (heof : P eof) (items : List α) : FailsWith P (toVec eof items) := by
  unfold Reader.toVec
  cases Vec.ofList? items with
  | none => exact .fail heof
  | some items => exact .pure items

theorem readMany {r : Reader ε α} (hr : FailsWith P r) (count : Nat) :
    FailsWith P (readMany r count) := by
  induction count with
  | zero => exact .pure []
  | succ count ih => exact hr.bind fun a => ih.bind fun rest => .pure (a :: rest)

end FailsWith

end Reader

end Kovanica.Lib
