import Mathlib.Algebra.GroupWithZero.Nat
import Mathlib.Data.Fin.Basic
import Mathlib.Order.Fin.Basic
import Mathlib.Data.List.Lex
import Mathlib.Order.Lattice

/-!
# Fixed-width machine words

An unsigned machine integer of width `w` is `Word w = Fin (2 ^ w)`, so an
out-of-range value cannot be written down.  `Fin` addition is the wrapping
addition of a release build; the checked and saturating operations of the
Rust standard library are defined beside it.

Byte strings are lists of `U8`; a fixed-size array `[u8; n]` is `Bytes n`.
Little-endian encodings are plain base-256 digit lists, and
`ofLeBytes_toLeBytes` is the round trip every codec rests on.

## Main results

* `ofLeBytes_toLeBytes`, `toLeBytes_ofLeBytes`: reading inverts writing, in both directions.
* `checkedAdd_eq_some`: what a checked addition returns is the unbounded sum.
* `val_foldl_saturatingAdd`, `val_foldl_add_mod`: a saturating and a wrapping total, as the
  natural-number total cut off at the width or taken modulo it.
-/

namespace Kovanica.Lib

/-- Unsigned machine integers of width `w`.  A value is in range by its type, and `+`, `-` and
`*` of `Fin` wrap as they do in a release build. -/
abbrev Word (w : Nat) : Type := Fin (2 ^ w)

abbrev U8 : Type := Word 8
abbrev U16 : Type := Word 16
abbrev U32 : Type := Word 32
abbrev U64 : Type := Word 64
abbrev U128 : Type := Word 128

/-! Numerals of these types share one proof each. -/

instance neZeroU8 : NeZero (2 ^ 8) := ⟨by decide⟩
instance neZeroU16 : NeZero (2 ^ 16) := ⟨by decide⟩
instance neZeroU32 : NeZero (2 ^ 32) := ⟨by decide⟩
instance neZeroU64 : NeZero (2 ^ 64) := ⟨by decide⟩
instance neZeroU128 : NeZero (2 ^ 128) := ⟨by decide⟩

namespace Word

variable {w : Nat}

/-- Truncating cast `n as uw`. -/
def cast (w n : Nat) : Word w := ⟨n % 2 ^ w, Nat.mod_lt _ (Nat.two_pow_pos w)⟩

/-- The largest value of the width, `uw::MAX`. -/
def maxValue (w : Nat) : Word w :=
  ⟨2 ^ w - 1, Nat.sub_lt (Nat.two_pow_pos w) Nat.one_pos⟩

/-- `a.checked_add(b)`. -/
def checkedAdd (a b : Word w) : Option (Word w) :=
  if h : a.val + b.val < 2 ^ w then some ⟨a.val + b.val, h⟩ else none

/-- `a.saturating_add(b)`. -/
def saturatingAdd (a b : Word w) : Word w :=
  ⟨min (a.val + b.val) (2 ^ w - 1), by
    have := Nat.two_pow_pos w
    omega⟩

/-- `a.saturating_sub(b)`. -/
def saturatingSub (a b : Word w) : Word w :=
  ⟨a.val - b.val, Nat.lt_of_le_of_lt (Nat.sub_le _ _) a.isLt⟩

/-- `a.saturating_mul(b)`. -/
def saturatingMul (a b : Word w) : Word w :=
  ⟨min (a.val * b.val) (2 ^ w - 1), by
    have := Nat.two_pow_pos w
    omega⟩

@[simp] theorem cast_val (n : Nat) : (cast w n).val = n % 2 ^ w := rfl

theorem cast_of_lt {n : Nat} (h : n < 2 ^ w) : (cast w n).val = n :=
  Nat.mod_eq_of_lt h

/-- A cast to a wider word keeps the value. -/
theorem cast_widen {v : Nat} (h : w ≤ v) (a : Word w) : (cast v a.val).val = a.val :=
  cast_of_lt (lt_of_lt_of_le a.isLt (Nat.pow_le_pow_right Nat.two_pos h))

@[simp] theorem saturatingAdd_val (a b : Word w) :
    (saturatingAdd a b).val = min (a.val + b.val) (2 ^ w - 1) := rfl

@[simp] theorem saturatingSub_val (a b : Word w) :
    (saturatingSub a b).val = a.val - b.val := rfl

@[simp] theorem saturatingMul_val (a b : Word w) :
    (saturatingMul a b).val = min (a.val * b.val) (2 ^ w - 1) := rfl

/-- A saturating running sum is the sum cut off at the largest value. -/
theorem val_foldl_saturatingAdd {α : Type} (f : α → Word w) (l : List α) (a : Word w) :
    (l.foldl (fun acc x => saturatingAdd acc (f x)) a).val =
      min (a.val + (l.map fun x => (f x).val).sum) (2 ^ w - 1) := by
  induction l generalizing a with
  | nil =>
      have ha := a.isLt
      simp only [List.foldl_nil, List.map_nil, List.sum_nil, Nat.add_zero]
      omega
  | cons x l ih =>
      simp only [List.foldl_cons, ih, saturatingAdd_val, List.map_cons, List.sum_cons]
      omega

/-- A sum that fits does not wrap. -/
theorem val_add_of_lt {a b : Word w} (h : a.val + b.val < 2 ^ w) : (a + b).val = a.val + b.val := by
  rw [Fin.val_add, Nat.mod_eq_of_lt h]

/-- A running sum wraps to the sum modulo the width. -/
theorem val_foldl_add_mod {α : Type} (f : α → Word w) (l : List α) (a : Word w) :
    (l.foldl (fun acc x => acc + f x) a).val =
      (a.val + (l.map fun x => (f x).val).sum) % 2 ^ w := by
  induction l generalizing a with
  | nil =>
      rw [List.map_nil, List.sum_nil, Nat.add_zero, Nat.mod_eq_of_lt a.isLt]
      rfl
  | cons x l ih =>
      rw [List.foldl_cons, ih, Fin.val_add, Nat.mod_add_mod, List.map_cons, List.sum_cons,
        Nat.add_assoc]

/-- A running sum that fits does not wrap. -/
theorem val_foldl_add {α : Type} (f : α → Word w) (l : List α) (a : Word w)
    (h : a.val + (l.map fun x => (f x).val).sum < 2 ^ w) :
    (l.foldl (fun acc x => acc + f x) a).val = a.val + (l.map fun x => (f x).val).sum := by
  rw [val_foldl_add_mod, Nat.mod_eq_of_lt h]

/-- A checked sum, when it exists, is the unbounded sum. -/
theorem checkedAdd_eq_some {a b c : Word w} :
    checkedAdd a b = some c ↔ c.val = a.val + b.val := by
  unfold checkedAdd
  constructor
  · intro h
    split at h
    · simp only [Option.some.injEq] at h
      rw [← h]
    · cases h
  · intro h
    have hlt : a.val + b.val < 2 ^ w := h ▸ c.isLt
    rw [dif_pos hlt]
    congr 1
    exact Fin.ext h.symm

theorem checkedAdd_eq_none {a b : Word w} :
    checkedAdd a b = none ↔ 2 ^ w ≤ a.val + b.val := by
  unfold checkedAdd
  split <;> simp <;> omega

end Word

/-! ## Byte strings -/

/-- A fixed-size byte array `[u8; n]`: a list of bytes that carries its length, so that no
reader has to check it again. -/
abbrev Bytes (n : Nat) : Type := { bytes : List U8 // bytes.length = n }

/-- A growable vector: its length is a `usize`, so it fits the 64-bit count that an encoding
writes in front of it. -/
abbrev Vec (α : Type) : Type := { items : List α // items.length < 2 ^ 64 }

instance (n : Nat) : Inhabited (Bytes n) := ⟨⟨List.replicate n 0, List.length_replicate⟩⟩

instance (α : Type) : Inhabited (Vec α) := ⟨⟨[], Nat.two_pow_pos 64⟩⟩

/-- The vector of these items, if there are not too many. -/
def Vec.ofList? {α : Type} (items : List α) : Option (Vec α) :=
  if h : items.length < 2 ^ 64 then some ⟨items, h⟩ else none

/-- The `n` little-endian base-256 digits of `v`. -/
def toLeBytes : (n v : Nat) → List U8
  | 0, _ => []
  | n + 1, v => Word.cast 8 v :: toLeBytes n (v / 256)

/-- The number a little-endian digit list denotes. -/
def ofLeBytes : List U8 → Nat
  | [] => 0
  | b :: rest => b.val + 256 * ofLeBytes rest

@[simp] theorem length_toLeBytes (n v : Nat) : (toLeBytes n v).length = n := by
  induction n generalizing v with
  | zero => rfl
  | succ n ih => simp [toLeBytes, ih]

/-- `n` digits hold every value below `256 ^ n`. -/
theorem ofLeBytes_toLeBytes (n v : Nat) (h : v < 256 ^ n) :
    ofLeBytes (toLeBytes n v) = v := by
  induction n generalizing v with
  | zero =>
      rw [Nat.pow_zero] at h
      simp only [toLeBytes, ofLeBytes]
      omega
  | succ n ih =>
      have hdiv : v / 256 < 256 ^ n := by
        rw [Nat.pow_succ, Nat.mul_comm] at h
        exact Nat.div_lt_of_lt_mul h
      simp only [toLeBytes, ofLeBytes, ih _ hdiv, Word.cast_val]
      omega

theorem ofLeBytes_lt (l : List U8) : ofLeBytes l < 256 ^ l.length := by
  induction l with
  | nil => simp [ofLeBytes]
  | cons b rest ih =>
      have hb : b.val < 2 ^ 8 := b.isLt
      simp only [ofLeBytes, List.length_cons, Nat.pow_succ]
      omega

/-- Reading digits back and writing them again gives the same digits. -/
theorem toLeBytes_ofLeBytes (l : List U8) : toLeBytes l.length (ofLeBytes l) = l := by
  induction l with
  | nil => rfl
  | cons b rest ih =>
      have hb : b.val < 2 ^ 8 := b.isLt
      have hdiv : (b.val + 256 * ofLeBytes rest) / 256 = ofLeBytes rest := by omega
      have hmod : Word.cast 8 (b.val + 256 * ofLeBytes rest) = b := by
        apply Fin.ext
        rw [Word.cast_val]
        omega
      simp only [ofLeBytes, List.length_cons, toLeBytes, hdiv, hmod, ih]

end Kovanica.Lib
