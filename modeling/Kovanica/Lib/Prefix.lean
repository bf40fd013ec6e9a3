import Kovanica.Lib.Word
import Mathlib.Data.Set.Function

/-!
# Self-delimiting encodings

An encoding is self-delimiting on a set of values when what follows it can be
told apart: equal byte strings that start with two encodings start with the same
value, and go on alike.  Words and arrays of a fixed size are, and so is a list
under its length.  A concatenation of such encodings is injective, whether or not
there is a decoder for it.

## Main results

* `of_length`: encodings of one length are self-delimiting if they are injective.
* `flatMap`, `counted`, `countedBytes`: lists, under their length or with elements that tell when
  they end.
-/

namespace Kovanica.Lib

/-- Encodings of values of `S` that start the same bytes are of the same value, and what follows
them is the same too.  So a list of fields is as unambiguous as each of them. -/
def Delimited {α : Type} (S : Set α) (enc : α → List U8) : Prop :=
  ∀ ⦃a⦄, a ∈ S → ∀ ⦃b⦄, b ∈ S → ∀ ⦃u v⦄, enc a ++ u = enc b ++ v → a = b ∧ u = v

namespace Delimited

variable {α β : Type} {S : Set α} {enc : α → List U8}

theorem injOn (h : Delimited S enc) : Set.InjOn enc S := by
  intro a ha b hb heq
  exact (h ha hb (congrArg (· ++ []) heq)).1

/-- Encodings of one length that differ delimit themselves. -/
theorem of_length {n : Nat} (hlen : ∀ a, (enc a).length = n) (hinj : Set.InjOn enc S) :
    Delimited S enc := by
  intro a ha b hb u v heq
  obtain ⟨hhead, htail⟩ := List.append_inj heq ((hlen a).trans (hlen b).symm)
  exact ⟨hinj ha hb hhead, htail⟩

theorem bytes (n : Nat) : Delimited Set.univ fun a : Bytes n => a.val :=
  of_length (fun a => a.property) Subtype.val_injective.injOn

theorem nat (n : Nat) : Delimited {v | v < 256 ^ n} (toLeBytes n) := by
  apply of_length (length_toLeBytes n)
  intro a ha b hb heq
  rw [← ofLeBytes_toLeBytes n a ha, heq, ofLeBytes_toLeBytes n b hb]

theorem word {n w : Nat} (h : 2 ^ w ≤ 256 ^ n) :
    Delimited Set.univ fun a : Word w => toLeBytes n a.val := by
  intro a _ b _ u v heq
  obtain ⟨hval, htail⟩ := nat n (lt_of_lt_of_le a.isLt h) (lt_of_lt_of_le b.isLt h) heq
  exact ⟨Fin.ext hval, htail⟩

theorem word_append {n w : Nat} (h : 2 ^ w ≤ 256 ^ n) {a b : Word w} {u v : List U8}
    (heq : toLeBytes n a.val ++ u = toLeBytes n b.val ++ v) : a = b ∧ u = v :=
  word h (Set.mem_univ a) (Set.mem_univ b) heq

/-- The elements of lists of one length. -/
theorem flatMap (h : Delimited S enc) : ∀ {l l' : List α}, (∀ a ∈ l, a ∈ S) → (∀ a ∈ l', a ∈ S) →
    l.length = l'.length → ∀ {u v : List U8}, l.flatMap enc ++ u = l'.flatMap enc ++ v →
      l = l' ∧ u = v
  | [], [], _, _, _, _, _, heq => ⟨rfl, heq⟩
  | a :: l, b :: l', hl, hl', hlen, u, v, heq => by
      simp only [List.flatMap_cons, List.append_assoc] at heq
      obtain ⟨hhead, hrest⟩ := h (hl a (List.mem_cons_self ..)) (hl' b (List.mem_cons_self ..)) heq
      obtain ⟨hlist, htail⟩ := flatMap h (fun x hx => hl x (List.mem_cons_of_mem _ hx))
        (fun x hx => hl' x (List.mem_cons_of_mem _ hx)) (Nat.succ.inj hlen) hrest
      exact ⟨congrArg₂ List.cons hhead hlist, htail⟩

/-- A list under a 64-bit count. -/
theorem counted (h : Delimited S enc) :
    Delimited {l : List α | l.length < 2 ^ 64 ∧ ∀ a ∈ l, a ∈ S}
      fun l => toLeBytes 8 l.length ++ l.flatMap enc := by
  intro l hl l' hl' u v heq
  simp only [List.append_assoc] at heq
  obtain ⟨hlen, heq⟩ := nat 8 hl.1 hl'.1 heq
  exact flatMap h hl.2 hl'.2 hlen heq

/-- A byte string under its length. -/
theorem countedBytes : Delimited {l : List U8 | l.length < 2 ^ 64}
    fun l => toLeBytes 8 l.length ++ l := by
  intro l hl l' hl' u v heq
  simp only [List.append_assoc] at heq
  obtain ⟨hlen, heq⟩ := nat 8 hl hl' heq
  exact List.append_inj heq hlen

end Delimited

end Kovanica.Lib
