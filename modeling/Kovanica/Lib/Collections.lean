import Mathlib.Data.Finmap
import Mathlib.Data.List.Sort
import Mathlib.Data.List.InsertIdx

/-!
# Collections of the Rust standard library

Ordered sets are `Finset`s iterated in ascending order, hash maps are
`Finmap`s.  The iteration order of a hash map is unspecified: it is a value of
`HashOrder`, an arbitrary enumeration of the key set, so that a theorem
quantified over `HashOrder` holds whatever order the hasher yields.

Everything is built on insertion sort, which the kernel can evaluate.

## Main results

* `sortByKey_congr`, `maxByKey_eq_some`: a sort and a maximum look at the keys only.
* `sortByKey_eq_of_mem_iff`, `maxByKey_eq_of_mem_iff`: where the keys tell the elements apart,
  neither depends on the order the elements came in.
* `lookup_foldl_insert`, `lookup_foldl_erase`: what a loop of writes leaves under a key.
-/

namespace Kovanica.Lib

variable {α β κ ν : Type}

/-! ## Sorting by a key -/

section SortByKey

variable [LinearOrder κ]

/-- `slice.sort_by_key(key)`: the stable sort. -/
def sortByKey (key : α → κ) (l : List α) : List α :=
  l.insertionSort fun a b => key a ≤ key b

theorem sortByKey_perm (key : α → κ) (l : List α) : (sortByKey key l).Perm l :=
  List.perm_insertionSort _ l

@[simp] theorem mem_sortByKey {key : α → κ} {l : List α} {x : α} :
    x ∈ sortByKey key l ↔ x ∈ l :=
  (sortByKey_perm key l).mem_iff

theorem sortByKey_pairwise (key : α → κ) (l : List α) :
    (sortByKey key l).Pairwise fun a b => key a ≤ key b := by
  have : Std.Total fun a b : α => key a ≤ key b := ⟨fun a b => le_total (key a) (key b)⟩
  have : IsTrans α fun a b : α => key a ≤ key b := ⟨fun _ _ _ => le_trans⟩
  exact List.pairwise_insertionSort _ l

/-- The first of the sorted list is one of the list, and none has a smaller key. -/
theorem least_of_head? {key : α → κ} {l : List α} {x : α}
    (h : (sortByKey key l).head? = some x) : x ∈ l ∧ ∀ y ∈ l, key x ≤ key y := by
  obtain ⟨rest, hrest⟩ := List.head?_eq_some_iff.1 h
  have hpairwise := sortByKey_pairwise key l
  rw [hrest, List.pairwise_cons] at hpairwise
  have hmem : ∀ y, y ∈ l ↔ y ∈ x :: rest := by
    intro y
    rw [← hrest, mem_sortByKey]
  constructor
  · exact (hmem x).2 (List.mem_cons_self ..)
  · intro y hy
    rcases List.mem_cons.1 ((hmem y).1 hy) with rfl | hy
    · exact le_rfl
    · exact hpairwise.1 y hy

/-- The sort only compares the keys of the elements it is given. -/
theorem sortByKey_congr {key key' : α → κ} {l : List α}
    (h : ∀ x ∈ l, key x = key' x) : sortByKey key l = sortByKey key' l := by
  have hmap := List.map_insertionSort (r := fun a b => key a ≤ key b)
    (s := fun a b => key' a ≤ key' b) (fun x : α => x) l
    (fun a ha b hb => by rw [h a ha, h b hb])
  simpa [sortByKey] using hmap

/-- With keys that tell the elements apart, the sorted list is determined by
the set of elements: the order they came in does not matter. -/
theorem sortByKey_eq_of_mem_iff {key : α → κ} {l l' : List α}
    (hl : l.Nodup) (hl' : l'.Nodup) (hmem : ∀ x, x ∈ l ↔ x ∈ l')
    (hinj : ∀ x ∈ l, ∀ y ∈ l, key x = key y → x = y) :
    sortByKey key l = sortByKey key l' := by
  have hperm : (sortByKey key l).Perm (sortByKey key l') :=
    (sortByKey_perm key l).trans
      (((List.perm_ext_iff_of_nodup hl hl').2 hmem).trans (sortByKey_perm key l').symm)
  refine List.Perm.eq_of_pairwise ?_
    (sortByKey_pairwise key l) (sortByKey_pairwise key l') hperm
  intro a b ha hb hab hba
  exact hinj a (mem_sortByKey.1 ha) b ((hmem b).2 (mem_sortByKey.1 hb)) (le_antisymm hab hba)

end SortByKey

/-! ## Greatest element by a key -/

section MaxByKey

variable [LinearOrder κ]

/-- `iter.max_by_key(key)`: of several maximal elements, the last.  With an injective key there
is only one, and the order of the list plays no part. -/
def maxByKey (key : α → κ) : List α → Option α
  | [] => none
  | x :: xs => some (xs.foldl (fun best y => if key best ≤ key y then y else best) x)

private theorem foldl_max_spec (key : α → κ) (xs : List α) (x : α) :
    (xs.foldl (fun best y => if key best ≤ key y then y else best) x) ∈ x :: xs ∧
      ∀ y ∈ x :: xs,
        key y ≤ key (xs.foldl (fun best y => if key best ≤ key y then y else best) x) := by
  induction xs generalizing x with
  | nil => simp
  | cons z zs ih =>
      rw [List.foldl_cons]
      obtain ⟨hmem, hmax⟩ := ih (if key x ≤ key z then z else x)
      have hx : key x ≤ key (if key x ≤ key z then z else x) := by
        split
        · assumption
        · exact le_refl _
      have hz : key z ≤ key (if key x ≤ key z then z else x) := by
        split
        · exact le_refl _
        · exact le_of_not_ge ‹_›
      have hhead := hmax _ (List.mem_cons_self ..)
      constructor
      · rcases List.mem_cons.1 hmem with heq | htail
        · rw [heq]
          split <;> simp
        · exact List.mem_cons_of_mem _ (List.mem_cons_of_mem _ htail)
      · intro y hy
        rcases List.mem_cons.1 hy with rfl | hy
        · exact le_trans hx hhead
        · rcases List.mem_cons.1 hy with rfl | hy
          · exact le_trans hz hhead
          · exact hmax y (List.mem_cons_of_mem _ hy)

@[simp] theorem maxByKey_eq_none {key : α → κ} {l : List α} :
    maxByKey key l = none ↔ l = [] := by
  cases l <;> simp [maxByKey]

theorem maxByKey_mem {key : α → κ} {l : List α} {m : α} (h : maxByKey key l = some m) :
    m ∈ l := by
  cases l with
  | nil => cases h
  | cons x xs =>
      simp only [maxByKey, Option.some.injEq] at h
      exact h ▸ (foldl_max_spec key xs x).1

theorem le_of_maxByKey {key : α → κ} {l : List α} {m : α} (h : maxByKey key l = some m) :
    ∀ y ∈ l, key y ≤ key m := by
  cases l with
  | nil => cases h
  | cons x xs =>
      simp only [maxByKey, Option.some.injEq] at h
      exact h ▸ (foldl_max_spec key xs x).2

theorem exists_maxByKey {l : List α} (key : α → κ) (h : l ≠ []) :
    ∃ m, maxByKey key l = some m := by
  cases hm : maxByKey key l with
  | none => exact absurd (maxByKey_eq_none.1 hm) h
  | some m => exact ⟨m, rfl⟩

/-- With keys that tell the elements apart, the maximum is determined by its
order property. -/
theorem maxByKey_eq_some {key : α → κ} {l : List α} {m : α} (hm : m ∈ l)
    (hmax : ∀ y ∈ l, key y ≤ key m)
    (hinj : ∀ x ∈ l, ∀ y ∈ l, key x = key y → x = y) : maxByKey key l = some m := by
  obtain ⟨m', hm'⟩ := exists_maxByKey key (List.ne_nil_of_mem hm)
  have hmem := maxByKey_mem hm'
  rw [hm', hinj m' hmem m hm (le_antisymm (hmax m' hmem) (le_of_maxByKey hm' m hm))]

/-- The maximum only compares the keys of the elements it is given, and their
order is irrelevant when the keys tell them apart. -/
theorem maxByKey_eq_of_mem_iff {key key' : α → κ} {l l' : List α}
    (hmem : ∀ x, x ∈ l ↔ x ∈ l') (hkey : ∀ x ∈ l, key x = key' x)
    (hinj : ∀ x ∈ l, ∀ y ∈ l, key x = key y → x = y) :
    maxByKey key l = maxByKey key' l' := by
  cases hl : maxByKey key l with
  | none =>
      have hnil : l' = [] := by
        rw [maxByKey_eq_none.1 hl] at hmem
        exact List.eq_nil_iff_forall_not_mem.2 fun x hx => by simpa using (hmem x).2 hx
      exact (maxByKey_eq_none.2 hnil).symm
  | some m =>
      have hm := maxByKey_mem hl
      symm
      refine maxByKey_eq_some ((hmem m).1 hm) ?_ ?_
      · intro y hy
        rw [← hkey y ((hmem y).2 hy), ← hkey m hm]
        exact le_of_maxByKey hl y ((hmem y).2 hy)
      · intro x hx y hy hxy
        rw [← hkey x ((hmem x).2 hx), ← hkey y ((hmem y).2 hy)] at hxy
        exact hinj x ((hmem x).2 hx) y ((hmem y).2 hy) hxy

end MaxByKey

/-! ## Ordered sets -/

section Ascending

variable [LinearOrder κ]

private theorem insertionSort_eq_of_perm {l l' : List κ} (h : l.Perm l') :
    l.insertionSort (· ≤ ·) = l'.insertionSort (· ≤ ·) := by
  refine List.Perm.eq_of_pairwise (fun a b _ _ => le_antisymm)
    (List.pairwise_insertionSort _ l) (List.pairwise_insertionSort _ l') ?_
  exact (List.perm_insertionSort _ l).trans (h.trans (List.perm_insertionSort _ l').symm)

/-- The elements of an ordered set in ascending order: how a `BTreeSet` or a
`BTreeMap`'s key set is iterated. -/
def ascending (s : Finset κ) : List κ :=
  Quot.liftOn s.val (fun l => l.insertionSort (· ≤ ·)) fun _ _ h =>
    insertionSort_eq_of_perm h

theorem coe_ascending (s : Finset κ) : (ascending s : Multiset κ) = s.val := by
  obtain ⟨m, hm⟩ := s
  induction m using Quotient.inductionOn with
  | h l => exact Quotient.sound (List.perm_insertionSort _ l)

@[simp] theorem mem_ascending {s : Finset κ} {x : κ} : x ∈ ascending s ↔ x ∈ s := by
  rw [← Multiset.mem_coe, coe_ascending, Finset.mem_val]

theorem nodup_ascending (s : Finset κ) : (ascending s).Nodup := by
  rw [← Multiset.coe_nodup, coe_ascending]
  exact s.nodup

theorem ascending_pairwise (s : Finset κ) : (ascending s).Pairwise (· ≤ ·) := by
  obtain ⟨m, hm⟩ := s
  induction m using Quotient.inductionOn with
  | h l => exact List.pairwise_insertionSort _ l

@[simp] theorem ascending_singleton (x : κ) : ascending {x} = [x] := rfl

theorem ascending_strict (s : Finset κ) : (ascending s).Pairwise (· < ·) :=
  ((ascending_pairwise s).and (nodup_ascending s)).imp fun h => lt_of_le_of_ne h.1 h.2

/-- A strictly ascending list is the enumeration of its own elements. -/
theorem ascending_toFinset {l : List κ} (h : l.Pairwise (· < ·)) : ascending l.toFinset = l := by
  refine List.Perm.eq_of_pairwise (fun a b _ _ => le_antisymm)
    (ascending_pairwise _) (h.imp le_of_lt) ?_
  exact (List.perm_ext_iff_of_nodup (nodup_ascending _) (h.imp ne_of_lt)).2 fun x => by simp

end Ascending

/-! ## Hash maps -/

/-- The order in which hash maps are iterated: an arbitrary enumeration of
each key set. -/
structure HashOrder where
  iter : {κ : Type} → [LinearOrder κ] → Finset κ → List κ
  coe_iter : ∀ {κ : Type} [LinearOrder κ] (s : Finset κ), (iter s : Multiset κ) = s.val

namespace HashOrder

variable [LinearOrder κ]

@[simp] theorem mem_iter (ord : HashOrder) {s : Finset κ} {x : κ} :
    x ∈ ord.iter s ↔ x ∈ s := by
  rw [← Multiset.mem_coe, ord.coe_iter, Finset.mem_val]

theorem nodup_iter (ord : HashOrder) (s : Finset κ) : (ord.iter s).Nodup := by
  rw [← Multiset.coe_nodup, ord.coe_iter]
  exact s.nodup

theorem length_iter (ord : HashOrder) (s : Finset κ) : (ord.iter s).length = s.card := by
  rw [← Multiset.coe_card, ord.coe_iter, Finset.card_val]

@[simp] theorem iter_empty (ord : HashOrder) : ord.iter (∅ : Finset κ) = [] :=
  List.eq_nil_of_length_eq_zero (ord.length_iter _)

@[simp] theorem iter_singleton (ord : HashOrder) (x : κ) : ord.iter {x} = [x] :=
  Multiset.coe_eq_singleton.1 (ord.coe_iter {x})

/-- The iteration order of a map that happens to be sorted.  It is the one that runs on fixed
inputs use; every theorem is about an arbitrary order. -/
def sorted : HashOrder where
  iter := ascending
  coe_iter := coe_ascending

/-- `map.iter()`: the entries in iteration order. -/
def entries (ord : HashOrder) (m : Finmap fun _ : κ => ν) : List (κ × ν) :=
  (ord.iter m.keys).filterMap fun k => (m.lookup k).map (Prod.mk k)

@[simp] theorem mem_entries (ord : HashOrder) {m : Finmap fun _ : κ => ν} {e : κ × ν} :
    e ∈ ord.entries m ↔ m.lookup e.1 = some e.2 := by
  simp only [entries, List.mem_filterMap, mem_iter, Finmap.mem_keys, Option.map_eq_some_iff]
  constructor
  · rintro ⟨k, _, v, hv, rfl⟩
    exact hv
  · intro h
    exact ⟨e.1, Finmap.mem_of_lookup_eq_some h, e.2, h, rfl⟩

theorem entries_map_fst (ord : HashOrder) (m : Finmap fun _ : κ => ν) :
    (ord.entries m).map Prod.fst = ord.iter m.keys := by
  have hall : ∀ k ∈ ord.iter m.keys,
      ((m.lookup k).map (Prod.mk k)).map Prod.fst = some k := by
    intro k hk
    obtain ⟨v, hv⟩ := Finmap.mem_iff.1 (Finmap.mem_keys.1 (ord.mem_iter.1 hk))
    rw [hv]
    rfl
  rw [entries, List.map_filterMap]
  calc (ord.iter m.keys).filterMap (fun k => ((m.lookup k).map (Prod.mk k)).map Prod.fst)
      = (ord.iter m.keys).filterMap some := List.filterMap_congr hall
    _ = ord.iter m.keys := List.filterMap_some

theorem nodup_entries (ord : HashOrder) (m : Finmap fun _ : κ => ν) :
    (ord.entries m).Nodup := by
  refine List.Nodup.of_map Prod.fst ?_
  rw [entries_map_fst]
  exact ord.nodup_iter _

@[simp] theorem entries_singleton (ord : HashOrder) (k : κ) (v : ν) :
    ord.entries (Finmap.singleton k v) = [(k, v)] := by
  have hkeys : (Finmap.singleton k v : Finmap fun _ : κ => ν).keys = {k} := rfl
  simp only [entries, hkeys, iter_singleton, List.filterMap_cons, List.filterMap_nil,
    Finmap.lookup_singleton_eq, Option.map_some]

end HashOrder

/-! ## Positions -/

/-- The first position of an element is what comes before it. -/
theorem idxOf?_append_cons [DecidableEq α] {a : α} {l : List α} (h : a ∉ l) (l' : List α) :
    (l ++ a :: l').idxOf? a = some l.length := by
  induction l with
  | nil => rw [List.nil_append, List.idxOf?_cons, if_pos (beq_self_eq_true a), List.length_nil]
  | cons b l ih =>
      obtain ⟨hne, hnot⟩ := not_or.1 (mt List.mem_cons.2 h)
      have hbeq : ¬ (b == a) = true := by simpa using fun hba : b = a => hne hba.symm
      rw [List.cons_append, List.idxOf?_cons, if_neg hbeq, ih hnot, Option.map_some,
        List.length_cons]

/-- A list up to the first occurrence of an element, which is kept. -/
def upTo [DecidableEq α] (l : List α) (x : α) : List α := l.take (l.idxOf x + 1)

theorem upTo_append_cons [DecidableEq α] {x : α} {before after : List α}
    (h : x ∉ before) : upTo (before ++ x :: after) x = before ++ [x] := by
  have hpos : (before ++ x :: after).idxOf x = before.length := by
    rw [List.idxOf_append_of_notMem h, List.idxOf_cons_self]
    rfl
  rw [upTo, hpos, List.take_append, List.take_of_length_le (Nat.le_succ _)]
  simp

/-- A relation between the elements of a list and a last one. -/
theorem pairwise_concat {β : Type*} {R : β → β → Prop} {l : List β} {a : β} :
    (l ++ [a]).Pairwise R ↔ l.Pairwise R ∧ ∀ x ∈ l, R x a := by
  rw [List.pairwise_append]
  simp only [List.pairwise_singleton, List.forall_mem_singleton, true_and]

/-- The splits of a list at one of its elements, and the split before a last one. -/
theorem forall_split_concat {β : Type*} {P : List β → β → Prop} {l : List β} {a : β} :
    (∀ before x after, l ++ [a] = before ++ x :: after → P before x) ↔
      (∀ before x after, l = before ++ x :: after → P before x) ∧ P l a := by
  constructor
  · intro h
    refine ⟨fun before x after hl => h before x (after ++ [a]) ?_, h l a [] rfl⟩
    rw [hl, List.append_assoc, List.cons_append]
  · rintro ⟨hold, hlast⟩ before x after heq
    rcases List.eq_nil_or_concat after with rfl | ⟨after, y, rfl⟩
    · obtain ⟨rfl, hx⟩ := List.append_inj' heq rfl
      obtain rfl := List.head_eq_of_cons_eq hx
      exact hlast
    · have hsplit : l ++ [a] = (before ++ x :: after) ++ [y] := by
        rw [heq, List.concat_eq_append, List.append_assoc, List.cons_append]
      exact hold before x after (List.append_inj' hsplit rfl).1

/-- The splits of a list, one for each index. -/
theorem forall_split_iff {β : Type*} {P : List β → β → Prop} {l : List β} :
    (∀ before x after, l = before ++ x :: after → P before x) ↔
      ∀ i : Fin l.length, P (l.take i) l[i] := by
  constructor
  · intro h i
    apply h (l.take i) l[i] (l.drop (i + 1))
    rw [Fin.getElem_fin, ← List.drop_eq_getElem_cons i.isLt, List.take_append_drop]
  · rintro h before x after rfl
    have hlt : before.length < (before ++ x :: after).length := by simp
    have hat := h ⟨before.length, hlt⟩
    simpa using hat

theorem nodup_of_length_le_one {l : List α} (h : l.length ≤ 1) : l.Nodup := by
  match l with
  | [] => exact List.nodup_nil
  | [a] => exact List.nodup_singleton a
  | _ :: _ :: _ => simp at h

/-! ## Map indexing -/

section ValueAt

variable [DecidableEq κ] [Inhabited ν]

/-- `map[&key]`.  The source panics on an absent key; the model reads the
default value there, and every use is on a key shown to be present. -/
def valueAt (m : Finmap fun _ : κ => ν) (k : κ) : ν := (m.lookup k).getD default

theorem valueAt_of_lookup {m : Finmap fun _ : κ => ν} {k : κ} {v : ν}
    (h : m.lookup k = some v) : valueAt m k = v := by
  rw [valueAt, h, Option.getD_some]

@[simp] theorem valueAt_insert_self (m : Finmap fun _ : κ => ν) (k : κ) (v : ν) :
    valueAt (m.insert k v) k = v :=
  valueAt_of_lookup (Finmap.lookup_insert m)

theorem valueAt_insert_of_ne (m : Finmap fun _ : κ => ν) {k k' : κ} (v : ν) (h : k ≠ k') :
    valueAt (m.insert k' v) k = valueAt m k := by
  rw [valueAt, Finmap.lookup_insert_of_ne m h, valueAt]

theorem valueAt_insert (m : Finmap fun _ : κ => ν) (k k' : κ) (v : ν) :
    valueAt (m.insert k' v) k = if k = k' then v else valueAt m k := by
  by_cases h : k = k'
  · rw [h, valueAt_insert_self, if_pos rfl]
  · rw [valueAt_insert_of_ne m v h, if_neg h]

theorem lookup_eq_some_valueAt {m : Finmap fun _ : κ => ν} {k : κ} (h : k ∈ m) :
    m.lookup k = some (valueAt m k) := by
  obtain ⟨v, hv⟩ := Finmap.mem_iff.1 h
  rw [hv, valueAt_of_lookup hv]

end ValueAt

section UpdateEach

variable [DecidableEq κ] [Inhabited ν]

/-- `*map.get_mut(&k).unwrap() = f(..)` for each key of a list. -/
def updateEach (f : ν → ν) (m : Finmap fun _ : κ => ν) (keys : List κ) :
    Finmap fun _ : κ => ν :=
  keys.foldl (fun m k => m.insert k (f (valueAt m k))) m

/-- Each key of a duplicate-free list is updated once, nothing else changes. -/
theorem lookup_updateEach (f : ν → ν) {keys : List κ} (hnodup : keys.Nodup)
    (m : Finmap fun _ : κ => ν) (k : κ) :
    (updateEach f m keys).lookup k =
      if k ∈ keys then some (f (valueAt m k)) else m.lookup k := by
  induction keys generalizing m with
  | nil => simp [updateEach]
  | cons k' keys ih =>
      obtain ⟨hnot, hnodup⟩ := List.nodup_cons.1 hnodup
      have hstep : updateEach f m (k' :: keys) =
          updateEach f (m.insert k' (f (valueAt m k'))) keys := rfl
      rw [hstep, ih hnodup]
      by_cases hk : k = k'
      · subst hk
        rw [if_neg hnot, if_pos (List.mem_cons_self ..), Finmap.lookup_insert]
      · rw [valueAt_insert_of_ne _ _ hk, Finmap.lookup_insert_of_ne _ hk]
        simp only [List.mem_cons, hk, false_or]

end UpdateEach

theorem lookup_insert_eq [DecidableEq κ] (m : Finmap fun _ : κ => ν) (k k' : κ) (v : ν) :
    (m.insert k' v).lookup k = if k = k' then some v else m.lookup k := by
  by_cases h : k = k'
  · rw [h, Finmap.lookup_insert, if_pos rfl]
  · rw [Finmap.lookup_insert_of_ne m h, if_neg h]

/-- Values filed under keys of their own, that no two of them share. -/
theorem lookup_foldl_insert [DecidableEq κ] (f : ν → κ) {l : List ν}
    (hinj : ∀ a ∈ l, ∀ b ∈ l, f a = f b → a = b) (m : Finmap fun _ : κ => ν) (k : κ) :
    (l.foldl (fun m a => m.insert (f a) a) m).lookup k =
      (l.find? fun a => f a = k).or (m.lookup k) := by
  induction l generalizing m with
  | nil => rfl
  | cons a l ih =>
      have hrest := ih (fun b hb c hc => hinj b (List.mem_cons_of_mem _ hb) c
        (List.mem_cons_of_mem _ hc)) (m.insert (f a) a)
      rw [List.foldl_cons, hrest, List.find?_cons]
      by_cases ha : f a = k
      · rw [← ha, Finmap.lookup_insert]
        simp only [decide_true]
        cases hfind : l.find? fun b => f b = f a with
        | none => rfl
        | some b =>
            have hb : f b = f a := by simpa using List.find?_some hfind
            rw [hinj b (List.mem_cons_of_mem _ (List.mem_of_find?_eq_some hfind)) a
              (List.mem_cons_self ..) hb]
            rfl
      · simp only [ha, decide_false]
        rw [Finmap.lookup_insert_of_ne _ (Ne.symm ha)]

/-- Removing keys one after the other. -/
theorem lookup_foldl_erase [DecidableEq κ] (f : α → κ) (l : List α) (m : Finmap fun _ : κ => ν)
    (k : κ) : (l.foldl (fun m a => m.erase (f a)) m).lookup k =
      if k ∈ l.map f then none else m.lookup k := by
  induction l generalizing m with
  | nil => simp
  | cons a l ih =>
      rw [List.foldl_cons, ih, List.map_cons]
      by_cases hk : k = f a
      · rw [hk, if_pos (List.mem_cons_self ..), Finmap.lookup_erase, ite_self]
      · rw [Finmap.lookup_erase_ne hk]
        simp only [List.mem_cons, hk, false_or]

theorem keys_insert [DecidableEq κ] (m : Finmap fun _ : κ => ν) (k : κ) (v : ν) :
    (m.insert k v).keys = insert k m.keys := by
  ext x
  simp only [Finmap.mem_keys, Finmap.mem_insert, Finset.mem_insert]

/-! ## Binary search -/

/-- The loop of `slice.partition_point`: a window of `size` elements from
`base` is halved until one element is left. -/
def partitionLoop (pred : α → Bool) (l : List α) : (fuel size base : Nat) → Nat
  | 0, _, base => base
  | fuel + 1, size, base =>
      if size ≤ 1 then base
      else
        let half := size / 2
        let mid := base + half
        partitionLoop pred l fuel (size - half) (if l[mid]?.any pred then mid else base)

/-- `slice.partition_point(pred)`, by the standard library's binary search.
On a slice that `pred` does not partition the answer is some index in range. -/
def partitionPoint (pred : α → Bool) (l : List α) : Nat :=
  if l.isEmpty then 0
  else
    let base := partitionLoop pred l l.length l.length 0
    if l[base]?.any pred then base + 1 else base

private theorem partitionLoop_lt (pred : α → Bool) (l : List α) (fuel size base : Nat)
    (hsize : 0 < size) (hfit : base + size ≤ l.length) :
    partitionLoop pred l fuel size base < l.length := by
  induction fuel generalizing size base with
  | zero =>
      simp only [partitionLoop]
      omega
  | succ fuel ih =>
      simp only [partitionLoop]
      split
      · omega
      · apply ih
        · omega
        · split <;> omega

theorem partitionPoint_le_length (pred : α → Bool) (l : List α) :
    partitionPoint pred l ≤ l.length := by
  unfold partitionPoint
  split
  · exact Nat.zero_le _
  · rename_i hne
    have hpos : 0 < l.length := by
      cases l with
      | nil => simp at hne
      | cons _ _ => simp
    have hlt := partitionLoop_lt pred l l.length l.length 0 hpos (by omega)
    dsimp only
    split <;> omega

/-- All that comes before the window satisfies `pred`, nothing that comes after does: the
invariant of a binary search for the point where `pred` ends. -/
structure Window (pred : α → Bool) (l : List α) (base size : Nat) : Prop where
  fits : base + size ≤ l.length
  before : ∀ i a, l[i]? = some a → i < base → pred a = true
  after : ∀ i a, l[i]? = some a → base + size ≤ i → pred a = false

/-- On a list that `pred` partitions the loop narrows the window down to one element. -/
theorem partitionLoop_window {pred : α → Bool} {l : List α}
    (hl : l.Pairwise fun a b => pred b = true → pred a = true) (fuel size base : Nat)
    (hfuel : size ≤ fuel) (hsize : 0 < size) (h : Window pred l base size) :
    Window pred l (partitionLoop pred l fuel size base) 1 := by
  induction fuel generalizing size base with
  | zero => omega
  | succ fuel ih =>
      have hfits := h.fits
      rw [partitionLoop]
      split
      · have hone : size = 1 := by omega
        exact hone ▸ h
      · rename_i hlarge
        have hmid : base + size / 2 < l.length := by omega
        have hget : l[base + size / 2]? = some l[base + size / 2] := List.getElem?_eq_getElem hmid
        have hordered : ∀ (i j : Nat) (a b : α), l[i]? = some a → l[j]? = some b → i < j →
            pred b = true → pred a = true := by
          intro i j a b ha hb hij
          obtain ⟨hi, rfl⟩ := List.getElem?_eq_some_iff.1 ha
          obtain ⟨hj, rfl⟩ := List.getElem?_eq_some_iff.1 hb
          exact List.pairwise_iff_getElem.1 hl i j hi hj hij
        refine ih (size - size / 2) _ (by omega) (by omega) ?_
        rw [hget, Option.any_some]
        split
        · rename_i hpred
          refine ⟨by omega, fun i a ha hi => ?_, fun i a ha hi => h.after i a ha (by omega)⟩
          exact hordered i _ a _ ha hget hi hpred
        · rename_i hpred
          refine ⟨by omega, h.before, fun i a ha hi => ?_⟩
          rw [Bool.not_eq_true] at hpred
          by_cases hmore : base + size ≤ i
          · exact h.after i a ha hmore
          · rcases Nat.lt_or_ge (base + size / 2) i with hlt | hge
            · rw [← Bool.not_eq_true]
              intro htrue
              rw [hordered _ i _ a hget ha hlt htrue] at hpred
              cases hpred
            · obtain rfl : i = base + size / 2 := by omega
              rw [← Option.some.inj (hget.symm.trans ha)]
              exact hpred

/-- The binary search finds where the elements that satisfy `pred` end. -/
theorem partitionPoint_spec {pred : α → Bool} {l : List α}
    (hl : l.Pairwise fun a b => pred b = true → pred a = true) :
    (∀ a ∈ l.take (partitionPoint pred l), pred a = true) ∧
      ∀ a ∈ l.drop (partitionPoint pred l), pred a = false := by
  have hsplit : Window pred l (partitionPoint pred l) 0 := by
    unfold partitionPoint
    split
    · rename_i hempty
      have hnone : ∀ (i : Nat) (a : α), l[i]? ≠ some a := by
        intro i a ha
        rw [List.isEmpty_iff.1 hempty, List.getElem?_nil] at ha
        cases ha
      exact ⟨Nat.zero_le _, fun i a ha => absurd ha (hnone i a), fun i a ha =>
        absurd ha (hnone i a)⟩
    · rename_i hne
      have hpos : 0 < l.length := List.length_pos_iff.2 fun hnil => hne (List.isEmpty_iff.2 hnil)
      have hall : Window pred l 0 l.length := by
        refine ⟨by omega, fun i a _ hi => by omega, fun i a ha hi => ?_⟩
        obtain ⟨hlt, _⟩ := List.getElem?_eq_some_iff.1 ha
        omega
      have hone := partitionLoop_window hl l.length l.length 0 (le_refl _) hpos hall
      generalize partitionLoop pred l l.length l.length 0 = base at hone ⊢
      have hfits := hone.fits
      have hget : l[base]? = some l[base] := List.getElem?_eq_getElem (by omega)
      simp only [hget, Option.any_some]
      split
      · rename_i hpred
        refine ⟨hfits, fun i a ha hi => ?_, fun i a ha hi => hone.after i a ha (by omega)⟩
        rcases Nat.lt_or_ge i base with hlt | hge
        · exact hone.before i a ha hlt
        · obtain rfl : i = base := by omega
          rw [← Option.some.inj (hget.symm.trans ha)]
          exact hpred
      · rename_i hpred
        refine ⟨by omega, hone.before, fun i a ha hi => ?_⟩
        rcases Nat.lt_or_ge base i with hlt | hge
        · exact hone.after i a ha (by omega)
        · obtain rfl : i = base := by omega
          rw [← Option.some.inj (hget.symm.trans ha)]
          exact Bool.eq_false_iff.2 hpred
  constructor
  · intro a ha
    obtain ⟨i, hi, rfl⟩ := List.mem_take_iff_getElem.1 ha
    exact hsplit.before i _ (List.getElem?_eq_getElem _) (by omega)
  · intro a ha
    obtain ⟨i, hi⟩ := List.mem_iff_getElem?.1 ha
    rw [List.getElem?_drop] at hi
    exact hsplit.after _ a hi (by omega)

theorem insertIdx_eq {l : List α} {i : Nat} (h : i ≤ l.length) (x : α) :
    l.insertIdx i x = l.take i ++ x :: l.drop i := by
  induction l generalizing i with
  | nil =>
      obtain rfl : i = 0 := by simpa using h
      rfl
  | cons a l ih =>
      cases i with
      | zero => rfl
      | succ i =>
          rw [List.insertIdx_succ_cons, ih (Nat.le_of_succ_le_succ h), List.take_succ_cons,
            List.drop_succ_cons, List.cons_append]

/-- What is inserted where the search ends keeps an ordered list ordered. -/
theorem pairwise_insertIdx {pred : α → Bool} {r : α → α → Prop} {l : List α} {x : α}
    (hl : l.Pairwise r) (htrans : ∀ a b c, r a b → r b c → r a c)
    (hbefore : ∀ a ∈ l, pred a = true → r a x) (hafter : ∀ a ∈ l, pred a = false → r x a)
    (hmono : ∀ a b, r a b → pred b = true → pred a = true) :
    (l.insertIdx (partitionPoint pred l) x).Pairwise r := by
  obtain ⟨htake, hdrop⟩ := partitionPoint_spec (hl.imp (hmono _ _))
  have hleft : ∀ a ∈ l.take (partitionPoint pred l), r a x := fun a ha =>
    hbefore a (List.mem_of_mem_take ha) (htake a ha)
  have hright : ∀ a ∈ l.drop (partitionPoint pred l), r x a := fun a ha =>
    hafter a (List.mem_of_mem_drop ha) (hdrop a ha)
  rw [insertIdx_eq (partitionPoint_le_length pred l), List.pairwise_append]
  refine ⟨hl.sublist (List.take_sublist ..), ?_, ?_⟩
  · exact List.pairwise_cons.2 ⟨hright, hl.sublist (List.drop_sublist ..)⟩
  · intro a ha b hb
    rcases List.mem_cons.1 hb with rfl | hb
    · exact hleft a ha
    · exact htrans a x b (hleft a ha) (hright b hb)

end Kovanica.Lib
