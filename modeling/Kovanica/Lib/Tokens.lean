import Kovanica.Lib.Collections
import Mathlib.Algebra.BigOperators.Group.Multiset.Basic
import Mathlib.Algebra.GroupWithZero.Nat

/-!
# Single-use tokens

A set of live tokens, each a key with a value.  An event spends live keys and
creates fresh ones.  Two laws follow for a run of events: the tally of any
measure of the values changes by what is created less what is spent, and, where
no key is created twice, none is spent twice either.  An event that spends
something can then not occur again.

## Main results

* `Run.tally_eq`: the balance of a measure over a run, as an equation in natural numbers.
* `Run.live_iff`, `Run.single_use`: where no key is created twice, no key is spent twice, and
  what is live in the end is what was live or created and has not been spent.
* `Run.created_unique`: a created token is the only one under its key.
* `Run.nodup`: where created keys carry the name of their event, it is enough that the events
  which spend nothing are distinct.
-/

namespace Kovanica.Lib.Tokens

variable {κ ν : Type} [DecidableEq κ]

/-- The keys an event spends, and the tokens it creates.  What a token is worth and who may spend
it are up to the instance. -/
structure Event (κ ν : Type) where
  spends : List κ
  creates : List (κ × ν)

namespace Event

/-- The keys an event creates. -/
def createdKeys (e : Event κ ν) : List κ := e.creates.map Prod.fst

end Event

/-! ## Maps of live tokens -/

/-- The live tokens without the given keys. -/
def spendAll (m : Finmap fun _ : κ => ν) (keys : List κ) : Finmap fun _ : κ => ν :=
  keys.foldl (fun m k => m.erase k) m

/-- The live tokens with the given ones. -/
def createAll (m : Finmap fun _ : κ => ν) (tokens : List (κ × ν)) : Finmap fun _ : κ => ν :=
  tokens.foldl (fun m t => m.insert t.1 t.2) m

/-- The sum of a measure over the live tokens, as a natural number, so that nothing in it wraps.
A run changes it by what is created less what is spent. -/
def tally (f : ν → Nat) (m : Finmap fun _ : κ => ν) : Nat := (m.entries.map fun t => f t.2).sum

/-- The measure of the token under a key, zero when there is none. -/
def measureAt (f : ν → Nat) (m : Finmap fun _ : κ => ν) (k : κ) : Nat :=
  ((m.lookup k).map f).getD 0

theorem tally_insert (f : ν → Nat) {m : Finmap fun _ : κ => ν} {k : κ} (v : ν) (h : k ∉ m) :
    tally f (m.insert k v) = tally f m + f v := by
  rw [tally, Finmap.entries_insert_of_notMem h, Multiset.map_cons, Multiset.sum_cons, tally,
    Nat.add_comm]

theorem tally_erase (f : ν → Nat) {m : Finmap fun _ : κ => ν} {k : κ} (h : k ∈ m) :
    tally f (m.erase k) + measureAt f m k = tally f m := by
  obtain ⟨v, hv⟩ := Finmap.mem_iff.1 h
  have hback : (m.erase k).insert k v = m := by
    refine Finmap.ext_lookup fun x => ?_
    rw [lookup_insert_eq]
    by_cases hx : x = k
    · rw [if_pos hx, hx, hv]
    · rw [if_neg hx, Finmap.lookup_erase_ne hx]
  have hinsert := tally_insert f v (Finmap.notMem_erase_self (a := k) (s := m))
  rw [hback] at hinsert
  rw [measureAt, hv, hinsert]
  rfl

theorem mem_spendAll {m : Finmap fun _ : κ => ν} {keys : List κ} {k : κ} :
    k ∈ spendAll m keys ↔ k ∈ m ∧ k ∉ keys := by
  rw [spendAll, ← Finmap.lookup_isSome, lookup_foldl_erase (fun k => k), List.map_id']
  by_cases hk : k ∈ keys
  · simp [hk]
  · simp [hk, Finmap.lookup_isSome]

theorem mem_createAll {m : Finmap fun _ : κ => ν} {tokens : List (κ × ν)} {k : κ} :
    k ∈ createAll m tokens ↔ k ∈ m ∨ k ∈ tokens.map Prod.fst := by
  induction tokens generalizing m with
  | nil => simp [createAll]
  | cons t tokens ih =>
      have hstep : createAll m (t :: tokens) = createAll (m.insert t.1 t.2) tokens := rfl
      rw [hstep, ih, Finmap.mem_insert, List.map_cons, List.mem_cons]
      tauto

theorem lookup_spendAll (m : Finmap fun _ : κ => ν) (keys : List κ) (k : κ) :
    (spendAll m keys).lookup k = if k ∈ keys then none else m.lookup k := by
  rw [spendAll, lookup_foldl_erase (fun k => k), List.map_id']

theorem lookup_createAll_of_notMem {m : Finmap fun _ : κ => ν} {tokens : List (κ × ν)} {k : κ}
    (h : k ∉ tokens.map Prod.fst) : (createAll m tokens).lookup k = m.lookup k := by
  induction tokens generalizing m with
  | nil => rfl
  | cons t tokens ih =>
      rw [List.map_cons, List.mem_cons, not_or] at h
      have hstep : createAll m (t :: tokens) = createAll (m.insert t.1 t.2) tokens := rfl
      rw [hstep, ih h.2, lookup_insert_eq, if_neg h.1]

theorem mem_of_lookup_createAll {m : Finmap fun _ : κ => ν} {tokens : List (κ × ν)} {k : κ}
    {v : ν} (h : (createAll m tokens).lookup k = some v) :
    (k, v) ∈ tokens ∨ m.lookup k = some v := by
  induction tokens generalizing m with
  | nil => exact .inr h
  | cons t tokens ih =>
      rcases ih h with hin | hold
      · exact .inl (List.mem_cons_of_mem _ hin)
      · rw [lookup_insert_eq] at hold
        split at hold
        · rename_i hk
          obtain ⟨k', v'⟩ := t
          obtain rfl := Option.some.inj hold
          obtain rfl : k = k' := hk
          exact .inl (List.mem_cons_self ..)
        · exact .inr hold

theorem tally_spendAll (f : ν → Nat) {keys : List κ} (hnodup : keys.Nodup)
    {m : Finmap fun _ : κ => ν} (hlive : ∀ k ∈ keys, k ∈ m) :
    tally f (spendAll m keys) + (keys.map (measureAt f m)).sum = tally f m := by
  induction keys generalizing m with
  | nil => simp [spendAll]
  | cons k keys ih =>
      obtain ⟨hnot, hnodup⟩ := List.nodup_cons.1 hnodup
      have hne : ∀ x ∈ keys, x ≠ k := fun x hx heq => hnot (heq ▸ hx)
      have hrest := ih hnodup (m := m.erase k) fun x hx =>
        Finmap.mem_erase.2 ⟨hne x hx, hlive x (List.mem_cons_of_mem _ hx)⟩
      have hsame : keys.map (measureAt f (m.erase k)) = keys.map (measureAt f m) :=
        List.map_congr_left fun x hx => by
          rw [measureAt, measureAt, Finmap.lookup_erase_ne (hne x hx)]
      have hhead := tally_erase f (hlive k (List.mem_cons_self ..))
      have hstep : spendAll m (k :: keys) = spendAll (m.erase k) keys := rfl
      rw [hsame] at hrest
      rw [hstep, List.map_cons, List.sum_cons]
      omega

theorem tally_createAll (f : ν → Nat) {tokens : List (κ × ν)}
    (hnodup : (tokens.map Prod.fst).Nodup) {m : Finmap fun _ : κ => ν}
    (hfresh : ∀ k ∈ tokens.map Prod.fst, k ∉ m) :
    tally f (createAll m tokens) = tally f m + (tokens.map fun t => f t.2).sum := by
  induction tokens generalizing m with
  | nil => simp [createAll]
  | cons t tokens ih =>
      rw [List.map_cons] at hnodup hfresh
      obtain ⟨hnot, hnodup⟩ := List.nodup_cons.1 hnodup
      have hrest := ih hnodup (m := m.insert t.1 t.2) fun k hk => by
        rw [Finmap.mem_insert, not_or]
        exact ⟨fun heq => hnot (heq ▸ hk), hfresh k (List.mem_cons_of_mem _ hk)⟩
      have hhead := tally_insert f t.2 (hfresh t.1 (List.mem_cons_self ..))
      have hstep : createAll m (t :: tokens) = createAll (m.insert t.1 t.2) tokens := rfl
      rw [hstep, hrest, hhead, List.map_cons, List.sum_cons, Nat.add_assoc]

/-! ## Events -/

/-- An event takes `m` to `m'`: it spends distinct live keys and creates distinct
keys that are not live afterwards. -/
structure Fires (m : Finmap fun _ : κ => ν) (e : Event κ ν) (m' : Finmap fun _ : κ => ν) :
    Prop where
  spends_nodup : e.spends.Nodup
  spends_live : ∀ k ∈ e.spends, k ∈ m
  creates_nodup : e.createdKeys.Nodup
  creates_fresh : ∀ k ∈ e.createdKeys, k ∉ spendAll m e.spends
  result : m' = createAll (spendAll m e.spends) e.creates

namespace Fires

variable {m m' : Finmap fun _ : κ => ν} {e : Event κ ν}

theorem mem_iff (h : Fires m e m') (k : κ) :
    k ∈ m' ↔ (k ∈ m ∧ k ∉ e.spends) ∨ k ∈ e.createdKeys := by
  rw [h.result, mem_createAll, mem_spendAll]
  rfl

/-- A live token that is not spent stays as it is. -/
theorem lookup_of_kept (h : Fires m e m') {k : κ} (hlive : k ∈ m) (hkept : k ∉ e.spends) :
    m'.lookup k = m.lookup k := by
  have hnot : k ∉ e.createdKeys := fun hin =>
    h.creates_fresh k hin (mem_spendAll.2 ⟨hlive, hkept⟩)
  rw [h.result, lookup_createAll_of_notMem hnot, lookup_spendAll, if_neg hkept]

/-- A token that is live afterwards was created or was live before. -/
theorem created_or_old (h : Fires m e m') {k : κ} {v : ν} (hv : m'.lookup k = some v) :
    (k, v) ∈ e.creates ∨ m.lookup k = some v := by
  rw [h.result] at hv
  refine (mem_of_lookup_createAll hv).imp_right fun hold => ?_
  rw [lookup_spendAll] at hold
  split at hold
  · cases hold
  · exact hold

/-- What is created and what is spent balance the tallies. -/
theorem tally_eq (h : Fires m e m') (f : ν → Nat) :
    tally f m' + (e.spends.map (measureAt f m)).sum =
      tally f m + (e.creates.map fun t => f t.2).sum := by
  have hspend := tally_spendAll f h.spends_nodup h.spends_live
  have hcreate := tally_createAll f h.creates_nodup h.creates_fresh
  rw [h.result]
  omega

/-- A created token is the only one under its key. -/
theorem created_unique (h : Fires m e m') {k : κ} {v v' : ν} (hv : (k, v) ∈ e.creates)
    (hv' : (k, v') ∈ e.creates) : v = v' := by
  have hinj := List.inj_on_of_nodup_map h.creates_nodup hv hv' rfl
  exact (Prod.mk.inj hinj).2

end Fires

/-! ## An earlier set -/

/-- What is live and was live in `frozen` is the same token, and every live token
counts. -/
def Consistent (f : ν → Nat) (frozen m : Finmap fun _ : κ => ν) : Prop :=
  ∀ k v, m.lookup k = some v → 0 < f v ∧ ∀ v', frozen.lookup k = some v' → v' = v

namespace Consistent

variable {f : ν → Nat} {frozen m m' : Finmap fun _ : κ => ν}

/-- A live key measures the same in `frozen`, or nothing. -/
theorem measureAt_cases (h : Consistent f frozen m) {k : κ} (hlive : k ∈ m) :
    measureAt f frozen k = (if k ∈ frozen then measureAt f m k else 0) ∧ 0 < measureAt f m k := by
  obtain ⟨v, hv⟩ := Finmap.mem_iff.1 hlive
  have hcount := h k v hv
  simp only [measureAt, hv, Option.map_some, Option.getD_some]
  refine ⟨?_, hcount.1⟩
  cases hold : frozen.lookup k with
  | none =>
      have hnot : k ∉ frozen := Finmap.lookup_eq_none.1 hold
      simp [hnot]
  | some v' => simp [Finmap.mem_of_lookup_eq_some hold, hcount.2 v' hold]

/-- Live keys are worth at most as much in `frozen`, and exactly as much when all of them
are in it. -/
theorem sum_le (h : Consistent f frozen m) {keys : List κ} (hlive : ∀ k ∈ keys, k ∈ m) :
    (keys.map (measureAt f frozen)).sum ≤ (keys.map (measureAt f m)).sum ∧
      ((keys.map (measureAt f frozen)).sum = (keys.map (measureAt f m)).sum ↔
        ∀ k ∈ keys, k ∈ frozen) := by
  induction keys with
  | nil => simp
  | cons k keys ih =>
      obtain ⟨hle, hiff⟩ := ih fun x hx => hlive x (List.mem_cons_of_mem _ hx)
      obtain ⟨hmeasure, hpos⟩ := h.measureAt_cases (hlive k (List.mem_cons_self ..))
      rw [List.map_cons, List.map_cons, List.sum_cons, List.sum_cons, List.forall_mem_cons, ← hiff,
        hmeasure]
      by_cases hk : k ∈ frozen
      · rw [if_pos hk]
        exact ⟨by omega, by simp only [hk, true_and]; omega⟩
      · rw [if_neg hk]
        exact ⟨by omega, by simp only [hk, false_and, iff_false]; omega⟩

/-- An event keeps this, when what it creates counts and is under its keys what `frozen`
has there. -/
theorem fires (h : Consistent f frozen m) {e : Event κ ν} (hfires : Fires m e m')
    (hpos : ∀ t ∈ e.creates, 0 < f t.2)
    (hsame : ∀ k v, frozen.lookup k = some v → k ∈ e.createdKeys → (k, v) ∈ e.creates) :
    Consistent f frozen m' := by
  intro k v hv
  rcases hfires.created_or_old hv with hnew | hold
  · refine ⟨hpos _ hnew, fun v' hv' => ?_⟩
    exact hfires.created_unique (hsame k v' hv' (List.mem_map_of_mem hnew)) hnew
  · exact h k v hold

end Consistent

/-! ## Runs -/

/-- The events of a list, one after the other: each spends tokens that are live when its turn
comes and creates tokens under keys that are free then. -/
inductive Run (m : Finmap fun _ : κ => ν) : List (Event κ ν) → (Finmap fun _ : κ => ν) → Prop
  | start : Run m [] m
  | step {es : List (Event κ ν)} {e : Event κ ν} {m' m'' : Finmap fun _ : κ => ν} :
      Run m es m' → Fires m' e m'' → Run m (es ++ [e]) m''

/-- The keys a list of events spends. -/
def spent (es : List (Event κ ν)) : List κ := es.flatMap Event.spends

/-- The keys a list of events creates. -/
def created (es : List (Event κ ν)) : List κ := es.flatMap Event.createdKeys

omit [DecidableEq κ] in
@[simp] theorem spent_append (es es' : List (Event κ ν)) :
    spent (es ++ es') = spent es ++ spent es' := List.flatMap_append

omit [DecidableEq κ] in
@[simp] theorem created_append (es es' : List (Event κ ν)) :
    created (es ++ es') = created es ++ created es' := List.flatMap_append

omit [DecidableEq κ] in
@[simp] theorem spent_singleton (e : Event κ ν) : spent [e] = e.spends := List.flatMap_singleton ..

omit [DecidableEq κ] in
@[simp] theorem created_singleton (e : Event κ ν) : created [e] = e.createdKeys :=
  List.flatMap_singleton ..

namespace Run

variable {m m' m'' : Finmap fun _ : κ => ν} {es es' : List (Event κ ν)}

theorem trans (h : Run m es m') (h' : Run m' es' m'') : Run m (es ++ es') m'' := by
  induction h' with
  | start =>
      rw [List.append_nil]
      exact h
  | step _ hfires ih =>
      rw [← List.append_assoc]
      exact ih.step hfires

theorem creates_nodup (h : Run m es m') : ∀ e ∈ es, e.createdKeys.Nodup := by
  induction h with
  | start => exact fun e he => absurd he List.not_mem_nil
  | step _ hfires ih =>
      intro e he
      rcases List.mem_append.1 he with he | he
      · exact ih e he
      · exact List.mem_singleton.1 he ▸ hfires.creates_nodup

/-- Events of distinct names, with every created key carrying its creator's name,
create no key twice. -/
theorem created_nodup {τ ι : Type} {event : τ → Event κ ν} (ident : τ → ι) (owner : κ → ι)
    {ts : List τ} (h : Run m (ts.map event) m')
    (howner : ∀ t, ∀ k ∈ (event t).createdKeys, owner k = ident t)
    (hident : (ts.map ident).Nodup) : (created (ts.map event)).Nodup := by
  rw [created, List.flatMap_map, List.nodup_flatMap]
  refine ⟨fun t ht => h.creates_nodup _ (List.mem_map_of_mem ht), ?_⟩
  refine (List.pairwise_map.1 hident).imp fun {t t'} hne k hk hk' => hne ?_
  rw [← howner t k hk, ← howner t' k hk']

/-- Where no key is created that is live or created elsewhere, the live keys are the
old and the created ones not yet spent, and no key is spent twice. -/
theorem live_iff (h : Run m es m') (hcreated : (created es).Nodup)
    (hfresh : ∀ k ∈ created es, k ∉ m) :
    (spent es).Nodup ∧ (∀ k ∈ spent es, k ∈ m ∨ k ∈ created es) ∧
      ∀ k, k ∈ m' ↔ (k ∈ m ∨ k ∈ created es) ∧ k ∉ spent es := by
  induction h with
  | start =>
      simp only [spent, created, List.flatMap_nil, List.not_mem_nil, or_false, not_false_iff,
        and_true, iff_self]
      exact ⟨List.nodup_nil, fun _ hk => hk.elim, fun _ => trivial⟩
  | @step es e m' m'' hrun hfires ih =>
      rw [created_append, created_singleton] at hcreated hfresh
      obtain ⟨hes, _, hdisj⟩ := List.nodup_append.1 hcreated
      obtain ⟨hnodup, hsub, hlive⟩ := ih hes fun k hk => hfresh k (List.mem_append_left _ hk)
      have hspends : ∀ k ∈ e.spends, (k ∈ m ∨ k ∈ created es) ∧ k ∉ spent es := fun k hk =>
        (hlive k).1 (hfires.spends_live k hk)
      rw [spent_append, spent_singleton, created_append, created_singleton]
      refine ⟨?_, ?_, ?_⟩
      · rw [List.nodup_append]
        refine ⟨hnodup, hfires.spends_nodup, ?_⟩
        rintro a ha b hb rfl
        exact (hspends a hb).2 ha
      · intro k hk
        rw [List.mem_append]
        rcases List.mem_append.1 hk with hk | hk
        · exact (hsub k hk).imp_right .inl
        · exact (hspends k hk).1.imp_right .inl
      · intro k
        rw [hfires.mem_iff, hlive, List.mem_append, List.mem_append, not_or]
        constructor
        · rintro (⟨⟨hk, hnot⟩, hnot'⟩ | hk)
          · exact ⟨hk.imp_right .inl, hnot, hnot'⟩
          · have hold : ¬ (k ∈ m ∨ k ∈ created es) := fun hin =>
              hin.elim (hfresh k (List.mem_append_right _ hk)) fun hin => hdisj k hin k hk rfl
            exact ⟨.inr (.inr hk), fun hin => hold (hsub k hin), fun hin => hold (hspends k hin).1⟩
        · rintro ⟨hk | hk | hk, hnot, hnot'⟩
          · exact .inl ⟨⟨.inl hk, hnot⟩, hnot'⟩
          · exact .inl ⟨⟨.inr hk, hnot⟩, hnot'⟩
          · exact .inr hk

/-- Where every key has its price, and every token the measure its key has, what is
created pays for what is spent and what is left. -/
theorem priced (h : Run m es m') {f : ν → Nat} {price : κ → Nat}
    (hold : ∀ k v, m.lookup k = some v → f v = price k)
    (hcreates : ∀ e ∈ es, ∀ t ∈ e.creates, f t.2 = price t.1) :
    (∀ k v, m'.lookup k = some v → f v = price k) ∧
      tally f m' + ((spent es).map price).sum =
        tally f m + (es.map fun e => (e.creates.map fun t => f t.2).sum).sum := by
  induction h with
  | start => exact ⟨hold, rfl⟩
  | @step es e m' m'' _ hfires ih =>
      obtain ⟨hlive, hbalance⟩ := ih fun e' he' => hcreates e' (List.mem_append_left _ he')
      have hnew : ∀ t ∈ e.creates, f t.2 = price t.1 :=
        hcreates e (List.mem_append_right _ (List.mem_singleton.2 rfl))
      refine ⟨fun k v hv => (hfires.created_or_old hv).elim (hnew (k, v)) (hlive k v), ?_⟩
      -- what the event spends is live, so it has its price
      have hspends : e.spends.map (measureAt f m') = e.spends.map price := by
        refine List.map_congr_left fun k hk => ?_
        obtain ⟨v, hv⟩ := Finmap.mem_iff.1 (hfires.spends_live k hk)
        rw [measureAt, hv, ← hlive k v hv]
        rfl
      have hevent := hfires.tally_eq f
      rw [hspends] at hevent
      rw [spent_append, spent_singleton, List.map_append, List.sum_append, List.map_append,
        List.sum_append, List.map_singleton, List.sum_singleton]
      omega

/-- From no live keys at all, they are the created ones not yet spent. -/
theorem single_use (h : Run ∅ es m) (hcreated : (created es).Nodup) :
    (spent es).Nodup ∧ (∀ k ∈ spent es, k ∈ created es) ∧
      ∀ k, k ∈ m ↔ k ∈ created es ∧ k ∉ spent es := by
  have hlive := h.live_iff hcreated fun k _ => Finmap.notMem_empty
  simp only [Finmap.notMem_empty, false_or] at hlive
  exact hlive

end Run

/-! ## Licensed runs -/

section Licence

variable {τ : Type} {event : τ → Event κ ν} {leave : τ → κ → ν → Prop}
  {m m' m'' : Finmap fun _ : κ => ν} {ts ts' : List τ}

/-- A run in which every spend has leave for the token it finds.  What is gone from the live
tokens in the end was then spent with leave. -/
inductive Licensed (event : τ → Event κ ν) (leave : τ → κ → ν → Prop)
    (m : Finmap fun _ : κ => ν) : List τ → (Finmap fun _ : κ => ν) → Prop
  | start : Licensed event leave m [] m
  | step {ts : List τ} {t : τ} {m' m'' : Finmap fun _ : κ => ν} :
      Licensed event leave m ts m' → Fires m' (event t) m'' →
      (∀ k ∈ (event t).spends, ∀ v, m'.lookup k = some v → leave t k v) →
      Licensed event leave m (ts ++ [t]) m''

namespace Licensed

theorem run (h : Licensed event leave m ts m') : Run m (ts.map event) m' := by
  induction h with
  | start => exact .start
  | step _ hfires _ ih =>
      rw [List.map_append]
      exact ih.step hfires

theorem trans (h : Licensed event leave m ts m') (h' : Licensed event leave m' ts' m'') :
    Licensed event leave m (ts ++ ts') m'' := by
  induction h' with
  | start =>
      rw [List.append_nil]
      exact h
  | step _ hfires hleave ih =>
      rw [← List.append_assoc]
      exact ih.step hfires hleave

/-- An old token stays as it is, unless an event has leave to spend it. -/
theorem kept_or_spent (h : Licensed event leave m ts m') {k : κ} {v : ν}
    (hv : m.lookup k = some v) :
    m'.lookup k = some v ∨ ∃ t ∈ ts, k ∈ (event t).spends ∧ leave t k v := by
  induction h with
  | start => exact .inl hv
  | @step ts t m' m'' _ hfires hleave ih =>
      rcases ih with hold | ⟨t', ht', hspent⟩
      · by_cases hk : k ∈ (event t).spends
        · exact .inr ⟨t, List.mem_append_right _ (List.mem_singleton.2 rfl), hk,
            hleave k hk v hold⟩
        · left
          rw [hfires.lookup_of_kept (Finmap.mem_of_lookup_eq_some hold) hk]
          exact hold
      · exact .inr ⟨t', List.mem_append_left _ ht', hspent⟩

/-- A token that is live afterwards is old, or one of the events creates it. -/
theorem created_or_old (h : Licensed event leave m ts m') {k : κ} {v : ν}
    (hv : m'.lookup k = some v) :
    (∃ t ∈ ts, (k, v) ∈ (event t).creates) ∨ m.lookup k = some v := by
  induction h with
  | start => exact .inr hv
  | @step ts t m' m'' _ hfires _ ih =>
      rcases hfires.created_or_old hv with hnew | hold
      · exact .inl ⟨t, List.mem_append_right _ (List.mem_singleton.2 rfl), hnew⟩
      · refine (ih hold).imp_left fun ⟨t', ht', hnew⟩ => ?_
        exact ⟨t', List.mem_append_left _ ht', hnew⟩

end Licensed

end Licence

/-! ## Events that cannot recur -/

section Recurrence

variable {τ ι : Type} {event : τ → Event κ ν}

/-- Events named by `ident`, with every created key carrying its creator's name:
if names are unambiguous and the events that spend nothing are pairwise distinct,
then all of them are, and no key is created or spent twice. -/
theorem Run.nodup (ident : τ → ι) (owner : κ → ι) {ts : List τ} {m : Finmap fun _ : κ => ν}
    (h : Run ∅ (ts.map event) m)
    (howner : ∀ t, ∀ k ∈ (event t).createdKeys, owner k = ident t)
    (hident : ∀ t ∈ ts, ∀ t' ∈ ts, ident t = ident t' → t = t')
    (hfree : (ts.filter fun t => (event t).spends.isEmpty).Nodup) :
    ts.Nodup ∧ (created (ts.map event)).Nodup ∧ (spent (ts.map event)).Nodup := by
  suffices hkey : ts.Nodup ∧ (created (ts.map event)).Nodup from
    ⟨hkey.1, hkey.2, (h.single_use hkey.2).1⟩
  generalize hes : ts.map event = es at h
  induction h generalizing ts with
  | start =>
      rw [List.map_eq_nil_iff] at hes
      subst hes
      exact ⟨List.nodup_nil, List.nodup_nil⟩
  | @step es e m m' hrun hfires ih =>
      obtain ⟨before, last, rfl, hbefore, hlast⟩ := List.map_eq_append_iff.1 hes
      obtain ⟨t, rfl, rfl⟩ : ∃ t, last = [t] ∧ event t = e := by
        obtain ⟨t, rest, rfl, ht, hrest⟩ := List.map_eq_cons_iff.1 hlast
        rw [List.map_eq_nil_iff.1 hrest]
        exact ⟨t, rfl, ht⟩
      rw [List.filter_append, List.nodup_append] at hfree
      obtain ⟨hnodup, hcreated⟩ := ih
        (fun a ha b hb => hident a (List.mem_append_left _ ha) b (List.mem_append_left _ hb))
        hfree.1 hbefore
      obtain ⟨_, _, hlive⟩ := hrun.single_use hcreated
      -- the last event has not occurred before: it spends nothing, or something live
      have hnew : t ∉ before := by
        intro hin
        by_cases hempty : (event t).spends.isEmpty
        · exact hfree.2.2 t (List.mem_filter.2 ⟨hin, hempty⟩) t
            (List.mem_filter.2 ⟨List.mem_singleton.2 rfl, hempty⟩) rfl
        · obtain ⟨k, hk⟩ := List.exists_mem_of_ne_nil _ (by simpa using hempty)
          have hunspent := ((hlive k).1 (hfires.spends_live k hk)).2
          rw [← hbefore] at hunspent
          exact hunspent (List.mem_flatMap.2 ⟨event t, List.mem_map_of_mem hin, hk⟩)
      constructor
      · rw [List.nodup_append]
        refine ⟨hnodup, List.nodup_singleton t, ?_⟩
        rintro a ha b hb rfl
        rw [List.mem_singleton.1 hb] at ha
        exact hnew ha
      · rw [created_append, created_singleton, List.nodup_append]
        refine ⟨hcreated, hfires.creates_nodup, ?_⟩
        rintro a ha b hb rfl
        rw [← hbefore] at ha
        obtain ⟨e', he', hkey⟩ := List.mem_flatMap.1 ha
        obtain ⟨t', ht', rfl⟩ := List.mem_map.1 he'
        have hsame : t' = t := hident t' (List.mem_append_left _ ht') t
          (List.mem_append_right _ (List.mem_singleton.2 rfl))
          ((howner t' a hkey).symm.trans (howner t a hb))
        exact hnew (hsame ▸ ht')

end Recurrence

end Kovanica.Lib.Tokens
