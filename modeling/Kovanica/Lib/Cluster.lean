import Mathlib.Data.Finset.Card
import Mathlib.Data.Finset.Dedup
import Mathlib.Algebra.GroupWithZero.Nat

/-!
# Greedy clusters

For a relation of conflict, a finite set is a `k`-cluster when each member
conflicts with at most `k` members.  `absorbAll` grows a set along a list: a
candidate joins exactly when the set stays a cluster with it.

What the cluster ends with depends on the order of the list, but whether a candidate joins
is a matter of what was there at its turn: `mem_absorbAll_split` and `mem_absorbAll_before`.
Candidates that form a cluster with the set all join it, `absorbAll_of_isCluster`.
-/

namespace Kovanica.Lib

variable {α : Type*} [DecidableEq α]

/-- The members of `S` that `b` conflicts with. -/
noncomputable def conflicts (R : α → α → Prop) (S : Finset α) (b : α) : Finset α :=
  open Classical in S.filter (R b)

/-- Every member of `S` conflicts with at most `k` members.  This is the k-cluster rule, with
being unrelated in a DAG for the conflict. -/
def IsCluster (R : α → α → Prop) (k : Nat) (S : Finset α) : Prop :=
  ∀ b ∈ S, (conflicts R S b).card ≤ k

/-- The candidate `c` joins if the set stays a cluster. -/
noncomputable def absorb (R : α → α → Prop) (k : Nat) (S : Finset α) (c : α) : Finset α :=
  open Classical in if IsCluster R k (insert c S) then insert c S else S

/-- The candidates of a list are offered in turn.  Who is absorbed depends on the order of the
list, which is why the consensus fixes it. -/
noncomputable def absorbAll (R : α → α → Prop) (k : Nat) (S : Finset α) (l : List α) : Finset α :=
  l.foldl (absorb R k) S

variable {R : α → α → Prop} {k : Nat} {S : Finset α} {a b c : α}

omit [DecidableEq α] in
@[simp] theorem mem_conflicts : a ∈ conflicts R S b ↔ a ∈ S ∧ R b a := by
  classical
  rw [conflicts, Finset.mem_filter]

omit [DecidableEq α] in
/-- Relations that agree on a set have the same clusters in it. -/
theorem isCluster_congr {R' : α → α → Prop} (hR : ∀ a ∈ S, ∀ b ∈ S, (R a b ↔ R' a b)) :
    IsCluster R k S ↔ IsCluster R' k S := by
  have hconflicts : ∀ b ∈ S, conflicts R S b = conflicts R' S b := by
    intro b hb
    ext a
    rw [mem_conflicts, mem_conflicts]
    exact and_congr_right fun ha => hR b hb a ha
  unfold IsCluster
  constructor
  · intro h b hb
    rw [← hconflicts b hb]
    exact h b hb
  · intro h b hb
    rw [hconflicts b hb]
    exact h b hb

/-! ## Adding one member -/

theorem conflicts_insert_of_not (h : ¬ R b c) : conflicts R (insert c S) b = conflicts R S b := by
  ext a
  rw [mem_conflicts, mem_conflicts, Finset.mem_insert]
  constructor
  · rintro ⟨rfl | ha, hba⟩
    · exact absurd hba h
    · exact ⟨ha, hba⟩
  · exact fun ⟨ha, hba⟩ => ⟨.inr ha, hba⟩

theorem card_conflicts_insert_of_rel (h : R b c) (hc : c ∉ S) :
    (conflicts R (insert c S) b).card = (conflicts R S b).card + 1 := by
  have heq : conflicts R (insert c S) b = insert c (conflicts R S b) := by
    ext a
    rw [mem_conflicts, Finset.mem_insert, Finset.mem_insert, mem_conflicts]
    constructor
    · rintro ⟨rfl | ha, hba⟩
      · exact .inl rfl
      · exact .inr ⟨ha, hba⟩
    · rintro (rfl | ⟨ha, hba⟩)
      · exact ⟨.inl rfl, h⟩
      · exact ⟨.inr ha, hba⟩
  rw [heq, Finset.card_insert_of_notMem]
  exact fun hmem => hc (mem_conflicts.1 hmem).1

/-- A new member must not conflict with too many others, nor be one conflict too
many for any of them. -/
theorem isCluster_insert_iff (hirrefl : ∀ x, ¬ R x x) (hsymm : ∀ x y, R x y → R y x)
    (h : IsCluster R k S) (hc : c ∉ S) :
    IsCluster R k (insert c S) ↔
      (conflicts R S c).card ≤ k ∧ ∀ b ∈ conflicts R S c, (conflicts R S b).card + 1 ≤ k := by
  constructor
  · intro hins
    constructor
    · have hself := hins c (Finset.mem_insert_self c S)
      rwa [conflicts_insert_of_not (hirrefl c)] at hself
    · intro b hb
      obtain ⟨hbS, hcb⟩ := mem_conflicts.1 hb
      have hbound := hins b (Finset.mem_insert_of_mem hbS)
      rwa [card_conflicts_insert_of_rel (hsymm c b hcb) hc] at hbound
  · rintro ⟨hself, hothers⟩ b hb
    rcases Finset.mem_insert.1 hb with rfl | hbS
    · rwa [conflicts_insert_of_not (hirrefl b)]
    · by_cases hbc : R b c
      · rw [card_conflicts_insert_of_rel hbc hc]
        apply hothers b
        exact mem_conflicts.2 ⟨hbS, hsymm b c hbc⟩
      · rw [conflicts_insert_of_not hbc]
        exact h b hbS

/-- A member without conflicts may always join. -/
theorem IsCluster.insert_free (h : IsCluster R k S) (hself : ¬ R c c)
    (hfree : ∀ b ∈ S, ¬ R b c ∧ ¬ R c b) : IsCluster R k (insert c S) := by
  intro b hb
  rcases Finset.mem_insert.1 hb with rfl | hbS
  · have hnone : conflicts R (insert b S) b = ∅ := by
      rw [conflicts_insert_of_not hself, Finset.eq_empty_iff_forall_notMem]
      intro a ha
      obtain ⟨haS, hba⟩ := mem_conflicts.1 ha
      exact (hfree a haS).2 hba
    rw [hnone]
    exact Nat.zero_le k
  · rw [conflicts_insert_of_not (hfree b hbS).1]
    exact h b hbS

/-! ## Growing along a list -/

theorem absorb_of_isCluster (h : IsCluster R k (insert c S)) : absorb R k S c = insert c S := by
  rw [absorb, if_pos h]

theorem absorb_of_not_isCluster (h : ¬ IsCluster R k (insert c S)) : absorb R k S c = S := by
  rw [absorb, if_neg h]

theorem mem_absorb : a ∈ absorb R k S c ↔ a ∈ S ∨ a = c ∧ IsCluster R k (insert c S) := by
  by_cases h : IsCluster R k (insert c S)
  · rw [absorb_of_isCluster h, Finset.mem_insert]
    simp only [h, and_true, or_comm]
  · rw [absorb_of_not_isCluster h]
    simp only [h, and_false, or_false]

theorem absorbAll_append (l l' : List α) :
    absorbAll R k S (l ++ l') = absorbAll R k (absorbAll R k S l) l' := by
  unfold absorbAll
  exact List.foldl_append

theorem absorbAll_cons (l : List α) :
    absorbAll R k S (c :: l) = absorbAll R k (absorb R k S c) l := rfl

theorem subset_absorb : S ⊆ absorb R k S c := by
  unfold absorb
  split
  · exact Finset.subset_insert c S
  · exact subset_refl S

theorem subset_absorbAll (l : List α) : S ⊆ absorbAll R k S l := by
  induction l generalizing S with
  | nil => exact subset_refl S
  | cons c l ih => exact subset_absorb.trans ih

/-- Only the old members and the candidates are in the set. -/
theorem mem_or_mem_of_mem_absorbAll {l : List α} (h : a ∈ absorbAll R k S l) : a ∈ S ∨ a ∈ l := by
  induction l generalizing S with
  | nil => exact .inl h
  | cons c l ih =>
      rcases ih h with hstep | hl
      · unfold absorb at hstep
        split at hstep
        · rcases Finset.mem_insert.1 hstep with rfl | hS
          · exact .inr (List.mem_cons_self ..)
          · exact .inl hS
        · exact .inl hstep
      · exact .inr (List.mem_cons_of_mem c hl)

theorem IsCluster.absorb (h : IsCluster R k S) (c : α) : IsCluster R k (absorb R k S c) := by
  by_cases hins : IsCluster R k (insert c S)
  · rwa [absorb_of_isCluster hins]
  · rwa [absorb_of_not_isCluster hins]

theorem IsCluster.absorbAll (h : IsCluster R k S) (l : List α) :
    IsCluster R k (absorbAll R k S l) := by
  induction l generalizing S with
  | nil => exact h
  | cons c l ih => exact ih (h.absorb c)

/-- The first candidate of a list joins exactly when it fits. -/
theorem mem_absorbAll_cons {l : List α} (hl : c ∉ l) (hS : c ∉ S) :
    c ∈ absorbAll R k S (c :: l) ↔ IsCluster R k (insert c S) := by
  rw [absorbAll_cons]
  constructor
  · intro hc
    rcases mem_or_mem_of_mem_absorbAll hc with hstep | hmem
    · exact ((mem_absorb.1 hstep).resolve_left hS).2
    · exact absurd hmem hl
  · exact fun hins => subset_absorbAll l (mem_absorb.2 (.inr ⟨rfl, hins⟩))

/-! ## When all candidates join -/

omit [DecidableEq α] in
/-- Fewer members, fewer conflicts. -/
theorem IsCluster.mono {T : Finset α} (h : IsCluster R k S) (hsub : T ⊆ S) : IsCluster R k T := by
  intro b hb
  have hconflicts : conflicts R T b ⊆ conflicts R S b := by
    intro a ha
    rw [mem_conflicts] at ha ⊢
    exact ⟨hsub ha.1, ha.2⟩
  exact (Finset.card_le_card hconflicts).trans (h b (hsub hb))

/-- Candidates that form a cluster with the set all join it. -/
theorem absorbAll_of_isCluster {l : List α} (h : IsCluster R k (S ∪ l.toFinset)) :
    absorbAll R k S l = S ∪ l.toFinset := by
  induction l generalizing S with
  | nil => exact (Finset.union_empty S).symm
  | cons c l ih =>
      have heq : S ∪ (c :: l).toFinset = insert c S ∪ l.toFinset := by
        rw [List.toFinset_cons, Finset.union_insert, Finset.insert_union]
      rw [heq] at h ⊢
      rw [absorbAll_cons, absorb_of_isCluster (h.mono Finset.subset_union_left)]
      exact ih h

/-- All candidates join exactly when they form a cluster with the set. -/
theorem forall_mem_absorbAll_iff {l : List α} (h : IsCluster R k S) :
    (∀ c ∈ l, c ∈ absorbAll R k S l) ↔ IsCluster R k (S ∪ l.toFinset) := by
  constructor
  · intro hall
    apply (h.absorbAll l).mono
    intro b hb
    rcases Finset.mem_union.1 hb with hS | hl
    · exact subset_absorbAll l hS
    · exact hall b (List.mem_toFinset.1 hl)
  · intro hcluster c hc
    rw [absorbAll_of_isCluster hcluster]
    exact Finset.mem_union_right _ (List.mem_toFinset.2 hc)

/-- Relations that agree on a set let the same of its members join. -/
theorem absorbAll_congr {R' : α → α → Prop} {T : Set α} {l : List α}
    (hR : ∀ a ∈ T, ∀ b ∈ T, (R a b ↔ R' a b)) (hS : ∀ a ∈ S, a ∈ T) (hl : ∀ a ∈ l, a ∈ T) :
    absorbAll R k S l = absorbAll R' k S l := by
  induction l generalizing S with
  | nil => rfl
  | cons c l ih =>
      have hc : c ∈ T := hl c (List.mem_cons_self ..)
      have hins : ∀ a ∈ insert c S, a ∈ T := by
        intro a ha
        rcases Finset.mem_insert.1 ha with rfl | ha
        · exact hc
        · exact hS a ha
      have hstep : absorb R k S c = absorb R' k S c := by
        have hiff : IsCluster R k (insert c S) ↔ IsCluster R' k (insert c S) :=
          isCluster_congr fun a ha b hb => hR a (hins a ha) b (hins b hb)
        by_cases h : IsCluster R k (insert c S)
        · rw [absorb_of_isCluster h, absorb_of_isCluster (hiff.1 h)]
        · rw [absorb_of_not_isCluster h, absorb_of_not_isCluster (mt hiff.2 h)]
      rw [absorbAll_cons, absorbAll_cons, ← hstep]
      apply ih
      · intro a ha
        rcases mem_absorb.1 ha with ha | ⟨rfl, _⟩
        · exact hS a ha
        · exact hc
      · exact fun a ha => hl a (List.mem_cons_of_mem c ha)

section Split

variable {before after : List α} (hnodup : (before ++ c :: after).Nodup)
  (hdisj : ∀ x ∈ before ++ c :: after, x ∉ S)

include hnodup hdisj

/-- A candidate joins exactly when it fits what was there at its turn. -/
theorem mem_absorbAll_split :
    c ∈ absorbAll R k S (before ++ c :: after) ↔
      IsCluster R k (insert c (absorbAll R k S before)) := by
  obtain ⟨_, hrest, hbefore⟩ := List.nodup_append.1 hnodup
  have hnot : c ∉ absorbAll R k S before := by
    intro hc
    rcases mem_or_mem_of_mem_absorbAll hc with hS | hl
    · exact hdisj c (by simp) hS
    · exact hbefore c hl c (by simp) rfl
  have hself : c ∈ absorb R k (absorbAll R k S before) c ↔
      IsCluster R k (insert c (absorbAll R k S before)) := by
    rw [mem_absorb]
    simp only [hnot, true_and, false_or]
  rw [absorbAll_append, absorbAll_cons, ← hself]
  constructor
  · intro hc
    rcases mem_or_mem_of_mem_absorbAll hc with hstep | hl
    · exact hstep
    · exact absurd hl (List.nodup_cons.1 hrest).1
  · exact fun hc => subset_absorbAll after hc

omit hdisj in
/-- What was there at a candidate's turn: the old members, and the earlier
candidates that are in the final set. -/
theorem mem_absorbAll_before :
    a ∈ absorbAll R k S before ↔
      a ∈ S ∨ a ∈ before ∧ a ∈ absorbAll R k S (before ++ c :: after) := by
  obtain ⟨_, _, hbefore⟩ := List.nodup_append.1 hnodup
  rw [absorbAll_append]
  constructor
  · intro ha
    rcases mem_or_mem_of_mem_absorbAll ha with hS | hl
    · exact .inl hS
    · exact .inr ⟨hl, subset_absorbAll _ ha⟩
  · rintro (hS | ⟨hl, ha⟩)
    · exact subset_absorbAll before hS
    · rcases mem_or_mem_of_mem_absorbAll ha with hstep | hlater
      · exact hstep
      · exact absurd rfl (hbefore a hl a hlater)

end Split

end Kovanica.Lib
