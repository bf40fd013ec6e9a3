import Kovanica.Dag.Tips
import Kovanica.Lib.Cluster

/-!
# Exact colouring

Two blocks are apart when neither is in the other's past.  `blueSet` is the blue
set of a block as the k-cluster rule defines it: along the selected chain, the
cluster grows by each selected parent and, greedily, by the mergesets.  The
recorded anticone sizes are exactly the conflicts within it.  The blue work is
its total work up to the width of the counter, which nothing keeps from wrapping.

## Main results

* `refused_iff_of_lt`: below the largest `k` the two tests of the code are the cluster rule.
* `colourStep_tallies`, `foldl_colourStep_tallies`: one step is one greedy step, with the
  conflicts counted, and the loop is the greedy growth.
* `computeGhostdag_colouring`: the colouring that is stored.
-/

namespace Kovanica

open Lib Relation

namespace DagView

/-- `b` is in the anticone of `a`. -/
def Apart (d : DagView) (a b : BlockId) : Prop := b ≠ a ∧ ¬ d.Anc b a ∧ ¬ d.Anc a b

/-- The blue set grows by the selected parent and the mergeset of `x`. -/
noncomputable def extendBlue (d : DagView) (S : Finset BlockId) (x : BlockId) : Finset BlockId :=
  match d.selectedParentOf x with
  | none => S
  | some sp => absorbAll d.Apart d.k.val (insert sp S) (d.mergesetOrder x)

/-- The blue set of a block, grown along its selected chain by the k-cluster rule.  It is defined
on the DAG alone and reads no size, list or sum that the code has recorded. -/
noncomputable def blueSet (d : DagView) (x : BlockId) : Finset BlockId :=
  (d.chainTo x).foldl d.extendBlue ∅

/-- No counter of a colouring comes to wrap: `k` is not the largest, or every
merged block joins. -/
def Fits (d : DagView) : Prop :=
  d.k.val < 65535 ∨ ∀ x ∈ d.nodes, ∀ c ∈ d.mergesetOrder x, c ∈ d.blueSet x

/-- The recorded sizes are those of the cluster `S`: each member is listed with the number of
members it conflicts with, and nobody else is listed. -/
structure Tallies (d : DagView) (S : Finset BlockId) (sizes : Finmap fun _ : BlockId => U16) :
    Prop where
  lookup_iff : ∀ b s, sizes.lookup b = some s ↔ b ∈ S ∧ s.val = (conflicts d.Apart S b).card
  cluster : IsCluster d.Apart d.k.val S

variable {d : DagView} {S : Finset BlockId} {sizes : Finmap fun _ : BlockId => U16}
  {ord : HashOrder} {b c sp : BlockId}

theorem apart_irrefl (d : DagView) (a : BlockId) : ¬ d.Apart a a := fun h => h.1 rfl

theorem apart_symm (d : DagView) (a b : BlockId) (h : d.Apart a b) : d.Apart b a :=
  ⟨h.1.symm, h.2.2, h.2.1⟩

namespace Tallies

theorem mem_iff (h : d.Tallies S sizes) : b ∈ sizes ↔ b ∈ S := by
  rw [Finmap.mem_iff]
  constructor
  · rintro ⟨s, hs⟩
    exact ((h.lookup_iff b s).1 hs).1
  · intro hb
    have hlt : (conflicts d.Apart S b).card < 2 ^ 16 :=
      lt_of_le_of_lt (h.cluster b hb) d.k.isLt
    exact ⟨⟨_, hlt⟩, (h.lookup_iff b _).2 ⟨hb, rfl⟩⟩

theorem keys_eq (h : d.Tallies S sizes) : sizes.keys = S := by
  ext b
  rw [Finmap.mem_keys, h.mem_iff]

end Tallies

/-- No test of the loop fails against the largest `k`. -/
theorem not_refused_of_max {k : KParam} (hk : ¬ k.val < 65535) {count : Nat}
    {entries : List (BlockId × U16)} : ¬ Refused k count entries := by
  have hmax : ∀ s : U16, ¬ k < s := by
    intro s hs
    rw [Fin.lt_def] at hs
    have := s.isLt
    omega
  rintro (⟨i, _, _, hi⟩ | ⟨e, _, he⟩)
  · exact hmax _ hi
  · exact hmax _ he

/-! ## One candidate -/

section Step

variable (ord) (h : d.Tallies S sizes) (hd : d.Exact) (hS : ∀ b ∈ S, b ∈ d.nodes) (hc : c ∈ d.nodes)
  (hfit : d.k.val < 65535 ∨ IsCluster d.Apart d.k.val (insert c S))

include h hd hS hc

/-- The entries the loop counts are the candidate's conflicts. -/
theorem mem_anticoneEntries {e : BlockId × U16} :
    e ∈ d.anticoneEntries c (ord.entries sizes) ↔
      e.1 ∈ conflicts d.Apart S c ∧ e.2.val = (conflicts d.Apart S e.1).card := by
  unfold anticoneEntries
  rw [List.mem_filter, HashOrder.mem_entries, h.lookup_iff, mem_conflicts]
  constructor
  · rintro ⟨⟨hmem, hval⟩, hanti⟩
    exact ⟨⟨hmem, (hd.inAnticone_iff (hS e.1 hmem) hc).1 hanti⟩, hval⟩
  · rintro ⟨⟨hmem, hapart⟩, hval⟩
    exact ⟨⟨hmem, hval⟩, (hd.inAnticone_iff (hS e.1 hmem) hc).2 hapart⟩

theorem map_fst_anticoneEntries :
    ((d.anticoneEntries c (ord.entries sizes)).map Prod.fst).Nodup ∧
      ∀ b, b ∈ (d.anticoneEntries c (ord.entries sizes)).map Prod.fst ↔
        b ∈ conflicts d.Apart S c := by
  constructor
  · have hsub : ((d.anticoneEntries c (ord.entries sizes)).map Prod.fst).Sublist
        ((ord.entries sizes).map Prod.fst) :=
      (List.filter_sublist (l := ord.entries sizes)).map Prod.fst
    rw [ord.entries_map_fst] at hsub
    exact (ord.nodup_iter _).sublist hsub
  · intro b
    rw [List.mem_map]
    constructor
    · rintro ⟨e, he, rfl⟩
      exact ((mem_anticoneEntries ord h hd hS hc).1 he).1
    · intro hb
      obtain ⟨s, hs⟩ := Finmap.mem_iff.1 (h.mem_iff.2 (mem_conflicts.1 hb).1)
      refine ⟨(b, s), (mem_anticoneEntries ord h hd hS hc).2 ⟨hb, ?_⟩, rfl⟩
      exact ((h.lookup_iff b s).1 hs).2

theorem length_anticoneEntries :
    (d.anticoneEntries c (ord.entries sizes)).length = (conflicts d.Apart S c).card := by
  obtain ⟨hnodup, hmem⟩ := map_fst_anticoneEntries ord h hd hS hc
  have hset : ((d.anticoneEntries c (ord.entries sizes)).map Prod.fst).toFinset =
      conflicts d.Apart S c := by
    ext b
    rw [List.mem_toFinset, hmem]
  rw [← hset, List.toFinset_card_of_nodup hnodup, List.length_map]

/-- Below the largest `k` the two tests of the loop are the cluster rule: neither
counter can wrap before its test fails. -/
theorem refused_iff_of_lt (hk : d.k.val < 65535) (hnew : c ∉ S) :
    Refused d.k 0 (d.anticoneEntries c (ord.entries sizes)) ↔
      ¬ IsCluster d.Apart d.k.val (insert c S) := by
  have hwrap : ∀ s : U16, s.val ≤ d.k.val → (s + 1).val = s.val + 1 := by
    intro s hs
    apply Word.val_add_of_lt
    show s.val + 1 < 65536
    omega
  rw [isCluster_insert_iff d.apart_irrefl d.apart_symm h.cluster hnew, Refused,
    length_anticoneEntries ord h hd hS hc, not_and_or]
  apply or_congr
  · constructor
    · rintro ⟨i, _, hlt, htest⟩ hle
      have hi : i < d.k.val := by omega
      have hval : (Word.cast 16 i : U16).val = i := Word.cast_of_lt (by omega)
      rw [Fin.lt_def, hwrap _ (by omega), hval] at htest
      omega
    · intro hlt
      have hval : (Word.cast 16 d.k.val : U16).val = d.k.val := Word.cast_of_lt (by omega)
      refine ⟨d.k.val, Nat.zero_le _, by omega, ?_⟩
      rw [Fin.lt_def, hwrap _ (by omega), hval]
      omega
  · rw [not_forall]
    constructor
    · rintro ⟨e, he, htest⟩
      obtain ⟨hmem, hval⟩ := (mem_anticoneEntries ord h hd hS hc).1 he
      refine ⟨e.1, fun hall => ?_⟩
      have hle := hall hmem
      rw [Fin.lt_def, hwrap _ (by omega)] at htest
      omega
    · rintro ⟨b, hb⟩
      rw [Classical.not_imp] at hb
      obtain ⟨s, hs⟩ := Finmap.mem_iff.1 (h.mem_iff.2 (mem_conflicts.1 hb.1).1)
      have hval := ((h.lookup_iff b s).1 hs)
      have hle := h.cluster b hval.1
      refine ⟨(b, s), (mem_anticoneEntries ord h hd hS hc).2 ⟨hb.1, hval.2⟩, ?_⟩
      show d.k < s + 1
      rw [Fin.lt_def, hwrap _ (by omega)]
      omega

include hfit

/-- The two tests are the cluster rule too where the candidate joins: no test
against the largest `k` can fail. -/
theorem refused_iff (hnew : c ∉ S) :
    Refused d.k 0 (d.anticoneEntries c (ord.entries sizes)) ↔
      ¬ IsCluster d.Apart d.k.val (insert c S) := by
  by_cases hk : d.k.val < 65535
  · exact refused_iff_of_lt ord h hd hS hc hk hnew
  · simp only [hfit.resolve_left hk, not_true, iff_false]
    exact not_refused_of_max hk

/-- A blue candidate fits the cluster, and the increments are its conflicts. -/
theorem tryColourBlue_conflicts {found : List BlockId} (hnew : c ∉ S)
    (hfound : d.tryColourBlue ord c sizes = some found) :
    IsCluster d.Apart d.k.val (insert c S) ∧ found.Nodup ∧
      (∀ b, b ∈ found ↔ b ∈ conflicts d.Apart S c) ∧
        found.length = (conflicts d.Apart S c).card := by
  have hcluster : IsCluster d.Apart d.k.val (insert c S) := by
    by_contra hnot
    have hnone := (tryColourLoop_eq_none (ord.entries sizes) []).2
      ((refused_iff ord h hd hS hc hfit hnew).2 hnot)
    rw [tryColourBlue, hnone] at hfound
    cases hfound
  have hlist : found = (d.anticoneEntries c (ord.entries sizes)).map Prod.fst :=
    tryColourLoop_eq_some _ _ _ hfound
  obtain ⟨hnodup, hmem⟩ := map_fst_anticoneEntries ord h hd hS hc
  rw [← hlist] at hnodup hmem
  refine ⟨hcluster, hnodup, hmem, ?_⟩
  rw [hlist, List.length_map, length_anticoneEntries ord h hd hS hc]

/-- A blue candidate joins the cluster, and the sizes follow. -/
theorem tallies_insert {found : List BlockId} (hnew : c ∉ S)
    (hfound : d.tryColourBlue ord c sizes = some found) :
    d.Tallies (insert c S)
      (updateEach (· + 1) (sizes.insert c (Word.cast 16 found.length)) found) := by
  obtain ⟨hcluster, hnodup, hmem, hlen⟩ :=
    tryColourBlue_conflicts ord h hd hS hc hfit hnew hfound
  obtain ⟨hself, hothers⟩ :=
    (isCluster_insert_iff d.apart_irrefl d.apart_symm h.cluster hnew).1 hcluster
  refine ⟨fun b s => ?_, hcluster⟩
  rw [lookup_updateEach _ hnodup, Finset.mem_insert]
  by_cases hb : b ∈ found
  · -- a blue of the candidate's anticone: one conflict more on either side
    obtain ⟨hbS, hapart⟩ := mem_conflicts.1 ((hmem b).1 hb)
    have hne : b ≠ c := hapart.1
    obtain ⟨old, hold⟩ := Finmap.mem_iff.1 (h.mem_iff.2 hbS)
    have hval := ((h.lookup_iff b old).1 hold).2
    have hbound := hothers b ((hmem b).1 hb)
    have hsum : (old + 1).val = old.val + 1 := by
      apply Word.val_add_of_lt
      show old.val + 1 < 65536
      omega
    have hlookup : (sizes.insert c (Word.cast 16 found.length)).lookup b = some old := by
      rw [Finmap.lookup_insert_of_ne _ hne, hold]
    rw [if_pos hb, valueAt_of_lookup hlookup, Option.some.injEq,
      card_conflicts_insert_of_rel (d.apart_symm c b hapart) hnew, ← hval, ← hsum, Fin.val_inj]
    exact ⟨fun heq => ⟨.inr hbS, heq.symm⟩, fun hs => hs.2.symm⟩
  · rw [if_neg hb, lookup_insert_eq]
    by_cases hbc : b = c
    · subst hbc
      have hcast : (Word.cast 16 found.length : U16).val = found.length :=
        Word.cast_of_lt (by omega)
      rw [if_pos rfl, conflicts_insert_of_not (d.apart_irrefl b), Option.some.injEq, ← hlen]
      constructor
      · rintro rfl
        exact ⟨.inl rfl, hcast⟩
      · rintro ⟨_, hs⟩
        apply Fin.ext
        omega
    · rw [if_neg hbc, h.lookup_iff]
      simp only [hbc, false_or]
      apply and_congr_right
      intro hbS
      have hnot : ¬ d.Apart b c := by
        intro hapart
        exact hb ((hmem b).2 (mem_conflicts.2 ⟨hbS, d.apart_symm b c hapart⟩))
      rw [conflicts_insert_of_not hnot]

/-- One colouring step is one greedy step. -/
theorem colourStep_tallies {colouring : Colouring} (hsizes : colouring.sizes = sizes)
    (hnew : c ∉ S) :
    d.Tallies (absorb d.Apart d.k.val S c) (d.colourStep ord colouring c).sizes ∧
      ∀ b, b ∈ (d.colourStep ord colouring c).blues ↔
        b ∈ colouring.blues ∨ b = c ∧ b ∈ absorb d.Apart d.k.val S c := by
  subst hsizes
  have hnone : d.tryColourBlue ord c colouring.sizes = none ↔
      ¬ IsCluster d.Apart d.k.val (insert c S) := by
    unfold tryColourBlue
    rw [tryColourLoop_eq_none]
    exact refused_iff ord h hd hS hc hfit hnew
  unfold colourStep
  cases hfound : d.tryColourBlue ord c colouring.sizes with
  | none =>
      rw [absorb_of_not_isCluster (hnone.1 hfound)]
      refine ⟨h, fun b => ?_⟩
      constructor
      · exact .inl
      · rintro (hb | ⟨rfl, hb⟩)
        · exact hb
        · exact absurd hb hnew
  | some found =>
      have hcluster : IsCluster d.Apart d.k.val (insert c S) := by
        by_contra hnot
        rw [hnone.2 hnot] at hfound
        cases hfound
      rw [absorb_of_isCluster hcluster]
      refine ⟨tallies_insert ord h hd hS hc hfit hnew hfound, fun b => ?_⟩
      simp only [List.mem_append, List.mem_singleton, Finset.mem_insert]
      tauto

end Step

/-! ## The whole mergeset -/

/-- The blocks still to be coloured: stored, distinct and outside the cluster.  The loop over a
mergeset keeps this of the part that is left. -/
structure Candidates (d : DagView) (S : Finset BlockId) (mergeset : List BlockId) : Prop where
  cluster_mem : ∀ b ∈ S, b ∈ d.nodes
  mem : ∀ c ∈ mergeset, c ∈ d.nodes
  nodup : mergeset.Nodup
  fresh : ∀ c ∈ mergeset, c ∉ S

/-- Colouring one leaves the rest to be coloured. -/
theorem Candidates.tail {mergeset : List BlockId} (h : d.Candidates S (c :: mergeset)) :
    d.Candidates (absorb d.Apart d.k.val S c) mergeset := by
  obtain ⟨hfirst, hrest⟩ := List.nodup_cons.1 h.nodup
  refine ⟨fun b hb => ?_, fun b hb => h.mem b (List.mem_cons_of_mem _ hb), hrest, fun b hb hin => ?_⟩
  · rcases mem_absorb.1 hb with hb | ⟨rfl, _⟩
    · exact h.cluster_mem b hb
    · exact h.mem b (List.mem_cons_self ..)
  · rcases mem_absorb.1 hin with hin | ⟨rfl, _⟩
    · exact h.fresh b (List.mem_cons_of_mem _ hb) hin
    · exact hfirst hb

theorem Candidates.absorbAll_mem {mergeset : List BlockId} (h : d.Candidates S mergeset)
    (hb : b ∈ absorbAll d.Apart d.k.val S mergeset) : b ∈ d.nodes := by
  rcases mem_or_mem_of_mem_absorbAll hb with hS | hl
  · exact h.cluster_mem b hS
  · exact h.mem b hl

/-- The first candidate of a mergeset joins exactly when it fits. -/
theorem Candidates.head_joins {mergeset : List BlockId} (h : d.Candidates S (c :: mergeset)) :
    c ∈ absorbAll d.Apart d.k.val S (c :: mergeset) ↔
      IsCluster d.Apart d.k.val (insert c S) :=
  mem_absorbAll_cons (List.nodup_cons.1 h.nodup).1 (h.fresh c (List.mem_cons_self ..))

/-- The colouring of a mergeset is the greedy growth of the cluster. -/
theorem foldl_colourStep_tallies (ord : HashOrder) (hd : d.Exact) {mergeset : List BlockId}
    (hfit : d.k.val < 65535 ∨ ∀ c ∈ mergeset, c ∈ absorbAll d.Apart d.k.val S mergeset)
    (colouring : Colouring) (h : d.Tallies S colouring.sizes) (hcand : d.Candidates S mergeset) :
    d.Tallies (absorbAll d.Apart d.k.val S mergeset)
        (mergeset.foldl (d.colourStep ord) colouring).sizes ∧
      ∀ b, b ∈ (mergeset.foldl (d.colourStep ord) colouring).blues ↔
        b ∈ colouring.blues ∨ b ∈ mergeset ∧ b ∈ absorbAll d.Apart d.k.val S mergeset := by
  induction mergeset generalizing S colouring with
  | nil =>
      refine ⟨h, fun b => ?_⟩
      simp
  | cons c mergeset ih =>
      have hfirst : c ∉ mergeset := (List.nodup_cons.1 hcand.nodup).1
      have hc : c ∈ d.nodes := hcand.mem c (List.mem_cons_self ..)
      have hcS : c ∉ S := hcand.fresh c (List.mem_cons_self ..)
      have hjoins : d.k.val < 65535 ∨ IsCluster d.Apart d.k.val (insert c S) :=
        hfit.imp_right fun hall => hcand.head_joins.1 (hall c (List.mem_cons_self ..))
      obtain ⟨hstep, hblues⟩ := colourStep_tallies ord h hd hcand.cluster_mem hc hjoins rfl hcS
      have hrest := hfit.imp_right fun hall b hb => hall b (List.mem_cons_of_mem c hb)
      obtain ⟨htallies, hall⟩ := ih hrest _ hstep hcand.tail
      rw [List.foldl_cons, absorbAll_cons]
      refine ⟨htallies, fun b => ?_⟩
      rw [hall, hblues, List.mem_cons]
      -- whether `c` itself is blue is settled at its own step
      have hown : b = c → (b ∈ absorb d.Apart d.k.val S c ↔
          b ∈ absorbAll d.Apart d.k.val (absorb d.Apart d.k.val S c) mergeset) := by
        rintro rfl
        constructor
        · exact fun hb => subset_absorbAll mergeset hb
        · exact fun hb => (mem_or_mem_of_mem_absorbAll hb).resolve_right hfirst
      rw [and_congr_right hown, or_assoc, ← or_and_right]

/-- The blues of a mergeset are what the cluster gains. -/
theorem Candidates.absorbAll_eq (ord : HashOrder) (hd : d.Exact) {mergeset : List BlockId}
    (hfit : d.k.val < 65535 ∨ ∀ c ∈ mergeset, c ∈ absorbAll d.Apart d.k.val S mergeset)
    (h : d.Tallies S sizes) (hcand : d.Candidates S mergeset) {blues : List BlockId}
    (hblues : blues = (mergeset.foldl (d.colourStep ord) ⟨sizes, [], []⟩).blues) :
    blues.Nodup ∧ Disjoint S blues.toFinset ∧
      absorbAll d.Apart d.k.val S mergeset = S ∪ blues.toFinset := by
  have hmem := (foldl_colourStep_tallies ord hd hfit ⟨sizes, [], []⟩ h hcand).2
  have hperm := (foldl_colourStep_spec ord d mergeset ⟨sizes, [], []⟩).1
  simp only [← hblues, List.not_mem_nil, false_or] at hmem
  rw [← hblues] at hperm
  refine ⟨(hperm.nodup_iff.2 (by simpa using hcand.nodup)).of_append_left, ?_, ?_⟩
  · rw [Finset.disjoint_left]
    intro b hb hblue
    exact hcand.fresh b ((hmem b).1 (List.mem_toFinset.1 hblue)).1 hb
  · ext b
    rw [Finset.mem_union, List.mem_toFinset, hmem]
    constructor
    · intro hb
      rcases mem_or_mem_of_mem_absorbAll hb with hS | hl
      · exact .inl hS
      · exact .inr ⟨hl, hb⟩
    · rintro (hS | ⟨_, hb⟩)
      · exact subset_absorbAll _ hS
      · exact hb

/-- The colouring that `computeGhostdag` stores. -/
theorem computeGhostdag_colouring {parents : List BlockId} {g : GhostdagData}
    (h : d.computeGhostdag ord parents = some g) (hsp : g.selectedParent = some sp) :
    let coloured := (d.mergesetOrdered sp parents).foldl (d.colourStep ord)
      ⟨(d.node sp).ghostdag.blueAnticoneSizes.insert sp 0, [], []⟩
    g.blueAnticoneSizes = coloured.sizes ∧ g.mergesetBlues = coloured.blues ∧
      g.mergesetReds = coloured.reds := by
  have hsel := computeGhostdag_selectedParent h
  rw [hsp] at hsel
  rw [computeGhostdag, ← hsel, Option.map_some, Option.some.injEq] at h
  rw [← h]
  exact ⟨rfl, rfl, rfl⟩

/-- The selected parent joins the blue set of its own past without a conflict. -/
theorem Tallies.seed (h : d.Tallies S sizes) (hacyclic : ∀ x, ¬ d.Anc x x)
    (hpast : ∀ b ∈ S, d.Anc b sp) : d.Tallies (insert sp S) (sizes.insert sp 0) := by
  have hfree : ∀ b ∈ S, ¬ d.Apart b sp ∧ ¬ d.Apart sp b :=
    fun b hb => ⟨fun hapart => hapart.2.2 (hpast b hb), fun hapart => hapart.2.1 (hpast b hb)⟩
  have hnew : sp ∉ S := fun hsp => hacyclic sp (hpast sp hsp)
  refine ⟨fun b s => ?_, h.cluster.insert_free (d.apart_irrefl sp) hfree⟩
  rw [lookup_insert_eq, Finset.mem_insert]
  by_cases hb : b = sp
  · subst hb
    have hnone : conflicts d.Apart S b = ∅ := by
      rw [Finset.eq_empty_iff_forall_notMem]
      intro a ha
      obtain ⟨haS, hba⟩ := mem_conflicts.1 ha
      exact (hfree a haS).2 hba
    rw [if_pos rfl, conflicts_insert_of_not (d.apart_irrefl b), hnone, Finset.card_empty,
      Option.some.injEq]
    constructor
    · rintro rfl
      exact ⟨.inl rfl, rfl⟩
    · rintro ⟨_, hs⟩
      exact Fin.ext hs.symm
  · rw [if_neg hb, h.lookup_iff]
    simp only [hb, false_or]
    apply and_congr_right
    intro hbS
    rw [conflicts_insert_of_not (hfree b hbS).1]

/-- The mergeset of a block over stored parents is to be coloured after what lies
in the past of its selected parent. -/
theorem Exact.candidates (hd : d.Exact) (hsp : sp ∈ d.nodes)
    {parents : List BlockId} (hparents : ∀ p ∈ parents, p ∈ d.nodes)
    (hpast : ∀ b ∈ S, d.Anc b sp) :
    d.Candidates (insert sp S) (d.mergesetOrdered sp parents) := by
  have hmem := hd.mem_mergesetOrdered hsp hparents
  refine ⟨fun b hb => ?_, fun c hc => ?_, hd.nodup_mergesetOrdered hparents, fun c hc hin => ?_⟩
  · rcases Finset.mem_insert.1 hb with rfl | hb
    · exact hsp
    · exact hd.mem_of_anc (hpast b hb)
  · obtain ⟨⟨p, hp, rfl | hcp⟩, _⟩ := (hmem c).1 hc
    · exact hparents c hp
    · exact hd.mem_of_anc hcp
  · obtain ⟨_, hne, hnot⟩ := (hmem c).1 hc
    rcases Finset.mem_insert.1 hin with heq | hin
    · exact hne heq
    · exact hnot (hpast c hin)

variable [Crypto] {x : BlockId}

namespace WellFormed

theorem blueSet_genesis (h : d.WellFormed) : d.blueSet d.genesis = ∅ := by
  rw [blueSet, h.chainTo_genesis]
  simp only [List.foldl_cons, List.foldl_nil, extendBlue, h.tree.root_none]

theorem blueSet_step (h : d.WellFormed) (hx : d.selectedParentOf x = some sp) :
    d.blueSet x =
      absorbAll d.Apart d.k.val (insert sp (d.blueSet sp)) (d.mergesetOrder x) := by
  rw [blueSet, h.chainTo_step hx, List.foldl_append]
  simp only [List.foldl_cons, List.foldl_nil, extendBlue, hx]
  rfl

/-- The past of a block, in terms of its selected parent's. -/
theorem past_eq (h : d.WellFormed) (hx : d.selectedParentOf x = some sp) :
    d.past x = insert sp (d.past sp) ∪ (d.mergesetOrder x).toFinset := by
  ext a
  rw [h.exact.mem_past, h.anc_iff hx, Finset.mem_union, Finset.mem_insert, h.exact.mem_past,
    List.mem_toFinset, or_assoc]

/-- The blue set lies in the past. -/
theorem blueSet_subset_past (h : d.WellFormed) (hx : x ∈ d.nodes) : d.blueSet x ⊆ d.past x := by
  refine h.chain_induction (P := fun x => d.blueSet x ⊆ d.past x) ?_ ?_ hx
  · rw [h.blueSet_genesis]
    exact Finset.empty_subset _
  · intro y sp hy ih b hb
    rw [h.blueSet_step hy] at hb
    rw [h.past_eq hy]
    rcases mem_or_mem_of_mem_absorbAll hb with hseed | hmerged
    · exact Finset.mem_union_left _ (Finset.insert_subset_insert sp ih hseed)
    · exact Finset.mem_union_right _ (List.mem_toFinset.2 hmerged)

theorem anc_of_mem_blueSet (h : d.WellFormed) (hx : x ∈ d.nodes) (hb : b ∈ d.blueSet x) :
    d.Anc b x := h.exact.mem_past.1 (h.blueSet_subset_past hx hb)

theorem notMem_blueSet_self (h : d.WellFormed) (hx : x ∈ d.nodes) : x ∉ d.blueSet x :=
  fun hself => h.acyclic x (h.anc_of_mem_blueSet hx hself)

/-- The blocks a block over stored parents merges are to be coloured after the blue
set of its selected parent. -/
theorem candidates (h : d.WellFormed) (hsp : sp ∈ d.nodes) {parents : List BlockId}
    (hparents : ∀ p ∈ parents, p ∈ d.nodes) :
    d.Candidates (insert sp (d.blueSet sp)) (d.mergesetOrdered sp parents) :=
  h.exact.candidates hsp hparents fun _ hb => h.anc_of_mem_blueSet hsp hb

theorem candidates_mergesetOrder (h : d.WellFormed) (hx : d.selectedParentOf x = some sp) :
    d.Candidates (insert sp (d.blueSet sp)) (d.mergesetOrder x) := by
  obtain ⟨hspMem, hmem⟩ := h.selectedParent_mem hx
  rw [mergesetOrder_eq hx hmem]
  exact h.candidates hspMem fun p hp => h.parents_mem p x (mem_parentsOf.1 hp)

/-- What a selected parent hands on keeps the tally. -/
theorem tallies_seed (h : d.WellFormed) (hsp : sp ∈ d.nodes)
    (hsizes : d.Tallies (d.blueSet sp) (d.node sp).ghostdag.blueAnticoneSizes) :
    d.Tallies (insert sp (d.blueSet sp)) ((d.node sp).ghostdag.blueAnticoneSizes.insert sp 0) :=
  hsizes.seed h.acyclic fun _ hb => h.anc_of_mem_blueSet hsp hb

/-- The merged blocks all join where no counter wraps. -/
theorem joins_of_fits (h : d.WellFormed) (hfit : d.Fits) (hx : d.selectedParentOf x = some sp) :
    d.k.val < 65535 ∨ ∀ c ∈ d.mergesetOrder x,
      c ∈ absorbAll d.Apart d.k.val (insert sp (d.blueSet sp)) (d.mergesetOrder x) := by
  rw [← h.blueSet_step hx]
  exact hfit.imp_right fun hall => hall x (h.selectedParent_mem hx).2

/-- What is stored for a block is the colouring of its mergeset. -/
theorem colouring_eq (h : d.WellFormed) (hx : d.selectedParentOf x = some sp) :
    let coloured := (d.mergesetOrder x).foldl (d.colourStep .sorted)
      ⟨(d.node sp).ghostdag.blueAnticoneSizes.insert sp 0, [], []⟩
    (d.node x).ghostdag.blueAnticoneSizes = coloured.sizes ∧
      (d.node x).ghostdag.mergesetBlues = coloured.blues := by
  have hmem := (h.selectedParent_mem hx).2
  have hdata := h.ghostdag_eq .sorted x _ (lookup_node hmem) (h.ne_genesis hx)
  have hselected := (selectedParentOf_eq (lookup_node hmem)).symm.trans hx
  obtain ⟨hsizes, hblues, _⟩ := computeGhostdag_colouring hdata hselected
  rw [mergesetOrder_eq hx hmem, parentsOf]
  exact ⟨hsizes, hblues⟩

/-- One selected parent further: the stored data follow the cluster. -/
theorem tallies_step (h : d.WellFormed) (hfit : d.Fits)
    (hx : d.selectedParentOf x = some sp)
    (hsp : d.Tallies (d.blueSet sp) (d.node sp).ghostdag.blueAnticoneSizes) :
    d.Tallies (d.blueSet x) (d.node x).ghostdag.blueAnticoneSizes ∧
      ∀ b, b ∈ (d.node x).ghostdag.mergesetBlues ↔ b ∈ d.mergesetOrder x ∧ b ∈ d.blueSet x := by
  obtain ⟨hsizes, hblues⟩ := h.colouring_eq hx
  have hfold := foldl_colourStep_tallies .sorted h.exact (h.joins_of_fits hfit hx)
    ⟨(d.node sp).ghostdag.blueAnticoneSizes.insert sp 0, [], []⟩
    (h.tallies_seed (h.selectedParent_mem hx).1 hsp) (h.candidates_mergesetOrder hx)
  rw [h.blueSet_step hx, hsizes, hblues]
  refine ⟨hfold.1, fun b => ?_⟩
  rw [hfold.2]
  simp only [List.not_mem_nil, false_or]

/-- The recorded sizes are the conflicts within the blue set. -/
theorem tallies_blueSet (h : d.WellFormed) (hfit : d.Fits) (hx : x ∈ d.nodes) :
    d.Tallies (d.blueSet x) (d.node x).ghostdag.blueAnticoneSizes := by
  refine h.chain_induction (P := fun x =>
    d.Tallies (d.blueSet x) (d.node x).ghostdag.blueAnticoneSizes) ?_ ?_ hx
  · obtain ⟨n, hn, _, _, hgd⟩ := h.genesis_node
    rw [node_of_lookup hn, hgd, h.blueSet_genesis]
    refine ⟨fun b s => ?_, fun b hb => absurd hb (Finset.notMem_empty b)⟩
    simp [GhostdagData.genesis]
  · exact fun y sp hy ih => (h.tallies_step hfit hy ih).1

/-- The blue set: the selected parent's, the selected parent and the blues of the
mergeset, each counted once. -/
theorem blueSet_eq (h : d.WellFormed) (hfit : d.Fits) (hx : d.selectedParentOf x = some sp) :
    sp ∉ d.blueSet sp ∧
      Disjoint (insert sp (d.blueSet sp)) (d.node x).ghostdag.mergesetBlues.toFinset ∧
      d.blueSet x =
        insert sp (d.blueSet sp) ∪ (d.node x).ghostdag.mergesetBlues.toFinset := by
  have hspMem := (h.selectedParent_mem hx).1
  obtain ⟨_, hdisj, heq⟩ := (h.candidates_mergesetOrder hx).absorbAll_eq .sorted h.exact
    (h.joins_of_fits hfit hx) (h.tallies_seed hspMem (h.tallies_blueSet hfit hspMem))
    (h.colouring_eq hx).2
  exact ⟨h.notMem_blueSet_self hspMem, hdisj, (h.blueSet_step hx).trans heq⟩

theorem nodup_mergesetBlues (h : d.WellFormed) (hx : d.selectedParentOf x = some sp) :
    ((d.node x).ghostdag.mergesetBlues ++ (d.node x).ghostdag.mergesetReds).Perm
        (d.mergesetOrder x) ∧ (d.node x).ghostdag.mergesetBlues.Nodup := by
  have hmem := (h.selectedParent_mem hx).2
  have hperm := computeGhostdag_mergeset
    (h.ghostdag_eq .sorted x _ (lookup_node hmem) (h.ne_genesis hx))
    ((selectedParentOf_eq (lookup_node hmem)).symm.trans hx)
  rw [← parentsOf, ← mergesetOrder_eq hx hmem] at hperm
  exact ⟨hperm, (hperm.nodup_iff.2 (h.nodup_mergesetOrder x)).of_append_left⟩

/-- The blue score counts the blue set. -/
theorem card_blueSet (h : d.WellFormed) (hfit : d.Fits) (hx : x ∈ d.nodes) :
    (d.blueSet x).card = (d.node x).ghostdag.blueScore := by
  refine h.chain_induction (P := fun x =>
    (d.blueSet x).card = (d.node x).ghostdag.blueScore) ?_ ?_ hx
  · rw [h.blueSet_genesis, Finset.card_empty]
    exact h.blueScore_genesis.symm
  · intro y sp hy ih
    obtain ⟨hnew, hdisj, heq⟩ := h.blueSet_eq hfit hy
    have hscore := (h.scores hy).1
    rw [heq, Finset.card_union_of_disjoint hdisj, Finset.card_insert_of_notMem hnew, ih,
      List.toFinset_card_of_nodup (h.nodup_mergesetBlues hy).2, hscore]
    rfl

/-- The blue work is the total work of the blue set, up to wrapping. -/
theorem sum_blueSet (h : d.WellFormed) (hfit : d.Fits) (hx : x ∈ d.nodes) :
    (d.node x).ghostdag.blueWork.val =
      (∑ b ∈ d.blueSet x, (d.node b).block.work.val) % 2 ^ 128 := by
  refine h.chain_induction (P := fun x => (d.node x).ghostdag.blueWork.val =
    (∑ b ∈ d.blueSet x, (d.node b).block.work.val) % 2 ^ 128) ?_ ?_ hx
  · obtain ⟨n, hn, _, _, hgd⟩ := h.genesis_node
    rw [h.blueSet_genesis, Finset.sum_empty, node_of_lookup hn, hgd]
    rfl
  · intro y sp hy ih
    obtain ⟨hnew, hdisj, heq⟩ := h.blueSet_eq hfit hy
    rw [heq, Finset.sum_union hdisj, Finset.sum_insert hnew,
      List.sum_toFinset _ (h.nodup_mergesetBlues hy).2, (h.scores hy).2, Word.val_foldl_add_mod,
      Fin.val_add, ih]
    omega

end WellFormed

/-! ## What the recorded data say -/

/-- The mergeset of a block: its past less its selected parent and that one's past. -/
noncomputable def mergeset (d : DagView) (x : BlockId) : Finset BlockId :=
  match d.selectedParentOf x with
  | none => ∅
  | some sp => d.past x \ insert sp (d.past sp)

/-- The recorded blue set. -/
def blues (d : DagView) (x : BlockId) : Finset BlockId :=
  (d.node x).ghostdag.blueAnticoneSizes.keys

/-- What the blue set of `x` starts from: its selected parent's blue set and the
selected parent. -/
def inheritedBlues (d : DagView) (x : BlockId) : Finset BlockId :=
  match d.selectedParentOf x with
  | none => ∅
  | some sp => insert sp (d.blues sp)

/-- The blue set accumulated when the candidates `before` have been coloured. -/
def bluesAfter (d : DagView) (x : BlockId) (before : List BlockId) : Finset BlockId :=
  d.inheritedBlues x ∪ (before.filter fun b => b ∈ (d.node x).ghostdag.mergesetBlues).toFinset

/-- The consensus data of `x` are those of an exact k-cluster colouring: one clause for the blue
set, the scores, the sums, the recorded sizes and the reds each. -/
structure ExactColouring (d : DagView) (x : BlockId) : Prop where
  blue_set : d.blues x = d.inheritedBlues x ∪ (d.node x).ghostdag.mergesetBlues.toFinset
  blue_past : d.blues x ⊆ d.past x
  blue_score : (d.blues x).card = (d.node x).ghostdag.blueScore
  blue_work : ∑ b ∈ d.blues x, (d.node b).block.work.val = (d.node x).ghostdag.blueWork.val
  anticone_size : ∀ b s, (d.node x).ghostdag.blueAnticoneSizes.lookup b = some s →
    s.val = (d.blues x ∩ d.anticone b).card ∧ s ≤ d.k
  mergeset : ∀ b, b ∈ d.mergesetOrder x ↔ b ∈ d.mergeset x
  partition : (d.mergesetOrder x).Nodup ∧
    ((d.node x).ghostdag.mergesetBlues ++ (d.node x).ghostdag.mergesetReds).Perm (d.mergesetOrder x)
  red_iff : ∀ before c after, d.mergesetOrder x = before ++ c :: after →
    (c ∈ (d.node x).ghostdag.mergesetReds ↔
      ∃ b ∈ insert c (d.bluesAfter x before),
        d.k.val < (insert c (d.bluesAfter x before) ∩ d.anticone b).card)

omit [Crypto] in
/-- Among stored blocks, the conflicts are those in the anticone. -/
theorem conflicts_eq (hS : ∀ b ∈ S, b ∈ d.nodes) (b : BlockId) :
    conflicts d.Apart S b = S ∩ d.anticone b := by
  ext a
  rw [mem_conflicts, Finset.mem_inter, mem_anticone]
  exact and_congr_right fun ha => (and_iff_right (hS a ha)).symm

namespace WellFormed

theorem blues_eq (h : d.WellFormed) (hfit : d.Fits) (hx : x ∈ d.nodes) :
    d.blues x = d.blueSet x := (h.tallies_blueSet hfit hx).keys_eq

theorem inheritedBlues_eq (h : d.WellFormed) (hfit : d.Fits)
    (hx : d.selectedParentOf x = some sp) : d.inheritedBlues x = insert sp (d.blueSet sp) := by
  rw [← h.blues_eq hfit (h.selectedParent_mem hx).1]
  unfold inheritedBlues
  rw [hx]

theorem blues_subset_past (h : d.WellFormed) (hx : x ∈ d.nodes) : d.blues x ⊆ d.past x := by
  intro b hb
  rw [h.exact.mem_past]
  exact h.blue_past x _ (lookup_node hx) b (Finmap.mem_keys.1 hb)

theorem blues_mem (h : d.WellFormed) (hx : x ∈ d.nodes) : ∀ b ∈ d.blues x, b ∈ d.nodes :=
  fun _ hb => h.exact.mem_of_anc (h.exact.mem_past.1 (h.blues_subset_past hx hb))

theorem mem_mergesetOrder_iff (h : d.WellFormed) (hx : x ∈ d.nodes) (b : BlockId) :
    b ∈ d.mergesetOrder x ↔ b ∈ d.mergeset x := by
  unfold DagView.mergeset
  cases hsp : d.selectedParentOf x with
  | none =>
      rw [selectedParentOf_eq (lookup_node hx)] at hsp
      simp [mergesetOrder, hsp]
  | some sp =>
      simp only [Finset.mem_sdiff, Finset.mem_insert, h.exact.mem_past, not_or]
      constructor
      · intro hb
        exact ⟨(h.anc_iff hsp b).2 (.inr (.inr hb)), h.not_anc_of_mem_mergesetOrder hsp hb⟩
      · rintro ⟨hanc, hne, hnot⟩
        exact (((h.anc_iff hsp b).1 hanc).resolve_left hne).resolve_left hnot

/-- The blue set with the candidate's turn: what has been accumulated is what the
greedy growth holds. -/
theorem bluesAfter_eq (h : d.WellFormed) (hfit : d.Fits)
    (hx : d.selectedParentOf x = some sp) {before after : List BlockId}
    (hsplit : d.mergesetOrder x = before ++ c :: after) :
    d.bluesAfter x before =
      absorbAll d.Apart d.k.val (insert sp (d.blueSet sp)) before := by
  have hspMem := (h.selectedParent_mem hx).1
  have hblues := (h.tallies_step hfit hx (h.tallies_blueSet hfit hspMem)).2
  have hnodup := h.nodup_mergesetOrder x
  rw [hsplit] at hnodup
  ext a
  rw [mem_absorbAll_before hnodup, ← hsplit, ← h.blueSet_step hx, bluesAfter,
    h.inheritedBlues_eq hfit hx]
  simp only [Finset.mem_union, List.mem_toFinset, List.mem_filter, decide_eq_true_eq, hblues]
  apply or_congr_right
  apply and_congr_right
  intro ha
  rw [hsplit]
  simp only [List.mem_append, ha, true_or, true_and]

/-- A merged block is red exactly when it does not fit the blues so far. -/
theorem red_iff (h : d.WellFormed) (hfit : d.Fits) (hx : d.selectedParentOf x = some sp)
    {before after : List BlockId} (hsplit : d.mergesetOrder x = before ++ c :: after) :
    c ∈ (d.node x).ghostdag.mergesetReds ↔
      ∃ b ∈ insert c (d.bluesAfter x before),
        d.k.val < (insert c (d.bluesAfter x before) ∩ d.anticone b).card := by
  obtain ⟨hspMem, hmem⟩ := h.selectedParent_mem hx
  obtain ⟨hperm, _⟩ := h.nodup_mergesetBlues hx
  have hblues := (h.tallies_step hfit hx (h.tallies_blueSet hfit hspMem)).2
  have hnodup := h.nodup_mergesetOrder x
  have hc : c ∈ d.mergesetOrder x := by
    rw [hsplit]
    simp
  have hdisj : ∀ y ∈ before ++ c :: after, y ∉ insert sp (d.blueSet sp) := by
    rw [← hsplit]
    exact (h.candidates_mergesetOrder hx).fresh
  have hred : c ∈ (d.node x).ghostdag.mergesetReds ↔ c ∉ (d.node x).ghostdag.mergesetBlues := by
    have hall := List.nodup_append.1 (hperm.nodup_iff.2 hnodup)
    have hmemAll := hperm.mem_iff.2 hc
    rw [List.mem_append] at hmemAll
    constructor
    · exact fun hr hb => hall.2.2 c hb c hr rfl
    · exact fun hnot => hmemAll.resolve_left hnot
  have hstored : ∀ b ∈ insert c (d.bluesAfter x before), b ∈ d.nodes := by
    intro b hb
    rw [h.bluesAfter_eq hfit hx hsplit] at hb
    have hanc : d.Anc b x := by
      rcases Finset.mem_insert.1 hb with rfl | hb
      · exact (h.anc_iff hx b).2 (.inr (.inr hc))
      · have hin : b ∈ d.blueSet x := by
          rw [h.blueSet_step hx, hsplit, absorbAll_append]
          exact subset_absorbAll _ hb
        rw [← h.blues_eq hfit hmem] at hin
        exact h.exact.mem_past.1 (h.blues_subset_past hmem hin)
    exact h.exact.mem_of_anc hanc
  have hcluster : c ∈ d.blueSet x ↔
      IsCluster d.Apart d.k.val (insert c (d.bluesAfter x before)) := by
    rw [h.bluesAfter_eq hfit hx hsplit, h.blueSet_step hx, hsplit]
    exact mem_absorbAll_split (hsplit ▸ hnodup) hdisj
  rw [hred, hblues, and_iff_right hc, hcluster, IsCluster]
  simp only [conflicts_eq hstored, not_forall, Nat.not_le, exists_prop]

/-- All but the work of the blue set is exact whatever the works. -/
theorem exactColouring_iff (h : d.WellFormed) (hfit : d.Fits) (hx : x ∈ d.nodes) :
    d.ExactColouring x ↔ ∑ b ∈ d.blueSet x, (d.node b).block.work.val < 2 ^ 128 := by
  have htallies := h.tallies_blueSet hfit hx
  have hblues := h.blues_eq hfit hx
  constructor
  · intro hexact
    rw [← hblues, hexact.blue_work]
    exact (d.node x).ghostdag.blueWork.isLt
  · intro hlt
    refine ⟨?_, h.blues_subset_past hx, ?_, ?_, ?_, h.mem_mergesetOrder_iff hx, ?_, ?_⟩
    · by_cases hxg : x = d.genesis
      · obtain ⟨n, hn, _, _, hgd⟩ := h.genesis_node
        subst hxg
        rw [hblues, h.blueSet_genesis, inheritedBlues, h.tree.root_none, node_of_lookup hn, hgd]
        rfl
      · obtain ⟨sp, hsp, _⟩ := h.exists_selectedParent hx hxg
        rw [hblues, h.inheritedBlues_eq hfit hsp, (h.blueSet_eq hfit hsp).2.2]
    · rw [hblues, h.card_blueSet hfit hx]
    · rw [hblues, h.sum_blueSet hfit hx, Nat.mod_eq_of_lt hlt]
    · intro b s hs
      obtain ⟨hb, hval⟩ := (htallies.lookup_iff b s).1 hs
      have heq := conflicts_eq (h.blues_mem hx) b
      rw [hblues] at heq ⊢
      refine ⟨hval.trans (congrArg _ heq), ?_⟩
      rw [Fin.le_def, hval]
      exact htallies.cluster b hb
    · refine ⟨h.nodup_mergesetOrder x, ?_⟩
      by_cases hxg : x = d.genesis
      · obtain ⟨n, hn, _, _, hgd⟩ := h.genesis_node
        subst hxg
        rw [mergesetOrder, node_of_lookup hn, hgd]
        rfl
      · obtain ⟨sp, hsp, _⟩ := h.exists_selectedParent hx hxg
        exact (h.nodup_mergesetBlues hsp).1
    · intro before c after hsplit
      by_cases hxg : x = d.genesis
      · have hin : c ∈ d.mergesetOrder d.genesis := by
          rw [← hxg, hsplit]
          simp
        rw [h.mem_mergesetOrder_iff h.genesis_mem, DagView.mergeset, h.tree.root_none] at hin
        exact absurd hin (Finset.notMem_empty c)
      · obtain ⟨sp, hsp, _⟩ := h.exists_selectedParent hx hxg
        exact h.red_iff hfit hsp hsplit

end WellFormed

end DagView

namespace Dag

variable [Crypto]

/-- For every `k` below the largest, the colouring of a stored block is exact in
every respect if and only if the works of its blue set sum below `2 ^ 128`.  The blue set of
the condition is the one the k-cluster rule defines, not the one that was recorded. -/
theorem exactColouring_iff_work {d : Dag} (h : Reachable d) (hk : d.k < Word.maxValue 16)
    {x : BlockId} (hx : x ∈ d.nodes) :
    d.ExactColouring x ↔ ∑ b ∈ d.blueSet x, (d.node b).block.work.val < 2 ^ 128 :=
  h.wellFormed.exactColouring_iff (.inl hk) hx

end Dag

namespace Dag

open scoped Reference

/-- A merge of two blocks of unit work is coloured exactly. -/
theorem exactColouring_iff_work_merge : ∃ d : Dag, Reachable d ∧ Reference.merge.id ∈ d.nodes ∧
    d.ExactColouring Reference.merge.id := by
  have hplay : ((Dag.new .sorted 1 Reference.genesis).insertAll .sorted
      [Reference.left, Reference.right, Reference.merge]).map (fun d =>
        decide (d.k < Word.maxValue 16 ∧ Reference.merge.id ∈ d.nodes ∧
          ∑ x ∈ d.nodes.keys, (d.node x).block.work.val < 2 ^ 128)) = some true := by
    decide +kernel
  obtain ⟨d, hd, hdec⟩ := Option.map_eq_some_iff.1 hplay
  obtain ⟨hk, hmem, hwork⟩ := of_decide_eq_true hdec
  have hreach : Reachable d := ⟨.sorted, 1, 1, 0, 0, Reference.noTxs.payload, _,
    Run.start.insertAll hd⟩
  refine ⟨d, hreach, hmem, (exactColouring_iff_work hreach hk hmem).2 ?_⟩
  apply lt_of_le_of_lt _ hwork
  apply Finset.sum_le_sum_of_subset
  intro b hb
  rw [← hreach.wellFormed.blues_eq (.inl hk) hmem] at hb
  exact Finmap.mem_keys.2 (hreach.wellFormed.blues_mem hmem b hb)

/-- On a genesis of unit work, a block of the greatest work and one more on top. -/
def heaviest : Block :=
  .new (Reference.vec [Reference.genesis.id]) (Word.maxValue 128) 1 0 Reference.noTxs.payload

def onHeaviest : Block := Reference.block [heaviest.id] 2

/-- The blue set of the top block works `2 ^ 128`, and its blue work is zero. -/
theorem blueWork_wraps : ∃ d : Dag, Reachable d ∧ d.k < Word.maxValue 16 ∧
    onHeaviest.id ∈ d.nodes ∧ ¬ d.ExactColouring onHeaviest.id ∧
      (d.node onHeaviest.id).ghostdag.blueWork = 0 := by
  have hplay : ((Dag.new .sorted 1 Reference.genesis).insertAll .sorted
      [heaviest, onHeaviest]).map (fun d =>
        decide (d.k < Word.maxValue 16 ∧ onHeaviest.id ∈ d.nodes ∧
          ∑ b ∈ d.blues onHeaviest.id, (d.node b).block.work.val = 2 ^ 128 ∧
            (d.node onHeaviest.id).ghostdag.blueWork = 0)) = some true := by
    decide +kernel
  obtain ⟨d, hd, hdec⟩ := Option.map_eq_some_iff.1 hplay
  obtain ⟨hk, hmem, hsum, hzero⟩ := of_decide_eq_true hdec
  have hreach : Reachable d := ⟨.sorted, 1, 1, 0, 0, Reference.noTxs.payload, _,
    Run.start.insertAll hd⟩
  refine ⟨d, hreach, hk, hmem, fun hexact => ?_, hzero⟩
  have hlt := (d.node onHeaviest.id).ghostdag.blueWork.isLt
  rw [← hexact.blue_work, hsum] at hlt
  exact lt_irrefl _ hlt

end Dag

end Kovanica
