import Kovanica.Dag.Past

/-!
# Consensus data is a function of the past

`AgreeOn S` says that two DAGs store the same blocks with the same derived data
on a past-closed set `S`.  Every query the colouring makes about blocks of `S`
then has the same answer in both, whatever their oracles' labels and whatever
order their maps are iterated in, and `computeGhostdag_congr` concludes that a
block whose parents lie in `S` gets the same consensus data.

## Main results

* `mergesetOrdered_eq`: the mergeset and its order depend on the past only.
* `foldl_colourStep_spec`: the colouring splits the mergeset in blues and reds, and keeps sizes
  for no other blocks than these.
* `colourStep_congr`: one step of it is the same in both DAGs.
-/

namespace Kovanica

open Lib Relation

namespace DagView

variable {d d' : DagView} {S : Set BlockId}

/-- The parts of a stored entry that never change.  The list of children is not among them: it
grows with every block on top. -/
structure SameCore (n n' : Dag.Node) : Prop where
  block : n.block = n'.block
  pastSize : n.pastSize = n'.pastSize
  ghostdag : n.ghostdag = n'.ghostdag

/-- Two DAGs with the same `k` store the same data on the past-closed set `S`.  They may differ in
all other blocks, in their labels and in the order in which they were built. -/
structure AgreeOn (S : Set BlockId) (d d' : DagView) : Prop where
  k_eq : d.k = d'.k
  core : ∀ x ∈ S, ∃ n n', d.nodes.lookup x = some n ∧ d'.nodes.lookup x = some n' ∧ SameCore n n'
  closed : ∀ y ∈ S, ∀ x, d.Edge x y → x ∈ S

namespace AgreeOn

theorem edge_iff (h : AgreeOn S d d') {y : BlockId} (hy : y ∈ S) (x : BlockId) :
    d.Edge x y ↔ d'.Edge x y := by
  obtain ⟨n, n', hn, hn', hcore⟩ := h.core y hy
  constructor
  · rintro ⟨m, hm, hx⟩
    refine ⟨n', hn', ?_⟩
    rw [← hcore.block, Option.some.inj (hn.symm.trans hm)]
    exact hx
  · rintro ⟨m, hm, hx⟩
    refine ⟨n, hn, ?_⟩
    rw [hcore.block, Option.some.inj (hn'.symm.trans hm)]
    exact hx

theorem symm (h : AgreeOn S d d') : AgreeOn S d' d where
  k_eq := h.k_eq.symm
  core := fun x hx =>
    let ⟨n, n', hn, hn', hcore⟩ := h.core x hx
    ⟨n', n, hn', hn, hcore.block.symm, hcore.pastSize.symm, hcore.ghostdag.symm⟩
  closed := fun y hy x hxy => h.closed y hy x ((h.edge_iff hy x).2 hxy)

theorem mem (h : AgreeOn S d d') {x : BlockId} (hx : x ∈ S) : x ∈ d.nodes :=
  let ⟨_, _, hn, _⟩ := h.core x hx
  Finmap.mem_of_lookup_eq_some hn

theorem anc_iff (h : AgreeOn S d d') {a b : BlockId} (hb : b ∈ S) : d.Anc a b ↔ d'.Anc a b :=
  transGen_congr_of_closed (fun _ hy x => h.edge_iff hy x) h.closed hb

theorem anc_mem (h : AgreeOn S d d') {a b : BlockId} (hab : d.Anc a b) (hb : b ∈ S) : a ∈ S :=
  mem_of_transGen_of_closed h.closed hab hb

theorem sameCore (h : AgreeOn S d d') {x : BlockId} (hx : x ∈ S) :
    SameCore (d.node x) (d'.node x) := by
  obtain ⟨n, n', hn, hn', hcore⟩ := h.core x hx
  rw [node_of_lookup hn, node_of_lookup hn']
  exact hcore

theorem chainKey_eq (h : AgreeOn S d d') {x : BlockId} (hx : x ∈ S) :
    d.chainKey x = d'.chainKey x := by
  rw [chainKey, chainKey, (h.sameCore hx).ghostdag]

theorem topoKey_eq (h : AgreeOn S d d') {x : BlockId} (hx : x ∈ S) :
    d.topoKey x = d'.topoKey x := by
  rw [topoKey, topoKey, (h.sameCore hx).pastSize]

theorem inAnticone_eq (h : AgreeOn S d d') (hd : d.Exact) (hd' : d'.Exact) {a b : BlockId}
    (ha : a ∈ S) (hb : b ∈ S) : d.inAnticone a b = d'.inAnticone a b := by
  rw [Bool.eq_iff_iff, hd.inAnticone_iff (h.mem ha) (h.mem hb),
    hd'.inAnticone_iff (h.symm.mem ha) (h.symm.mem hb), h.anc_iff ha, h.anc_iff hb]

theorem selectParent_eq (h : AgreeOn S d d') {parents parents' : List BlockId}
    (hparents : ∀ p ∈ parents, p ∈ S) (hmem : ∀ p, p ∈ parents ↔ p ∈ parents') :
    d.selectParent parents = d'.selectParent parents' :=
  maxByKey_eq_of_mem_iff hmem (fun p hp => h.chainKey_eq (hparents p hp))
    fun _ _ _ _ hxy => d.chainKey_injective hxy

/-- The mergeset and its order depend on the past only. -/
theorem mergesetOrdered_eq (h : AgreeOn S d d') (hd : d.Exact) (hd' : d'.Exact) {sp : BlockId}
    {parents parents' : List BlockId} (hsp : sp ∈ S) (hparents : ∀ p ∈ parents, p ∈ S)
    (hmem : ∀ p, p ∈ parents ↔ p ∈ parents') :
    d.mergesetOrdered sp parents = d'.mergesetOrdered sp parents' := by
  have hparents' : ∀ p ∈ parents', p ∈ S := fun p hp => hparents p ((hmem p).2 hp)
  have hin := fun p hp => h.mem (hparents p hp)
  have hin' := fun p hp => h.symm.mem (hparents' p hp)
  have hreach : ∀ x, x ∈ d.mergesetOrdered sp parents ↔ x ∈ d'.mergesetOrdered sp parents' := by
    intro x
    rw [hd.mem_mergesetOrdered (h.mem hsp) hin, hd'.mem_mergesetOrdered (h.symm.mem hsp) hin']
    have hexists : (∃ p ∈ parents, x = p ∨ d.Anc x p) ↔ ∃ p ∈ parents', x = p ∨ d'.Anc x p := by
      constructor
      · rintro ⟨p, hp, hxp⟩
        exact ⟨p, (hmem p).1 hp, hxp.imp id (h.anc_iff (hparents p hp)).1⟩
      · rintro ⟨p, hp, hxp⟩
        exact ⟨p, (hmem p).2 hp, hxp.imp id (h.anc_iff (hparents' p hp)).2⟩
    rw [hexists, h.anc_iff hsp]
  have hS : ∀ x ∈ d.mergesetOrdered sp parents, x ∈ S := by
    intro x hx
    obtain ⟨⟨p, hp, rfl | hxp⟩, _⟩ := (hd.mem_mergesetOrdered (h.mem hsp) hin x).1 hx
    · exact hparents x hp
    · exact h.anc_mem hxp (hparents p hp)
  have hnodup : (d.mergesetOrdered sp parents).Nodup := hd.nodup_mergesetOrdered hin
  have hnodup' : (d'.mergesetOrdered sp parents').Nodup := hd'.nodup_mergesetOrdered hin'
  simp only [mergesetOrdered, mem_sortByKey, (sortByKey_perm _ _).nodup_iff]
    at hreach hS hnodup hnodup' ⊢
  rw [sortByKey_congr fun x hx => h.topoKey_eq (hS x hx)]
  exact sortByKey_eq_of_mem_iff hnodup hnodup' hreach fun _ _ _ _ hxy => d'.topoKey_injective hxy

end AgreeOn

/-! ## Colouring one candidate -/

/-- The entries of the blue set in the candidate's anticone. -/
def anticoneEntries (d : DagView) (candidate : BlockId) (entries : List (BlockId × U16)) :
    List (BlockId × U16) :=
  entries.filter fun e => d.inAnticone e.1 candidate

/-- The candidate is refused: it would see too many blues, or one of them would. -/
def Refused (k : KParam) (count : Nat) (anticone : List (BlockId × U16)) : Prop :=
  (∃ i, count ≤ i ∧ i < count + anticone.length ∧ k < Word.cast 16 i + 1) ∨
    ∃ e ∈ anticone, k < e.2 + 1

theorem tryColourLoop_eq_none {candidate : BlockId} (entries : List (BlockId × U16))
    (blues : List BlockId) : d.tryColourLoop candidate entries blues = none ↔
      Refused d.k blues.length (d.anticoneEntries candidate entries) := by
  induction entries generalizing blues with
  | nil =>
      simp only [tryColourLoop, anticoneEntries, Refused, List.filter_nil, List.length_nil,
        Nat.add_zero, List.not_mem_nil, false_and, exists_false, or_false, reduceCtorEq, false_iff]
      rintro ⟨i, hle, hlt, _⟩
      omega
  | cons e entries ih =>
      obtain ⟨blue, size⟩ := e
      simp only [tryColourLoop]
      cases hanti : d.inAnticone blue candidate with
      | false =>
          rw [Bool.not_false, if_pos rfl, ih]
          simp only [anticoneEntries, List.filter_cons, hanti, Bool.false_eq_true, if_false]
      | true =>
          have hcons : d.anticoneEntries candidate ((blue, size) :: entries) =
              (blue, size) :: d.anticoneEntries candidate entries := by
            simp only [anticoneEntries, List.filter_cons, hanti, if_true]
          rw [Bool.not_true, if_neg Bool.false_ne_true, hcons]
          by_cases hcount : d.k < Word.cast 16 blues.length + 1
          · rw [if_pos hcount]
            exact ⟨fun _ => .inl ⟨blues.length, le_refl _, by simp, hcount⟩, fun _ => rfl⟩
          · rw [if_neg hcount]
            by_cases hsize : d.k < size + 1
            · rw [if_pos hsize]
              exact ⟨fun _ => .inr ⟨_, List.mem_cons_self .., hsize⟩, fun _ => rfl⟩
            · rw [if_neg hsize, ih, List.length_append, List.length_singleton]
              simp only [Refused, List.length_cons, List.mem_cons, exists_eq_or_imp, hsize,
                false_or]
              refine or_congr_left ⟨?_, ?_⟩
              · rintro ⟨i, hle, hlt, hk⟩
                exact ⟨i, by omega, by omega, hk⟩
              · rintro ⟨i, hle, hlt, hk⟩
                refine ⟨i, ?_, by omega, hk⟩
                rcases Nat.lt_or_eq_of_le hle with hlt' | heq
                · exact hlt'
                · exact absurd (heq ▸ hk) hcount

theorem tryColourLoop_eq_some {candidate : BlockId} (entries : List (BlockId × U16))
    (blues found : List BlockId) (h : d.tryColourLoop candidate entries blues = some found) :
    found = blues ++ (d.anticoneEntries candidate entries).map Prod.fst := by
  induction entries generalizing blues with
  | nil =>
      simp only [tryColourLoop, Option.some.injEq] at h
      simp [anticoneEntries, h]
  | cons e entries ih =>
      obtain ⟨blue, size⟩ := e
      simp only [tryColourLoop] at h
      cases hanti : d.inAnticone blue candidate with
      | false =>
          rw [hanti, Bool.not_false, if_pos rfl] at h
          rw [ih blues h]
          simp only [anticoneEntries, List.filter_cons, hanti, Bool.false_eq_true, if_false]
      | true =>
          rw [hanti, Bool.not_true, if_neg Bool.false_ne_true] at h
          split at h
          · cases h
          · split at h
            · cases h
            · rw [ih _ h]
              simp only [anticoneEntries, List.filter_cons, hanti, if_true, List.map_cons,
                List.append_assoc, List.singleton_append]

theorem Refused.congr {k : KParam} {start : Nat} {es es' : List (BlockId × U16)}
    (h : es.Perm es') : Refused k start es ↔ Refused k start es' := by
  simp only [Refused, h.length_eq, h.mem_iff]

variable {ord ord' : HashOrder}

theorem anticoneEntries_perm (h : AgreeOn S d d') (hd : d.Exact) (hd' : d'.Exact)
    {candidate : BlockId} (hc : candidate ∈ S) {sizes : Finmap fun _ : BlockId => U16}
    (hsizes : ∀ b ∈ sizes, b ∈ S) :
    (d.anticoneEntries candidate (ord.entries sizes)).Perm
      (d'.anticoneEntries candidate (ord'.entries sizes)) := by
  refine (List.perm_ext_iff_of_nodup ((ord.nodup_entries _).filter _)
    ((ord'.nodup_entries _).filter _)).2 fun e => ?_
  rw [List.mem_filter, List.mem_filter, HashOrder.mem_entries, HashOrder.mem_entries]
  refine and_congr_right fun he => ?_
  rw [h.inAnticone_eq hd hd' (hsizes e.1 (Finmap.mem_of_lookup_eq_some he)) hc]

/-- The increments of a blue candidate: distinct blocks of the blue set. -/
theorem tryColourBlue_spec {candidate : BlockId} {sizes : Finmap fun _ : BlockId => U16}
    {found : List BlockId} (h : d.tryColourBlue ord candidate sizes = some found) :
    found.Nodup ∧ ∀ b ∈ found, b ∈ sizes := by
  have heq := tryColourLoop_eq_some _ _ _ h
  rw [List.nil_append] at heq
  have hsub : found.Sublist (ord.iter sizes.keys) := by
    rw [heq, ← ord.entries_map_fst]
    exact (List.filter_sublist (l := ord.entries sizes)).map Prod.fst
  exact ⟨(ord.nodup_iter _).sublist hsub,
    fun b hb => Finmap.mem_keys.1 (ord.mem_iter.1 (hsub.mem hb))⟩

/-- One colouring step gives the same result in both DAGs. -/
theorem colourStep_congr (ord ord' : HashOrder) (h : AgreeOn S d d') (hd : d.Exact) (hd' : d'.Exact)
    {candidate : BlockId} (hc : candidate ∈ S) (c : Colouring) (hsizes : ∀ b ∈ c.sizes, b ∈ S) :
    d.colourStep ord c candidate = d'.colourStep ord' c candidate := by
  have hperm : (d.anticoneEntries candidate (ord.entries c.sizes)).Perm
      (d'.anticoneEntries candidate (ord'.entries c.sizes)) :=
    anticoneEntries_perm h hd hd' hc hsizes
  have hnone : d.tryColourBlue ord candidate c.sizes = none ↔
      d'.tryColourBlue ord' candidate c.sizes = none := by
    rw [tryColourBlue, tryColourBlue, tryColourLoop_eq_none, tryColourLoop_eq_none, h.k_eq,
      Refused.congr hperm]
  unfold colourStep
  cases hfound : d.tryColourBlue ord candidate c.sizes with
  | none =>
      rw [hnone.1 hfound]
  | some found =>
      cases hfound' : d'.tryColourBlue ord' candidate c.sizes with
      | none =>
          rw [hnone.2 hfound'] at hfound
          cases hfound
      | some found' =>
          have hfp : found.Perm found' := by
            rw [tryColourLoop_eq_some _ _ _ hfound, tryColourLoop_eq_some _ _ _ hfound',
              List.nil_append, List.nil_append]
            exact hperm.map Prod.fst
          have hsizesEq : updateEach (· + 1)
              (c.sizes.insert candidate (Word.cast 16 found.length)) found =
              updateEach (· + 1)
                (c.sizes.insert candidate (Word.cast 16 found'.length)) found' := by
            refine Finmap.ext_lookup fun x => ?_
            rw [lookup_updateEach _ (tryColourBlue_spec hfound).1,
              lookup_updateEach _ (tryColourBlue_spec hfound').1, hfp.length_eq]
            simp only [hfp.mem_iff]
          simp only [hsizesEq]

/-! ## The whole colouring -/

/-- What the colouring of a mergeset starts from `c` leaves behind: the mergeset
split in blues and reds, and no key besides the old ones and the mergeset. -/
theorem foldl_colourStep_spec (ord : HashOrder) (d : DagView) (mergeset : List BlockId)
    (c : Colouring) :
    ((mergeset.foldl (d.colourStep ord) c).blues ++
        (mergeset.foldl (d.colourStep ord) c).reds).Perm (c.blues ++ c.reds ++ mergeset) ∧
      ∀ b ∈ (mergeset.foldl (d.colourStep ord) c).sizes, b ∈ c.sizes ∨ b ∈ mergeset := by
  induction mergeset generalizing c with
  | nil =>
      rw [List.append_nil]
      exact ⟨.refl _, fun b hb => .inl hb⟩
  | cons candidate mergeset ih =>
      obtain ⟨hperm, hkeys⟩ := ih (d.colourStep ord c candidate)
      have hsplit : ((d.colourStep ord c candidate).blues ++
          (d.colourStep ord c candidate).reds).Perm (candidate :: (c.blues ++ c.reds)) := by
        unfold colourStep
        cases d.tryColourBlue ord candidate c.sizes with
        | none =>
            exact ((List.perm_append_singleton candidate c.reds).append_left c.blues).trans
              List.perm_middle
        | some found =>
            exact ((List.perm_append_singleton candidate c.blues).append_right c.reds)
      have hsizes : ∀ b ∈ (d.colourStep ord c candidate).sizes, b = candidate ∨ b ∈ c.sizes := by
        intro b
        unfold colourStep
        cases hfound : d.tryColourBlue ord candidate c.sizes with
        | none => exact .inr
        | some found =>
            intro hb
            rw [← Finmap.lookup_isSome, lookup_updateEach _ (tryColourBlue_spec hfound).1] at hb
            split at hb
            · exact .inr ((tryColourBlue_spec hfound).2 b ‹_›)
            · exact Finmap.mem_insert.1 (Finmap.lookup_isSome.1 hb)
      rw [List.foldl_cons]
      constructor
      · exact hperm.trans ((hsplit.append_right mergeset).trans List.perm_middle.symm)
      · intro b hb
        rcases hkeys b hb with hold | hnew
        · exact (hsizes b hold).elim (fun heq => .inr (heq ▸ List.mem_cons_self ..)) .inl
        · exact .inr (List.mem_cons_of_mem _ hnew)

theorem foldl_colourStep_congr (ord ord' : HashOrder) (h : AgreeOn S d d') (hd : d.Exact)
    (hd' : d'.Exact)
    (mergeset : List BlockId) (hmergeset : ∀ x ∈ mergeset, x ∈ S) (c : Colouring)
    (hsizes : ∀ b ∈ c.sizes, b ∈ S) :
    mergeset.foldl (d.colourStep ord) c = mergeset.foldl (d'.colourStep ord') c := by
  induction mergeset generalizing c with
  | nil => rfl
  | cons candidate mergeset ih =>
      have hcand := hmergeset candidate (List.mem_cons_self ..)
      rw [List.foldl_cons, List.foldl_cons,
        ← colourStep_congr ord ord' h hd hd' hcand c hsizes]
      refine ih (fun x hx => hmergeset x (List.mem_cons_of_mem _ hx)) _ ?_
      intro b hb
      have hkeys := (foldl_colourStep_spec ord d [candidate] c).2 b hb
      rcases hkeys with hold | hnew
      · exact hsizes b hold
      · rw [List.mem_singleton.1 hnew]
        exact hcand

/-- A block whose parents lie in the common past gets the same consensus data in
both DAGs. -/
theorem computeGhostdag_congr (h : AgreeOn S d d') (hd : d.Exact) (hd' : d'.Exact)
    (hblue : ∀ x ∈ S, ∀ b ∈ (d.node x).ghostdag.blueAnticoneSizes, b ∈ S)
    {parents parents' : List BlockId} (hparents : ∀ p ∈ parents, p ∈ S)
    (hmem : ∀ p, p ∈ parents ↔ p ∈ parents') (ord ord' : HashOrder) :
    d.computeGhostdag ord parents = d'.computeGhostdag ord' parents' := by
  unfold computeGhostdag
  rw [h.selectParent_eq hparents hmem]
  cases hsel : d'.selectParent parents' with
  | none => rfl
  | some sp =>
      have hsp : sp ∈ S := hparents sp ((hmem sp).2 (maxByKey_mem hsel))
      have hms := h.mergesetOrdered_eq hd hd' hsp hparents hmem
      have hmsS : ∀ x ∈ d.mergesetOrdered sp parents, x ∈ S := by
        intro x hx
        obtain ⟨⟨p, hp, rfl | hxp⟩, _⟩ := (hd.mem_mergesetOrdered (h.mem hsp)
          (fun p hp => h.mem (hparents p hp)) x).1 hx
        · exact hparents x hp
        · exact h.anc_mem hxp (hparents p hp)
      have hcore := h.sameCore hsp
      have hseed : ∀ b ∈ (d.node sp).ghostdag.blueAnticoneSizes.insert sp 0, b ∈ S := by
        intro b hb
        rcases Finmap.mem_insert.1 hb with rfl | hb
        · exact hsp
        · exact hblue sp hsp b hb
      have hfold := foldl_colourStep_congr ord ord' h hd hd'
        (d.mergesetOrdered sp parents) hmsS
        ⟨(d.node sp).ghostdag.blueAnticoneSizes.insert sp 0, [], []⟩ hseed
      rw [hms, hcore.ghostdag] at hfold
      simp only [Option.map_some, hms, hcore.ghostdag, hcore.block, hfold, Option.some.injEq,
        GhostdagData.mk.injEq, true_and, and_true]
      -- the works of the newly blue blocks
      refine List.foldl_ext _ _ _ fun acc b hb => ?_
      have hbS : b ∈ S := by
        have hperm := (foldl_colourStep_spec ord' d' (d'.mergesetOrdered sp parents')
          ⟨(d'.node sp).ghostdag.blueAnticoneSizes.insert sp 0, [], []⟩).1
        have hmem := hperm.mem_iff.1 (List.mem_append_left _ hb)
        rw [List.nil_append, List.nil_append, ← hms] at hmem
        exact hmsS b hmem
      rw [(h.sameCore hbS).block]

end DagView

end Kovanica
