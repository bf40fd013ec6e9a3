import Kovanica.Dag.Cluster

/-!
# Additions that do not fit

A build with overflow checks panics where a release build wraps.
`insertChecked` is `insert` in such a build: the same calls, with every addition
of `try_colour_blue`, `compute_ghostdag` and `insert` checked.  The two builds
agree along a run, and the recorded works are true sums, exactly when the works
of no blue set reach `2 ^ 128` and, at the largest `k`, no block of a past has
more than `k` others of that past in its anticone.

## Main results

* `tryColourChecked_eq_ok`, `colourStepChecked_eq_ok`, `computeGhostdagChecked_eq_ok`: for each
  function, when its checked form returns, and that it returns the same.
* `sums_next`: where the colouring raises no overflow, the score is far below its width and the
  work is that of the blue set.
* `isCluster_blueSet`: the blue set is a cluster.
-/

namespace Kovanica

open Lib Relation

/-- `a + b` in a build with overflow checks. -/
def plus {w : Nat} (a b : Word w) : Outcome DagError (Word w) :=
  match Word.checkedAdd a b with
  | some c => .ok c
  | none => .error (.panic "attempt to add with overflow")

namespace DagView

/-! ## The checked build -/

/-- The loop of `try_colour_blue`, additions checked. -/
def tryColourLoopChecked (d : DagView) (candidate : BlockId) :
    List (BlockId × U16) → (anticoneBlues : List BlockId) →
      Outcome DagError (Option (List BlockId))
  | [], anticoneBlues => .ok (some anticoneBlues)
  | (blue, blueSize) :: rest, anticoneBlues =>
      if !d.inAnticone blue candidate then tryColourLoopChecked d candidate rest anticoneBlues
      else do
        let seen ← plus (Word.cast 16 anticoneBlues.length) 1
        if d.k < seen then .ok none
        else
          let bumped ← plus blueSize 1
          if d.k < bumped then .ok none
          else tryColourLoopChecked d candidate rest (anticoneBlues ++ [blue])

/-- `*map.get_mut(&b).unwrap() += 1` for each of the increments, additions checked. -/
def bumpChecked (sizes : Finmap fun _ : BlockId => U16) (increments : List BlockId) :
    Outcome DagError (Finmap fun _ : BlockId => U16) :=
  increments.foldlM (fun m b => do
    let size ← plus (valueAt m b) 1
    .ok (m.insert b size)) sizes

/-- Colour one candidate of the mergeset, additions checked. -/
def colourStepChecked (ord : HashOrder) (d : DagView) (c : Colouring) (candidate : BlockId) :
    Outcome DagError Colouring := do
  match ← d.tryColourLoopChecked candidate (ord.entries c.sizes) [] with
  | some increments =>
      let seeded := c.sizes.insert candidate (Word.cast 16 increments.length)
      let sizes ← bumpChecked seeded increments
      .ok { c with
        sizes := sizes
        blues := c.blues ++ [candidate] }
  | none => .ok { c with reds := c.reds ++ [candidate] }

/-- `compute_ghostdag(parents)`, additions checked: as in a build with overflow checks, an
addition that does not fit its type is a panic. -/
def computeGhostdagChecked (ord : HashOrder) (d : DagView) (parents : List BlockId) :
    Outcome DagError GhostdagData :=
  match d.selectParent parents with
  | none => .error (.panic "non-genesis block always has at least one parent")
  | some sp => do
      let spNode := d.node sp
      let seed : Colouring :=
        { sizes := spNode.ghostdag.blueAnticoneSizes.insert sp 0, blues := [], reds := [] }
      let coloured ← (d.mergesetOrdered sp parents).foldlM (d.colourStepChecked ord) seed
      let above ← plus (Word.cast 64 spNode.ghostdag.blueScore) 1
      let blueScore ← plus above (Word.cast 64 coloured.blues.length)
      let inherited ← plus spNode.ghostdag.blueWork spNode.block.work
      let blueWork ← coloured.blues.foldlM (fun acc b => plus acc (d.node b).block.work) inherited
      .ok { selectedParent := some sp
            mergesetBlues := coloured.blues
            mergesetReds := coloured.reds
            blueScore := blueScore.val
            blueWork := blueWork
            blueAnticoneSizes := coloured.sizes }

end DagView

namespace Dag

/-- `insert(block)`, additions checked.  The last sum is the past size that `wire`
stores. -/
def insertChecked [Crypto] (ord : HashOrder) (d : Dag) (block : Block) :
    Outcome DagError (BlockId × Dag) :=
  match d.checkStructure block with
  | .error e => .error (.error e)
  | .ok () =>
      match d.runValidator block with
      | .error e => .error (.error e)
      | .ok () => do
          let g ← d.computeGhostdagChecked ord block.parents
          let sp := g.selectedParent.getD d.genesis
          match d.checkPolicy block sp with
          | .error e => .error (.error e)
          | .ok () =>
              let merged ← plus (Word.cast 64 g.mergesetBlues.length)
                (Word.cast 64 g.mergesetReds.length)
              let above ← plus (Word.cast 64 (d.node sp).pastSize) 1
              let _ ← plus above merged
              if mapCapacity ≤ d.len + 1 then .error (.panic "capacity overflow")
              else .ok (block.id, d.wire block sp g)

/-- The blocks inserted in turn, each in its own iteration order; `none` when one
of the calls does not return `Ok`. -/
def insertEach (insert : HashOrder → Dag → Block → Outcome DagError (BlockId × Dag)) (d : Dag) :
    List (HashOrder × Block) → Option Dag
  | [] => some d
  | (ord, block) :: rest =>
      match insert ord d block with
      | .ok (_, d') => insertEach insert d' rest
      | .error _ => none

end Dag

/-! ## One addition -/

section Plus

variable {w : Nat} {a b c : Word w}

theorem plus_eq_ok : plus a b = .ok c ↔ c = a + b ∧ a.val + b.val < 2 ^ w := by
  unfold plus
  cases hsum : Word.checkedAdd a b with
  | none =>
      have hle := Word.checkedAdd_eq_none.1 hsum
      simp only [reduceCtorEq, false_iff, not_and]
      omega
  | some s =>
      have hs := Word.checkedAdd_eq_some.1 hsum
      have hlt : a.val + b.val < 2 ^ w := hs ▸ s.isLt
      have heq : s = a + b := Fin.ext (hs.trans (Word.val_add_of_lt hlt).symm)
      simp only [Except.ok.injEq, hlt, and_true, heq, eq_comm]

theorem plus_of_lt (h : a.val + b.val < 2 ^ w) : plus a b = .ok (a + b) :=
  plus_eq_ok.2 ⟨rfl, h⟩

theorem plus_of_le (h : 2 ^ w ≤ a.val + b.val) :
    plus a b = .error (.panic "attempt to add with overflow") := by
  rw [plus, Word.checkedAdd_eq_none.2 h]

/-- A checked running sum is the running sum, and it fits. -/
theorem foldlM_plus_eq_ok {α : Type} (f : α → Word w) (l : List α) :
    l.foldlM (fun acc x => plus acc (f x)) a = .ok c ↔
      c = l.foldl (fun acc x => acc + f x) a ∧ a.val + (l.map fun x => (f x).val).sum < 2 ^ w := by
  induction l generalizing a with
  | nil =>
      simp only [List.foldlM_nil, List.foldl_nil, List.map_nil, List.sum_nil, Nat.add_zero, a.isLt,
        and_true]
      exact ⟨fun h => (Except.ok.inj h).symm, fun h => congrArg Except.ok h.symm⟩
  | cons x l ih =>
      rw [List.foldlM_cons, Outcome.bind_eq_ok]
      simp only [plus_eq_ok, List.foldl_cons, List.map_cons, List.sum_cons]
      constructor
      · rintro ⟨s, ⟨rfl, hlt⟩, hrest⟩
        obtain ⟨hc, hsum⟩ := ih.1 hrest
        rw [Word.val_add_of_lt hlt] at hsum
        exact ⟨hc, by omega⟩
      · rintro ⟨hc, hsum⟩
        have hlt : a.val + (f x).val < 2 ^ w := by omega
        refine ⟨a + f x, ⟨rfl, hlt⟩, ih.2 ⟨hc, ?_⟩⟩
        rw [Word.val_add_of_lt hlt]
        omega

end Plus

/-! ## The colouring -/

namespace DagView

variable {d d' : DagView} {S : Finset BlockId} {sizes : Finmap fun _ : BlockId => U16}
  {b c sp : BlockId}

/-- A counter is tested one higher against `k`: below the largest `k` the sum is
there, at the largest it is when the test passes. -/
theorem test_eq_ok {k n : U16} (hn : n.val ≤ k.val) {P : Prop}
    {f : Outcome DagError (Option (List BlockId))} {g r : Option (List BlockId)}
    (hf : n.val + 1 ≤ k.val → (f = .ok r ↔ r = g ∧ (k.val < 65535 ∨ P))) :
    (plus n 1 >>= fun s => if k < s then .ok none else f) = .ok r ↔
      r = (if k < n + 1 then none else g) ∧ (k.val < 65535 ∨ (n.val + 1 ≤ k.val ∧ P)) := by
  by_cases hsum : n.val + 1 < 65536
  · have hlt : k < n + 1 ↔ k.val < n.val + 1 := by
      rw [Fin.lt_def, Word.val_add_of_lt hsum]
      rfl
    rw [plus_of_lt hsum, Outcome.ok_bind]
    by_cases htest : k < n + 1
    · have hle := hlt.1 htest
      rw [if_pos htest, if_pos htest, Except.ok.injEq, eq_comm]
      exact ⟨fun hr => ⟨hr, .inl (by omega)⟩, fun hr => hr.1⟩
    · rw [if_neg htest, if_neg htest]
      rw [hlt] at htest
      have hle : n.val + 1 ≤ k.val := by omega
      simp only [hf hle, hle, true_and]
  · -- the counter is full, and so is `k`
    rw [plus_of_le (Nat.le_of_not_lt hsum), Outcome.error_bind]
    simp only [reduceCtorEq, false_iff, not_and, not_or]
    intro _
    omega

/-- The loop ends exactly when no counter passes the width: below the largest `k`
a test fails before, at the largest the counts themselves have to fit. -/
theorem tryColourLoopChecked_eq_ok {r : Option (List BlockId)} (entries : List (BlockId × U16))
    (blues : List BlockId) (hcount : blues.length ≤ d.k.val)
    (hsizes : ∀ e ∈ entries, e.2.val ≤ d.k.val) :
    d.tryColourLoopChecked c entries blues = .ok r ↔
      r = d.tryColourLoop c entries blues ∧ (d.k.val < 65535 ∨
        (blues.length + (d.anticoneEntries c entries).length ≤ d.k.val ∧
          ∀ e ∈ d.anticoneEntries c entries, e.2.val + 1 ≤ d.k.val)) := by
  have hmax : d.k.val < 65536 := d.k.isLt
  induction entries generalizing blues with
  | nil =>
      simp only [tryColourLoopChecked, tryColourLoop, Except.ok.injEq, eq_comm, anticoneEntries,
        List.filter_nil, List.length_nil, Nat.add_zero, hcount, List.not_mem_nil, false_imp_iff,
        implies_true, and_self, or_true, and_true]
  | cons e entries ih =>
      obtain ⟨blue, size⟩ := e
      have hrest : ∀ e ∈ entries, e.2.val ≤ d.k.val :=
        fun e he => hsizes e (List.mem_cons_of_mem _ he)
      have hsize : size.val ≤ d.k.val := hsizes (blue, size) (List.mem_cons_self ..)
      simp only [tryColourLoopChecked, tryColourLoop]
      cases hanti : d.inAnticone blue c with
      | false =>
          have hskip : d.anticoneEntries c ((blue, size) :: entries) =
              d.anticoneEntries c entries := by
            simp only [anticoneEntries, List.filter_cons, hanti, Bool.false_eq_true, if_false]
          rw [Bool.not_false, if_pos rfl, if_pos rfl, hskip]
          exact ih blues hcount hrest
      | true =>
          have hcons : d.anticoneEntries c ((blue, size) :: entries) =
              (blue, size) :: d.anticoneEntries c entries := by
            simp only [anticoneEntries, List.filter_cons, hanti, if_true]
          have hcast : (Word.cast 16 blues.length : U16).val = blues.length :=
            Word.cast_of_lt (by omega)
          rw [Bool.not_true, if_neg Bool.false_ne_true, if_neg Bool.false_ne_true, hcons,
            List.length_cons, List.forall_mem_cons]
          have hblue : blues.length + 1 ≤ d.k.val → _ := fun hle =>
            test_eq_ok hsize fun _ => ih (blues ++ [blue]) (by simp; omega) hrest
          rw [test_eq_ok (hcast.trans_le hcount) fun hle => hblue (hcast ▸ hle), hcast,
            List.length_append, List.length_singleton]
          apply and_congr_right
          intro _
          apply or_congr_right
          constructor
          · exact fun h => ⟨by omega, h.2.1, h.2.2.2⟩
          · exact fun h => ⟨by omega, h.2.1, by omega, h.2.2⟩

/-- The increments are all counted where none of the old sizes is full. -/
theorem bumpChecked_eq_ok {increments : List BlockId} (hnodup : increments.Nodup)
    (sizes : Finmap fun _ : BlockId => U16)
    (hroom : ∀ b ∈ increments, (valueAt sizes b).val + 1 < 65536) :
    bumpChecked sizes increments = .ok (updateEach (· + 1) sizes increments) := by
  induction increments generalizing sizes with
  | nil => rfl
  | cons b increments ih =>
      obtain ⟨hfirst, hrest⟩ := List.nodup_cons.1 hnodup
      have hb : (valueAt sizes b).val + (1 : U16).val < 2 ^ 16 := hroom b (List.mem_cons_self ..)
      rw [bumpChecked, List.foldlM_cons, plus_of_lt hb, Outcome.ok_bind, Outcome.ok_bind]
      apply ih hrest
      intro b' hb'
      have hne : b' ≠ b := fun heq => hfirst (heq ▸ hb')
      rw [valueAt_insert_of_ne _ _ hne]
      exact hroom b' (List.mem_cons_of_mem _ hb')

section Step

variable (ord : HashOrder) (h : d.Tallies S sizes) (hd : d.Exact) (hS : ∀ b ∈ S, b ∈ d.nodes)
  (hc : c ∈ d.nodes) (hnew : c ∉ S)

include h hd hS hc hnew

/-- One candidate is tested without overflow below the largest `k`, and at the
largest exactly when it joins. -/
theorem tryColourChecked_eq_ok {r : Option (List BlockId)} :
    d.tryColourLoopChecked c (ord.entries sizes) [] = .ok r ↔
      r = d.tryColourBlue ord c sizes ∧
        (d.k.val < 65535 ∨ IsCluster d.Apart d.k.val (insert c S)) := by
  have hsizes : ∀ e ∈ ord.entries sizes, e.2.val ≤ d.k.val := by
    intro e he
    obtain ⟨hb, hval⟩ := (h.lookup_iff e.1 e.2).1 (ord.mem_entries.1 he)
    rw [hval]
    exact h.cluster e.1 hb
  rw [tryColourLoopChecked_eq_ok _ [] (Nat.zero_le _) hsizes, tryColourBlue,
    isCluster_insert_iff d.apart_irrefl d.apart_symm h.cluster hnew, List.length_nil, Nat.zero_add,
    length_anticoneEntries ord h hd hS hc]
  apply and_congr_right
  intro _
  apply or_congr_right
  apply and_congr_right
  intro _
  constructor
  · intro hall b hb
    obtain ⟨s, hs⟩ := Finmap.mem_iff.1 (h.mem_iff.2 (mem_conflicts.1 hb).1)
    have hval := ((h.lookup_iff b s).1 hs).2
    rw [← hval]
    exact hall (b, s) ((mem_anticoneEntries ord h hd hS hc).2 ⟨hb, hval⟩)
  · intro hall e he
    obtain ⟨hb, hval⟩ := (mem_anticoneEntries ord h hd hS hc).1 he
    rw [hval]
    exact hall e.1 hb

/-- One colouring step, likewise. -/
theorem colourStepChecked_eq_ok {colouring : Colouring} (coloured : Colouring)
    (hsizes : colouring.sizes = sizes) :
    d.colourStepChecked ord colouring c = .ok coloured ↔
      coloured = d.colourStep ord colouring c ∧
        (d.k.val < 65535 ∨ IsCluster d.Apart d.k.val (insert c S)) := by
  subst hsizes
  have htest := fun r => tryColourChecked_eq_ok (r := r) ord h hd hS hc hnew
  unfold colourStepChecked colourStep
  rw [Outcome.bind_eq_ok]
  simp only [htest]
  cases hfound : d.tryColourBlue ord c colouring.sizes with
  | none => simp only [and_assoc, exists_eq_left, Except.ok.injEq, and_comm, eq_comm]
  | some found =>
      simp only [and_assoc, exists_eq_left]
      rw [and_comm]
      apply and_congr_left
      intro hfit
      have hbump : bumpChecked (colouring.sizes.insert c (Word.cast 16 found.length)) found =
          .ok (updateEach (· + 1)
            (colouring.sizes.insert c (Word.cast 16 found.length)) found) := by
        obtain ⟨hcluster, hnodup, hmem, _⟩ :=
          tryColourBlue_conflicts ord h hd hS hc hfit hnew hfound
        have hothers :=
          ((isCluster_insert_iff d.apart_irrefl d.apart_symm h.cluster hnew).1 hcluster).2
        apply bumpChecked_eq_ok hnodup
        intro b hb
        obtain ⟨hbS, hapart⟩ := mem_conflicts.1 ((hmem b).1 hb)
        obtain ⟨s, hs⟩ := Finmap.mem_iff.1 (h.mem_iff.2 hbS)
        have hval := ((h.lookup_iff b s).1 hs).2
        have hle := hothers b ((hmem b).1 hb)
        have hk := d.k.isLt
        rw [valueAt_insert_of_ne _ _ hapart.1, valueAt_of_lookup hs]
        omega
      rw [hbump, Outcome.ok_bind, Except.ok.injEq, eq_comm]

end Step

/-- A whole mergeset, likewise. -/
theorem foldlM_colourStepChecked_eq_ok (ord : HashOrder) (hd : d.Exact) {mergeset : List BlockId}
    (colouring coloured : Colouring) (h : d.Tallies S colouring.sizes)
    (hcand : d.Candidates S mergeset) :
    mergeset.foldlM (d.colourStepChecked ord) colouring = .ok coloured ↔
      coloured = mergeset.foldl (d.colourStep ord) colouring ∧
        (d.k.val < 65535 ∨ ∀ c ∈ mergeset, c ∈ absorbAll d.Apart d.k.val S mergeset) := by
  induction mergeset generalizing S colouring with
  | nil =>
      simp only [List.foldlM_nil, List.foldl_nil, List.not_mem_nil, false_imp_iff, implies_true,
        or_true, and_true]
      exact ⟨fun heq => (Except.ok.inj heq).symm, fun heq => congrArg Except.ok heq.symm⟩
  | cons c mergeset ih =>
      have hc : c ∈ d.nodes := hcand.mem c (List.mem_cons_self ..)
      have hcS : c ∉ S := hcand.fresh c (List.mem_cons_self ..)
      have hstep := fun mid => colourStepChecked_eq_ok ord h hd hcand.cluster_mem hc hcS mid rfl
      have hsplit : (d.k.val < 65535 ∨ ∀ b ∈ c :: mergeset,
          b ∈ absorbAll d.Apart d.k.val S (c :: mergeset)) ↔
          (d.k.val < 65535 ∨ IsCluster d.Apart d.k.val (insert c S)) ∧ (d.k.val < 65535 ∨
            ∀ b ∈ mergeset, b ∈ absorbAll d.Apart d.k.val (absorb d.Apart d.k.val S c) mergeset) := by
        rw [← or_and_left, List.forall_mem_cons, hcand.head_joins, absorbAll_cons]
      rw [List.foldlM_cons, Outcome.bind_eq_ok, hsplit, List.foldl_cons]
      simp only [hstep, and_assoc, exists_eq_left]
      rw [and_left_comm]
      apply and_congr_right
      intro hfit
      have htallies := (colourStep_tallies ord h hd hcand.cluster_mem hc hfit rfl hcS).1
      exact ih _ htallies hcand.tail

/-! ## The consensus data -/

/-- The blue set of a block with selected parent `sp` that is not stored yet. -/
noncomputable def nextBlues (d : DagView) (sp : BlockId) (parents : List BlockId) :
    Finset BlockId :=
  absorbAll d.Apart d.k.val (insert sp (d.blueSet sp)) (d.mergesetOrdered sp parents)

/-- The total work of a set of blocks. -/
def workOf (d : DagView) (S : Finset BlockId) : Nat := ∑ b ∈ S, (d.node b).block.work.val

/-- A block over `parents` gets its data without overflow: at the largest `k` the
whole mergeset joins, and the works of the blue set fit 128 bits. -/
def FitsNext (d : DagView) (sp : BlockId) (parents : List BlockId) : Prop :=
  (d.k.val < 65535 ∨ ∀ c ∈ d.mergesetOrdered sp parents, c ∈ d.nextBlues sp parents) ∧
    d.workOf (d.nextBlues sp parents) < 2 ^ 128

section Next

variable [Crypto] {ord : HashOrder} {parents : List BlockId} {g : GhostdagData}

/-- A total work that fits is the recorded blue work. -/
theorem blueWork_eq (h : d.WellFormed) (hfit : d.Fits)
    (hwork : ∀ x ∈ d.nodes, d.workOf (d.blueSet x) < 2 ^ 128) {x : BlockId} (hx : x ∈ d.nodes) :
    (d.node x).ghostdag.blueWork.val = d.workOf (d.blueSet x) := by
  rw [h.sum_blueSet hfit hx]
  exact Nat.mod_eq_of_lt (hwork x hx)

/-- The sums of `compute_ghostdag` over a mergeset that raises no overflow in its
colouring: the score is far below the width, the work is that of the blue set. -/
theorem sums_next (ord : HashOrder) (h : d.WellFormed) (hfit : d.Fits)
    (hwork : ∀ x ∈ d.nodes, d.workOf (d.blueSet x) < 2 ^ 128) (hsp : sp ∈ d.nodes)
    (hparents : ∀ p ∈ parents, p ∈ d.nodes)
    (hjoin : d.k.val < 65535 ∨
      ∀ c ∈ d.mergesetOrdered sp parents, c ∈ d.nextBlues sp parents)
    {blues : List BlockId}
    (hblues : blues = ((d.mergesetOrdered sp parents).foldl (d.colourStep ord)
      ⟨(d.node sp).ghostdag.blueAnticoneSizes.insert sp 0, [], []⟩).blues) :
    (d.node sp).ghostdag.blueScore + 1 + blues.length < 2 ^ 64 ∧
      d.workOf (d.nextBlues sp parents) =
        (d.node sp).ghostdag.blueWork.val + (d.node sp).block.work.val +
          (blues.map fun b => (d.node b).block.work.val).sum := by
  have hcand := h.candidates hsp hparents
  obtain ⟨hnodup, hdisj, heq⟩ := hcand.absorbAll_eq ord h.exact hjoin
    (h.tallies_seed hsp (h.tallies_blueSet hfit hsp)) hblues
  constructor
  · have hscore : (d.node sp).ghostdag.blueScore ≤ d.len := by
      rw [← h.card_blueSet hfit hsp]
      apply Finset.card_le_card
      intro b hb
      exact Finmap.mem_keys.2 (hcand.cluster_mem b (Finset.mem_insert_of_mem hb))
    have hlen : blues.length ≤ d.len := by
      rw [← List.toFinset_card_of_nodup hnodup]
      apply Finset.card_le_card
      intro b hb
      apply Finmap.mem_keys.2
      apply hcand.absorbAll_mem
      rw [heq]
      exact Finset.mem_union_right _ hb
    have hlt : d.len < 2 ^ 63 - 1 := h.len_lt
    omega
  · rw [workOf, nextBlues, heq, Finset.sum_union hdisj, Finset.sum_insert (h.notMem_blueSet_self hsp),
      List.sum_toFinset _ hnodup, blueWork_eq h hfit hwork hsp, workOf]
    omega

/-- The data are derived without overflow exactly when the block fits, and they are
those of a release build. -/
theorem computeGhostdagChecked_eq_ok (ord : HashOrder) (h : d.WellFormed) (hfit : d.Fits)
    (hwork : ∀ x ∈ d.nodes, d.workOf (d.blueSet x) < 2 ^ 128)
    (hparents : ∀ p ∈ parents, p ∈ d.nodes) (hsp : d.selectParent parents = some sp) :
    d.computeGhostdagChecked ord parents = .ok g ↔
      d.computeGhostdag ord parents = some g ∧ d.FitsNext sp parents := by
  have hspMem : sp ∈ d.nodes := hparents sp (maxByKey_mem hsp)
  have hcand := h.candidates hspMem hparents
  have hseed := h.tallies_seed hspMem (h.tallies_blueSet hfit hspMem)
  have hcolour := fun coloured => foldlM_colourStepChecked_eq_ok ord h.exact
    ⟨(d.node sp).ghostdag.blueAnticoneSizes.insert sp 0, [], []⟩ coloured hseed hcand
  rw [computeGhostdagChecked, hsp, computeGhostdag, hsp, Option.map_some, FitsNext]
  simp only [Outcome.bind_eq_ok, hcolour, plus_eq_ok, foldlM_plus_eq_ok, and_assoc, exists_eq_left]
  rw [and_left_comm (b := _ ∨ _)]
  apply and_congr_right
  intro hjoin
  obtain ⟨hscore, hsum⟩ := sums_next ord h hfit hwork hspMem hparents hjoin rfl
  generalize (d.mergesetOrdered sp parents).foldl (d.colourStep ord)
    ⟨(d.node sp).ghostdag.blueAnticoneSizes.insert sp 0, [], []⟩ = coloured at hscore hsum ⊢
  have hone : ((1 : Word 64)).val = 1 := rfl
  have hcast : (Word.cast 64 (d.node sp).ghostdag.blueScore).val =
      (d.node sp).ghostdag.blueScore := Word.cast_of_lt (by omega)
  have hcount : (Word.cast 64 coloured.blues.length).val = coloured.blues.length :=
    Word.cast_of_lt (by omega)
  have habove : (Word.cast 64 (d.node sp).ghostdag.blueScore + 1).val =
      (d.node sp).ghostdag.blueScore + 1 := by
    rw [Word.val_add_of_lt] <;> rw [hcast, hone]
    omega
  have htotal : (Word.cast 64 (d.node sp).ghostdag.blueScore + 1 +
      Word.cast 64 coloured.blues.length).val =
        (d.node sp).ghostdag.blueScore + 1 + coloured.blues.length := by
    rw [Word.val_add_of_lt] <;> rw [habove, hcount]
    exact hscore
  rw [hcast, hone, habove, hcount, htotal, hsum, Option.some.injEq, Except.ok.injEq]
  constructor
  · rintro ⟨_, _, hinherited, hblues, heq⟩
    rw [Word.val_add_of_lt hinherited] at hblues
    exact ⟨heq, hblues⟩
  · rintro ⟨heq, hblues⟩
    have hinherited : (d.node sp).ghostdag.blueWork.val + (d.node sp).block.work.val < 2 ^ 128 := by
      omega
    rw [Word.val_add_of_lt hinherited]
    exact ⟨by omega, hscore, hinherited, hblues, heq⟩

end Next

/-! ## The condition on a stored block -/

/-- The works of the blue set fit 128 bits and, at the largest `k`, no block of the
past has more than `k` others of that past in its anticone. -/
structure Bounded (d : DagView) (x : BlockId) : Prop where
  work : d.workOf (d.blueSet x) < 2 ^ 128
  anticone : d.k = Word.maxValue 16 →
    ∀ b ∈ d.past x, (d.past x ∩ d.anticone b).card ≤ 65535

theorem max_iff {k : KParam} : k = Word.maxValue 16 ↔ ¬ k.val < 65535 := by
  have hlt := k.isLt
  have hmax : (Word.maxValue 16 : U16).val = 65535 := rfl
  rw [← Fin.val_inj, hmax]
  omega

namespace WellFormed

variable [Crypto] {x : BlockId}

theorem isCluster_past_iff (h : d.WellFormed) (hk : ¬ d.k.val < 65535) :
    IsCluster d.Apart d.k.val (d.past x) ↔
      ∀ b ∈ d.past x, (d.past x ∩ d.anticone b).card ≤ 65535 := by
  have hval : d.k.val = 65535 := by
    have := d.k.isLt
    omega
  have hmem : ∀ b ∈ d.past x, b ∈ d.nodes :=
    fun b hb => h.exact.mem_of_anc (h.exact.mem_past.1 hb)
  unfold IsCluster
  simp only [hval, conflicts_eq hmem]

/-- What a selected parent hands on is a cluster with it. -/
theorem isCluster_seed (h : d.WellFormed) (hsp : sp ∈ d.nodes)
    (hcluster : IsCluster d.Apart d.k.val (d.blueSet sp)) :
    IsCluster d.Apart d.k.val (insert sp (d.blueSet sp)) := by
  apply hcluster.insert_free (d.apart_irrefl sp)
  intro b hb
  have hanc := h.anc_of_mem_blueSet hsp hb
  exact ⟨fun hapart => hapart.2.2 hanc, fun hapart => hapart.2.1 hanc⟩

/-- The blue set is a cluster. -/
theorem isCluster_blueSet (h : d.WellFormed) (hx : x ∈ d.nodes) :
    IsCluster d.Apart d.k.val (d.blueSet x) := by
  refine h.chain_induction (P := fun x => IsCluster d.Apart d.k.val (d.blueSet x)) ?_ ?_ hx
  · rw [h.blueSet_genesis]
    exact fun b hb => absurd hb (Finset.notMem_empty b)
  · intro y sp hy ih
    rw [h.blueSet_step hy]
    exact (h.isCluster_seed (h.selectedParent_mem hy).1 ih).absorbAll _

/-- The blue set of a stored block is what it was to be. -/
theorem blueSet_eq_nextBlues (h : d.WellFormed) (hx : d.selectedParentOf x = some sp) :
    d.blueSet x = d.nextBlues sp (d.parentsOf x) := by
  rw [h.blueSet_step hx, mergesetOrder_eq hx (h.selectedParent_mem hx).2]
  rfl

/-- Where the selected parent's blue set is its whole past, the mergeset joins
exactly when the past is a cluster. -/
theorem joins_iff (h : d.WellFormed) (hx : d.selectedParentOf x = some sp)
    (hfull : d.blueSet sp = d.past sp) :
    (∀ c ∈ d.mergesetOrdered sp (d.parentsOf x), c ∈ d.nextBlues sp (d.parentsOf x)) ↔
      IsCluster d.Apart d.k.val (d.past x) := by
  have hsp := (h.selectedParent_mem hx).1
  rw [h.past_eq hx, ← hfull, mergesetOrder_eq hx (h.selectedParent_mem hx).2]
  exact forall_mem_absorbAll_iff (h.isCluster_seed hsp (h.isCluster_blueSet hsp))

/-- At the largest `k` the blue set of a block is its past, when every past is a
cluster. -/
theorem blueSet_eq_past (h : d.WellFormed) (hx : x ∈ d.nodes)
    (hcluster : ∀ y ∈ d.nodes, IsCluster d.Apart d.k.val (d.past y)) : d.blueSet x = d.past x := by
  refine h.chain_induction (P := fun x => d.blueSet x = d.past x) ?_ ?_ hx
  · rw [h.blueSet_genesis, eq_comm, Finset.eq_empty_iff_forall_notMem]
    exact fun a ha => h.not_anc_genesis a (h.exact.mem_past.1 ha)
  · intro y sp hy ih
    have hall := hcluster y (h.selectedParent_mem hy).2
    rw [h.past_eq hy, ← ih] at hall ⊢
    rw [h.blueSet_step hy]
    exact absorbAll_of_isCluster hall

/-- Genesis merges nothing. -/
theorem bounded_genesis (h : d.WellFormed) : d.Bounded d.genesis := by
  have hpast : d.past d.genesis = ∅ := by
    rw [Finset.eq_empty_iff_forall_notMem]
    exact fun a ha => h.not_anc_genesis a (h.exact.mem_past.1 ha)
  refine ⟨?_, fun _ b hb => ?_⟩
  · rw [h.blueSet_genesis, workOf, Finset.sum_empty]
    exact Nat.two_pow_pos 128
  · rw [hpast] at hb
    exact absurd hb (Finset.notMem_empty b)

/-- Bounded blocks are coloured without a counter that wraps. -/
theorem fits (h : d.WellFormed) (hall : ∀ x ∈ d.nodes, d.Bounded x) :
    d.Fits ∧ (d.k.val < 65535 ∨ ∀ x ∈ d.nodes, d.blueSet x = d.past x) := by
  by_cases hk : d.k.val < 65535
  · exact ⟨.inl hk, .inl hk⟩
  · have hcluster : ∀ y ∈ d.nodes, IsCluster d.Apart d.k.val (d.past y) := fun y hy =>
      (h.isCluster_past_iff hk).2 ((hall y hy).anticone (max_iff.2 hk))
    have hfull : ∀ x ∈ d.nodes, d.blueSet x = d.past x :=
      fun x hx => h.blueSet_eq_past hx hcluster
    refine ⟨.inr fun x hx c hc => ?_, .inr hfull⟩
    rw [hfull x hx, h.exact.mem_past]
    cases hsp : d.selectedParentOf x with
    | none =>
        rw [h.mem_mergesetOrder_iff hx, DagView.mergeset, hsp] at hc
        exact absurd hc (Finset.notMem_empty c)
    | some sp => exact (h.anc_iff hsp c).2 (.inr (.inr hc))

/-- The condition on a block that is stored is the one on its insert. -/
theorem bounded_iff (h : d.WellFormed) (hx : d.selectedParentOf x = some sp)
    (hfull : d.k.val < 65535 ∨ d.blueSet sp = d.past sp) :
    d.Bounded x ↔ d.FitsNext sp (d.parentsOf x) := by
  rw [FitsNext, ← h.blueSet_eq_nextBlues hx]
  by_cases hk : d.k.val < 65535
  · simp only [hk, true_or, true_and]
    exact ⟨fun hb => hb.work, fun hw => ⟨hw, fun hmax => absurd hk (max_iff.1 hmax)⟩⟩
  · have hjoins := h.joins_iff hx (hfull.resolve_left hk)
    rw [← h.blueSet_eq_nextBlues hx, h.isCluster_past_iff hk] at hjoins
    simp only [hk, false_or, hjoins]
    exact ⟨fun hb => ⟨hb.anticone (max_iff.2 hk), hb.work⟩, fun hb => ⟨hb.2, fun _ => hb.1⟩⟩

end WellFormed

/-! ## What a larger DAG changes -/

section Agree

variable [Crypto] (h : AgreeOn {x | x ∈ d.nodes} d d') (hd : d.WellFormed) (hd' : d'.WellFormed)

include h

omit [Crypto] in
theorem AgreeOn.apart_iff {a b : BlockId} (ha : a ∈ d.nodes) (hb : b ∈ d.nodes) :
    d.Apart a b ↔ d'.Apart a b := by
  unfold Apart
  rw [h.anc_iff ha, h.anc_iff hb]

omit [Crypto] in
theorem AgreeOn.workOf_eq {T : Finset BlockId} (hT : ∀ b ∈ T, b ∈ d.nodes) :
    d.workOf T = d'.workOf T := by
  apply Finset.sum_congr rfl
  intro b hb
  rw [(h.sameCore (hT b hb)).block]

include hd hd'

theorem AgreeOn.past_eq {x : BlockId} (hx : x ∈ d.nodes) : d.past x = d'.past x := by
  ext a
  rw [hd.exact.mem_past, hd'.exact.mem_past]
  exact h.anc_iff hx

/-- The blue set a block over stored parents is to get. -/
theorem AgreeOn.nextBlues_eq {parents : List BlockId} (hsp : sp ∈ d.nodes)
    (hparents : ∀ p ∈ parents, p ∈ d.nodes) (hblue : d.blueSet sp = d'.blueSet sp) :
    d.nextBlues sp parents = d'.nextBlues sp parents := by
  have hmerge : d.mergesetOrdered sp parents = d'.mergesetOrdered sp parents :=
    h.mergesetOrdered_eq hd.exact hd'.exact hsp hparents fun _ => Iff.rfl
  have hcand := hd.candidates hsp hparents
  rw [nextBlues, nextBlues, ← hmerge, ← hblue, ← h.k_eq]
  exact absorbAll_congr (T := {x | x ∈ d.nodes}) (fun a ha b hb => h.apart_iff ha hb)
    hcand.cluster_mem hcand.mem

theorem AgreeOn.blueSet_eq {x : BlockId} (hx : x ∈ d.nodes) : d.blueSet x = d'.blueSet x := by
  have hsame : ∀ y ∈ d.nodes, d'.selectedParentOf y = d.selectedParentOf y :=
    fun y hy => (h.selectedParentOf_eq hy).symm
  refine hd.chain_induction (P := fun x => d.blueSet x = d'.blueSet x) ?_ ?_ hx
  · have hnone : d'.selectedParentOf d.genesis = none :=
      (hsame _ hd.genesis_mem).trans hd.tree.root_none
    have hgenesis : d.genesis = d'.genesis := by
      by_contra hne
      obtain ⟨sp, hsp, _⟩ := hd'.exists_selectedParent (h.symm.mem hd.genesis_mem) hne
      rw [hnone] at hsp
      cases hsp
    rw [hd.blueSet_genesis, hgenesis, hd'.blueSet_genesis]
  · intro y sp hy ih
    obtain ⟨hsp, hmem⟩ := hd.selectedParent_mem hy
    have hparents : d'.parentsOf y = d.parentsOf y := by
      rw [parentsOf, parentsOf, (h.sameCore hmem).block]
    rw [hd.blueSet_eq_nextBlues hy, hd'.blueSet_eq_nextBlues ((hsame y hmem).trans hy), hparents]
    exact h.nextBlues_eq hd hd' hsp (fun p hp => hd.parents_mem p y (mem_parentsOf.1 hp)) ih

/-- A block's condition is settled when it is inserted. -/
theorem AgreeOn.bounded_iff {x : BlockId} (hx : x ∈ d.nodes) : d.Bounded x ↔ d'.Bounded x := by
  have hblue := h.blueSet_eq hd hd' hx
  have hwork : d.workOf (d.blueSet x) = d'.workOf (d'.blueSet x) := by
    rw [← hblue]
    exact h.workOf_eq fun b hb => hd.exact.mem_of_anc (hd.anc_of_mem_blueSet hx hb)
  have hpast := h.past_eq hd hd' hx
  have hcluster : IsCluster d.Apart d.k.val (d.past x) ↔
      IsCluster d'.Apart d'.k.val (d'.past x) := by
    have hmem : ∀ b ∈ d.past x, b ∈ d.nodes :=
      fun b hb => hd.exact.mem_of_anc (hd.exact.mem_past.1 hb)
    rw [← hpast, ← h.k_eq]
    exact isCluster_congr fun a ha b hb => h.apart_iff (hmem a ha) (hmem b hb)
  have hanticone : (d.k = Word.maxValue 16 →
      ∀ b ∈ d.past x, (d.past x ∩ d.anticone b).card ≤ 65535) ↔ (d'.k = Word.maxValue 16 →
        ∀ b ∈ d'.past x, (d'.past x ∩ d'.anticone b).card ≤ 65535) := by
    rw [← h.k_eq]
    apply imp_congr_right
    intro hmax
    have hk := max_iff.1 hmax
    rw [← hd.isCluster_past_iff hk, ← hd'.isCluster_past_iff (h.k_eq ▸ hk)]
    exact hcluster
  constructor
  · exact fun hb => ⟨hwork ▸ hb.work, hanticone.1 hb.anticone⟩
  · exact fun hb => ⟨hwork ▸ hb.work, hanticone.2 hb.anticone⟩

end Agree

/-! ## Totals -/

/-- The chain key with unbounded totals. -/
def trueKey (d : DagView) (x : BlockId) : Nat ×ₗ Nat ×ₗ BlockId :=
  toLex (d.workOf (d.blues x), toLex ((d.blues x).card, x))

/-- The recorded totals are those of the blue sets, and so is their order: chain keys compare as
the true totals do. -/
structure TrueTotals (d : DagView) : Prop where
  blue_work : ∀ x ∈ d.nodes, (d.node x).ghostdag.blueWork.val = d.workOf (d.blues x)
  chain_key : ∀ x ∈ d.nodes, ∀ y ∈ d.nodes, d.chainKey x < d.chainKey y ↔ d.trueKey x < d.trueKey y

theorem WellFormed.trueTotals [Crypto] (h : d.WellFormed) (hall : ∀ x ∈ d.nodes, d.Bounded x) :
    d.TrueTotals := by
  have hfit := (h.fits hall).1
  have hwork : ∀ x ∈ d.nodes, (d.node x).ghostdag.blueWork.val = d.workOf (d.blues x) := by
    intro x hx
    rw [h.blues_eq hfit hx]
    exact blueWork_eq h hfit (fun y hy => (hall y hy).work) hx
  have hscore : ∀ x ∈ d.nodes, (d.node x).ghostdag.blueScore = (d.blues x).card := by
    intro x hx
    rw [h.blues_eq hfit hx, h.card_blueSet hfit hx]
  refine ⟨hwork, fun x hx y hy => ?_⟩
  simp only [chainKey, trueKey, Prod.Lex.toLex_lt_toLex, hscore x hx, hscore y hy, ← hwork x hx,
    ← hwork y hy, Fin.lt_def, Fin.ext_iff]

end DagView

/-! ## Inserts -/

namespace Dag

variable [Crypto] {d d' : Dag} {block : Block} {sp : BlockId} {g : GhostdagData} {ord : HashOrder}

/-- An insert that a release build accepts ends in the same DAG with overflow
checks exactly when the block fits. -/
theorem insertChecked_eq_ok (h : d.WellFormed) (hall : ∀ x ∈ d.nodes, d.Bounded x)
    (hadmits : Admits ord d block sp g) {r : BlockId × Dag} :
    d.insertChecked ord block = .ok r ↔
      r = (block.id, d.wire block sp g) ∧ d.FitsNext sp block.parents := by
  have hfit := (h.fits hall).1
  have hsel := hadmits.selectParent_eq
  have hspMem := hadmits.parents_mem sp hadmits.selectedParent_mem
  have hdata := fun g' => DagView.computeGhostdagChecked_eq_ok (g := g') ord h hfit
    (fun x hx => (hall x hx).work) hadmits.parents_mem hsel
  have hpastSize : (d.node sp).pastSize ≤ d.len := by
    rw [h.past_size sp _ (DagView.lookup_node hspMem)]
    apply Finset.card_le_card
    intro a ha
    exact Finmap.mem_keys.2 (h.exact.mem_of_anc (h.exact.mem_past.1 ha))
  have hmerged : g.mergesetBlues.length + g.mergesetReds.length ≤ d.len := by
    have hcand := h.candidates hspMem hadmits.parents_mem
    have hperm := DagView.computeGhostdag_mergeset hadmits.data hadmits.selected
    rw [← List.length_append, hperm.length_eq, ← List.toFinset_card_of_nodup hcand.nodup]
    apply Finset.card_le_card
    intro b hb
    exact Finmap.mem_keys.2 (hcand.mem b (List.mem_toFinset.1 hb))
  have hlen : d.len < 2 ^ 63 - 1 := h.len_lt
  have hsize : ∃ s, plus (Word.cast 64 g.mergesetBlues.length)
      (Word.cast 64 g.mergesetReds.length) = .ok s ∧ ∃ above, plus (Word.cast 64
        (d.node sp).pastSize) 1 = .ok above ∧ ∃ total, plus above s = .ok total := by
    have hone : (1 : Word 64).val = 1 := rfl
    simp only [plus_eq_ok, exists_and_right, exists_eq, true_and, and_assoc, exists_eq_left]
    rw [Word.val_add_of_lt, Word.val_add_of_lt] <;>
      simp only [Word.cast_of_lt (show g.mergesetBlues.length < 2 ^ 64 by omega),
        Word.cast_of_lt (show g.mergesetReds.length < 2 ^ 64 by omega),
        Word.cast_of_lt (show (d.node sp).pastSize < 2 ^ 64 by omega), hone]
    all_goals omega
  obtain ⟨s, hs, above, habove, total, htotal⟩ := hsize
  unfold insertChecked
  simp only [checkStructure_ok_iff.2 ⟨hadmits.fresh, hadmits.parents_ne, hadmits.parents_mem⟩,
    hadmits.valid, Outcome.bind_eq_ok, hdata, hadmits.data, Option.some.injEq, and_assoc]
  rw [exists_eq_left']
  simp only [hadmits.selected, Option.getD_some, hadmits.policy, Outcome.bind_eq_ok, hs, habove,
    htotal, Except.ok.injEq, exists_eq_left', if_neg (not_le.2 hadmits.room)]
  rw [and_comm, eq_comm]

/-- The condition on an insert is the one on the block once it is stored. -/
theorem bounded_wire_iff (h : d.WellFormed) (hall : ∀ x ∈ d.nodes, d.Bounded x)
    (hadmits : Admits ord d block sp g) :
    (d.wire block sp g).Bounded block.id ↔ d.FitsNext sp block.parents := by
  have h' := wellFormed_wire hadmits h
  have hagree := agreeOn_wire hadmits h.parents_mem
  have hlookup : (d.wire block sp g).nodes.lookup block.id = some ⟨block, (d.node sp).pastSize +
      1 + (g.mergesetBlues.length + g.mergesetReds.length), ∅, g⟩ := lookup_wire_self
  have hspMem : sp ∈ d.nodes := hadmits.parents_mem sp hadmits.selectedParent_mem
  have hsp : (d.wire block sp g).selectedParentOf block.id = some sp :=
    (DagView.selectedParentOf_eq hlookup).trans hadmits.selected
  have hparents : (d.wire block sp g).parentsOf block.id = block.parents := by
    rw [DagView.parentsOf, DagView.node_of_lookup hlookup]
  have hblue := hagree.blueSet_eq h h' hspMem
  have hfull : (d.wire block sp g).k.val < 65535 ∨
      (d.wire block sp g).blueSet sp = (d.wire block sp g).past sp := by
    rw [← hblue, ← hagree.past_eq h h' hspMem]
    exact (h.fits hall).2.imp_right fun hfull => hfull sp hspMem
  have hnext := hagree.nextBlues_eq h h' hspMem hadmits.parents_mem hblue
  have hmem : ∀ b ∈ d.nextBlues sp block.parents, b ∈ d.nodes := fun b hb =>
    (h.candidates hspMem hadmits.parents_mem).absorbAll_mem hb
  rw [h'.bounded_iff hsp hfull, hparents, DagView.FitsNext, DagView.FitsNext, ← hnext,
    ← hagree.workOf_eq hmem, ← hagree.mergesetOrdered_eq h.exact h'.exact hspMem
      hadmits.parents_mem fun _ => Iff.rfl]
  rfl

/-- Inserts in turn extend a run. -/
theorem Run.insertEach {d₀ : Dag} {before : List Block} {steps : List (HashOrder × Block)}
    (h : Run d₀ before d) (hinsert : insertEach Dag.insert d steps = some d') :
    Run d₀ (before ++ steps.map Prod.snd) d' := by
  induction steps generalizing d before with
  | nil =>
      cases hinsert
      rw [List.map_nil, List.append_nil]
      exact h
  | cons step steps ih =>
      obtain ⟨ord, block⟩ := step
      rw [Dag.insertEach] at hinsert
      split at hinsert
      · rename_i hblock
        rw [List.map_cons, List.append_cons]
        exact ih (h.insert hblock) hinsert
      · cases hinsert

/-- From bounded blocks on, the checked build follows the release build exactly
while every new block is bounded. -/
theorem insertEach_checked_iff (h : d.WellFormed) (hall : ∀ x ∈ d.nodes, d.Bounded x)
    (steps : List (HashOrder × Block)) (hrun : insertEach Dag.insert d steps = some d') :
    insertEach insertChecked d steps = some d' ↔ ∀ x ∈ d'.nodes, d'.Bounded x := by
  induction steps generalizing d with
  | nil =>
      cases hrun
      exact ⟨fun _ => hall, fun _ => rfl⟩
  | cons step steps ih =>
      obtain ⟨ord, block⟩ := step
      rw [insertEach] at hrun ⊢
      cases hinsert : d.insert ord block with
      | error e =>
          rw [hinsert] at hrun
          cases hrun
      | ok r =>
          rw [hinsert] at hrun
          obtain ⟨sp, g, hadmits, rfl⟩ := insert_eq_ok_iff.1 hinsert
          have hmid := wellFormed_wire hadmits h
          have hagree := agreeOn_wire hadmits h.parents_mem
          have hnew := bounded_wire_iff h hall hadmits
          by_cases hfits : d.FitsNext sp block.parents
          · -- the block is bounded, and so are all blocks behind it
            rw [(insertChecked_eq_ok h hall hadmits).2 ⟨rfl, hfits⟩]
            apply ih hmid _ hrun
            intro x hx
            rcases (mem_wire hadmits).1 hx with rfl | hx
            · exact hnew.2 hfits
            · exact (hagree.bounded_iff h hmid hx).1 (hall x hx)
          · -- the checked build panics, and the block stays unbounded
            have hrest : Run (d.wire block sp g) _ d' := Run.start.insertEach hrun
            have hkeep := (hrest.agreeOn hmid).bounded_iff hmid (hrest.wellFormed hmid)
              ((mem_wire hadmits).2 (.inl rfl))
            constructor
            · intro hchecked
              split at hchecked
              · rename_i hok
                exact absurd ((insertChecked_eq_ok h hall hadmits).1 hok).2 hfits
              · cases hchecked
            · intro hbounded
              have hmem := ((hrest.agreeOn hmid).symm).mem ((mem_wire hadmits).2 (.inl rfl))
              exact absurd (hnew.1 (hkeep.2 (hbounded block.id hmem))) hfits

/-- A DAG that holds only genesis, with no difficulty and no proof of work, and any
validator. -/
def Seeded (d : Dag) : Prop :=
  ∃ ord k work timestampMs nonce payload validator,
    d = { Dag.new ord k (Block.genesis work timestampMs nonce payload) with
      validator := validator }

theorem Seeded.bounded (hd : Seeded d) : d.WellFormed ∧ ∀ x ∈ d.nodes, d.Bounded x := by
  obtain ⟨ord, k, work, timestampMs, nonce, payload, validator, rfl⟩ := hd
  have h := wellFormed_policy (DagView.wellFormed_new ord k
    (Block.genesis work timestampMs nonce payload) rfl) validator none false
  refine ⟨h, fun x hx => ?_⟩
  rw [Finmap.mem_singleton x _ _ |>.1 hx]
  exact h.bounded_genesis

/-- In a run of accepted inserts no addition overflows, and every recorded total is
the true one, if and only if every stored block is bounded: the works of its blue
set fit 128 bits and, at the largest `k`, no block of its past has more than
`65535` others of that past in its anticone. -/
theorem adds_exactly_iff {start : Dag} (hstart : Seeded start) {steps : List (HashOrder × Block)}
    (h : insertEach insert start steps = some d) :
    (insertEach insertChecked start steps = some d ∧ d.TrueTotals) ↔
      ∀ x ∈ d.nodes, d.Bounded x := by
  obtain ⟨hwf, hall⟩ := hstart.bounded
  have hd := (Run.start.insertEach h).wellFormed hwf
  have hchecked := insertEach_checked_iff hwf hall steps h
  constructor
  · exact fun hboth => hchecked.1 hboth.1
  · exact fun hbounded => ⟨hchecked.2 hbounded, hd.trueTotals hbounded⟩

end Dag

namespace Dag

open scoped Reference

/-- A merge of two blocks of unit work adds nothing that overflows. -/
theorem adds_exactly_iff_merge : ∃ d : Dag,
    insertEach insert (Dag.new .sorted 1 Reference.genesis)
      [(.sorted, Reference.left), (.sorted, Reference.right), (.sorted, Reference.merge)] = some d ∧
    insertEach insertChecked (Dag.new .sorted 1 Reference.genesis)
      [(.sorted, Reference.left), (.sorted, Reference.right), (.sorted, Reference.merge)] = some d ∧
    d.TrueTotals := by
  have hplay : (insertEach insert (Dag.new .sorted 1 Reference.genesis)
      [(.sorted, Reference.left), (.sorted, Reference.right), (.sorted, Reference.merge)]).map
        (fun d => decide (d.k.val < 65535 ∧
          ∑ x ∈ d.nodes.keys, (d.node x).block.work.val < 2 ^ 128)) = some true := by
    decide +kernel
  obtain ⟨d, hd, hdec⟩ := Option.map_eq_some_iff.1 hplay
  obtain ⟨hk, hwork⟩ := of_decide_eq_true hdec
  have hstart : Seeded (Dag.new .sorted 1 Reference.genesis) :=
    ⟨.sorted, 1, 1, 0, 0, Reference.noTxs.payload, none, rfl⟩
  have hwf := (Run.start.insertEach hd).wellFormed hstart.bounded.1
  refine ⟨d, hd, (adds_exactly_iff hstart hd).2 fun x hx => ?_⟩
  refine ⟨lt_of_le_of_lt ?_ hwork, fun hmax => absurd hk (DagView.max_iff.1 hmax)⟩
  apply Finset.sum_le_sum_of_subset
  intro b hb
  exact Finmap.mem_keys.2 (hwf.exact.mem_of_anc (hwf.anc_of_mem_blueSet hx hb))

/-- On a block of the greatest work, the next one's work overflows: a build with
overflow checks panics, and a release build ranks the block below its parent. -/
theorem heaviest_overflows : ∃ d d' : Dag,
    insertEach insert (Dag.new .sorted 1 Reference.genesis) [(.sorted, heaviest)] = some d ∧
    d.insertChecked .sorted onHeaviest = .error (.panic "attempt to add with overflow") ∧
    d.insert .sorted onHeaviest = .ok (onHeaviest.id, d') ∧
    (d'.node onHeaviest.id).ghostdag.blueWork = 0 ∧
    d'.workOf (d'.blues onHeaviest.id) = 2 ^ 128 ∧
    d'.chainKey onHeaviest.id < d'.chainKey heaviest.id := by
  have hplay : (insertEach insert (Dag.new .sorted 1 Reference.genesis)
      [(.sorted, heaviest)]).map (fun d =>
        (match d.insertChecked .sorted onHeaviest with
          | .error (.panic site) => decide (site = "attempt to add with overflow")
          | _ => false) &&
        match d.insert .sorted onHeaviest with
          | .ok (id, d') => decide (id = onHeaviest.id ∧
              (d'.node onHeaviest.id).ghostdag.blueWork = 0 ∧
              d'.workOf (d'.blues onHeaviest.id) = 2 ^ 128 ∧
              d'.chainKey onHeaviest.id < d'.chainKey heaviest.id)
          | .error _ => false) = some true := by
    decide +kernel
  obtain ⟨d, hd, hboth⟩ := Option.map_eq_some_iff.1 hplay
  rw [Bool.and_eq_true] at hboth
  obtain ⟨hchecked, hinsert⟩ := hboth
  split at hchecked
  · rename_i site hpanic
    split at hinsert
    · rename_i id d' hok
      obtain ⟨rfl, hwork, hsum, hkey⟩ := of_decide_eq_true hinsert
      rw [of_decide_eq_true hchecked] at hpanic
      exact ⟨d, d', hd, hpanic, hok, hwork, hsum, hkey⟩
    · cases hinsert
  · cases hchecked

end Dag

end Kovanica
