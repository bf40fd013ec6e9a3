import Kovanica.Dag.Colouring

/-!
# The invariant of a DAG

`WellFormed` collects what holds of every DAG built by inserts: the oracle
tracks ancestry, every stored entry is what its past determines, the tips are
the blocks without children.  `Admits` is the exact condition under which an
insert succeeds, and `WellFormed.wire` is the preservation step.

## Main results

* `insert_eq`, `insert_panic`, `insert_ne_duplicate`: when an insert succeeds and how else it
  can end.
* `exists_data`: a block with parents gets its consensus data, and in it a selected parent.
* `anc_wire_iff`, `agreeOn_wire`: a new block is above its past and below nothing, and what was
  stored stays.
-/

namespace Kovanica

open Lib Relation

namespace DagView

/-- The invariant of the stored data.  It is kept by every accepted insert and by every change of
the policies, so it holds of every reachable DAG. -/
structure WellFormed [Crypto] (d : DagView) : Prop where
  genesis_node : ∃ n, d.nodes.lookup d.genesis = some n ∧ n.block.parents = [] ∧
    n.pastSize = 0 ∧ n.ghostdag = .genesis
  id_eq : ∀ x n, d.nodes.lookup x = some n → n.block.id = x
  parents_mem : ∀ x y, d.Edge x y → x ∈ d.nodes
  parents_ne : ∀ x n, d.nodes.lookup x = some n → x ≠ d.genesis → n.block.parents ≠ []
  acyclic : ∀ x, ¬ d.Anc x x
  tracks : Reachability.Tracks d.selectedParentOf d.nodes.keys d.genesis d.Anc d.reach
  past_size : ∀ x n, d.nodes.lookup x = some n → n.pastSize = (d.past x).card
  ghostdag_eq : ∀ ord x n, d.nodes.lookup x = some n → x ≠ d.genesis →
    d.computeGhostdag ord n.block.parents = some n.ghostdag
  blue_past : ∀ x n, d.nodes.lookup x = some n → ∀ b ∈ n.ghostdag.blueAnticoneSizes, d.Anc b x
  tips_iff : ∀ x, x ∈ d.tips ↔ x ∈ d.nodes ∧ ∀ y, ¬ d.Edge x y
  len_lt : d.len < mapCapacity

namespace WellFormed

variable [Crypto] {d : DagView}

theorem exact (h : d.WellFormed) : d.Exact where
  parents_mem := h.parents_mem
  isAncestor_iff := fun _ ha _ hb => h.tracks.isAncestor_iff h.acyclic
    (fun _ _ _ => TransGen.trans) (Finmap.mem_keys.2 ha) (Finmap.mem_keys.2 hb)

theorem genesis_mem (h : d.WellFormed) : d.genesis ∈ d.nodes :=
  let ⟨_, hn, _⟩ := h.genesis_node
  Finmap.mem_of_lookup_eq_some hn

end WellFormed

/-! ## Selected parents -/

variable {d : DagView}

theorem computeGhostdag_selectedParent {ord : HashOrder} {parents : List BlockId}
    {g : GhostdagData} (h : d.computeGhostdag ord parents = some g) :
    g.selectedParent = d.selectParent parents := by
  rw [computeGhostdag, Option.map_eq_some_iff] at h
  obtain ⟨sp, hsp, rfl⟩ := h
  exact hsp.symm

/-- The blues and reds of a block are its mergeset. -/
theorem computeGhostdag_mergeset {ord : HashOrder} {parents : List BlockId} {g : GhostdagData}
    {sp : BlockId} (h : d.computeGhostdag ord parents = some g) (hsp : g.selectedParent = some sp) :
    (g.mergesetBlues ++ g.mergesetReds).Perm (d.mergesetOrdered sp parents) := by
  have hsel := computeGhostdag_selectedParent h
  rw [hsp] at hsel
  rw [computeGhostdag, ← hsel, Option.map_some, Option.some.injEq] at h
  rw [← h]
  exact (foldl_colourStep_spec ord d (d.mergesetOrdered sp parents) _).1

/-- The blue set of a block lies in its selected parent's, with the selected
parent and the mergeset. -/
theorem computeGhostdag_blue {ord : HashOrder} {parents : List BlockId} {g : GhostdagData}
    {sp : BlockId} (h : d.computeGhostdag ord parents = some g) (hsp : g.selectedParent = some sp)
    {b : BlockId} (hb : b ∈ g.blueAnticoneSizes) :
    b = sp ∨ b ∈ (d.node sp).ghostdag.blueAnticoneSizes ∨ b ∈ d.mergesetOrdered sp parents := by
  have hsel := computeGhostdag_selectedParent h
  rw [hsp] at hsel
  rw [computeGhostdag, ← hsel, Option.map_some, Option.some.injEq] at h
  rw [← h] at hb
  rcases (foldl_colourStep_spec ord d (d.mergesetOrdered sp parents) _).2 b hb with hold | hnew
  · rcases Finmap.mem_insert.1 hold with heq | hold
    · exact .inl heq
    · exact .inr (.inl hold)
  · exact .inr (.inr hnew)

end DagView

namespace Dag

variable [Crypto] {d : Dag} {block : Block} {sp : BlockId} {g : GhostdagData} {ord : HashOrder}

/-! ## When an insert succeeds -/

theorem checkStructure_ok_iff {d : DagView} : d.checkStructure block = .ok () ↔
    block.id ∉ d.nodes ∧ block.parents ≠ [] ∧ ∀ p ∈ block.parents, p ∈ d.nodes := by
  unfold DagView.checkStructure
  by_cases hdup : block.id ∈ d.nodes
  · simp [hdup]
  · rw [if_neg hdup]
    by_cases hnil : block.parents = []
    · simp [hnil]
    · rw [if_neg (by simpa using hnil)]
      cases hfind : block.parents.find? fun p => !d.contains p with
      | none =>
          have hall := List.find?_eq_none.1 hfind
          simp only [DagView.contains, Bool.not_eq_true', decide_eq_false_iff_not, not_not]
            at hall
          exact ⟨fun _ => ⟨hdup, hnil, hall⟩, fun _ => rfl⟩
      | some p =>
          have hp := List.find?_some hfind
          simp only [DagView.contains, Bool.not_eq_true', decide_eq_false_iff_not] at hp
          constructor
          · exact fun h => by cases h
          · exact fun h => absurd (h.2.2 p (List.mem_of_find?_eq_some hfind)) hp

/-- The checks `insert` makes, and the data it derives on the way.  An insert succeeds exactly if
there are a selected parent and consensus data with this. -/
structure Admits (ord : HashOrder) (d : Dag) (block : Block) (sp : BlockId) (g : GhostdagData) :
    Prop where
  fresh : block.id ∉ d.nodes
  parents_ne : block.parents ≠ []
  parents_mem : ∀ p ∈ block.parents, p ∈ d.nodes
  valid : d.runValidator block = .ok ()
  data : d.computeGhostdag ord block.parents = some g
  selected : g.selectedParent = some sp
  policy : d.checkPolicy block sp = .ok ()
  room : d.len + 1 < mapCapacity

/-- The selected parent is the heaviest one. -/
theorem Admits.selectParent_eq (h : Admits ord d block sp g) :
    d.selectParent block.parents = some sp :=
  (DagView.computeGhostdag_selectedParent h.data).symm.trans h.selected

theorem Admits.selectedParent_mem (h : Admits ord d block sp g) : sp ∈ block.parents :=
  maxByKey_mem h.selectParent_eq

/-- The outcome of an insert whose parents are stored. -/
theorem insert_eq (hstruct : d.checkStructure block = .ok ())
    (hdata : d.computeGhostdag ord block.parents = some g) (hsp : g.selectedParent = some sp) :
    d.insert ord block =
      match d.runValidator block with
      | .error e => .error (.error e)
      | .ok () =>
          match d.checkPolicy block sp with
          | .error e => .error (.error e)
          | .ok () =>
              if mapCapacity ≤ d.len + 1 then .error (.panic "capacity overflow")
              else .ok (block.id, d.wire block sp g) := by
  cases hvalid : d.runValidator block with
  | error e => simp only [insert, hstruct, hvalid]
  | ok _ =>
      cases hpolicy : d.checkPolicy block sp with
      | error e => simp only [insert, hstruct, hdata, hsp, hvalid, hpolicy, Option.getD_some]
      | ok _ => simp only [insert, hstruct, hdata, hsp, hvalid, hpolicy, Option.getD_some]

omit [Crypto] in
/-- A block with parents gets consensus data with a selected parent. -/
theorem exists_data (ord : HashOrder) (hne : block.parents ≠ []) : ∃ sp g,
    d.computeGhostdag ord block.parents = some g ∧ g.selectedParent = some sp ∧
      d.selectParent block.parents = some sp := by
  obtain ⟨sp, hsp⟩ := exists_maxByKey d.chainKey hne
  have hsel : d.selectParent block.parents = some sp := hsp
  rw [DagView.computeGhostdag, hsel, Option.map_some]
  exact ⟨sp, _, rfl, rfl, rfl⟩

/-- Once the structure is right the only panic left is a full node map. -/
theorem insert_panic {site : String} (hstruct : d.checkStructure block = .ok ())
    (h : d.insert ord block = .error (.panic site)) :
    site = "capacity overflow" ∧ mapCapacity ≤ d.len + 1 := by
  obtain ⟨sp, g, hdata, hsp, _⟩ := exists_data ord (checkStructure_ok_iff.1 hstruct).2.1
  rw [insert_eq hstruct hdata hsp] at h
  split at h
  · cases h
  split at h
  · cases h
  split at h
  · rename_i hroom
    simp only [Except.error.injEq, Fault.panic.injEq] at h
    exact ⟨h.symm, hroom⟩
  · cases h

/-- Only a stored block is reported as a duplicate. -/
theorem mem_of_checkStructure {d : DagView} {id : BlockId}
    (h : d.checkStructure block = .error (.duplicateBlock id)) : block.id ∈ d.nodes := by
  unfold DagView.checkStructure at h
  split at h
  · assumption
  split at h
  · cases h
  split at h
  · cases h
  · cases h

/-- Once the structure is right no block is reported as a duplicate. -/
theorem insert_ne_duplicate (hstruct : d.checkStructure block = .ok ()) (id : BlockId) :
    d.insert ord block ≠ .error (.error (.duplicateBlock id)) := by
  obtain ⟨sp, g, hdata, hsp, _⟩ := exists_data ord (checkStructure_ok_iff.1 hstruct).2.1
  have hvalid : d.runValidator block ≠ .error (.duplicateBlock id) := by
    unfold runValidator
    split
    · simp
    · split <;> simp
  have hpolicy : d.checkPolicy block sp ≠ .error (.duplicateBlock id) := by
    unfold checkPolicy DagView.checkDifficulty
    intro h
    simp only at h
    split at h
    · rename_i e he
      cases h
      split at he
      · cases he
      split at he
      · cases he
      · split at he <;> cases he
    · split at h <;> cases h
  rw [insert_eq hstruct hdata hsp]
  intro h
  split at h
  · rename_i e he
    cases h
    exact hvalid he
  split at h
  · rename_i e he
    cases h
    exact hpolicy he
  · split at h <;> cases h

theorem insert_eq_ok_iff {r : BlockId × Dag} : d.insert ord block = .ok r ↔
    ∃ sp g, Admits ord d block sp g ∧ r = (block.id, d.wire block sp g) := by
  constructor
  · intro h
    cases hstruct : d.checkStructure block with
    | error e =>
        unfold insert at h
        rw [hstruct] at h
        cases h
    | ok u =>
        obtain ⟨hfresh, hne, hmem⟩ := checkStructure_ok_iff.1 hstruct
        obtain ⟨sp, g, hdata, hsp, _⟩ := exists_data ord hne
        rw [insert_eq hstruct hdata hsp] at h
        split at h
        · cases h
        rename_i hvalid
        split at h
        · cases h
        rename_i hpolicy
        split at h
        · cases h
        rename_i hroom
        exact ⟨sp, g, ⟨hfresh, hne, hmem, hvalid, hdata, hsp, hpolicy, Nat.lt_of_not_le hroom⟩,
          (Except.ok.inj h).symm⟩
  · rintro ⟨sp, g, h, rfl⟩
    have hstruct := checkStructure_ok_iff.2 ⟨h.fresh, h.parents_ne, h.parents_mem⟩
    rw [insert_eq hstruct h.data h.selected, h.valid]
    simp only [h.policy, if_neg (Nat.not_le_of_lt h.room)]

/-! ## What wiring a block changes -/

omit [Crypto] in
private theorem wireParents_spec (id : BlockId) (parents : List BlockId) (nodes : Dag.Nodes)
    (tips : Finset BlockId) (hmem : ∀ p ∈ parents, p ∈ nodes) :
    (∀ x, ((wireParents id parents nodes tips).1.lookup x).map
        (fun n => (n.block, n.pastSize, n.ghostdag)) =
      (nodes.lookup x).map fun n => (n.block, n.pastSize, n.ghostdag)) ∧
    ∀ x, x ∈ (wireParents id parents nodes tips).2 ↔ x ∈ tips ∧ x ∉ parents := by
  induction parents generalizing nodes tips with
  | nil => simp [wireParents]
  | cons p parents ih =>
      have hp := hmem p (List.mem_cons_self ..)
      have hstep : wireParents id (p :: parents) nodes tips =
          wireParents id parents
            (nodes.insert p { valueAt nodes p with
              children := Insert.insert id (valueAt nodes p).children })
            (tips.erase p) := rfl
      obtain ⟨hcore, htips⟩ := ih
        (nodes.insert p { valueAt nodes p with
          children := Insert.insert id (valueAt nodes p).children })
        (tips.erase p)
        (fun q hq => Finmap.mem_insert.2 (.inr (hmem q (List.mem_cons_of_mem _ hq))))
      rw [hstep]
      constructor
      · intro x
        rw [hcore, lookup_insert_eq]
        by_cases hx : x = p
        · rw [if_pos hx, hx, lookup_eq_some_valueAt hp]
          rfl
        · rw [if_neg hx]
      · intro x
        rw [htips, Finset.mem_erase, List.mem_cons, not_or]
        tauto

theorem lookup_wire_self :
    (d.wire block sp g).nodes.lookup block.id = some ⟨block, (d.node sp).pastSize + 1 +
      (g.mergesetBlues.length + g.mergesetReds.length), ∅, g⟩ :=
  Finmap.lookup_insert _

variable (h : Admits ord d block sp g)

include h

/-- The old entries keep everything but their children. -/
theorem lookup_wire_core {x : BlockId} (hx : x ≠ block.id) :
    ((d.wire block sp g).nodes.lookup x).map (fun n => (n.block, n.pastSize, n.ghostdag)) =
      (d.nodes.lookup x).map fun n => (n.block, n.pastSize, n.ghostdag) := by
  have heq : (d.wire block sp g).nodes.lookup x =
      (wireParents block.id block.parents d.nodes d.tips).1.lookup x :=
    Finmap.lookup_insert_of_ne _ hx
  rw [heq]
  exact (wireParents_spec _ _ _ _ h.parents_mem).1 x

theorem mem_wire_tips {x : BlockId} :
    x ∈ (d.wire block sp g).tips ↔ x = block.id ∨ (x ∈ d.tips ∧ x ∉ block.parents) := by
  have heq : (d.wire block sp g).tips =
      Insert.insert block.id (wireParents block.id block.parents d.nodes d.tips).2 := rfl
  rw [heq, Finset.mem_insert, (wireParents_spec _ _ _ _ h.parents_mem).2]

theorem exists_sameCore_wire {x : BlockId} {n : Dag.Node} (hn : d.nodes.lookup x = some n) :
    ∃ n', (d.wire block sp g).nodes.lookup x = some n' ∧ DagView.SameCore n n' := by
  have hx : x ≠ block.id := by
    rintro rfl
    exact h.fresh (Finmap.mem_of_lookup_eq_some hn)
  have hcore := lookup_wire_core h hx
  rw [hn, Option.map_some, Option.map_eq_some_iff] at hcore
  obtain ⟨n', hn', heq⟩ := hcore
  simp only [Prod.mk.injEq] at heq
  exact ⟨n', hn', heq.1.symm, heq.2.1.symm, heq.2.2.symm⟩

theorem exists_sameCore_of_wire {x : BlockId} {n' : Dag.Node} (hx : x ≠ block.id)
    (hn' : (d.wire block sp g).nodes.lookup x = some n') :
    ∃ n, d.nodes.lookup x = some n ∧ DagView.SameCore n n' := by
  have hcore := lookup_wire_core h hx
  rw [hn', Option.map_some, eq_comm, Option.map_eq_some_iff] at hcore
  obtain ⟨n, hn, heq⟩ := hcore
  simp only [Prod.mk.injEq] at heq
  exact ⟨n, hn, heq.1, heq.2.1, heq.2.2⟩

theorem mem_wire {x : BlockId} : x ∈ (d.wire block sp g).nodes ↔ x = block.id ∨ x ∈ d.nodes := by
  constructor
  · intro hx
    by_cases heq : x = block.id
    · exact .inl heq
    · obtain ⟨n', hn'⟩ := Finmap.mem_iff.1 hx
      obtain ⟨n, hn, _⟩ := exists_sameCore_of_wire h heq hn'
      exact .inr (Finmap.mem_of_lookup_eq_some hn)
  · rintro (rfl | hx)
    · exact Finmap.mem_of_lookup_eq_some lookup_wire_self
    · obtain ⟨n, hn⟩ := Finmap.mem_iff.1 hx
      obtain ⟨n', hn', _⟩ := exists_sameCore_wire h hn
      exact Finmap.mem_of_lookup_eq_some hn'

theorem keys_wire : (d.wire block sp g).nodes.keys = Insert.insert block.id d.nodes.keys := by
  ext x
  rw [Finmap.mem_keys, mem_wire h, Finset.mem_insert, Finmap.mem_keys]

theorem len_wire : (d.wire block sp g).len = d.len + 1 := by
  rw [DagView.len, keys_wire h, Finset.card_insert_of_notMem]
  · rfl
  · rw [Finmap.mem_keys]
    exact h.fresh

/-- The new block comes on top of its parents. -/
theorem addsTop_wire (hmem : ∀ x y, d.Edge x y → x ∈ d.nodes) :
    AddsTop d.Edge (d.wire block sp g).Edge block.id (· ∈ block.parents) where
  edge_iff := by
    intro x y
    by_cases hy : y = block.id
    · subst hy
      constructor
      · rintro ⟨n, hn, hx⟩
        rw [lookup_wire_self, Option.some.injEq] at hn
        rw [← hn] at hx
        exact .inr ⟨rfl, hx⟩
      · rintro (hedge | ⟨_, hx⟩)
        · exact absurd hedge.mem h.fresh
        · exact ⟨_, lookup_wire_self, hx⟩
    · constructor
      · rintro ⟨n', hn', hx⟩
        obtain ⟨n, hn, hcore⟩ := exists_sameCore_of_wire h hy hn'
        exact .inl ⟨n, hn, hcore.block ▸ hx⟩
      · rintro (⟨n, hn, hx⟩ | ⟨heq, _⟩)
        · obtain ⟨n', hn', hcore⟩ := exists_sameCore_wire h hn
          exact ⟨n', hn', hcore.block ▸ hx⟩
        · exact absurd heq hy
  not_parent := fun y hedge => h.fresh (hmem _ y hedge)
  not_child := fun _ hedge => h.fresh hedge.mem
  not_self := fun hself => h.fresh (h.parents_mem _ hself)

/-- The old DAG and the grown one agree on the old blocks. -/
theorem agreeOn_wire (hmem : ∀ x y, d.Edge x y → x ∈ d.nodes) :
    DagView.AgreeOn {x | x ∈ d.nodes} d.toDagView (d.wire block sp g).toDagView where
  k_eq := rfl
  core := by
    intro x hx
    obtain ⟨n, hn⟩ := Finmap.mem_iff.1 hx
    obtain ⟨n', hn', hcore⟩ := exists_sameCore_wire h hn
    exact ⟨n, n', hn, hn', hcore⟩
  closed := fun y _ x hedge => hmem x y hedge

/-- The blocks the new one merges: each once, and none of them at or below its selected
parent. -/
theorem Admits.mergeset_spec (hd : d.Exact) :
    (g.mergesetBlues ++ g.mergesetReds).Nodup ∧
      ∀ a ∈ g.mergesetBlues ++ g.mergesetReds, a ≠ sp ∧ ¬ d.Anc a sp := by
  have hperm := DagView.computeGhostdag_mergeset h.data h.selected
  have hsp := h.parents_mem sp h.selectedParent_mem
  refine ⟨hperm.nodup_iff.2 (hd.nodup_mergesetOrdered h.parents_mem), fun a ha => ?_⟩
  exact ((hd.mem_mergesetOrdered hsp h.parents_mem a).1 (hperm.mem_iff.1 ha)).2

/-- The past of the new block: its selected parent, that one's past, and the
mergeset. -/
theorem anc_wire_iff (hd : d.Exact) (a : BlockId) :
    (d.wire block sp g).Anc a block.id ↔
      a = sp ∨ d.Anc a sp ∨ a ∈ g.mergesetBlues ++ g.mergesetReds := by
  have hsp := h.selectedParent_mem
  have hmerge := hd.mem_mergesetOrdered (h.parents_mem sp hsp) h.parents_mem a
  have hblock : (d.wire block sp g).Anc a block.id ↔ ∃ p ∈ block.parents, a = p ∨ d.Anc a p :=
    (addsTop_wire h hd.parents_mem).top
  rw [hblock, (DagView.computeGhostdag_mergeset h.data h.selected).mem_iff, hmerge]
  constructor
  · intro hreach
    by_cases hasp : a = sp
    · exact .inl hasp
    · by_cases hanc : d.Anc a sp
      · exact .inr (.inl hanc)
      · exact .inr (.inr ⟨hreach, hasp, hanc⟩)
  · rintro (rfl | hanc | ⟨hreach, _⟩)
    · exact ⟨a, hsp, .inl rfl⟩
    · exact ⟨sp, hsp, .inr hanc⟩
    · exact hreach

/-- The block is a new leaf of the selected-parent tree. -/
theorem leafAdded_wire : LeafAdded d.selectedParentOf (d.wire block sp g).selectedParentOf
    d.nodes.keys block.id sp where
  new := by
    rw [DagView.selectedParentOf_eq lookup_wire_self]
    exact h.selected
  old := by
    intro x hx
    by_cases hxd : x ∈ d.nodes
    · obtain ⟨n, hn⟩ := Finmap.mem_iff.1 hxd
      obtain ⟨n', hn', hcore⟩ := exists_sameCore_wire h hn
      rw [DagView.selectedParentOf_eq hn, DagView.selectedParentOf_eq hn', hcore.ghostdag]
    · rw [DagView.selectedParentOf_none hxd, DagView.selectedParentOf_none]
      rw [mem_wire h]
      exact not_or.2 ⟨hx, hxd⟩
  fresh := fun hmem => h.fresh (Finmap.mem_keys.1 hmem)
  parent_mem := by
    exact Finmap.mem_keys.2 (h.parents_mem sp h.selectedParent_mem)

/-- An entry of the grown DAG is that of the new block, or has the core of an old one. -/
theorem wire_cases {x : BlockId} {n : Dag.Node}
    (hn : (d.wire block sp g).nodes.lookup x = some n) :
    (x = block.id ∧ n = ⟨block, (d.node sp).pastSize + 1 +
      (g.mergesetBlues.length + g.mergesetReds.length), ∅, g⟩) ∨
    x ≠ block.id ∧ ∃ m, d.nodes.lookup x = some m ∧ DagView.SameCore m n := by
  by_cases hx : x = block.id
  · subst hx
    rw [lookup_wire_self, Option.some.injEq] at hn
    exact .inl ⟨rfl, hn.symm⟩
  · exact .inr ⟨hx, exists_sameCore_of_wire h hx hn⟩

theorem parents_mem_wire (hd : d.WellFormed) :
    ∀ x y, (d.wire block sp g).Edge x y → x ∈ (d.wire block sp g).nodes := by
  intro x y hedge
  rw [mem_wire h]
  rcases ((addsTop_wire h hd.parents_mem).edge_iff x y).1 hedge with hold | ⟨_, hx⟩
  · exact .inr (hd.parents_mem x y hold)
  · exact .inr (h.parents_mem x hx)

/-- The oracle tracks the ancestry of the grown DAG. -/
theorem tracks_wire (hd : d.WellFormed) :
    Reachability.Tracks (d.wire block sp g).selectedParentOf (d.wire block sp g).nodes.keys
      d.genesis (d.wire block sp g).Anc (d.wire block sp g).reach := by
  have htop := addsTop_wire h hd.parents_mem
  rw [keys_wire h]
  exact hd.tracks.addBlock (fun _ _ _ => TransGen.trans) (leafAdded_wire h)
    ⟨fun a b hb => htop.old hb, anc_wire_iff h hd.exact⟩ (le_of_lt h.room)
    (h.mergeset_spec hd.exact)

theorem exact_wire (hd : d.WellFormed) : (d.wire block sp g).Exact where
  parents_mem := parents_mem_wire h hd
  isAncestor_iff := fun _ ha _ hb =>
    (tracks_wire h hd).isAncestor_iff ((addsTop_wire h hd.parents_mem).acyclic hd.acyclic)
      (fun _ _ _ => TransGen.trans) (Finmap.mem_keys.2 ha) (Finmap.mem_keys.2 hb)

/-- The past of the new block is counted by its parts, which are disjoint: the selected parent,
its past, and the mergeset. -/
theorem card_past_wire (hd : d.WellFormed) :
    ((d.wire block sp g).past block.id).card =
      (d.node sp).pastSize + 1 + (g.mergesetBlues.length + g.mergesetReds.length) := by
  have hexact := hd.exact
  have hexact' := exact_wire h hd
  have hspMem := h.parents_mem sp h.selectedParent_mem
  have hmergePerm := DagView.computeGhostdag_mergeset h.data h.selected
  classical
  have hpast : (d.wire block sp g).past block.id =
      (Insert.insert sp (d.past sp)) ∪ (d.mergesetOrdered sp block.parents).toFinset := by
    ext a
    rw [hexact'.mem_past, anc_wire_iff h hexact, Finset.mem_union, Finset.mem_insert,
      hexact.mem_past, List.mem_toFinset, hmergePerm.mem_iff, or_assoc]
  have hdisj : Disjoint (Insert.insert sp (d.past sp))
      (d.mergesetOrdered sp block.parents).toFinset := by
    rw [Finset.disjoint_left]
    intro a ha hmerged
    rw [List.mem_toFinset, hexact.mem_mergesetOrdered hspMem h.parents_mem] at hmerged
    rw [Finset.mem_insert, hexact.mem_past] at ha
    exact ha.elim hmerged.2.1 hmerged.2.2
  have hnot : sp ∉ d.past sp := by
    rw [hexact.mem_past]
    exact hd.acyclic sp
  have hmergeLen : (d.mergesetOrdered sp block.parents).length =
      g.mergesetBlues.length + g.mergesetReds.length := by
    rw [← hmergePerm.length_eq, List.length_append]
  rw [hpast, Finset.card_union_of_disjoint hdisj, Finset.card_insert_of_notMem hnot,
    List.toFinset_card_of_nodup (hexact.nodup_mergesetOrdered h.parents_mem), hmergeLen,
    hd.past_size sp _ (DagView.lookup_node hspMem)]

theorem past_wire (hd : d.WellFormed) {x : BlockId} (hx : x ≠ block.id) :
    (d.wire block sp g).past x = d.past x := by
  ext a
  rw [(exact_wire h hd).mem_past, hd.exact.mem_past]
  exact (addsTop_wire h hd.parents_mem).old hx

/-- What a block has counted as blue is in its past, for the new block too. -/
theorem blue_past_wire (hd : d.WellFormed) {x : BlockId} {n : Dag.Node}
    (hn : (d.wire block sp g).nodes.lookup x = some n) :
    ∀ b ∈ n.ghostdag.blueAnticoneSizes, (d.wire block sp g).Anc b x := by
  intro b hb
  rcases wire_cases h hn with ⟨rfl, rfl⟩ | ⟨hx, m, hm, hcore⟩
  · have hsp := DagView.lookup_node (h.parents_mem sp h.selectedParent_mem)
    rw [anc_wire_iff h hd.exact]
    rcases DagView.computeGhostdag_blue h.data h.selected hb with rfl | hblue | hmerged
    · exact .inl rfl
    · exact .inr (.inl (hd.blue_past sp _ hsp b hblue))
    · exact .inr (.inr ((DagView.computeGhostdag_mergeset h.data h.selected).mem_iff.2 hmerged))
  · rw [← hcore.ghostdag] at hb
    exact ((addsTop_wire h hd.parents_mem).old hx).2 (hd.blue_past x m hm b hb)

/-- The data of every block of the grown DAG are what the grown DAG derives from its parents. -/
theorem ghostdag_eq_wire (hd : d.WellFormed) (ord' : HashOrder) {x : BlockId} {n : Dag.Node}
    (hn : (d.wire block sp g).nodes.lookup x = some n) (hxg : x ≠ d.genesis) :
    (d.wire block sp g).computeGhostdag ord' n.block.parents = some n.ghostdag := by
  have hagree := agreeOn_wire h hd.parents_mem
  have hblue : ∀ y ∈ {y | y ∈ d.nodes}, ∀ b ∈ (d.node y).ghostdag.blueAnticoneSizes,
      b ∈ {y | y ∈ d.nodes} := fun y hy b hb =>
    hd.exact.mem_of_anc (hd.blue_past y _ (DagView.lookup_node hy) b hb)
  rcases wire_cases h hn with ⟨rfl, rfl⟩ | ⟨hx, m, hm, hcore⟩
  · rw [← h.data]
    exact (DagView.computeGhostdag_congr hagree hd.exact (exact_wire h hd) hblue h.parents_mem
      (fun _ => Iff.rfl) ord ord').symm
  · rw [← hcore.block, ← hcore.ghostdag, ← hd.ghostdag_eq ord' x m hm hxg]
    exact (DagView.computeGhostdag_congr hagree hd.exact (exact_wire h hd) hblue
      (fun p hp => hd.parents_mem p x ⟨m, hm, hp⟩) (fun _ => Iff.rfl) ord' ord').symm

/-- The tips are the blocks without children: the new block, and the old tips that are not among
its parents. -/
theorem tips_iff_wire (hd : d.WellFormed) (x : BlockId) :
    x ∈ (d.wire block sp g).tips ↔
      x ∈ (d.wire block sp g).nodes ∧ ∀ y, ¬ (d.wire block sp g).Edge x y := by
  have htop := addsTop_wire h hd.parents_mem
  rw [mem_wire_tips h, hd.tips_iff, mem_wire h]
  constructor
  · rintro (rfl | ⟨⟨hx, hchild⟩, hnot⟩)
    · exact ⟨.inl rfl, fun y hedge => htop.not_ancestor y (.single hedge)⟩
    · refine ⟨.inr hx, fun y hedge => ?_⟩
      rcases (htop.edge_iff x y).1 hedge with hold | ⟨_, hpar⟩
      · exact hchild y hold
      · exact hnot hpar
  · rintro ⟨rfl | hx, hchild⟩
    · exact .inl rfl
    · refine .inr ⟨⟨hx, fun y hedge => hchild y ((htop.edge_iff x y).2 (.inl hedge))⟩, ?_⟩
      exact fun hpar => hchild block.id ((htop.edge_iff x block.id).2 (.inr ⟨rfl, hpar⟩))

/-- Inserting a block keeps the invariant. -/
theorem wellFormed_wire (hd : d.WellFormed) : (d.wire block sp g).WellFormed where
  genesis_node := by
    obtain ⟨n, hn, hpar, hsize, hgd⟩ := hd.genesis_node
    obtain ⟨n', hn', hcore⟩ := exists_sameCore_wire h hn
    exact ⟨n', hn', hcore.block ▸ hpar, hcore.pastSize ▸ hsize, hcore.ghostdag ▸ hgd⟩
  id_eq := by
    intro x n hn
    rcases wire_cases h hn with ⟨rfl, rfl⟩ | ⟨hx, m, hm, hcore⟩
    · rfl
    · rw [← hcore.block]
      exact hd.id_eq x m hm
  parents_mem := parents_mem_wire h hd
  parents_ne := by
    intro x n hn hxg
    rcases wire_cases h hn with ⟨rfl, rfl⟩ | ⟨hx, m, hm, hcore⟩
    · exact h.parents_ne
    · rw [← hcore.block]
      exact hd.parents_ne x m hm hxg
  acyclic := (addsTop_wire h hd.parents_mem).acyclic hd.acyclic
  tracks := tracks_wire h hd
  past_size := by
    intro x n hn
    rcases wire_cases h hn with ⟨rfl, rfl⟩ | ⟨hx, m, hm, hcore⟩
    · exact (card_past_wire h hd).symm
    · rw [← hcore.pastSize, past_wire h hd hx]
      exact hd.past_size x m hm
  ghostdag_eq := fun ord' _ _ hn hxg => ghostdag_eq_wire h hd ord' hn hxg
  blue_past := fun _ _ hn => blue_past_wire h hd hn
  tips_iff := tips_iff_wire h hd
  len_lt := by
    rw [len_wire h]
    exact h.room

end Dag

end Kovanica
