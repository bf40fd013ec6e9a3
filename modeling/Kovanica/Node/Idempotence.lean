import Kovanica.Node.Convergence
import Kovanica.Node.Reachable

/-!
# Receiving a block again

A node that is handed the record of a block it stores answers with its id and stays as
it is, unless the clock has been moved back since: the check of the timestamp comes
before the block is recognised.  One such block ends a whole `gossip`.

## Main results

* `Reachable.receiveBlock_iff`: the one record.
* `gossipLoop_stored_iff`: a list of them, whose first future date ends the loop.
-/

namespace Kovanica

open Lib

namespace Node

variable [Crypto] {n : Node}

/-- The record of a stored block is known exactly as long as it is in time. -/
theorem Reachable.receiveBlock_iff (h : n.Reachable) {x : BlockId} (hx : x ∈ n.ids) :
    ∃ record, n.blockRecord x = some record ∧
      ∀ env, n.receiveBlock env record = .ok (x, n) ↔ n.InTime env record := by
  obtain ⟨l, hledger, hmem⟩ := mem_ids.1 hx
  have hl := (h.plain hledger).unbounded.reachable.wellFormed
  obtain ⟨record, hrecord, hblock⟩ := exists_blockRecord hledger hl hmem
  have hid : record.block.id = x := by
    rw [hblock]
    exact hl.dag.id_eq x _ (DagView.lookup_node hmem)
  refine ⟨record, hrecord, fun env => ?_⟩
  constructor
  · intro hok
    by_contra hlate
    rw [receiveBlock_of_not_inTime hlate] at hok
    cases hok
  · intro htime
    rw [← hid] at hmem ⊢
    exact receiveBlock_of_stored hledger hmem htime

/-- What is exported stands for stored blocks. -/
theorem Reachable.mem_ids_of_exportBlocks (h : n.Reachable) {env : Env} {record : BlockRecord}
    (hrecord : record ∈ n.exportBlocks env) : record.block.id ∈ n.ids := by
  unfold exportBlocks at hrecord
  split at hrecord
  · exact absurd hrecord List.not_mem_nil
  rename_i l hledger
  have hl := (h.plain hledger).unbounded.reachable.wellFormed
  obtain ⟨x, hx, heq⟩ := List.mem_filterMap.1 hrecord
  have hmem := (hl.dag.mem_linearize env.ord x).1 (List.mem_of_mem_filter hx)
  obtain ⟨record', hrecord', hblock⟩ := exists_blockRecord hledger hl hmem
  obtain rfl := Option.some.inj (hrecord'.symm.trans heq)
  rw [hblock, hl.dag.id_eq x _ (DagView.lookup_node hmem)]
  exact mem_ids.2 ⟨l, hledger, hmem⟩

end Node

namespace Net

variable [Crypto] {n : Node}

/-- A node takes records of blocks it stores, and stays as it is, exactly as long as
each is in time when its turn comes. -/
theorem gossipLoop_stored_iff (envs : Nat → Env) {records : List BlockRecord}
    (hstored : ∀ record ∈ records, record.block.id ∈ n.ids) (applied : Nat) :
    (∃ count, gossipLoop envs applied records n = (.ok count, n)) ↔
      ∀ i record, records[i]? = some record → n.InTime (envs (applied + i)) record := by
  induction records generalizing applied with
  | nil => exact ⟨fun _ i record h => by simp at h, fun _ => ⟨applied, rfl⟩⟩
  | cons record rest ih =>
      obtain ⟨l, hledger, hmem⟩ := Node.mem_ids.1 (hstored record (List.mem_cons_self ..))
      have hrest := ih (fun r hr => hstored r (List.mem_cons_of_mem _ hr)) (applied + 1)
      by_cases htime : n.InTime (envs applied) record
      · have hfirst := Node.receiveBlock_of_stored hledger hmem htime
        have hloop : gossipLoop envs applied (record :: rest) n =
            gossipLoop envs (applied + 1) rest n := by
          simp only [gossipLoop, hfirst]
        rw [hloop, hrest]
        constructor
        · intro h i r hr
          cases i with
          | zero => exact Option.some.inj hr ▸ htime
          | succ i =>
              have hnext := h i r hr
              rwa [Nat.add_assoc, Nat.add_comm 1 i] at hnext
        · intro h i r hr
          have hnext := h (i + 1) r hr
          rwa [← Nat.add_assoc, Nat.add_right_comm] at hnext
      · constructor
        · rintro ⟨count, h⟩
          rw [gossipLoop, Node.receiveBlock_of_not_inTime htime] at h
          cases (Prod.mk.inj h).1
        · intro h
          exact absurd (h 0 record rfl) htime

/-- Receiving is idempotent up to the clock: the record of a stored block is answered
with its id and changes nothing if and only if it is not dated too far ahead of the
clock, and `gossip` to a node that holds all blocks of the source succeeds and changes
nothing if and only if this holds of every record when its turn comes. -/
theorem receive_again_iff :
    (∀ n : Node, n.Reachable → ∀ x ∈ n.ids, ∃ record, n.blockRecord x = some record ∧
      ∀ env, n.receiveBlock env record = .ok (x, n) ↔
        record.timestampMs.val ≤ (n.nowMs env).val + maxFutureDriftMs.val) ∧
    ∀ a b : Node, a.Reachable → b.Reachable → a.ids ⊆ b.ids → ∀ (env : Env) (envs : Nat → Env),
      (∃ applied, gossip env envs a b = (.ok applied, b)) ↔
        ∀ i record, (a.exportBlocks env)[i]? = some record →
          record.timestampMs.val ≤ (b.nowMs (envs i)).val + maxFutureDriftMs.val := by
  refine ⟨fun n hn x hx => hn.receiveBlock_iff hx, fun a b ha hb hsub env envs => ?_⟩
  have hstored : ∀ record ∈ a.exportBlocks env, record.block.id ∈ b.ids := fun record hrecord =>
    hsub (ha.mem_ids_of_exportBlocks hrecord)
  have hloop := gossipLoop_stored_iff envs hstored 0
  simp only [Nat.zero_add] at hloop
  exact hloop

end Net

namespace Node

open scoped Reference

theorem reachable_of_producedAt {now : U64} {n : Node} (h : producedAt now = .ok n) :
    Reachable n := by
  rw [producedAt] at h
  split at h
  · cases h
  · rename_i hgenesis
    obtain ⟨⟨id, n'⟩, hproduce, hret⟩ := Outcome.bind_eq_ok.1 h
    obtain rfl := Except.ok.inj hret
    exact (Reachable.setNowMs now (.genesis .new hgenesis)).produceEmpty hproduce

end Node

namespace Net

open scoped Reference

/-- The block a node has produced, with its clock where it was. -/
theorem receive_again_iff_produced : ∃ n x record, Node.Reachable n ∧ x ∈ n.ids ∧
    n.blockRecord x = some record ∧ n.receiveBlock ⟨.sorted, 0⟩ record = .ok (x, n) := by
  have hcheck : (Node.producedAt 5).toOption.any (fun n => n.ledger.any fun l : Ledger =>
      decide (l.dag.selectedTip ∈ n.ids ∧ ∀ record ∈ (n.blockRecord l.dag.selectedTip).toList,
        n.InTime ⟨.sorted, 0⟩ record)) = true := by
    decide +kernel
  obtain ⟨n, hn, hledger⟩ := Option.any_eq_true _ _ |>.1 hcheck
  have hreach := Node.reachable_of_producedAt (ok_of_toOption hn)
  obtain ⟨l, _, hdec⟩ := Option.any_eq_true _ _ |>.1 hledger
  obtain ⟨hmem, htime⟩ := of_decide_eq_true hdec
  obtain ⟨record, hrecord, hiff⟩ := receive_again_iff.1 n hreach _ hmem
  refine ⟨n, _, record, hreach, hmem, hrecord, (hiff ⟨.sorted, 0⟩).2 (htime record ?_)⟩
  rw [hrecord]
  exact List.mem_singleton.2 rfl

/-- A node whose clock is moved back behind its own block refuses that block, and its
`gossip` with itself fails. -/
theorem receive_again_refused : ∃ n x record, Node.Reachable n ∧ x ∈ n.ids ∧
    (∀ l, n.ledger = some l → x ≠ l.genesis) ∧ n.blockRecord x = some record ∧
    (∃ e, n.receiveBlock ⟨.sorted, 0⟩ record = .error (.error e)) ∧
    ∃ e, (gossip ⟨.sorted, 0⟩ (fun _ => ⟨.sorted, 0⟩) n n).1 = .error (.error e) := by
  have hcheck : (Node.producedAt 10000000).toOption.any (fun n => n.ledger.any fun l : Ledger =>
      decide (l.dag.selectedTip ∈ (n.setNowMs 0).ids ∧ l.dag.selectedTip ≠ l.genesis ∧
        ∀ record ∈ ((n.setNowMs 0).blockRecord l.dag.selectedTip).toList,
          ¬ (n.setNowMs 0).InTime ⟨.sorted, 0⟩ record) &&
      decide (∃ e, (gossip ⟨.sorted, 0⟩ (fun _ => ⟨.sorted, 0⟩) (n.setNowMs 0)
        (n.setNowMs 0)).1 = .error (.error e))) = true := by
    decide +kernel
  obtain ⟨n, hn, hany⟩ := Option.any_eq_true _ _ |>.1 hcheck
  have hreach := (Node.reachable_of_producedAt (ok_of_toOption hn)).setNowMs 0
  obtain ⟨l, hledger, hboth⟩ := Option.any_eq_true _ _ |>.1 hany
  obtain ⟨hdec, hgossip⟩ := Bool.and_eq_true_iff.1 hboth
  obtain ⟨hmem, hne, hlate⟩ := of_decide_eq_true hdec
  obtain ⟨record, hrecord, _⟩ := hreach.receiveBlock_iff hmem
  have hrefused : ¬ (n.setNowMs 0).InTime ⟨.sorted, 0⟩ record := by
    apply hlate
    rw [hrecord]
    exact List.mem_singleton.2 rfl
  refine ⟨n.setNowMs 0, _, record, hreach, hmem, ?_, hrecord,
    ⟨_, Node.receiveBlock_of_not_inTime hrefused⟩, of_decide_eq_true hgossip⟩
  intro l' hl'
  have hsame : some l = some l' := hledger.symm.trans hl'
  rw [← Option.some.inj hsame]
  exact hne

end Net

end Kovanica
