import Kovanica.Node.Fees
import Kovanica.State.Emission

/-!
# The emission schedule

Issuance is halved with every era of blocks, and a node that makes a block keeps to it: on
all tips the past of the block is all the node has stored.  The ledger does not check it.
Its subsidy is a constant, so a block of another node may mint the subsidy of the first
era whenever it comes.

## Main results

* `coinbaseValue_issuanceTxs`: what a coinbase of the schedule is worth.
* `extendTips_onSchedule`, `OnSchedule.step`: the calls that make a block, and all others.
-/

namespace Kovanica

open Lib

section Emission

variable [Crypto]

namespace Ledger

variable {l l' : Ledger} {x : BlockId}

/-- A stored block that mints at most the issuance of its height and its fees.  The height is the
size of its past, which is settled when it is stored. -/
def OnSchedule (l : Ledger) (x : BlockId) : Prop :=
  x ∈ l.dag.nodes ∧ l.MintsWithin x
    (Node.issuanceAt l.subsidy (Word.cast 64 (l.dag.node x).pastSize)).val

/-- No call takes a block off the schedule. -/
theorem OnSchedule.step (h : l.OnSchedule x) (hl : l.WellFormed) {a : Action}
    (hstep : Step l a l') : l'.OnSchedule x := by
  obtain ⟨_, _, hpast, hmem⟩ := hstep.keeps hl h.1
  rw [OnSchedule, hpast, ← hstep.sameParameters.subsidy_eq]
  exact ⟨hmem, hstep.mintsWithin hl h.1 h.2⟩

end Ledger

namespace Node

variable {env : Env} {n n' : Node} {made : List BlockId} {l : Ledger}

/-- The calls on a node since it was new, with the blocks it has made itself.  What it
picks from its mempool has ids of its own. -/
inductive Session : Node → List BlockId → Prop
  | new : Session .new []
  | genesis {env : Env} {n n' : Node} {made : List BlockId} {k : KParam}
      {subsidy amount founderSeed : U64} {r : BlockId × Address} : Session n made →
      n.genesis env k subsidy amount founderSeed = .ok (r, n') → Session n' []
  | setProofOfWork {n n' : Node} {made : List BlockId} {enabled : Bool} : Session n made →
      n.setProofOfWork enabled = .ok n' → Session n' made
  | setMiner {n : Node} {made : List BlockId} (miner : Address) : Session n made →
      Session (n.setMiner miner) made
  | setNowMs {n : Node} {made : List BlockId} (now : U64) : Session n made →
      Session (n.setNowMs now) made
  | submitTx {n n' : Node} {made : List BlockId} {tx : Transaction} {id : TxId} :
      Session n made → n.submitTx tx = .ok (id, n') → Session n' made
  | submitSigned {env : Env} {n n' : Node} {made : List BlockId} {sender recipient : Address}
      {value : U64} {signature : Bytes 64} {id : TxId} : Session n made →
      n.submitSigned env sender value recipient signature = .ok (id, n') → Session n' made
  | pool {env : Env} {n n' : Node} {made : List BlockId} {fromSeed value toSeed : U64}
      {id : TxId} : Session n made → n.pool env fromSeed value toSeed = .ok (id, n') →
      Session n' made
  | sendTo {env : Env} {n n' : Node} {made : List BlockId} {fromSeed value : U64}
      {recipient : Address} {sent : Sent} : Session n made →
      n.sendTo env fromSeed value recipient = .ok (sent, n') → Session n' (sent.block :: made)
  | produceNone {env : Env} {n n' : Node} {made : List BlockId} : Session n made →
      n.produceBlock env = .ok (none, n') → Session n' made
  | produceBlock {env : Env} {n n' : Node} {made : List BlockId} {id : BlockId} :
      Session n made → (∀ l state, n.ledger = some l → l.ledgerState env.ord = some state →
        l.IdsApart (n.selected env l state)) →
      n.produceBlock env = .ok (some id, n') → Session n' (id :: made)
  | produceEmpty {env : Env} {n n' : Node} {made : List BlockId} {id : BlockId} :
      Session n made → n.produceEmpty env = .ok (id, n') → Session n' (id :: made)
  | receiveBlock {env : Env} {n n' : Node} {made : List BlockId} {record : BlockRecord}
      {id : BlockId} : Session n made → n.receiveBlock env record = .ok (id, n') →
      Session n' made

theorem Session.reachable (h : Session n made) : n.Reachable := by
  induction h with
  | new => exact .new
  | genesis _ h ih => exact ih.genesis h
  | setProofOfWork _ h ih => exact ih.setProofOfWork h
  | setMiner miner _ ih => exact ih.setMiner miner
  | setNowMs now _ ih => exact ih.setNowMs now
  | submitTx _ h ih => exact ih.submitTx h
  | submitSigned _ h ih => exact ih.submitSigned h
  | pool _ h ih => exact ih.pool h
  | sendTo _ h ih => exact ih.sendTo h
  | produceNone _ h ih => exact ih.produceBlock h
  | produceBlock _ _ h ih => exact ih.produceBlock h
  | produceEmpty _ h ih => exact ih.produceEmpty h
  | receiveBlock _ h ih => exact ih.receiveBlock h

/-! ## A block on the tips -/

omit [Crypto] in
/-- What `issuance_txs` claims. -/
theorem coinbaseValue_issuanceTxs (timestampMs extraFees : U64) {spends : List Transaction}
    (hspends : ∀ tx ∈ spends, tx.isCoinbase = false) :
    coinbaseValue (n.issuanceTxs timestampMs extraFees ++ spends) ≤
      n.issuance.val + extraFees.val := by
  have hnone : spends.filter (fun tx => tx.isCoinbase) = [] := by
    rw [List.filter_eq_nil_iff]
    intro tx htx
    rw [hspends tx htx]
    exact Bool.false_ne_true
  rw [coinbaseValue, List.filter_append, hnone, List.append_nil, issuanceTxs_eq]
  cases hreward : n.reward timestampMs extraFees with
  | none => exact Nat.zero_le _
  | some cb =>
      obtain ⟨miner, _, _, rfl⟩ := mem_reward.1 hreward
      have hvalue : (((Transaction.coinbase [⟨Word.saturatingAdd n.issuance extraFees, miner⟩]
          (toLeBytes 8 timestampMs.val)) :: []).filter fun tx => tx.isCoinbase).map
            Transaction.outputValue = [(Word.saturatingAdd n.issuance extraFees).val] := rfl
      rw [Option.toList_some, hvalue, List.sum_singleton, Word.saturatingAdd_val]
      exact Nat.min_le_left _ _

/-- The node has stored one block more, and that one is on schedule. -/
def MadeOnSchedule (n n' : Node) (id : BlockId) : Prop :=
  ∃ l l' o, n.ledger = some l ∧ n'.ledger = some l' ∧ Ledger.Step l (.offer o) l' ∧
    l'.OnSchedule id

/-- A block on the tips is on schedule if its coinbase claims no more than the issuance
and its fees. -/
theorem extendTips_onSchedule (hl : l.Unbounded) (hledger : n.ledger = some l)
    {txsAt : U64 → List Transaction} {included : List TxId} {id : BlockId}
    (hclaims : ∀ state next summary, l.ledgerState env.ord = some state →
      applyBlock state (txsAt (n.tipsTimestamp env l)) l.subsidy = .ok (next, summary) →
        coinbaseValue (txsAt (n.tipsTimestamp env l)) ≤ n.issuance.val + summary.fees.val)
    (h : n.extendTips env l txsAt included = .ok (id, n')) : MadeOnSchedule n n' id := by
  obtain ⟨parents, txs, nonce, l', hparents, htxs, _, hoffer, hevict⟩ := extendTips_eq_ok h
  have hstep : Ledger.Step l (.offer _) l' := .accepted hoffer
  have hstate := hl.ledgerState env.ord
  obtain ⟨hmem, hview, hblock, hpast⟩ := hl.view_tips hoffer (onTips hparents) hstate
  have hval := val_of_ofList? htxs
  rw [tips_val hparents] at hval
  have hissuance : n.issuance = issuanceAt l.subsidy (Word.cast 64 l.dag.len) := by
    simp only [issuance, hledger]
  obtain ⟨next, summary, happly, _⟩ :=
    (hstep.wellFormed hl.reachable.wellFormed).mintsWithin_subsidy hmem
  refine ⟨l, l', _, hledger, (evictMempool_kept hevict).1, hstep, hmem, next, summary, happly, ?_⟩
  rw [hview, hblock, hval, ← hstep.sameParameters.subsidy_eq] at happly
  rw [hblock, hval, hpast, ← hstep.sameParameters.subsidy_eq, ← hissuance]
  exact hclaims _ next summary hstate happly

theorem sendTo_onSchedule (hn : n.Reachable) {fromSeed value : U64} {recipient : Address}
    {sent : Sent} (h : n.sendTo env fromSeed value recipient = .ok (sent, n')) :
    MadeOnSchedule n n' sent.block := by
  obtain ⟨tx, hbuild, h⟩ := Outcome.bind_eq_ok.1 h
  obtain ⟨l, hledger, h⟩ := Outcome.bind_eq_ok.1 h
  obtain ⟨⟨block, n₁⟩, hextend, hret⟩ := Outcome.bind_eq_ok.1 h
  obtain ⟨rfl, rfl⟩ := Prod.mk.inj (Except.ok.inj hret)
  have hl := ledger?_eq_ok.1 hledger
  have hvalue : coinbaseValue [tx] = 0 := by
    simp [coinbaseValue, buildTransferTo_spend hbuild]
  refine extendTips_onSchedule (hn.plain hl).unbounded hl (fun _ _ _ _ _ => ?_) hextend
  rw [hvalue]
  exact Nat.zero_le _

theorem produceEmpty_onSchedule (hn : n.Reachable) {id : BlockId}
    (h : n.produceEmpty env = .ok (id, n')) : MadeOnSchedule n n' id := by
  obtain ⟨l, hledger, hextend⟩ := Outcome.bind_eq_ok.1 h
  have hl := ledger?_eq_ok.1 hledger
  refine extendTips_onSchedule (hn.plain hl).unbounded hl (fun _ _ summary _ _ => ?_) hextend
  have hvalue : coinbaseValue (n.issuanceTxs (n.tipsTimestamp env l) 0 ++ []) ≤ _ :=
    coinbaseValue_issuanceTxs _ _ fun _ h => absurd h List.not_mem_nil
  rw [List.append_nil] at hvalue
  exact hvalue.trans (Nat.add_le_add_left (Nat.zero_le _) _)

theorem produceBlock_onSchedule (hn : n.Reachable) {id : BlockId}
    (hapart : ∀ l state, n.ledger = some l → l.ledgerState env.ord = some state →
      l.IdsApart (n.selected env l state))
    (h : n.produceBlock env = .ok (some id, n')) : MadeOnSchedule n n' id := by
  obtain ⟨l, hledger, _⟩ := Outcome.bind_eq_ok.1 h
  have hl := ledger?_eq_ok.1 hledger
  have hunbounded := (hn.plain hl).unbounded
  have hstate := hunbounded.ledgerState env.ord
  obtain ⟨_, hextend⟩ := (produceBlock_some_iff hl hstate).1 h
  refine extendTips_onSchedule hunbounded hl (fun state next summary hstate' happly => ?_) hextend
  obtain rfl := Option.some.inj (hstate.symm.trans hstate')
  refine (coinbaseValue_issuanceTxs _ _ (selected_spends hn)).trans ?_
  rw [issuanceTxs_eq] at happly
  obtain ⟨fees, mid, allowed, hpacks, hsummary, hallowed, _⟩ :=
    (applyBlock_spends_iff isCoinbase_reward (selected_spends hn)).1 happly
  have hlt := allowed.isLt
  have hle := (selectedFees_le hunbounded hstate (hapart l _ hl hstate) hpacks (by omega)).1
  omega

/-! ## The schedule -/

/-- All of these blocks are on schedule. -/
def AllOnSchedule (n : Node) (made : List BlockId) : Prop :=
  ∀ l, n.ledger = some l → ∀ x ∈ made, l.OnSchedule x

namespace AllOnSchedule

theorem of_kept (h : AllOnSchedule n made) (hkept : n'.ledger = n.ledger) : AllOnSchedule n' made :=
  fun l hl => h l (hkept ▸ hl)

theorem of_step (h : AllOnSchedule n made) (hn : n.Reachable) {l' : Ledger} {a : Ledger.Action}
    (hl : n.ledger = some l) (hl' : n'.ledger = some l') (hstep : Ledger.Step l a l') :
    AllOnSchedule n' made := by
  intro m hm x hx
  obtain rfl := Option.some.inj (hl'.symm.trans hm)
  exact (h l hl x hx).step (hn.plain hl).unbounded.reachable.wellFormed hstep

theorem of_made (h : AllOnSchedule n made) (hn : n.Reachable) {id : BlockId}
    (hmade : MadeOnSchedule n n' id) : AllOnSchedule n' (id :: made) := by
  obtain ⟨l, l', o, hl, hl', hstep, hschedule⟩ := hmade
  intro m hm
  obtain rfl := Option.some.inj (hl'.symm.trans hm)
  exact List.forall_mem_cons.2 ⟨hschedule, h.of_step hn hl hl' hstep l' hl'⟩

end AllOnSchedule

theorem Session.allOnSchedule (h : Session n made) : AllOnSchedule n made := by
  induction h with
  | new =>
      intro l hl
      cases hl
  | genesis _ _ _ => exact fun l _ x hx => absurd hx List.not_mem_nil
  | @setProofOfWork n n' made enabled hsession hcall ih =>
      unfold Node.setProofOfWork at hcall
      split at hcall
      · cases hcall
      rename_i l hledger
      rw [← Except.ok.inj hcall]
      exact ih.of_step hsession.reachable hledger rfl (.proofOfWork enabled)
  | setMiner miner _ ih => exact ih
  | setNowMs now _ ih => exact ih
  | submitTx _ hcall ih => exact ih.of_kept (submitTx_kept hcall).1
  | submitSigned _ hcall ih => exact ih.of_kept (submitSigned_kept hcall).1
  | pool _ hcall ih => exact ih.of_kept (pool_kept hcall).1
  | sendTo hsession hcall ih =>
      exact ih.of_made hsession.reachable (sendTo_onSchedule hsession.reachable hcall)
  | produceNone _ hcall ih =>
      obtain rfl : _ = _ := produceBlock_cases hcall
      exact ih
  | produceBlock hsession hapart hcall ih =>
      exact ih.of_made hsession.reachable (produceBlock_onSchedule hsession.reachable hapart hcall)
  | produceEmpty hsession hcall ih =>
      exact ih.of_made hsession.reachable (produceEmpty_onSchedule hsession.reachable hcall)
  | receiveBlock hsession hcall ih =>
      rcases receiveBlock_cases hcall with rfl | ⟨_, l, l', o, hledger, hoffer, hledger'⟩
      · exact ih
      · exact ih.of_step hsession.reachable hledger hledger' (.accepted hoffer)

/-- Every block that is stored mints at most the subsidy and the fees of its own
transactions in its view, and every block the node has made itself at most the issuance
of the blocks in its past and these fees. -/
theorem emission_bounded :
    (∀ n l, Reachable n → n.ledger = some l → ∀ x ∈ l.dag.nodes, x ≠ l.genesis →
      l.MintsWithin x l.subsidy.val) ∧
    ∀ n made l, Session n made → n.ledger = some l → ∀ x ∈ made, x ∈ l.dag.nodes ∧
      l.MintsWithin x (issuanceAt l.subsidy (Word.cast 64 (l.dag.node x).pastSize)).val := by
  refine ⟨fun n l hn hl x hx _ => ?_, fun n made l hsession hl x hx => ?_⟩
  · exact (hn.plain hl).unbounded.reachable.wellFormed.mintsWithin_subsidy hx
  · exact hsession.allOnSchedule l hl x hx

end Node

end Emission

namespace Node

open scoped Passing
open Reference (noTxs vec)
open Chained (first)

/-- A node that has packed a pending transaction with a fee into a block of its own, and has
then received a block of a peer next to it. -/
theorem emission_bounded_packed : ∃ n l x y, Session n [x] ∧ n.ledger = some l ∧
    (∃ tx ∈ l.dag.blockTxs x, tx = first) ∧ y ∈ l.dag.nodes ∧ y ≠ l.genesis ∧
    l.MintsWithin y l.subsidy.val ∧
    l.MintsWithin x (issuanceAt l.subsidy (Word.cast 64 (l.dag.node x).pastSize)).val := by
  have hcheck : (Node.new.genesis ⟨.sorted, 0⟩ 3 10 10 1).toOption.any (fun founded =>
      (founded.2.submitTx first).toOption.any fun submitted =>
        (submitted.2.ledger.any fun l => (l.ledgerState .sorted).any fun state =>
          decide (l.IdsApart (submitted.2.selected ⟨.sorted, 0⟩ l state))) &&
        (submitted.2.produceBlock ⟨.sorted, 0⟩).toOption.any fun produced =>
          produced.1.any fun x => produced.2.ledger.any fun l₀ =>
            (produced.2.receiveBlock ⟨.sorted, 0⟩ ⟨vec [l₀.genesis], 1, 0, 0, noTxs⟩).toOption.any
              fun received => received.2.ledger.any fun l =>
                decide ((∃ tx ∈ l.dag.blockTxs x, tx = first) ∧ received.1 ∈ l.dag.nodes ∧
                  received.1 ≠ l.genesis)) = true := by
    decide +kernel
  obtain ⟨⟨_, n₀⟩, hgenesis, hsubmits⟩ := Option.any_eq_true _ _ |>.1 hcheck
  obtain ⟨⟨_, n₁⟩, hsubmit, hboth⟩ := Option.any_eq_true _ _ |>.1 hsubmits
  obtain ⟨hapart, hproduces⟩ := Bool.and_eq_true_iff.1 hboth
  obtain ⟨⟨made, n₂⟩, hproduce, hmade⟩ := Option.any_eq_true _ _ |>.1 hproduces
  obtain ⟨x, hx, hledger⟩ := Option.any_eq_true _ _ |>.1 hmade
  obtain ⟨l₀, _, hreceives⟩ := Option.any_eq_true _ _ |>.1 hledger
  obtain ⟨⟨y, n⟩, hreceive, hafter⟩ := Option.any_eq_true _ _ |>.1 hreceives
  obtain ⟨l, hl, hdec⟩ := Option.any_eq_true _ _ |>.1 hafter
  obtain ⟨hpacked, hmem, hne⟩ := of_decide_eq_true hdec
  dsimp only at hx
  subst hx
  have hsession : Session n [x] := by
    refine .receiveBlock (.produceBlock (.submitTx (.genesis .new (ok_of_toOption hgenesis))
      (ok_of_toOption hsubmit)) (fun l state hl hstate => ?_) (ok_of_toOption hproduce))
      (ok_of_toOption hreceive)
    obtain ⟨l', hl', hstates⟩ := Option.any_eq_true _ _ |>.1 hapart
    obtain ⟨state', hstate', hdec'⟩ := Option.any_eq_true _ _ |>.1 hstates
    obtain rfl := Option.some.inj (hl.symm.trans hl')
    obtain rfl := Option.some.inj (hstate.symm.trans hstate')
    exact of_decide_eq_true hdec'
  exact ⟨n, l, x, y, hsession, hl, hpacked, hmem, hne,
    emission_bounded.1 n l hsession.reachable hl y hmem hne,
    (emission_bounded.2 n [x] l hsession hl x (List.mem_singleton.2 rfl)).2⟩

end Node

end Kovanica
