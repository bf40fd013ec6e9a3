import Kovanica.State.Restore

/-!
# Snapshots of a ledger

A ledger snapshot is the subsidy followed by the snapshot of the DAG.  Loading
one restores the blocks, the consensus data and the states of the ledger it was
taken from, but neither its finality depth nor its policies.

## Main results

* `readSnapshot_eq`: behind a well-formed header the reader goes on with the DAG.
* `Reachable.exists_readSnapshot`: the snapshot of a reachable ledger can be read.
-/

namespace Kovanica

open Lib Relation

namespace Ledger

/-- The magic prefix, `"KVLG"`. -/
def snapshotMagic : Bytes 4 := ⟨[75, 86, 76, 71], rfl⟩

def snapshotVersion : U16 := 1

/-- `write_snapshot()`: the subsidy under a header of its own, and then the snapshot of the DAG.
The finality depth is not written. -/
def writeSnapshot (ord : HashOrder) (l : Ledger) : List U8 :=
  snapshotMagic.val ++ toLeBytes 2 snapshotVersion.val ++ toLeBytes 8 l.subsidy.val ++
    l.dag.writeSnapshot ord

/-- `Ledger::read_snapshot(bytes)`: the header takes 14 bytes.  What follows is decoded as a
snapshot of a DAG and replayed into a new ledger. -/
def readSnapshot [Crypto] (ord : HashOrder) (bytes : List U8) :
    Outcome LedgerSnapshotError Ledger :=
  if bytes.length < 4 ∨ bytes.take 4 ≠ snapshotMagic.val then .error (.error .badMagic)
  else if bytes.length < 14 then .error (.error (.dag .unexpectedEof))
  else
    let version : U16 := Word.cast 16 (ofLeBytes ((bytes.drop 4).take 2))
    if version ≠ snapshotVersion then .error (.error (.unsupportedVersion version))
    else
      let subsidy : U64 := Word.cast 64 (ofLeBytes ((bytes.drop 6).take 8))
      match decodeSnapshot (bytes.drop 14) with
      | .error e => .error (.error (.dag e))
      | .ok snapshot =>
          match snapshot.blocks with
          | [] => .error (.error .empty)
          | genesis :: blocks =>
              match restoreGenesis ord snapshot.k subsidy genesis with
              | .error e => .error e
              | .ok l => restoreBlocks ord l blocks

variable [Crypto]

/-! ## Round trip -/

/-- Behind a well-formed header comes the DAG. -/
theorem readSnapshot_eq (ord : HashOrder) (subsidy : U64) (bytes : List U8) :
    readSnapshot ord (snapshotMagic.val ++ toLeBytes 2 snapshotVersion.val ++
      toLeBytes 8 subsidy.val ++ bytes) =
      match decodeSnapshot bytes with
      | .error e => .error (.error (.dag e))
      | .ok snapshot =>
          match snapshot.blocks with
          | [] => .error (.error .empty)
          | genesis :: blocks =>
              match restoreGenesis ord snapshot.k subsidy genesis with
              | .error e => .error e
              | .ok l => restoreBlocks ord l blocks := by
  have hmagic : snapshotMagic.val.length = 4 := rfl
  have hversion := length_toLeBytes 2 snapshotVersion.val
  have hsubsidy := length_toLeBytes 8 subsidy.val
  generalize hheader : snapshotMagic.val ++ toLeBytes 2 snapshotVersion.val ++
    toLeBytes 8 subsidy.val ++ bytes = all
  have hlen : 14 ≤ all.length := by
    rw [← hheader]
    simp only [List.length_append, hmagic, hversion, hsubsidy]
    omega
  have htake : all.take 4 = snapshotMagic.val := by
    rw [← hheader, List.append_assoc, List.append_assoc, List.take_left' hmagic]
  have hver : (all.drop 4).take 2 = toLeBytes 2 snapshotVersion.val := by
    rw [← hheader, List.append_assoc, List.append_assoc, List.drop_left' hmagic,
      List.take_left' hversion]
  have hsub : (all.drop 6).take 8 = toLeBytes 8 subsidy.val := by
    rw [← hheader, List.append_assoc, List.drop_left' (by simp [hmagic, hversion]),
      List.take_left' hsubsidy]
  have hrest : all.drop 14 = bytes := by
    rw [← hheader, List.drop_left' (by simp [hmagic, hversion, hsubsidy])]
  have hcast : (Word.cast 64 (ofLeBytes (toLeBytes 8 subsidy.val)) : U64) = subsidy := by
    rw [ofLeBytes_toLeBytes 8 subsidy.val subsidy.isLt]
    exact Fin.ext (Word.cast_of_lt subsidy.isLt)
  have hone : (Word.cast 16 (ofLeBytes (toLeBytes 2 snapshotVersion.val)) : U16) =
      snapshotVersion := by decide
  unfold readSnapshot
  rw [if_neg (by rw [htake]; simp; omega), if_neg (by omega)]
  simp only [hver, hsub, hrest, hcast, hone, ne_eq, not_true_eq_false, if_false]

/-- A snapshot is read back, into an unbounded ledger without policies. -/
theorem Reachable.exists_readSnapshot {l : Ledger} (h : l.Reachable) (ord ord' : HashOrder) :
    ∃ m, readSnapshot ord' (l.writeSnapshot ord) = .ok m ∧ m.Unbounded ∧
      m.dag.difficulty = none ∧ m.dag.requirePow = false ∧ Restores l m := by
  have hl := h.wellFormed
  have hall : ∀ x ∈ l.dag.nodes, x ∈ (l.dag.orderedBlocks ord).map Block.id := by
    intro x hx
    rw [hl.dag.map_id_orderedBlocks, hl.dag.mem_linearize]
    exact hx
  obtain ⟨rest, m₀, m, hlist, hgenesis, hrestore, hm⟩ :=
    h.restore_ok (hl.dag.replayable_orderedBlocks ord) hall ord'
  refine ⟨m, ?_, hm⟩
  rw [writeSnapshot, readSnapshot_eq]
  simp only [hl.dag.decode_writeSnapshot ord, hlist, hgenesis, hrestore]

/-- A snapshot restores the ledger: the same parameters, blocks, tips, consensus
data and linearization, the same ledger state, the same state of every block that
still has one, and the same snapshot again. -/
theorem snapshot_restores {l : Ledger} (h : l.Reachable) (ord ord' ord'' : HashOrder) :
    ∃ m, readSnapshot ord' (l.writeSnapshot ord) = .ok m ∧ Restores l m ∧
      m.writeSnapshot ord'' = l.writeSnapshot ord := by
  obtain ⟨m, hread, hunbounded, _, _, hrestores⟩ := h.exists_readSnapshot ord ord'
  have hdag := DagView.writeSnapshot_congr hunbounded.reachable.wellFormed.dag h.wellFormed.dag
    hrestores.k_eq (fun x => (hrestores.consensus.block x).symm)
    (hrestores.consensus.linearize ord ord'').symm
  refine ⟨m, hread, hrestores, ?_⟩
  rw [writeSnapshot, writeSnapshot, hdag, hrestores.subsidy_eq]

end Ledger

namespace Ledger

open scoped Reference
open Reference (premineTxs noTxs spendOffer besideOffer)

/-- A ledger of finite finality with the spend of the premine next to an empty block
and a block that merges them. -/
theorem snapshot_restores_merge : ∃ l m : Ledger, l.dag.len = 4 ∧ l.finalityDepth = 2 ∧
    readSnapshot .sorted (l.writeSnapshot .sorted) = .ok m ∧ Restores l m := by
  have hplay : (playNew .sorted 3 1 premineTxs 2 [.offer spendOffer, .offer besideOffer,
      .offer (.on [spendOffer.block.id, besideOffer.block.id] 1 3 noTxs)]).map
        (fun played => (played.2.dag.len, played.2.finalityDepth)) = some (4, 2) := by
    decide +kernel
  obtain ⟨played, hplayed, heq⟩ := Option.map_eq_some_iff.1 hplay
  obtain ⟨hlen, hdepth⟩ := Prod.mk.inj heq
  obtain ⟨m, hread, hrestores, _⟩ :=
    snapshot_restores (reachable_of_playNew hplayed) .sorted .sorted .sorted
  exact ⟨played.2, m, hlen, hdepth, hread, hrestores⟩

end Ledger

end Kovanica
