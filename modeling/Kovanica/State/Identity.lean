import Kovanica.State.Tx

/-!
# What ids and signatures commit to

The bytes hashed for a block's id and for a transaction's signatures determine
what they are hashed from.  There is no decoder for the signature-free encoding;
each of its fields delimits itself.

## Main results

* `preimage_new_iff`: equal bytes for ids, equal blocks up to the order of parents.
* `encodeInto_false_iff`: equal bytes for signatures, equal transactions up to the signatures.
-/

namespace Kovanica

open Lib

namespace Block

/-- The hashed bytes of two new blocks: the listed parents count as a set. -/
theorem preimage_new_iff {parents parents' : Vec BlockId} {work work' : U128}
    {timestampMs timestampMs' nonce nonce' : U64} {payload payload' : Vec U8} :
    (new parents work timestampMs nonce payload).preimage =
        (new parents' work' timestampMs' nonce' payload').preimage ↔
      (∀ p, p ∈ parents.val ↔ p ∈ parents'.val) ∧ work = work' ∧ timestampMs = timestampMs' ∧
        nonce = nonce' ∧ payload = payload' := by
  rw [preimage_injective.eq_iff]
  constructor
  · intro h
    refine ⟨fun p => ?_, congrArg Block.work h, congrArg Block.timestampMs h,
      congrArg Block.nonce h, congrArg Block.payload h⟩
    have hmem : p ∈ (new parents work timestampMs nonce payload).parents ↔
        p ∈ (new parents' work' timestampMs' nonce' payload').parents := by rw [h]
    rwa [mem_parents_new, mem_parents_new] at hmem
  · intro ⟨hparents, hwork, htime, hnonce, hpayload⟩
    have hset : parents.val.toFinset = parents'.val.toFinset := by
      ext p
      rw [List.mem_toFinset, List.mem_toFinset]
      exact hparents p
    exact Block.ext (congrArg ascending hset) hwork htime hnonce hpayload

end Block

namespace Transaction

/-- A transaction whose lists are vectors: their lengths are `usize`s, as those of every
transaction of a running program are. -/
abbrev Sized : Type :=
  { tx : Transaction //
    tx.inputs.length < 2 ^ 64 ∧ tx.outputs.length < 2 ^ 64 ∧ tx.tag.length < 2 ^ 64 }

/-- The outpoints a transaction spends, in order. -/
def spent (tx : Transaction) : List OutPoint := tx.inputs.map TxInput.outpoint

/-- An input without its signature. -/
def encodeOutPoint (op : OutPoint) : List U8 := op.tx.bytes.val ++ toLeBytes 4 op.index.val

theorem delimited_encodeOutPoint : Delimited Set.univ encodeOutPoint := by
  intro op _ op' _ u v heq
  simp only [encodeOutPoint, List.append_assoc] at heq
  obtain ⟨htx, heq⟩ := Delimited.bytes 32 (Set.mem_univ op.tx.bytes) (Set.mem_univ op'.tx.bytes) heq
  obtain ⟨hindex, htail⟩ := Delimited.word_append (by decide) heq
  exact ⟨OutPoint.key_injective (congrArg toLex
    (Prod.ext (TxId.bytes_injective htx) hindex)), htail⟩

theorem delimited_encodeOutput : Delimited Set.univ encodeOutput := by
  intro output _ output' _ u v heq
  simp only [encodeOutput, List.append_assoc] at heq
  obtain ⟨hvalue, heq⟩ := Delimited.word_append (by decide) heq
  obtain ⟨howner, htail⟩ := Delimited.bytes 32 (Set.mem_univ output.owner.bytes)
    (Set.mem_univ output'.owner.bytes) heq
  cases output
  cases output'
  exact ⟨congrArg₂ TxOutput.mk hvalue (Address.bytes_injective howner), htail⟩

/-- Without signatures only the outpoints of the inputs are written. -/
theorem encodeInto_false (tx : Transaction) :
    tx.encodeInto false = toLeBytes 8 tx.spent.length ++ tx.spent.flatMap encodeOutPoint ++
      (toLeBytes 8 tx.outputs.length ++ tx.outputs.flatMap encodeOutput) ++
        (toLeBytes 8 tx.tag.length ++ tx.tag) := by
  have hinput : encodeInput false = fun input => encodeOutPoint input.outpoint := by
    funext input
    simp [encodeInput, encodeOutPoint]
  rw [encodeInto, spent, List.length_map, List.flatMap_map, hinput]

/-- The signature-free bytes of two transactions. -/
theorem encodeInto_false_iff (tx tx' : Sized) :
    tx.val.encodeInto false = tx'.val.encodeInto false ↔
      tx.val.spent = tx'.val.spent ∧ tx.val.outputs = tx'.val.outputs ∧
        tx.val.tag = tx'.val.tag := by
  rw [encodeInto_false, encodeInto_false]
  constructor
  · intro h
    simp only [List.append_assoc (_ ++ _)] at h
    obtain ⟨tx, hinputs, houtputs, htag⟩ := tx
    obtain ⟨tx', hinputs', houtputs', htag'⟩ := tx'
    have hspent : ∀ {t : Transaction}, t.inputs.length < 2 ^ 64 →
        t.spent.length < 2 ^ 64 ∧ ∀ op ∈ t.spent, op ∈ Set.univ :=
      fun ht => ⟨by rwa [spent, List.length_map], fun op _ => Set.mem_univ op⟩
    obtain ⟨hin, h⟩ := delimited_encodeOutPoint.counted (hspent hinputs) (hspent hinputs') h
    obtain ⟨hout, h⟩ := delimited_encodeOutput.counted
      ⟨houtputs, fun o _ => Set.mem_univ o⟩ ⟨houtputs', fun o _ => Set.mem_univ o⟩ h
    exact ⟨hin, hout, Delimited.countedBytes.injOn htag htag' h⟩
  · intro ⟨hin, hout, htag⟩
    rw [hin, hout, htag]

end Transaction

/-- The bytes hashed for the id of a new block determine the set of its parents and
its other fields; those hashed for the signatures of a transaction determine what it
spends, in order, its outputs and its tag. -/
theorem preimages_unambiguous :
    (∀ (parents parents' : Vec BlockId) (work work' : U128)
      (timestampMs timestampMs' nonce nonce' : U64) (payload payload' : Vec U8),
      (Block.new parents work timestampMs nonce payload).preimage =
          (Block.new parents' work' timestampMs' nonce' payload').preimage ↔
        (∀ p, p ∈ parents.val ↔ p ∈ parents'.val) ∧ work = work' ∧ timestampMs = timestampMs' ∧
          nonce = nonce' ∧ payload = payload') ∧
    ∀ tx tx' : Transaction.Sized,
      tx.val.encodeInto false = tx'.val.encodeInto false ↔
        tx.val.inputs.map TxInput.outpoint = tx'.val.inputs.map TxInput.outpoint ∧
          tx.val.outputs = tx'.val.outputs ∧ tx.val.tag = tx'.val.tag :=
  ⟨fun _ _ _ _ _ _ _ _ _ _ => Block.preimage_new_iff, Transaction.encodeInto_false_iff⟩

end Kovanica
