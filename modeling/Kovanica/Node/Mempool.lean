import Kovanica.State.Apply

/-!
# The mempool

Transactions a node has accepted but not yet packed into a block, each under its
own id.  Nothing is validated here; that happens when a block is assembled.

What is there under an id stays, whoever offers the same id again.  The pending transactions are
kept in a hash map, and what depends on their order sorts them first.
-/

namespace Kovanica

open Lib

/-- The pending transactions, by id.  The pool does not ask whether they can be spent; what has
become invalid is evicted when the ledger has grown. -/
structure Mempool where
  pending : Finmap fun _ : TxId => Transaction

namespace Mempool

def empty : Mempool := ⟨∅⟩

/-- `add(tx)`: a transaction with the same id is kept, and the one that is added is dropped. -/
def add [Crypto] (pool : Mempool) (tx : Transaction) : Mempool :=
  if tx.id ∈ pool.pending then pool else ⟨pool.pending.insert tx.id tx⟩

def get (pool : Mempool) (id : TxId) : Option Transaction := pool.pending.lookup id

def len (pool : Mempool) : Nat := pool.pending.keys.card

def isEmpty (pool : Mempool) : Bool := decide (pool.pending.keys = ∅)

/-- `ordered()`: the pending transactions by id, in the order a miner tries them. -/
def ordered [Crypto] (ord : HashOrder) (pool : Mempool) : List Transaction :=
  sortByKey Transaction.id ((ord.entries pool.pending).map Prod.snd)

/-- `remove_all(ids)`. -/
def removeAll (pool : Mempool) (ids : List TxId) : Mempool :=
  ⟨ids.foldl (fun pending id => pending.erase id) pool.pending⟩

/-- `evict_invalid(utxo)`: drop the transactions with an input that is not
unspent. -/
def evictInvalid (ord : HashOrder) (pool : Mempool) (utxo : UtxoSet) : Mempool :=
  let invalid := (ord.entries pool.pending).filter fun entry =>
    !entry.2.inputs.all fun input => decide (input.outpoint ∈ utxo)
  pool.removeAll (invalid.map Prod.fst)

/-! ## What a mempool holds -/

section Filed

variable [Crypto] {pool : Mempool} {id : TxId} {tx : Transaction}

/-- Every transaction is under its own id, and none is a coinbase.  Nothing else is promised of
what is pending. -/
structure Filed (pool : Mempool) : Prop where
  id_eq : ∀ id tx, pool.get id = some tx → tx.id = id
  spend : ∀ id tx, pool.get id = some tx → tx.isCoinbase = false

theorem Filed.empty : Mempool.empty.Filed where
  id_eq := fun _ _ h => by cases h
  spend := fun _ _ h => by cases h

/-- What is pending after an addition was pending or is what was added. -/
theorem get_add {found : Transaction} (hfound : (pool.add tx).get id = some found) :
    pool.get id = some found ∨ (tx.id = id ∧ tx = found) := by
  unfold Mempool.add at hfound
  split at hfound
  · exact .inl hfound
  · by_cases hid : id = tx.id
    · subst hid
      rw [Mempool.get, Finmap.lookup_insert] at hfound
      exact .inr ⟨rfl, Option.some.inj hfound⟩
    · rw [Mempool.get, Finmap.lookup_insert_of_ne _ hid] at hfound
      exact .inl hfound

theorem Filed.add (h : pool.Filed) (hspend : tx.isCoinbase = false) : (pool.add tx).Filed := by
  constructor
  · intro id found hfound
    rcases get_add hfound with hold | ⟨hid, rfl⟩
    · exact h.id_eq id found hold
    · exact hid
  · intro id found hfound
    rcases get_add hfound with hold | ⟨_, rfl⟩
    · exact h.spend id found hold
    · exact hspend

omit [Crypto] in
theorem get_removeAll {ids : List TxId} :
    (pool.removeAll ids).get id = if id ∈ ids then none else pool.get id := by
  rw [removeAll, get, lookup_foldl_erase (fun id => id), List.map_id']
  rfl

theorem Filed.removeAll (h : pool.Filed) (ids : List TxId) : (pool.removeAll ids).Filed := by
  have hold : ∀ id found, (pool.removeAll ids).get id = some found →
      pool.get id = some found := by
    intro id found hfound
    rw [get_removeAll] at hfound
    split at hfound
    · cases hfound
    · exact hfound
  exact ⟨fun id found hfound => h.id_eq id found (hold id found hfound),
    fun id found hfound => h.spend id found (hold id found hfound)⟩

theorem Filed.evictInvalid (h : pool.Filed) (ord : HashOrder) (utxo : UtxoSet) :
    (pool.evictInvalid ord utxo).Filed := h.removeAll _

theorem mem_ordered {ord : HashOrder} : tx ∈ pool.ordered ord ↔ ∃ id, pool.get id = some tx := by
  rw [ordered, mem_sortByKey, List.mem_map]
  constructor
  · intro ⟨entry, hentry, heq⟩
    rw [HashOrder.mem_entries, heq] at hentry
    exact ⟨entry.1, hentry⟩
  · intro ⟨id, hid⟩
    exact ⟨(id, tx), HashOrder.mem_entries ord |>.2 hid, rfl⟩

theorem Filed.spend_of_mem_ordered (h : pool.Filed) {ord : HashOrder}
    (htx : tx ∈ pool.ordered ord) : tx.isCoinbase = false := by
  obtain ⟨id, hid⟩ := mem_ordered.1 htx
  exact h.spend id tx hid

theorem Filed.ordered_ord (h : pool.Filed) (ord ord' : HashOrder) :
    pool.ordered ord = pool.ordered ord' := by
  have hid : ∀ {ord : HashOrder} {entry : TxId × Transaction}, entry ∈ ord.entries pool.pending →
      entry.2.id = entry.1 := fun hentry => h.id_eq _ _ (HashOrder.mem_entries _ |>.1 hentry)
  have hnodup : ∀ ord : HashOrder, ((ord.entries pool.pending).map Prod.snd).Nodup := by
    intro ord
    refine List.Nodup.map_on (fun e he e' he' heq => ?_) (ord.nodup_entries _)
    exact Prod.ext ((hid he).symm.trans ((congrArg Transaction.id heq).trans (hid he'))) heq
  refine sortByKey_eq_of_mem_iff (hnodup ord) (hnodup ord') (fun tx => ?_) ?_
  · simp only [List.mem_map, HashOrder.mem_entries]
  · intro tx htx tx' htx' heq
    obtain ⟨e, he, rfl⟩ := List.mem_map.1 htx
    obtain ⟨e', he', rfl⟩ := List.mem_map.1 htx'
    have hlookup := HashOrder.mem_entries _ |>.1 he
    have hlookup' := HashOrder.mem_entries _ |>.1 he'
    rw [← hid he, heq, hid he', hlookup'] at hlookup
    exact (Option.some.inj hlookup).symm

omit [Crypto] in
theorem removeAll_congr {ids ids' : List TxId} (h : ∀ id, id ∈ ids ↔ id ∈ ids') :
    pool.removeAll ids = pool.removeAll ids' := by
  have hget : ∀ id, (pool.removeAll ids).get id = (pool.removeAll ids').get id := by
    intro id
    rw [get_removeAll, get_removeAll]
    simp only [h]
  exact congrArg Mempool.mk (Finmap.ext_lookup hget)

omit [Crypto] in
theorem evictInvalid_ord (ord ord' : HashOrder) (utxo : UtxoSet) :
    pool.evictInvalid ord utxo = pool.evictInvalid ord' utxo := by
  apply removeAll_congr
  intro id
  simp only [List.mem_map, List.mem_filter, HashOrder.mem_entries]

end Filed

end Mempool

end Kovanica
