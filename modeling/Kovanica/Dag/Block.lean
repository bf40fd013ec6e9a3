import Kovanica.Lib.Collections
import Kovanica.Lib.Prefix
import Kovanica.Runtime
import Mathlib.Data.Prod.Lex
import Mathlib.Data.List.Lex

/-!
# Blocks and their identity

A block may reference several parents.  Its parents are kept sorted and
de-duplicated, which is a field of the structure here, and its id is the
BLAKE3 digest of a canonical encoding that lists every field.

## Main results

* `preimage_injective`: the hashed bytes determine the block.
* `eq_of_id_eq`: so among blocks on whose bytes BLAKE3 does not collide, an id stands for one
  block.
* `injOn_blake3`: for blocks that are listed this is seen by evaluating the hashes.
-/

namespace Kovanica

open Lib

/-- 32-byte digest identifying a block, ordered by its raw bytes.  The order breaks every tie of
the consensus, so that no two blocks are ever of equal rank. -/
structure BlockId where
  bytes : Bytes 32

namespace BlockId

theorem bytes_injective : Function.Injective BlockId.bytes := by
  rintro ⟨a⟩ ⟨b⟩ h
  exact congrArg BlockId.mk h

instance : LinearOrder BlockId := LinearOrder.lift' BlockId.bytes bytes_injective

instance : LawfulBEq BlockId := inferInstance

instance : Inhabited BlockId := ⟨⟨default⟩⟩

/-- `Display`: the full digest. -/
def display (id : BlockId) : String := hexEncode id.bytes.val

end BlockId

/-- A vertex of the DAG.  `payload` is opaque to consensus; that the parents are sorted and without
repetition is a field, so every block there is has a canonical encoding. -/
@[ext] structure Block where
  parents : List BlockId
  parents_sorted : parents.Pairwise (· < ·)
  parents_fit : parents.length < 2 ^ 64
  work : U128
  timestampMs : U64
  nonce : U64
  payload : Vec U8

namespace Block

instance : Inhabited Block := ⟨⟨[], .nil, by decide, 0, 0, 0, ⟨[], by decide⟩⟩⟩

private theorem ascending_toFinset_fit (parents : Vec BlockId) :
    (ascending parents.val.toFinset).length < 2 ^ 64 := by
  have hlen : (ascending parents.val.toFinset).length = parents.val.toFinset.card := by
    rw [← Multiset.coe_card, coe_ascending, Finset.card_val]
  rw [hlen]
  exact lt_of_le_of_lt (List.toFinset_card_le _) parents.property

/-- `Block::new`: the parents are sorted and de-duplicated, so lists with the same members give
the same block. -/
def new (parents : Vec BlockId) (work : U128) (timestampMs nonce : U64) (payload : Vec U8) :
    Block where
  parents := ascending parents.val.toFinset
  parents_sorted := ascending_strict _
  parents_fit := ascending_toFinset_fit parents
  work := work
  timestampMs := timestampMs
  nonce := nonce
  payload := payload

/-- `Block::genesis`: no parents. -/
def genesis (work : U128) (timestampMs nonce : U64) (payload : Vec U8) : Block where
  parents := []
  parents_sorted := .nil
  parents_fit := by decide
  work := work
  timestampMs := timestampMs
  nonce := nonce
  payload := payload

/-- `with_nonce`: the miner's copy of a block. -/
def withNonce (b : Block) (nonce : U64) : Block := { b with nonce := nonce }

/-- The bytes that are hashed: every field, little-endian, with length prefixes.  The parents are
written in their sorted order, so a set of parents has one encoding. -/
def preimage (b : Block) : List U8 :=
  toLeBytes 8 b.parents.length ++ b.parents.flatMap (fun p => p.bytes.val) ++
    toLeBytes 16 b.work.val ++ toLeBytes 8 b.timestampMs.val ++ toLeBytes 8 b.nonce.val ++
    toLeBytes 8 b.payload.val.length ++ b.payload.val

/-- The content-derived id: the digest of the pre-image, in which every field has a fixed width or
comes under its length. -/
def id [Crypto] (b : Block) : BlockId := ⟨Crypto.blake3 b.preimage⟩

@[simp] theorem mem_parents_new {parents : Vec BlockId} {work : U128}
    {timestampMs nonce : U64} {payload : Vec U8} {p : BlockId} :
    p ∈ (new parents work timestampMs nonce payload).parents ↔ p ∈ parents.val := by
  simp [new]

/-! ## The hashed bytes determine the block -/

theorem delimited_id : Delimited Set.univ fun p : BlockId => p.bytes.val := by
  intro p _ p' _ u v heq
  obtain ⟨hbytes, htail⟩ := Delimited.bytes 32 (Set.mem_univ p.bytes) (Set.mem_univ p'.bytes) heq
  exact ⟨BlockId.bytes_injective hbytes, htail⟩

/-- Blocks with the same hashed bytes are the same. -/
theorem preimage_injective : Function.Injective preimage := by
  intro b b' h
  simp only [preimage, List.append_assoc] at h
  rw [← List.append_assoc, ← List.append_assoc (toLeBytes 8 b'.parents.length)] at h
  obtain ⟨hparents, h⟩ := delimited_id.counted ⟨b.parents_fit, fun p _ => Set.mem_univ p⟩
    ⟨b'.parents_fit, fun p _ => Set.mem_univ p⟩ h
  obtain ⟨hwork, h⟩ := Delimited.word_append (by decide) h
  obtain ⟨htime, h⟩ := Delimited.word_append (by decide) h
  obtain ⟨hnonce, h⟩ := Delimited.word_append (by decide) h
  have hpayload := Delimited.countedBytes.injOn b.payload.property b'.payload.property h
  exact Block.ext hparents hwork htime hnonce (Subtype.ext hpayload)

/-- Where BLAKE3 has no collision among the hashed blocks, ids tell them apart. -/
theorem eq_of_id_eq [Crypto] {S : Set Block} (h : Set.InjOn Crypto.blake3 (preimage '' S))
    {b b' : Block} (hb : b ∈ S) (hb' : b' ∈ S) (hid : b.id = b'.id) : b = b' :=
  preimage_injective (h (Set.mem_image_of_mem _ hb) (Set.mem_image_of_mem _ hb')
    (BlockId.mk.inj hid))

/-- BLAKE3 has no collision among blocks whose hashed bytes are listed and hash apart. -/
theorem injOn_blake3 [Crypto] {bytes : List (List U8)} {S : Set Block}
    (hS : ∀ b ∈ S, b.preimage ∈ bytes)
    (h : ∀ x ∈ bytes, ∀ y ∈ bytes, Crypto.blake3 x = Crypto.blake3 y → x = y) :
    Set.InjOn Crypto.blake3 (preimage '' S) := by
  rintro _ ⟨b, hb, rfl⟩ _ ⟨b', hb', rfl⟩ heq
  exact h _ (hS b hb) _ (hS b' hb') heq

end Block

end Kovanica
