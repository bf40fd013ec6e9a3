import Kovanica.Lib.Blake3
import Kovanica.State.Tx

/-!
# The packages on the inputs evaluated here

The theorems hold of any packages.  Where one is evaluated on an input, BLAKE3 is
the hash itself, and ed25519 is a table of the keys and signatures that occur.
-/

namespace Kovanica.Reference

open Lib

/-- The `n` big-endian base-256 digits of `v`. -/
def bytesOf (n v : Nat) : Bytes n := ⟨(toLeBytes n v).reverse, by simp⟩

/-- The seed `KeyPair::from_u64(1)` signs with. -/
def seed : Bytes 32 := bytesOf 32 (2 ^ 248)

/-- Its public key. -/
def key : Bytes 32 :=
  bytesOf 32 0xcecc1507dc1ddd7295951c290888f095adb9044d1b73d696e6df065d683bd4fc

/-- A message signed with it: the hash of a spend of the whole premine. -/
def message : Bytes 32 :=
  bytesOf 32 0xd25e384d22b398c5f5a0264df4010cb23cbf27e852e820d53c6a80e8e004cfb7

/-- The signature. -/
def signature : Bytes 64 :=
  bytesOf 64 (0x5fddca90a13bef14535a1f7dad2abaa627d20c8859eef921c0feeb8bf2b882be * 2 ^ 256 +
    0xfa653549aee23b90f0e736dd937a76798226c9b33ab3f2a99f0d50c19d68a604)

/-- BLAKE3, and ed25519 on the inputs above. -/
scoped instance packages : Crypto where
  blake3 := Blake3.hash
  validKey k := decide (k = key)
  verifyStrict k msg sig := decide (k = key ∧ msg = message.val ∧ sig = signature)
  publicKey s := if s = seed then key else bytesOf 32 0
  sign s msg := if s = seed ∧ msg = message.val then signature else bytesOf 64 0

/-- BLAKE3, and ed25519 on the same seed and any messages with their signatures.  The signatures
are those that ed25519 gives; on other messages nothing is verified. -/
abbrev signing (signed : List (Bytes 32 × Bytes 64)) : Crypto where
  blake3 := Blake3.hash
  validKey k := decide (k = key)
  verifyStrict k msg sig := decide (k = key ∧ ∃ m ∈ signed, m.1.val = msg ∧ m.2 = sig)
  publicKey s := if s = seed then key else bytesOf 32 0
  sign s msg :=
    if s = seed then ((signed.find? fun m => m.1.val = msg).map Prod.snd).getD (bytesOf 64 0)
    else bytesOf 64 0

/-- The vector of a short list. -/
def vec {α : Type} (items : List α) : Vec α := (Vec.ofList? items).getD default

/-! ## Transactions and blocks -/

/-- The owner of the key. -/
def founder : Address := ⟨key⟩

/-- A coinbase of one unit for the founder, tagged `genesis`. -/
def premine : Transaction := .coinbase [⟨1, founder⟩] [103, 101, 110, 101, 115, 105, 115]

/-- The spend of the premine back to the founder, signed. -/
def spend : Transaction := ⟨[⟨⟨premine.id, 0⟩, signature⟩], [⟨1, founder⟩], []⟩

def noTxs : TxList := ⟨[], by decide⟩

def premineTxs : TxList := ⟨[premine], by decide⟩

def spendTxs : TxList := ⟨[spend], by decide +kernel⟩

/-- A genesis without transactions. -/
def genesis : Block := .genesis 1 0 0 noTxs.payload

/-- A block of unit work and no transactions. -/
def block (parents : List BlockId) (timestampMs : U64) : Block :=
  .new (vec parents) 1 timestampMs 0 noTxs.payload

/-- The genesis that carries the premine. -/
def premineGenesis : Block := .genesis 1 0 0 premineTxs.payload

/-! Two blocks on the genesis, and one that merges them. -/

def left : Block := block [genesis.id] 1

def right : Block := block [genesis.id] 2

def merge : Block := block [left.id, right.id] 3

end Kovanica.Reference

namespace Kovanica

open Lib

/-! ## Payments, one out of the other -/

namespace Passing

open Reference (bytesOf founder seed signing)

/-- The payments as they are signed: nine of ten units, and seven or eight of these nine. -/
def signed : List (Bytes 32 × Bytes 64) :=
  [(bytesOf 32 0x951176c91aa7a73188d370c8470499e03af06dd8112faf96fad59f90fc43cce5,
    bytesOf 64 (0x01cddca7b70056ab9cf029c50295fba5ab9c3fe67d5c241513c5982908237bf7 * 2 ^ 256 +
      0x6c48824961847a5654b23fc875f46eb726d7addcae05348c9c10cf8bbe823c08)),
   (bytesOf 32 0x268806d87e1921057940c9a8b0df8377c709df20f4f55d7dc64f525b75b91ca0,
    bytesOf 64 (0xbc426bc036fcc51f3ced7739fb473c7c5ca24df1980f990783e80ee6d7369cf9 * 2 ^ 256 +
      0x4b3b288d6e749d7dbf4ba86869193be16035f253aa364605749418ff27df110f)),
   (bytesOf 32 0x6bd05494be04c080b88833e75096930fb27f3911d273d600ce922c883a198802,
    bytesOf 64 (0xe93f3bb1b424d50195680ebbf55e89edf29672370ff82fe3af4138106e407d23 * 2 ^ 256 +
      0x1dcef3c04f064e306244bca49a585f17950414d2530433145643ce004bf6b50e))]

scoped instance packages : Crypto := signing signed

/-- A coinbase of ten units for the founder, tagged `genesis`. -/
def grant : Transaction := .coinbase [⟨10, founder⟩] [103, 101, 110, 101, 115, 105, 115]

/-- The output under the outpoint, less what is paid, back to the founder. -/
def pass (op : OutPoint) (value : U64) : Transaction :=
  let tx := Transaction.unsigned [op] [⟨value, founder⟩] []
  tx.attachSignature 0 (Crypto.sign seed tx.sighash)

/-- Nine of the ten units. -/
def nine : Transaction := pass ⟨grant.id, 0⟩ 9

/-- Seven of these nine. -/
def seven : Transaction := pass ⟨nine.id, 0⟩ 7

end Passing

end Kovanica
