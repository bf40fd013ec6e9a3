import Kovanica.Dag.Block

/-!
# Proof of work

A block meets its target when its id, read as a big-endian 256-bit integer,
times its work stays below `2 ^ 256`.  The product is computed limb by limb:
four 64-bit limbs of the id by two limbs of the work into six.

The loops are those of the source on natural numbers below `2 ^ 64` and `2 ^ 128`, with the
carries written out; that no addition in them is cut off is shown in `Dag.Target`.
-/

namespace Kovanica

open Lib

namespace Pow

/-- `u64::from_be_bytes`. -/
def ofBeBytes (bytes : List U8) : Nat := ofLeBytes bytes.reverse

/-- The id as four limbs, least significant first. -/
def idLimbs (id : BlockId) : List Nat :=
  (List.range 4).map fun i => ofBeBytes ((id.bytes.val.drop ((3 - i) * 8)).take 8)

/-- The work as two limbs. -/
def workLimbs (work : U128) : List Nat := [work.val % 2 ^ 64, work.val / 2 ^ 64]

/-- One row of the schoolbook product: `hi` times the limbs `ws`, added to
`prod` from index `idx` on.  Returns the product and the carry out of the row. -/
def mulRow (hi : Nat) : List Nat → (idx carry : Nat) → List Nat → List Nat × Nat
  | [], _, carry, prod => (prod, carry)
  | wj :: ws, idx, carry, prod =>
      let m := hi * wj + prod.getD idx 0 + carry
      mulRow hi ws (idx + 1) (m / 2 ^ 64 % 2 ^ 64) (prod.set idx (m % 2 ^ 64))

/-- Add `carry` to the limb at `idx` and on to the higher limbs, until nothing is carried or the
limbs end. -/
def propagate : (fuel idx carry : Nat) → List Nat → List Nat
  | 0, _, _, prod => prod
  | fuel + 1, idx, carry, prod =>
      if carry ≠ 0 ∧ idx < prod.length then
        let sum := prod.getD idx 0 + carry
        propagate fuel (idx + 1) (sum / 2 ^ 64 % 2 ^ 64) (prod.set idx (sum % 2 ^ 64))
      else prod

/-- The rows for the limbs `hs`, the first of them at position `i`: each limb of the id is
multiplied into the array, and its carry passed on. -/
def mulLimbs (ws : List Nat) : List Nat → (i : Nat) → List Nat → List Nat
  | [], _, prod => prod
  | hi :: hs, i, prod =>
      let row := mulRow hi ws i 0 prod
      mulLimbs ws hs (i + 1) (propagate row.1.length (i + ws.length) row.2 row.1)

/-- `meets_target(id, work)`: the two limbs from bit 256 on are clear.  A zero
work is treated as one. -/
def meetsTarget (id : BlockId) (work : U128) : Bool :=
  let prod := mulLimbs (workLimbs (max work 1)) (idLimbs id) 0 (List.replicate 6 0)
  prod.getD 4 0 == 0 && prod.getD 5 0 == 0

/-- `is_mined(block)`. -/
def isMined [Crypto] (block : Block) : Bool := meetsTarget block.id block.work

/-- Try `count` nonces from `nonce` on.  The first one whose block meets its target is taken, and
`none` says that none of them does. -/
def mineLoop [Crypto] (template : Block) : (count nonce : Nat) → Option Block
  | 0, _ => none
  | count + 1, nonce =>
      let candidate := template.withNonce (Word.cast 64 nonce)
      if meetsTarget candidate.id template.work then some candidate
      else mineLoop template count (nonce + 1)

/-- `mine_from(template, start)`: the first nonce in `start..=u64::MAX` that
meets the target. -/
def mineFrom [Crypto] (template : Block) (start : U64) : Option Block :=
  mineLoop template (2 ^ 64 - start.val) start.val

/-- `mine(template)`; `none` is the panic of an exhausted nonce range.  Nonces are tried from 0
on, and the first that meets the target is taken. -/
def mine [Crypto] (template : Block) : Option Block := mineFrom template 0

end Pow

end Kovanica
