import Kovanica.State.Accounting

/-!
# A block, transaction by transaction

The regular transactions of a block apply one after the other, each to what the ones
before have left.  `Packs` says so on its own; a block applies exactly when they pack,
their fees and the subsidy fit 64 bits together, and the coinbase applies last.

## Main results

* `applyTxs_spends_iff`, `applyBlock_spends_iff`: a block of spends applies exactly if they pack
  and their fees fit.
* `applyLast_reward_iff`: when a coinbase of one output applies behind them.
* `Packs.unique`: where they lead is determined.
-/

namespace Kovanica

open Lib

/-- The values of the words, not wrapped. -/
def sumOf (fees : List U64) : Nat := (fees.map fun fee => fee.val).sum

@[simp] theorem sumOf_nil : sumOf [] = 0 := rfl

@[simp] theorem sumOf_cons (fee : U64) (fees : List U64) :
    sumOf (fee :: fees) = fee.val + sumOf fees := List.sum_cons ..

/-- `Packs s txs fees s'`: the spends of the list apply one after the other, from `s` to
`s'`, and pay these fees. -/
inductive Packs [Crypto] : UtxoSet → List Transaction → List U64 → UtxoSet → Prop
  | nil {s : UtxoSet} : Packs s [] [] s
  | cons {s s' s'' : UtxoSet} {tx : Transaction} {txs : List Transaction} {fee : U64}
      {fees : List U64} : applyRegular s tx = .ok (s', fee) → Packs s' txs fees s'' →
      Packs s (tx :: txs) (fee :: fees) s''

variable [Crypto]

/-- What a list packs to is determined. -/
theorem Packs.unique {s s₁ s₂ : UtxoSet} {txs : List Transaction} {fees₁ fees₂ : List U64}
    (h₁ : Packs s txs fees₁ s₁) (h₂ : Packs s txs fees₂ s₂) : fees₁ = fees₂ ∧ s₁ = s₂ := by
  induction h₁ generalizing fees₂ s₂ with
  | nil =>
      cases h₂
      exact ⟨rfl, rfl⟩
  | cons hfirst _ ih =>
      cases h₂ with
      | cons hfirst' hrest =>
          obtain ⟨rfl, rfl⟩ := Prod.mk.inj (Except.ok.inj (hfirst.symm.trans hfirst'))
          obtain ⟨rfl, rfl⟩ := ih hrest
          exact ⟨rfl, rfl⟩

/-- Spends apply in a block exactly when they pack and the sum of their fees fits. -/
theorem applyTxs_spends_iff {txs : List Transaction} (hspends : ∀ tx ∈ txs, tx.isCoinbase = false)
    {i : Nat} {s next : UtxoSet} {cb cb' : Option Transaction} {acc total : U64} :
    applyTxs i txs s cb acc = .ok (next, cb', total) ↔
      cb' = cb ∧ ∃ fees, Packs s txs fees next ∧ total.val = acc.val + sumOf fees := by
  induction txs generalizing i s acc with
  | nil =>
      rw [applyTxs, Except.ok.injEq, Prod.mk.injEq, Prod.mk.injEq]
      constructor
      · rintro ⟨hnext, hcb, htotal⟩
        rw [← hnext, ← hcb, ← htotal]
        exact ⟨rfl, [], .nil, rfl⟩
      · rintro ⟨hcb, fees, hpacks, htotal⟩
        cases hpacks
        exact ⟨rfl, hcb.symm, Fin.ext (by simp [htotal])⟩
  | cons tx rest ih =>
      have hspend : tx.isCoinbase = false := hspends tx (List.mem_cons_self ..)
      have hrest := fun tx htx => hspends tx (List.mem_cons_of_mem _ htx)
      rw [applyTxs, hspend, if_neg Bool.false_ne_true]
      cases hfirst : applyRegular s tx with
      | error e =>
          constructor
          · intro h
            cases h
          · rintro ⟨_, fees, hpacks, _⟩
            cases hpacks with
            | cons hfirst' _ =>
                rw [hfirst] at hfirst'
                cases hfirst'
      | ok staged =>
          obtain ⟨s', fee⟩ := staged
          have hpacks : (∃ fees, Packs s (tx :: rest) fees next ∧
              total.val = acc.val + sumOf fees) ↔
              ∃ fees, Packs s' rest fees next ∧ total.val = acc.val + fee.val + sumOf fees := by
            constructor
            · rintro ⟨fees, hpacks, htotal⟩
              cases hpacks with
              | cons hfirst' hrest' =>
                  obtain ⟨rfl, rfl⟩ := Prod.mk.inj (Except.ok.inj (hfirst.symm.trans hfirst'))
                  rw [sumOf_cons, ← Nat.add_assoc] at htotal
                  exact ⟨_, hrest', htotal⟩
            · rintro ⟨fees, hrest', htotal⟩
              refine ⟨fee :: fees, .cons hfirst hrest', ?_⟩
              rw [sumOf_cons, ← Nat.add_assoc]
              exact htotal
          rw [hpacks]
          cases hadd : Word.checkedAdd acc fee with
          | none =>
              simp only [hadd]
              rw [Word.checkedAdd_eq_none] at hadd
              constructor
              · intro h
                cases h
              · rintro ⟨_, fees, _, htotal⟩
                have := total.isLt
                omega
          | some acc' =>
              simp only [hadd]
              rw [Word.checkedAdd_eq_some] at hadd
              rw [ih hrest, hadd]

/-- A block applies exactly when its spends pack, fees and subsidy fit together, and the
coinbase, if there is one, applies to what they leave. -/
theorem applyBlock_spends_iff {coinbase : Option Transaction}
    (hcb : ∀ cb ∈ coinbase, cb.isCoinbase = true) {txs : List Transaction}
    (hspends : ∀ tx ∈ txs, tx.isCoinbase = false) {s next : UtxoSet} {subsidy : U64}
    {summary : BlockSummary} :
    applyBlock s (coinbase.toList ++ txs) subsidy = .ok (next, summary) ↔
      ∃ fees mid allowed, Packs s txs fees mid ∧ summary.fees.val = sumOf fees ∧
        allowed.val = subsidy.val + sumOf fees ∧
        applyLast mid coinbase allowed = .ok (next, summary.minted) := by
  have htxs : applyTxs 0 (coinbase.toList ++ txs) s none 0 =
      applyTxs coinbase.toList.length txs s coinbase 0 := by
    cases coinbase with
    | none => rfl
    | some cb =>
        show applyTxs 0 (cb :: txs) s none 0 = _
        rw [applyTxs, if_pos (hcb cb rfl)]
        rfl
  have hzero : (0 : U64).val = 0 := rfl
  have hspec : ∀ mid cb total, applyTxs coinbase.toList.length txs s coinbase 0 =
      .ok (mid, cb, total) ↔ cb = coinbase ∧ ∃ fees, Packs s txs fees mid ∧
        total.val = sumOf fees := by
    intro mid cb total
    simp only [applyTxs_spends_iff hspends, hzero, Nat.zero_add]
  rw [applyBlock, htxs]
  constructor
  · intro h
    split at h
    · cases h
    rename_i mid cb total hmid
    obtain ⟨rfl, fees, hpacks, htotal⟩ := (hspec _ _ _).1 hmid
    split at h
    · cases h
    rename_i allowed hallowed
    split at h
    · cases h
    rename_i final minted hlast
    obtain ⟨rfl, rfl⟩ := Prod.mk.inj (Except.ok.inj h)
    rw [Word.checkedAdd_eq_some, htotal] at hallowed
    exact ⟨fees, mid, allowed, hpacks, htotal, hallowed, hlast⟩
  · rintro ⟨fees, mid, allowed, hpacks, htotal, hallowed, hlast⟩
    have hmid := (hspec mid coinbase summary.fees).2 ⟨rfl, fees, hpacks, htotal⟩
    have hadd : Word.checkedAdd subsidy summary.fees = some allowed := by
      rw [Word.checkedAdd_eq_some, hallowed, htotal]
    simp only [hmid, hadd, hlast]

/-- A single spend. -/
theorem applyBlock_single_iff {tx : Transaction} (hspend : tx.isCoinbase = false)
    {s next : UtxoSet} {subsidy : U64} {summary : BlockSummary} :
    applyBlock s [tx] subsidy = .ok (next, summary) ↔ ∃ fee,
      applyRegular s tx = .ok (next, fee) ∧ subsidy.val + fee.val < 2 ^ 64 ∧
        summary = ⟨fee, 0⟩ := by
  have hone : ∀ tx' ∈ [tx], tx'.isCoinbase = false := by
    intro tx' htx'
    rw [List.mem_singleton.1 htx']
    exact hspend
  have h : applyBlock s ((none : Option Transaction).toList ++ [tx]) subsidy =
      .ok (next, summary) ↔ _ := applyBlock_spends_iff (fun cb hcb => by cases hcb) hone
  rw [Option.toList_none, List.nil_append] at h
  rw [h]
  constructor
  · intro ⟨fees, mid, allowed, hpacks, htotal, hallowed, hlast⟩
    cases hpacks with
    | cons hfirst hrest =>
        cases hrest
        rename_i fee
        rw [sumOf_cons, sumOf_nil, Nat.add_zero] at htotal hallowed
        obtain ⟨hnext, hminted⟩ := Prod.mk.inj (Except.ok.inj hlast)
        have hlt := allowed.isLt
        refine ⟨fee, hnext ▸ hfirst, by omega, ?_⟩
        rw [← Fin.ext htotal, hminted]
  · intro ⟨fee, hfirst, hfit, hsummary⟩
    rw [hsummary]
    exact ⟨[fee], next, ⟨subsidy.val + fee.val, hfit⟩, .cons hfirst .nil, by simp, by simp, rfl⟩

/-- A coinbase of one output. -/
theorem applyLast_reward_iff {mid next : UtxoSet} {total allowed minted : U64} {miner : Address}
    {tag : List U8} {cb : Transaction} (hcb : cb = .coinbase [⟨total, miner⟩] tag) :
    applyLast mid (some cb) allowed = .ok (next, minted) ↔ total ≠ 0 ∧ total ≤ allowed ∧
      ⟨cb.id, 0⟩ ∉ mid ∧ next = mid.insert ⟨cb.id, 0⟩ ⟨total, miner⟩ ∧ minted = total := by
  have houtputs : cb.outputs = [⟨total, miner⟩] := by
    rw [hcb]
    rfl
  have hadd : Word.checkedAdd (0 : U64) total = some total := by
    rw [Word.checkedAdd_eq_some]
    exact (Nat.zero_add _).symm
  have hindex : (Word.cast 32 0 : U32) = 0 := rfl
  show applyCoinbase mid cb allowed = .ok (next, minted) ↔ _
  rw [applyCoinbase, houtputs]
  by_cases hzero : total = 0
  · simp [sumOutputs, hzero]
  by_cases hover : allowed < total
  · simp [sumOutputs, hzero, hadd, hover]
  by_cases hin : (⟨cb.id, 0⟩ : OutPoint) ∈ mid
  · simp [sumOutputs, addOutputs, hzero, hadd, hover, hin, hindex]
  · simp [sumOutputs, addOutputs, hzero, hadd, hover, hin, hindex, not_lt.1 hover, eq_comm]

end Kovanica
