import Kovanica.Dag.Pow
import Kovanica.Lib.Limbs

/-!
# What the limb arithmetic computes

`meetsTarget` multiplies the id by the work limb by limb and looks at the two
limbs above bit 256.  The same loops are written here for a build that stops at
an addition that does not fit 128 bits, and wherever a carry would be dropped:
they never stop, and the six limbs hold the exact product.

## Main results

* `mulRow_spec`, `propagate_spec`: one row of the product, and the carry it leaves.
* `mulLimbs_spec`: the six limbs.
-/

namespace Kovanica

open Lib

namespace Pow

/-- The id as a big-endian 256-bit integer. -/
def hashValue (id : BlockId) : Nat := ofBeBytes id.bytes.val

/-! ## The loops with every step checked -/

/-- `mulRow`, stopping where the row leaves the array or the `u128` overflows. -/
def mulRowChecked (hi : Nat) : List Nat → (idx carry : Nat) → List Nat → Option (List Nat × Nat)
  | [], _, carry, prod => some (prod, carry)
  | wj :: ws, idx, carry, prod =>
      let m := hi * wj + prod.getD idx 0 + carry
      if idx < prod.length ∧ m < 2 ^ 128 then
        mulRowChecked hi ws (idx + 1) (m / 2 ^ 64 % 2 ^ 64) (prod.set idx (m % 2 ^ 64))
      else none

/-- `propagate`, stopping where the `u128` overflows or a carry is left over. -/
def propagateChecked : (fuel idx carry : Nat) → List Nat → Option (List Nat)
  | 0, _, carry, prod => if carry = 0 then some prod else none
  | fuel + 1, idx, carry, prod =>
      if carry = 0 then some prod
      else if idx < prod.length then
        let sum := prod.getD idx 0 + carry
        if sum < 2 ^ 128 then
          propagateChecked fuel (idx + 1) (sum / 2 ^ 64 % 2 ^ 64) (prod.set idx (sum % 2 ^ 64))
        else none
      else none

def mulLimbsChecked (ws : List Nat) : List Nat → (i : Nat) → List Nat → Option (List Nat)
  | [], _, prod => some prod
  | hi :: hs, i, prod =>
      (mulRowChecked hi ws i 0 prod).bind fun row =>
        (propagateChecked row.1.length (i + ws.length) row.2 row.1).bind
          (mulLimbsChecked ws hs (i + 1))

/-- `meets_target` in such a build: `none` where an addition leaves its type or a carry would be
dropped, otherwise the answer of the code. -/
def meetsTargetChecked (id : BlockId) (work : U128) : Option Bool :=
  (mulLimbsChecked (workLimbs (max work 1)) (idLimbs id) 0 (List.replicate 6 0)).map fun prod =>
    prod.getD 4 0 == 0 && prod.getD 5 0 == 0

/-! ## The limbs of the factors -/

private theorem ofLeBytes_append (l l' : List U8) :
    ofLeBytes (l ++ l') = ofLeBytes l + 256 ^ l.length * ofLeBytes l' := by
  induction l with
  | nil => simp [ofLeBytes]
  | cons b rest ih =>
      simp only [List.cons_append, ofLeBytes, ih, List.length_cons, Nat.pow_succ']
      ring

private theorem ofBeBytes_append (l l' : List U8) :
    ofBeBytes (l ++ l') = ofBeBytes l' + 256 ^ l'.length * ofBeBytes l := by
  simp only [ofBeBytes, List.reverse_append, ofLeBytes_append, List.length_reverse]

private theorem ofBeBytes_lt (l : List U8) : ofBeBytes l < 256 ^ l.length := by
  have h := ofLeBytes_lt l.reverse
  rwa [List.length_reverse] at h

/-- The value of a string of whole limbs, from the back. -/
private theorem hashValue_split (l : List U8) (n : Nat) (hn : n + 8 ≤ l.length) :
    ofBeBytes (l.take (n + 8)) =
      ofBeBytes ((l.drop n).take 8) + 2 ^ 64 * ofBeBytes (l.take n) := by
  have hlen : ((l.drop n).take 8).length = 8 := by
    simp only [List.length_take, List.length_drop]
    omega
  rw [List.take_add, ofBeBytes_append, hlen]
  norm_num

theorem ofDigits_idLimbs (id : BlockId) : Nat.ofDigits (2 ^ 64) (idLimbs id) = hashValue id := by
  have hlen := id.bytes.property
  have hall : ofBeBytes (id.bytes.val.take 32) = ofBeBytes id.bytes.val := by
    rw [List.take_of_length_le hlen.le]
  have h24 := hashValue_split id.bytes.val 24 (by omega)
  have h16 := hashValue_split id.bytes.val 16 (by omega)
  have h8 := hashValue_split id.bytes.val 8 (by omega)
  have h0 := hashValue_split id.bytes.val 0 (by omega)
  have hnil : ofBeBytes (id.bytes.val.take 0) = 0 := rfl
  simp only [Nat.reduceAdd] at h24 h16 h8 h0
  simp only [hashValue, idLimbs, List.range, List.range.loop, List.map_cons, List.map_nil,
    Nat.ofDigits_cons, Nat.ofDigits_nil, Nat.reduceSub, Nat.reduceMul]
  omega

theorem fitLimbs_idLimbs (id : BlockId) : FitLimbs (2 ^ 64) (idLimbs id) := by
  intro limb hmem
  obtain ⟨i, _, rfl⟩ := List.mem_map.1 hmem
  have hlt := ofBeBytes_lt ((id.bytes.val.drop ((3 - i) * 8)).take 8)
  have hpow : 256 ^ ((id.bytes.val.drop ((3 - i) * 8)).take 8).length ≤ 256 ^ 8 :=
    Nat.pow_le_pow_right (by decide) (List.length_take_le _ _)
  exact hlt.trans_le (hpow.trans (by decide))

theorem ofDigits_workLimbs (work : U128) :
    Nat.ofDigits (2 ^ 64) (workLimbs work) = work.val := by
  simp only [workLimbs, Nat.ofDigits_cons, Nat.ofDigits_nil]
  omega

theorem fitLimbs_workLimbs (work : U128) : FitLimbs (2 ^ 64) (workLimbs work) := by
  have hlt := work.isLt
  intro limb hmem
  simp only [workLimbs, List.mem_cons, List.not_mem_nil, or_false] at hmem
  omega

/-! ## The loops -/

/-- A product of two limbs leaves room for two more in 128 bits. -/
private theorem product_fits {a b c e : Nat} (ha : a < 2 ^ 64) (hb : b < 2 ^ 64)
    (hc : c < 2 ^ 64) (he : e < 2 ^ 64) : a * b + c + e < 2 ^ 128 := by
  have hle : a * b ≤ (2 ^ 64 - 1) * (2 ^ 64 - 1) := Nat.mul_le_mul (by omega) (by omega)
  omega

/-- The invariant of a row: what is stored and carried is what was there and the
product of the limbs read. -/
theorem mulRow_spec {hi : Nat} (hhi : hi < 2 ^ 64) {ws : List Nat} (hws : FitLimbs (2 ^ 64) ws)
    (idx : Nat) {carry : Nat} {prod : List Nat} (hprod : FitLimbs (2 ^ 64) prod)
    (hcarry : carry < 2 ^ 64) (hroom : idx + ws.length ≤ prod.length) :
    mulRowChecked hi ws idx carry prod = some (mulRow hi ws idx carry prod) ∧
      (mulRow hi ws idx carry prod).1.length = prod.length ∧
      FitLimbs (2 ^ 64) (mulRow hi ws idx carry prod).1 ∧
      (mulRow hi ws idx carry prod).2 < 2 ^ 64 ∧
      Nat.ofDigits (2 ^ 64) (mulRow hi ws idx carry prod).1 +
          (2 ^ 64) ^ (idx + ws.length) * (mulRow hi ws idx carry prod).2 =
        Nat.ofDigits (2 ^ 64) prod +
          (2 ^ 64) ^ idx * (hi * Nat.ofDigits (2 ^ 64) ws + carry) := by
  induction ws generalizing idx carry prod with
  | nil =>
      refine ⟨rfl, rfl, hprod, hcarry, ?_⟩
      simp [mulRow]
  | cons wj ws ih =>
      have hidx : idx < prod.length := by
        simp only [List.length_cons] at hroom
        omega
      have hwj : wj < 2 ^ 64 := hws wj (by simp)
      have hm := product_fits hhi hwj (hprod.getD_lt hidx) hcarry
      have hhigh : (hi * wj + prod.getD idx 0 + carry) / 2 ^ 64 < 2 ^ 64 := by omega
      have hkeep := Nat.mod_eq_of_lt hhigh
      -- what the step stores and carries
      have hstored : FitLimbs (2 ^ 64)
          (prod.set idx ((hi * wj + prod.getD idx 0 + carry) % 2 ^ 64)) :=
        hprod.set (Nat.mod_lt _ (by decide))
      have hcarried : (hi * wj + prod.getD idx 0 + carry) / 2 ^ 64 % 2 ^ 64 < 2 ^ 64 :=
        Nat.mod_lt _ (by decide)
      have hrest : idx + 1 + ws.length ≤
          (prod.set idx ((hi * wj + prod.getD idx 0 + carry) % 2 ^ 64)).length := by
        simp only [List.length_set, List.length_cons] at hroom ⊢
        omega
      obtain ⟨hchecked, hlen, hfit, hlast, hvalue⟩ :=
        ih (fun w hw => hws w (by simp [hw])) (idx + 1) hstored hcarried hrest
      refine ⟨?_, ?_, hfit, hlast, ?_⟩
      · rw [mulRowChecked, if_pos ⟨hidx, hm⟩]
        exact hchecked
      · rw [List.length_set] at hlen
        exact hlen
      · have hterm : hi * wj + prod.getD idx 0 + carry =
            prod.getD idx 0 + (hi * wj + carry) := by omega
        have hstore := ofDigits_carry (2 ^ 64) (hi * wj + carry) hidx
        rw [hkeep, hterm] at hvalue
        simp only [mulRow, List.length_cons]
        rw [hterm] at hkeep ⊢
        rw [hkeep, show idx + (ws.length + 1) = idx + 1 + ws.length by omega, hvalue,
          Nat.mul_add, ← Nat.add_assoc, Nat.add_right_comm, hstore, Nat.ofDigits_cons,
          Nat.pow_succ]
        ring

/-- A carry that is not yet absorbed is still inside the array. -/
private theorem carry_inside {idx carry : Nat} {prod : List Nat} (hne : carry ≠ 0)
    (htotal : Nat.ofDigits (2 ^ 64) prod + (2 ^ 64) ^ idx * carry < (2 ^ 64) ^ prod.length) :
    idx < prod.length := by
  have hle : (2 ^ 64) ^ idx ≤ (2 ^ 64) ^ idx * carry :=
    Nat.le_mul_of_pos_right _ (Nat.pos_of_ne_zero hne)
  exact (Nat.pow_lt_pow_iff_right (by decide : 1 < 2 ^ 64)).1 (by omega)

/-- The invariant of the carry loop: while the total fits the array, nothing of
it is lost. -/
theorem propagate_spec {fuel : Nat} (idx : Nat) {carry : Nat} {prod : List Nat}
    (hprod : FitLimbs (2 ^ 64) prod) (hcarry : carry < 2 ^ 64) (hfuel : prod.length ≤ fuel + idx)
    (htotal : Nat.ofDigits (2 ^ 64) prod + (2 ^ 64) ^ idx * carry < (2 ^ 64) ^ prod.length) :
    propagateChecked fuel idx carry prod = some (propagate fuel idx carry prod) ∧
      (propagate fuel idx carry prod).length = prod.length ∧
      FitLimbs (2 ^ 64) (propagate fuel idx carry prod) ∧
      Nat.ofDigits (2 ^ 64) (propagate fuel idx carry prod) =
        Nat.ofDigits (2 ^ 64) prod + (2 ^ 64) ^ idx * carry := by
  induction fuel generalizing idx carry prod with
  | zero =>
      have hzero : carry = 0 := by
        by_contra hne
        have hinside := carry_inside hne htotal
        omega
      subst hzero
      exact ⟨rfl, rfl, hprod, by rw [Nat.mul_zero, Nat.add_zero]; rfl⟩
  | succ fuel ih =>
      by_cases hzero : carry = 0
      · subst hzero
        exact ⟨rfl, rfl, hprod, by rw [Nat.mul_zero, Nat.add_zero]; rfl⟩
      · have hidx := carry_inside hzero htotal
        have hlimb := hprod.getD_lt hidx
        have hsum : prod.getD idx 0 + carry < 2 ^ 128 := by omega
        have hkeep : (prod.getD idx 0 + carry) / 2 ^ 64 % 2 ^ 64 =
            (prod.getD idx 0 + carry) / 2 ^ 64 := Nat.mod_eq_of_lt (by omega)
        have hstore := ofDigits_carry (2 ^ 64) carry hidx
        rw [propagateChecked, if_neg hzero, if_pos hidx]
        simp only [if_pos hsum]
        rw [propagate, if_pos ⟨hzero, hidx⟩]
        simp only [hkeep]
        have hstored : FitLimbs (2 ^ 64) (prod.set idx ((prod.getD idx 0 + carry) % 2 ^ 64)) :=
          hprod.set (Nat.mod_lt _ (by decide))
        have hcarried : (prod.getD idx 0 + carry) / 2 ^ 64 < 2 ^ 64 := by omega
        have hkept : (prod.set idx ((prod.getD idx 0 + carry) % 2 ^ 64)).length = prod.length :=
          List.length_set
        obtain ⟨hchecked, hlen, hfit, hvalue⟩ := ih (idx + 1) hstored hcarried (by omega) (by
          rw [hkept, hstore]
          exact htotal)
        rw [hkept] at hlen
        exact ⟨hchecked, hlen, hfit, hvalue.trans hstore⟩

/-- The invariant of the rows: the array gains the product of the limbs read, one
position further for each row. -/
theorem mulLimbs_spec {ws hs : List Nat} (hws : FitLimbs (2 ^ 64) ws) (hhs : FitLimbs (2 ^ 64) hs)
    (i : Nat) {prod : List Nat} (hprod : FitLimbs (2 ^ 64) prod)
    (hroom : i + hs.length + ws.length ≤ prod.length)
    (htotal : Nat.ofDigits (2 ^ 64) prod + (2 ^ 64) ^ i *
      (Nat.ofDigits (2 ^ 64) hs * Nat.ofDigits (2 ^ 64) ws) < (2 ^ 64) ^ prod.length) :
    mulLimbsChecked ws hs i prod = some (mulLimbs ws hs i prod) ∧
      (mulLimbs ws hs i prod).length = prod.length ∧
      FitLimbs (2 ^ 64) (mulLimbs ws hs i prod) ∧
      Nat.ofDigits (2 ^ 64) (mulLimbs ws hs i prod) = Nat.ofDigits (2 ^ 64) prod +
        (2 ^ 64) ^ i * (Nat.ofDigits (2 ^ 64) hs * Nat.ofDigits (2 ^ 64) ws) := by
  induction hs generalizing i prod with
  | nil =>
      refine ⟨rfl, rfl, hprod, ?_⟩
      simp [mulLimbs]
  | cons hi hs ih =>
      simp only [List.length_cons] at hroom
      have hsplit : (2 ^ 64) ^ i *
          (Nat.ofDigits (2 ^ 64) (hi :: hs) * Nat.ofDigits (2 ^ 64) ws) =
            (2 ^ 64) ^ i * (hi * Nat.ofDigits (2 ^ 64) ws) + (2 ^ 64) ^ (i + 1) *
              (Nat.ofDigits (2 ^ 64) hs * Nat.ofDigits (2 ^ 64) ws) := by
        rw [Nat.ofDigits_cons, Nat.pow_succ]
        ring
      rw [hsplit] at htotal ⊢
      obtain ⟨hrowChecked, hrowLen, hrowFit, hrowCarry, hrowValue⟩ :=
        mulRow_spec (hhs hi (by simp)) hws i hprod (by decide : 0 < 2 ^ 64) (by omega)
      rw [Nat.add_zero] at hrowValue
      obtain ⟨hpropChecked, hpropLen, hpropFit, hpropValue⟩ :=
        propagate_spec (i + ws.length) hrowFit hrowCarry (Nat.le_add_right _ _) (by
          rw [hrowLen, hrowValue]
          omega)
      rw [hrowValue] at hpropValue
      have hkept := hpropLen.trans hrowLen
      obtain ⟨hchecked, hlen, hfit, hvalue⟩ := ih (fun h hmem => hhs h (by simp [hmem]))
        (i + 1) hpropFit (by omega) (by
          rw [hkept, hpropValue]
          omega)
      refine ⟨?_, hlen.trans hkept, hfit, ?_⟩
      · rw [mulLimbsChecked, hrowChecked, Option.bind_some, hpropChecked, Option.bind_some]
        exact hchecked
      · rw [hpropValue, Nat.add_assoc] at hvalue
        exact hvalue

/-! ## The test -/

/-- The six limbs of the product, as `meetsTarget` computes them. -/
def product (id : BlockId) (work : U128) : List Nat :=
  mulLimbs (workLimbs (max work 1)) (idLimbs id) 0 (List.replicate 6 0)

theorem max_one_val (work : U128) : (max work 1).val = max work.val 1 := by
  rw [Fin.coe_max]
  rfl

theorem hashValue_lt (id : BlockId) : hashValue id < 2 ^ 256 := by
  have hlt := ofBeBytes_lt id.bytes.val
  rw [id.bytes.property] at hlt
  exact hlt.trans_le (by decide)

theorem product_spec (id : BlockId) (work : U128) :
    mulLimbsChecked (workLimbs (max work 1)) (idLimbs id) 0 (List.replicate 6 0) =
        some (product id work) ∧
      (product id work).length = 6 ∧ FitLimbs (2 ^ 64) (product id work) ∧
      Nat.ofDigits (2 ^ 64) (product id work) = hashValue id * max work.val 1 := by
  have hbound : hashValue id * max work.val 1 < (2 ^ 64) ^ 6 := by
    have hmul := Nat.mul_lt_mul'' (hashValue_lt id) (max_one_val work ▸ (max work 1).isLt)
    exact hmul.trans_le (by decide)
  have hclear : FitLimbs (2 ^ 64) (List.replicate 6 0) := by
    intro limb hmem
    rw [List.eq_of_mem_replicate hmem]
    decide
  have hspec := mulLimbs_spec (fitLimbs_workLimbs (max work 1)) (fitLimbs_idLimbs id) 0 hclear
    (by simp [idLimbs, workLimbs])
    (by
      rw [ofDigits_idLimbs, ofDigits_workLimbs, max_one_val, Nat.ofDigits_replicate_zero]
      simpa using hbound)
  rw [ofDigits_idLimbs, ofDigits_workLimbs, max_one_val, Nat.ofDigits_replicate_zero, pow_zero,
    Nat.one_mul, Nat.zero_add, List.length_replicate] at hspec
  exact hspec

theorem meetsTarget_eq_true_iff (id : BlockId) (work : U128) :
    meetsTarget id work = true ↔ hashValue id * max work.val 1 < 2 ^ 256 := by
  obtain ⟨_, hlen, hfit, hvalue⟩ := product_spec id work
  have hdrop := ofDigits_drop_eq_zero_iff (by decide) hfit 4
  rw [hvalue] at hdrop
  have htop : (product id work).drop 4 =
      [(product id work).getD 4 0, (product id work).getD 5 0] := by
    apply List.ext_getElem
    · simp [hlen]
    · intro i hi _
      rw [List.length_drop, hlen] at hi
      have : i = 0 ∨ i = 1 := by omega
      rcases this with rfl | rfl <;> simp [hlen]
  rw [htop] at hdrop
  simp only [Nat.ofDigits_cons, Nat.ofDigits_nil] at hdrop
  show (((product id work).getD 4 0 == 0 && (product id work).getD 5 0 == 0) = true) ↔ _
  rw [Bool.and_eq_true, beq_iff_eq, beq_iff_eq]
  omega

/-- `meets_target` decides `H * max(work, 1) < 2 ^ 256`: no step of the limb
arithmetic overflows and no carry is dropped, and more work or a larger hash never
turns a refusal into a pass. -/
theorem meetsTarget_iff (id : BlockId) (work : U128) :
    meetsTargetChecked id work = some (meetsTarget id work) ∧
      Nat.ofDigits (2 ^ 64) (product id work) = hashValue id * max work.val 1 ∧
      (meetsTarget id work = true ↔ hashValue id * max work.val 1 < 2 ^ 256) ∧
      (∀ work', work ≤ work' → meetsTarget id work' = true → meetsTarget id work = true) ∧
      ∀ id', hashValue id ≤ hashValue id' → meetsTarget id' work = true →
        meetsTarget id work = true := by
  obtain ⟨hchecked, _, _, hvalue⟩ := product_spec id work
  refine ⟨?_, hvalue, meetsTarget_eq_true_iff id work, ?_, ?_⟩
  · rw [meetsTargetChecked, hchecked]
    rfl
  · intro work' hle hmeets
    rw [meetsTarget_eq_true_iff] at hmeets ⊢
    have hmax : max work.val 1 ≤ max work'.val 1 := max_le_max_right 1 hle
    exact (Nat.mul_le_mul_left _ hmax).trans_lt hmeets
  · intro id' hle hmeets
    rw [meetsTarget_eq_true_iff] at hmeets ⊢
    exact (Nat.mul_le_mul_right _ hle).trans_lt hmeets

end Pow

end Kovanica
