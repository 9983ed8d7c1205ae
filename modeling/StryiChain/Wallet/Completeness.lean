import StryiChain.Wallet.Payment
import Mathlib.Tactic.Ring

/-!
# When the funds are called insufficient (`stryi_wallet/src/tx_builder.rs:27-58`)

The selection stops at the first coins that cover a payment with change, or else takes everything;
the check after it asks for the fee of a payment without change. Coins that are worth less than
what they add to the fee make the difference.
-/

namespace StryiChain

/-- The call fails with one of the two messages that name a lack of funds. -/
def InsufficientFunds (result : Except WalletError Transaction) : Prop :=
  ∃ rest, result = .error (.bail ("insufficient funds" ++ rest))

/-- Some of the coins, one at least, cover the amount and the fee of a transaction with so many
outputs. -/
def Payable (feePolicy : FeePolicy) (amount : UInt64) (outputs : Nat)
    (utxos : List SpendableUtxo) : Prop :=
  ∃ coins, coins ≠ [] ∧ coins.Sublist utxos ∧
    amount.toNat + feePolicy.fee coins.length outputs ≤ totalValue coins

section Funds

variable [Primitives] {checks : Bool} {senderKey : PrivateKey} {recipient : AccountAddress}
  {amount : UInt64} {feePolicy : FeePolicy} {utxos selected : List SpendableUtxo}

omit [Primitives] in
theorem not_insufficient_ok (tx : Transaction) : ¬ InsufficientFunds (.ok tx) := by
  intro insufficient
  obtain ⟨rest, failed⟩ := insufficient
  cases failed

omit [Primitives] in
theorem not_insufficient_panic (message : String) :
    ¬ InsufficientFunds (.error (.panic message)) := by
  intro insufficient
  obtain ⟨rest, failed⟩ := insufficient
  cases failed

/-- The selected coins are called insufficient when they do not cover a payment without change. -/
theorem finishPayment_insufficient_iff (fits : PaymentFits feePolicy amount selected) :
    InsufficientFunds (finishPayment checks senderKey recipient amount feePolicy selected
      (UInt64.ofNat (totalValue selected))) ↔
      totalValue selected < amount.toNat + feePolicy.fee selected.length 1 := by
  constructor
  · intro insufficient
    by_contra enough
    by_cases window : totalValue selected < amount.toNat + feePolicy.fee selected.length 2
    · rw [finishPayment_window fits (Nat.not_lt.mp enough) window] at insufficient
      cases checks with
      | true => exact not_insufficient_panic _ insufficient
      | false => exact not_insufficient_ok _ insufficient
    · obtain ⟨remainder, -, result⟩ := @finishPayment_covered _ checks senderKey recipient _ _ _
        fits (Nat.not_lt.mp window)
      rw [result] at insufficient
      exact not_insufficient_ok _ insufficient
  · intro short
    exact finishPayment_short fits short

/-- The funds are called insufficient exactly when no coins cover a payment with change, and all
of them do not cover one without. -/
theorem buildPayment_insufficient_iff (ne : utxos ≠ [])
    (fits : PaymentFits feePolicy amount utxos) :
    InsufficientFunds (buildPayment checks senderKey utxos recipient amount feePolicy) ↔
      ¬ Payable feePolicy amount 2 utxos ∧
        totalValue utxos < amount.toNat + feePolicy.fee utxos.length 1 := by
  rw [buildPayment_eq ne fits, finishPayment_insufficient_iff fits.chosen, Payable,
    ← coversChange_chosen_iff ne]
  by_cases covers : coversChange feePolicy amount (chosenUtxos feePolicy amount utxos) = true
  · have enough := of_decide_eq_true covers
    have cheaper := feePolicy.fee_mono_outputs (chosenUtxos feePolicy amount utxos).length
    refine iff_of_false (by omega) ?_
    intro both
    exact both.1 covers
  · have all := chosenUtxos_perm_of_not (Bool.eq_false_iff.mpr covers)
    rw [totalValue_perm all, all.length_eq]
    exact (and_iff_right covers).symm

/-- The coin selection is complete, that is the funds are called insufficient only when no coins
of the list cover the amount and the fee without change, exactly for the lists where such coins
come with coins that cover it with change, or where all coins together cover it without. -/
theorem coin_selection_complete_iff (checks : Bool) (senderKey : PrivateKey)
    (utxos : List SpendableUtxo) (recipient : AccountAddress) (amount : UInt64)
    (feePolicy : FeePolicy) (fits : PaymentFits feePolicy amount utxos) :
    (InsufficientFunds (buildPayment checks senderKey utxos recipient amount feePolicy) →
        ¬ Payable feePolicy amount 1 utxos) ↔
      (Payable feePolicy amount 1 utxos → Payable feePolicy amount 2 utxos ∨
        amount.toNat + feePolicy.fee utxos.length 1 ≤ totalValue utxos) := by
  by_cases ne : utxos = []
  · -- no coins: another message, and nothing is payable
    have nothing : ¬ Payable feePolicy amount 1 utxos := by
      intro payable
      obtain ⟨coins, inhabited, sub, -⟩ := payable
      rw [ne] at sub
      exact inhabited (List.sublist_nil.mp sub)
    exact iff_of_true (fun _ => nothing) fun payable => absurd payable nothing
  · rw [buildPayment_insufficient_iff ne fits, ← Nat.not_le]
    tauto

omit [Primitives] in
/-- What an input adds to the fee. -/
theorem FeePolicy.fee_add (policy : FeePolicy) (n more : Nat) : policy.fee (n + more) 1 =
    policy.fee n 1 + more * (policy.inputCost.toNat + 69 * policy.byteCost.toNat) := by
  have size : ∀ n, estimateTransactionSize n 1 = 135 + 69 * n := by
    intro n
    simp only [estimateTransactionSize]
    split_ifs <;> omega
  rw [fee, fee, size, size]
  ring

omit [Primitives] in
/-- Coins that each pay for their own input leave no gap: taking all of them pays no less. -/
theorem payable_all_of_worthwhile (worthwhile : ∀ utxo ∈ utxos,
    feePolicy.inputCost.toNat + 69 * feePolicy.byteCost.toNat ≤ utxo.value.toNat)
    (payable : Payable feePolicy amount 1 utxos) :
    amount.toNat + feePolicy.fee utxos.length 1 ≤ totalValue utxos := by
  obtain ⟨coins, -, sub, covers⟩ := payable
  have heavier := sum_add_mul_le_of_sublist worthwhile sub
  rw [← totalValue, ← totalValue] at heavier
  have cost := feePolicy.fee_add coins.length (utxos.length - coins.length)
  rw [Nat.add_sub_cancel' sub.length_le] at cost
  omega

end Funds

namespace Sample

/-- A coin that is worth less than its input costs. -/
def dustCoin : SpendableUtxo := ⟨⟨⟨2⟩, 0⟩, 1⟩

theorem fits_tight : PaymentFits defaultFees 100000 [tightCoin, dustCoin] where
  total := by decide
  fees := by decide

theorem payable_tight : Payable defaultFees 100000 1 [tightCoin, dustCoin] :=
  ⟨[tightCoin], by simp, by simp, by decide⟩

end Sample

open Sample in
/-- The larger coin alone pays 100000 and the fee of 3790. It does not pay the fee with change, the
dust is taken too, and with both coins the fee without change is 4980. -/
theorem coin_selection_gap : PaymentFits defaultFees 100000 [tightCoin, dustCoin] ∧
    ∀ checks, InsufficientFunds
      (buildPayment checks payer [tightCoin, dustCoin] ⟨8⟩ 100000 defaultFees) ∧
    Payable defaultFees 100000 1 [tightCoin, dustCoin] := by
  refine ⟨fits_tight, fun checks => ⟨?_, payable_tight⟩⟩
  rw [buildPayment_insufficient_iff (by simp) fits_tight]
  refine ⟨?_, by decide⟩
  intro payable
  obtain ⟨coins, inhabited, sub, covers⟩ := payable
  have few := sub.length_le
  have light := (sub.map fun utxo => utxo.value.toNat).sum_le_sum fun _ _ => Nat.zero_le _
  have bound : totalValue coins ≤ 104001 := light
  have dear : 4490 ≤ defaultFees.fee coins.length 2 := by
    have count := List.length_pos_iff.mpr inhabited
    rw [List.length_cons, List.length_singleton] at few
    have cases' : coins.length = 1 ∨ coins.length = 2 := by omega
    cases cases' with
    | inl one =>
      rw [one]
      decide
    | inr two =>
      rw [two]
      decide
  have start : (100000 : UInt64).toNat = 100000 := rfl
  omega

open Sample in
/-- Three coins of which two cover the payment with change. -/
theorem coin_selection_complete_iff_sample :
    Payable defaultFees 100000 1 walletCoins ∧
      ¬ InsufficientFunds (buildPayment true payer walletCoins ⟨8⟩ 100000 defaultFees) := by
  have complete := coin_selection_complete_iff true payer walletCoins ⟨8⟩ 100000 defaultFees
    fits_walletCoins
  have payable : ∀ n ≤ 2, Payable defaultFees 100000 n walletCoins := by
    intro n le
    refine ⟨walletCoins.tail, by simp [walletCoins], List.sublist_cons_self _ _, ?_⟩
    have counts : n = 0 ∨ n = 1 ∨ n = 2 := by omega
    rcases counts with rfl | rfl | rfl <;> decide
  refine ⟨payable 1 (by decide), fun insufficient => ?_⟩
  exact complete.mpr (fun _ => .inl (payable 2 (by decide))) insufficient (payable 1 (by decide))

end StryiChain
