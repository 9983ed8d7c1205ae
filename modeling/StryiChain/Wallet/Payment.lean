import StryiChain.Core.Block
import StryiChain.Wallet.TxBuilder

/-!
# What a payment of the wallet pays (`stryi_wallet/src/tx_builder.rs:20-103`)

The coins that are chosen and the transaction that is built from them, and for which coins the
computation of the change goes below zero.
-/

namespace StryiChain

section Coins

variable {feePolicy : FeePolicy} {amount : UInt64} {utxos : List SpendableUtxo}

/-- The order in which the coins are taken. -/
theorem pairwise_sorted (utxos : List SpendableUtxo) :
    (utxos.mergeSort fun a b => b.value ≤ a.value).Pairwise
      fun a b => b.value.toNat ≤ a.value.toNat := by
  have sorted := @List.pairwise_mergeSort SpendableUtxo (fun a b => decide (b.value ≤ a.value))
    (fun a b c => by simpa using fun ab bc => UInt64.le_trans bc ab)
    (fun a b => by simpa using UInt64.le_total b.value a.value) utxos
  refine sorted.imp fun le => ?_
  rw [decide_eq_true_iff] at le
  exact UInt64.le_iff_toNat_le.mp le

/-- The chosen coins are the largest ones, as many as it takes. -/
theorem chosenUtxos_spec (feePolicy : FeePolicy) (amount : UInt64) (utxos : List SpendableUtxo) :
    let sorted := utxos.mergeSort fun a b => b.value ≤ a.value
    let chosen := chosenUtxos feePolicy amount utxos
    chosen <+: sorted ∧
      (chosen ≠ [] ∧ coversChange feePolicy amount chosen = true ∨
        chosen = sorted ∧ ∀ p, p ≠ [] → p <+: sorted → coversChange feePolicy amount p = false) := by
  obtain ⟨more, result, front, outcome⟩ := takeUntil_spec (coversChange feePolicy amount) []
    (utxos.mergeSort fun a b => b.value ≤ a.value)
  rw [List.nil_append] at result outcome
  rw [← chosenUtxos] at result
  intro sorted chosen
  rw [show chosen = more from result]
  exact ⟨front, outcome⟩

theorem chosenUtxos_subperm : (chosenUtxos feePolicy amount utxos).Subperm utxos :=
  (chosenUtxos_spec feePolicy amount utxos).1.sublist.subperm.trans
    (List.mergeSort_perm _ _).subperm

theorem chosenUtxos_ne_nil (ne : utxos ≠ []) : chosenUtxos feePolicy amount utxos ≠ [] := by
  rcases (chosenUtxos_spec feePolicy amount utxos).2 with ⟨inhabited, -⟩ | ⟨all, -⟩
  · exact inhabited
  · intro none
    have perm := List.mergeSort_perm utxos fun a b => b.value ≤ a.value
    rw [← all, none] at perm
    exact ne perm.symm.eq_nil

/-- The chosen coins cover the amount and the fee with change exactly when some coins do: the
largest ones do it if any as many do. -/
theorem coversChange_chosen_iff (ne : utxos ≠ []) :
    coversChange feePolicy amount (chosenUtxos feePolicy amount utxos) = true ↔
      ∃ coins, coins ≠ [] ∧ coins.Sublist utxos ∧
        amount.toNat + feePolicy.fee coins.length 2 ≤ totalValue coins := by
  constructor
  · intro covers
    obtain ⟨coins, same, sub⟩ := @chosenUtxos_subperm feePolicy amount utxos
    rw [coversChange, decide_eq_true_iff, ← same.length_eq, ← totalValue_perm same] at covers
    refine ⟨coins, fun none => ?_, sub, covers⟩
    rw [none] at same
    exact chosenUtxos_ne_nil ne same.symm.eq_nil
  · intro paid
    obtain ⟨coins, inhabited, sub, covers⟩ := paid
    rcases (chosenUtxos_spec feePolicy amount utxos).2 with ⟨-, done⟩ | ⟨-, never⟩
    · exact done
    · exfalso
      have few : coins.length ≤ (utxos.mergeSort fun a b => b.value ≤ a.value).length := by
        rw [List.length_mergeSort]
        exact sub.length_le
      have count : ((utxos.mergeSort fun a b => b.value ≤ a.value).take coins.length).length =
          coins.length := by
        rw [List.length_take, Nat.min_eq_left few]
      have heavier := sum_le_sum_take_of_perm (pairwise_sorted utxos)
        (List.mergeSort_perm _ _).symm sub
      have front := never _ (List.ne_nil_of_length_pos (by
        rw [count]
        exact List.length_pos_iff.mpr inhabited)) (List.take_prefix coins.length _)
      rw [coversChange, decide_eq_false_iff_not, count] at front
      exact front (covers.trans heavier)

/-- The sums of the chosen coins fit as well. -/
theorem PaymentFits.chosen (fits : PaymentFits feePolicy amount utxos) :
    PaymentFits feePolicy amount (chosenUtxos feePolicy amount utxos) := by
  obtain ⟨coins, same, inside⟩ := @chosenUtxos_subperm feePolicy amount utxos
  exact (fits.sublist inside).perm same

/-- Without change nothing is left out. -/
theorem chosenUtxos_perm_of_not (short : coversChange feePolicy amount
    (chosenUtxos feePolicy amount utxos) = false) :
    (chosenUtxos feePolicy amount utxos).Perm utxos := by
  rcases (chosenUtxos_spec feePolicy amount utxos).2 with ⟨-, done⟩ | ⟨all, -⟩
  · rw [short] at done
    cases done
  · rw [all]
    exact List.mergeSort_perm _ _

end Coins

section Payment

variable [Primitives] {checks : Bool} {senderKey : PrivateKey} {recipient : AccountAddress}
  {amount : UInt64} {feePolicy : FeePolicy} {utxos selected : List SpendableUtxo} {tx : Transaction}

/-- A transaction that pays with some of the coins: the amount to the recipient, and at most one
more output, which returns more than the dust threshold. What it leaves as a fee is at least the
estimate for it, and at most the estimate with change and the dust threshold above. -/
structure IsPayment (senderKey : PrivateKey) (recipient : AccountAddress) (amount : UInt64)
    (feePolicy : FeePolicy) (utxos selected : List SpendableUtxo) (tx : Transaction) : Prop where
  inputs : tx.data.inputs = selected.map fun utxo => ⟨utxo.outpoint, 0⟩
  members : ∀ utxo ∈ selected, utxo ∈ utxos
  distinct : (selected.map SpendableUtxo.outpoint).Nodup
  outputs : tx.data.outputs = [⟨amount, recipient⟩] ∨ ∃ change, dustThreshold < change ∧
    tx.data.outputs = [⟨amount, recipient⟩, ⟨change, senderKey.address⟩]
  least : (tx.data.outputs.map fun output => output.value.toNat).sum +
    feePolicy.fee tx.data.inputs.length tx.data.outputs.length ≤ totalValue selected
  most : totalValue selected ≤ (tx.data.outputs.map fun output => output.value.toNat).sum +
    feePolicy.fee tx.data.inputs.length 2 + dustThreshold.toNat

omit [Primitives] in
theorem nodup_map_of_subperm {α β : Type} {f : α → β} {l l' : List α} (sub : l.Subperm l')
    (distinct : (l'.map f).Nodup) : (l.map f).Nodup := by
  obtain ⟨some, same, inside⟩ := sub
  exact (same.map f).nodup_iff.mp (distinct.sublist (inside.map f))

/-- The payment of the amount alone. -/
theorem IsPayment.single (sub : selected.Subperm utxos)
    (distinct : (utxos.map SpendableUtxo.outpoint).Nodup)
    (least : amount.toNat + feePolicy.fee selected.length 1 ≤ totalValue selected)
    (most : totalValue selected ≤
      amount.toNat + feePolicy.fee selected.length 2 + dustThreshold.toNat) :
    IsPayment senderKey recipient amount feePolicy utxos selected
      (paymentOf senderKey selected [⟨amount, recipient⟩]) where
  inputs := rfl
  members _ mem := sub.subset mem
  distinct := nodup_map_of_subperm sub distinct
  outputs := .inl rfl
  least := by simpa [paymentOf, TransactionData.sign] using least
  most := by simpa [paymentOf, TransactionData.sign] using most

/-- The payment with change. -/
theorem IsPayment.withChange (sub : selected.Subperm utxos)
    (distinct : (utxos.map SpendableUtxo.outpoint).Nodup) {change : UInt64}
    (worthwhile : dustThreshold < change)
    (exactly : totalValue selected =
      amount.toNat + feePolicy.fee selected.length 2 + change.toNat) :
    IsPayment senderKey recipient amount feePolicy utxos selected
      (paymentOf senderKey selected [⟨amount, recipient⟩, ⟨change, senderKey.address⟩]) where
  inputs := rfl
  members _ mem := sub.subset mem
  distinct := nodup_map_of_subperm sub distinct
  outputs := .inr ⟨change, worthwhile, rfl⟩
  least := by
    simp only [paymentOf, TransactionData.sign, List.map_cons, List.map_nil, List.sum_cons,
      List.sum_nil, List.length_map, List.length_cons, List.length_nil, Nat.zero_add, Nat.reduceAdd]
    omega
  most := by
    simp only [paymentOf, TransactionData.sign, List.map_cons, List.map_nil, List.sum_cons,
      List.sum_nil, List.length_map]
    omega

/-- A payment that is built from the selected coins returns the change, or it has none and leaves
the estimate for one output at least. A build that checks its arithmetic returns without change only
what the estimate for two outputs leaves. -/
theorem finishPayment_outcome (fits : PaymentFits feePolicy amount selected)
    (built : finishPayment checks senderKey recipient amount feePolicy selected
      (UInt64.ofNat (totalValue selected)) = .ok tx) :
    (amount.toNat + feePolicy.fee selected.length 1 ≤ totalValue selected ∧
      totalValue selected ≤
        amount.toNat + feePolicy.fee selected.length 2 + dustThreshold.toNat ∧
      (checks = true → amount.toNat + feePolicy.fee selected.length 2 ≤ totalValue selected) ∧
      tx = paymentOf senderKey selected [⟨amount, recipient⟩]) ∨
    ∃ change, dustThreshold < change ∧
      totalValue selected = amount.toNat + feePolicy.fee selected.length 2 + change.toNat ∧
      tx = paymentOf senderKey selected [⟨amount, recipient⟩, ⟨change, senderKey.address⟩] := by
  by_cases short : totalValue selected < amount.toNat + feePolicy.fee selected.length 1
  · obtain ⟨message, failed⟩ := @finishPayment_short _ checks senderKey recipient _ _ _ fits short
    rw [failed] at built
    cases built
  by_cases window : totalValue selected < amount.toNat + feePolicy.fee selected.length 2
  · rw [finishPayment_window fits (by omega) window] at built
    cases checks with
    | true => cases built
    | false =>
      refine .inl ⟨by omega, by omega, fun checked => ?_, (Except.ok.inj built).symm⟩
      cases checked
  · obtain ⟨remainder, value, result⟩ :=
      @finishPayment_covered _ checks senderKey recipient _ _ _ fits (by omega)
    rw [result, Except.ok.injEq] at built
    rw [← built]
    by_cases worthwhile : dustThreshold < remainder
    · rw [if_pos worthwhile]
      exact .inr ⟨remainder, worthwhile, by omega, rfl⟩
    · rw [if_neg worthwhile]
      have dust := UInt64.le_iff_toNat_le.mp (UInt64.not_lt.mp worthwhile)
      have cheaper := feePolicy.fee_mono_outputs selected.length
      exact .inl ⟨by omega, by omega, fun _ => by omega, rfl⟩

/-- Whatever coins are selected, a payment that is built from them is one. -/
theorem finishPayment_sound (sub : selected.Subperm utxos)
    (distinct : (utxos.map SpendableUtxo.outpoint).Nodup)
    (fits : PaymentFits feePolicy amount selected)
    (built : finishPayment checks senderKey recipient amount feePolicy selected
      (UInt64.ofNat (totalValue selected)) = .ok tx) :
    IsPayment senderKey recipient amount feePolicy utxos selected tx := by
  cases finishPayment_outcome fits built with
  | inl single =>
    obtain ⟨least, most, -, same⟩ := single
    rw [same]
    exact .single sub distinct least most
  | inr withChange =>
    obtain ⟨change, worthwhile, exactly, same⟩ := withChange
    rw [same]
    exact .withChange sub distinct worthwhile exactly

/-- `build_payment` on distinct coins whose sums fit in a `u64`. It subtracts no more than there is,
and every payment it returns is one, exactly when some of the coins cover the amount and the fee
with change, or all of them fall short of the amount and the fee without. What it returns is a
payment in any case. -/
theorem build_payment_exact (senderKey : PrivateKey) (utxos : List SpendableUtxo)
    (recipient : AccountAddress) (amount : UInt64) (feePolicy : FeePolicy) (ne : utxos ≠ [])
    (distinct : (utxos.map SpendableUtxo.outpoint).Nodup)
    (fits : PaymentFits feePolicy amount utxos) :
    (∀ checks tx, buildPayment checks senderKey utxos recipient amount feePolicy = .ok tx →
      ∃ selected, IsPayment senderKey recipient amount feePolicy utxos selected tx) ∧
    ((buildPayment true senderKey utxos recipient amount feePolicy ≠
          .error (.panic "attempt to subtract with overflow") ∧
        ∀ checks tx, buildPayment checks senderKey utxos recipient amount feePolicy = .ok tx →
          ∃ selected, IsPayment senderKey recipient amount feePolicy utxos selected tx) ↔
      (∃ coins, coins ≠ [] ∧ coins.Sublist utxos ∧
          amount.toNat + feePolicy.fee coins.length 2 ≤ totalValue coins) ∨
        totalValue utxos < amount.toNat + feePolicy.fee utxos.length 1) := by
  have sub := @chosenUtxos_subperm feePolicy amount utxos
  have chosenFits := fits.chosen
  have sound : ∀ checks tx,
      buildPayment checks senderKey utxos recipient amount feePolicy = .ok tx →
        ∃ selected, IsPayment senderKey recipient amount feePolicy utxos selected tx := by
    intro checks tx built
    rw [buildPayment_eq ne fits] at built
    exact ⟨_, finishPayment_sound sub distinct chosenFits built⟩
  refine ⟨sound, ?_⟩
  rw [← coversChange_chosen_iff ne, buildPayment_eq ne fits]
  by_cases covers : coversChange feePolicy amount (chosenUtxos feePolicy amount utxos) = true
  · -- the change is there
    have enough := of_decide_eq_true covers
    obtain ⟨remainder, -, result⟩ :=
      @finishPayment_covered _ true senderKey recipient _ _ _ chosenFits enough
    refine iff_of_true ⟨?_, sound⟩ (.inl covers)
    rw [result]
    simp
  · have short : coversChange feePolicy amount (chosenUtxos feePolicy amount utxos) = false :=
      Bool.eq_false_iff.mpr covers
    have lacking := of_decide_eq_false short
    have all := chosenUtxos_perm_of_not short
    rw [← totalValue_perm all, ← all.length_eq]
    by_cases poor : totalValue (chosenUtxos feePolicy amount utxos) <
        amount.toNat + feePolicy.fee (chosenUtxos feePolicy amount utxos).length 1
    · -- the funds are refused before the change is computed
      obtain ⟨message, failed⟩ :=
        @finishPayment_short _ true senderKey recipient _ _ _ chosenFits poor
      refine iff_of_true ⟨?_, sound⟩ (.inr poor)
      rw [failed]
      simp
    · have window := @finishPayment_window _ true senderKey recipient _ _ _ chosenFits (by omega)
        (by omega)
      refine iff_of_false (fun safe => safe.1 ?_) (not_or.mpr ⟨covers, poor⟩)
      rw [window, if_pos rfl]

end Payment

namespace Sample

def defaultFees : FeePolicy := ⟨1000, 500, 250, 10⟩

def payer : PrivateKey := ⟨⟨7⟩, fun _ => ⟨0⟩⟩

/-- A coin that covers a payment of 100000 with one output, but not with two. -/
def tightCoin : SpendableUtxo := ⟨⟨⟨1⟩, 0⟩, 104000⟩

def richCoin : SpendableUtxo := ⟨⟨⟨1⟩, 0⟩, 1000000⟩

/-- One coin at a time. -/
theorem fits_single {utxo : SpendableUtxo}
    (fees : ∀ n ≤ 1, ∀ m ≤ 2, 100000 + defaultFees.fee n m < 2 ^ 64) :
    PaymentFits defaultFees 100000 [utxo] where
  total := by
    rw [totalValue_singleton]
    exact utxo.value.toNat_lt
  fees := fees

end Sample

open Sample in
/-- The fee of one output is 3790, of two outputs 4490, and 4000 is left. -/
theorem build_payment_underflows :
    ([tightCoin].map SpendableUtxo.outpoint).Nodup ∧ PaymentFits defaultFees 100000 [tightCoin] ∧
    buildPayment true payer [tightCoin] ⟨8⟩ 100000 defaultFees =
      .error (.panic "attempt to subtract with overflow") := by
  have fits : PaymentFits defaultFees 100000 [tightCoin] := fits_single (by decide)
  have chosen : chosenUtxos defaultFees 100000 [tightCoin] = [tightCoin] := by
    rw [chosenUtxos, List.mergeSort_singleton]
    rfl
  refine ⟨by decide, fits, ?_⟩
  rw [buildPayment_eq (by simp) fits, chosen, finishPayment_window fits (by decide) (by decide)]
  rfl

namespace Sample

/-- Three coins, of which no single one covers a payment of 100000. -/
def walletCoins : List SpendableUtxo :=
  [⟨⟨⟨3⟩, 0⟩, 30000⟩, ⟨⟨⟨4⟩, 1⟩, 62000⟩, ⟨⟨⟨5⟩, 0⟩, 50000⟩]

theorem fits_walletCoins : PaymentFits defaultFees 100000 walletCoins where
  total := by decide
  fees := by decide

theorem chosenUtxos_walletCoins :
    chosenUtxos defaultFees 100000 walletCoins = [⟨⟨⟨4⟩, 1⟩, 62000⟩, ⟨⟨⟨5⟩, 0⟩, 50000⟩] := by
  have sorted : (walletCoins.mergeSort fun a b => b.value ≤ a.value) =
      [⟨⟨⟨4⟩, 1⟩, 62000⟩, ⟨⟨⟨5⟩, 0⟩, 50000⟩, ⟨⟨⟨3⟩, 0⟩, 30000⟩] := by
    simp [walletCoins, List.mergeSort, List.MergeSort.Internal.splitInTwo]
  rw [chosenUtxos, sorted]
  rfl

end Sample

open Sample in
/-- The two larger coins are taken, and the change of 6320 comes back. -/
theorem build_payment_exact_sample :
    buildPayment true payer walletCoins ⟨8⟩ 100000 defaultFees ≠
      .error (.panic "attempt to subtract with overflow") ∧
    ∃ tx selected, buildPayment true payer walletCoins ⟨8⟩ 100000 defaultFees = .ok tx ∧
      IsPayment payer ⟨8⟩ 100000 defaultFees walletCoins selected tx ∧ selected.length = 2 ∧
      tx.data.outputs = [⟨100000, ⟨8⟩⟩, ⟨6320, payer.address⟩] := by
  have pays : (buildPayment true payer walletCoins ⟨8⟩ 100000 defaultFees).toOption.any (fun tx =>
      tx.data.inputs.length = 2 ∧
        tx.data.outputs = [⟨100000, ⟨8⟩⟩, ⟨6320, payer.address⟩]) = true := by
    rw [buildPayment_eq (by simp [walletCoins]) fits_walletCoins, chosenUtxos_walletCoins]
    decide +kernel
  obtain ⟨tx, built, reads⟩ := exists_ok_of_any pays
  obtain ⟨inputs, outputs⟩ := of_decide_eq_true reads
  have exactly := (build_payment_exact payer walletCoins ⟨8⟩ 100000 defaultFees
    (by simp [walletCoins]) (by decide) fits_walletCoins).2
  obtain ⟨sound, payments⟩ := exactly.mpr (.inl ⟨walletCoins.tail, by simp [walletCoins],
    List.sublist_cons_self _ _, by decide⟩)
  obtain ⟨selected, payment⟩ := payments true tx built
  refine ⟨sound, tx, selected, built, payment, ?_, outputs⟩
  rw [payment.inputs, List.length_map] at inputs
  exact inputs

end StryiChain
