import StryiChain.Core.Postcard
import StryiChain.Mempool.Storage
import StryiChain.Wallet.Payment
import Mathlib.Tactic.Ring

/-!
# The fee of the wallet and the fee of the node (`size.rs:3-41`, `fee_policy.rs:48-86`)

The wallet pays for a size that it estimates from the numbers of inputs and outputs; the node asks
for the bytes of the transaction. The two differ in the widths of the numbers: the estimate has one
byte for every output index and for the length of the inputs, and for the values none when there is
one output and three bytes when there are two.
-/

namespace StryiChain

section Widths

variable [Serializer]

/-- The bytes that the length of the inputs and the output indexes take beyond the one byte each
that the estimate counts. -/
def inputExcess (inputs : List TransactionIn) : Nat :=
  (Codec.lengthBytes inputs.length).length - 1 +
    (inputs.map fun input => Codec.u32.size input.previousOutput.vout - 1).sum

theorem size_u32_pos (n : UInt32) : 0 < Codec.u32.size n := by
  rw [Codec.size_u32]
  exact length_varint_pos 4 n.toNat

theorem size_u64_pos (n : UInt64) : 0 < Codec.u64.size n := by
  rw [Codec.size_u64]
  exact length_varint_pos 9 n.toNat

omit [Serializer] in
theorem length_lengthBytes_pos (n : Nat) : 0 < (Codec.lengthBytes n).length := length_varint_pos n n

theorem size_u32_le_one_iff {n : UInt32} : Codec.u32.size n ≤ 1 ↔ n < 128 := by
  rw [UInt32.lt_iff_toNat_lt, Codec.size_u32]
  exact length_varint_le_iff (by decide) (by decide)

theorem size_u64_le_one_iff {n : UInt64} : Codec.u64.size n ≤ 1 ↔ n < 128 := by
  rw [UInt64.lt_iff_toNat_lt, Codec.size_u64]
  exact length_varint_le_iff (by decide) (by decide)

theorem size_u64_le_two_iff {n : UInt64} : Codec.u64.size n ≤ 2 ↔ n < 16384 := by
  rw [UInt64.lt_iff_toNat_lt, Codec.size_u64]
  exact length_varint_le_iff (by decide) (by decide)

omit [Serializer] in
theorem length_lengthBytes_le_one_iff {n : Nat} : (Codec.lengthBytes n).length ≤ 1 ↔ n < 128 := by
  by_cases small : n < 128
  · rw [Codec.length_lengthBytes_eq_one small]
    exact iff_of_true (Nat.le_refl 1) small
  · exact length_varint_le_iff (by decide) (by omega)

/-- No length and no index takes more than its one byte. -/
theorem inputExcess_eq_zero_iff {inputs : List TransactionIn} :
    inputExcess inputs = 0 ↔
      inputs.length < 128 ∧ ∀ input ∈ inputs, input.previousOutput.vout < 128 := by
  have indexes : (inputs.map fun input => Codec.u32.size input.previousOutput.vout - 1).sum = 0 ↔
      ∀ input ∈ inputs, input.previousOutput.vout < 128 := by
    rw [List.sum_eq_zero_iff]
    simp only [List.mem_map, forall_exists_index, and_imp, forall_apply_eq_imp_iff₂,
      Nat.sub_eq_zero_iff_le, size_u32_le_one_iff]
  rw [inputExcess, Nat.add_eq_zero_iff, indexes, Nat.sub_eq_zero_iff_le,
    length_lengthBytes_le_one_iff]

end Widths

section Size

variable [Primitives]

/-- The inputs of the wallet, which have the sequence 0. -/
theorem sum_size_inputs (inputs : List TransactionIn)
    (unsequenced : ∀ input ∈ inputs, input.sequence = 0) :
    (inputs.map transactionInCodec.size).sum = inputs.length * 69 +
      (inputs.map fun input => Codec.u32.size input.previousOutput.vout - 1).sum := by
  induction inputs with
  | nil => rfl
  | cons input inputs ih =>
    have rest := ih fun other mem => unsequenced other (List.mem_cons_of_mem input mem)
    have vout := size_u32_pos input.previousOutput.vout
    have sequence : Codec.u32.size input.sequence = 1 := by
      rw [unsequenced input List.mem_cons_self, Codec.size_u32]
      rfl
    rw [List.map_cons, List.sum_cons, rest, size_transactionInCodec, sequence, List.map_cons,
      List.sum_cons, List.length_cons]
    omega

variable {tx : Transaction}

/-- The bytes of a payment, but for its outputs. -/
theorem size_payment (version : tx.data.version = 0) (kind : tx.data.kind = .payment)
    (unsequenced : ∀ input ∈ tx.data.inputs, input.sequence = 0) :
    transactionCodec.size tx = 92 + tx.data.inputs.length * 69 + inputExcess tx.data.inputs +
      transactionOutCodec.vector.size tx.data.outputs := by
  have first : Codec.u16.size tx.data.version = 1 := by
    rw [version, Codec.size_u16]
    rfl
  have second : transactionKindCodec.size tx.data.kind = 1 := by
    rw [kind]
    exact Codec.size_u32 2
  have length := length_lengthBytes_pos tx.data.inputs.length
  rw [size_transactionCodec, first, second, Codec.size_vector transactionInCodec,
    sum_size_inputs _ unsequenced, inputExcess]
  omega

/-- A payment without change is longer than the estimate, by the width of the amount at least. -/
theorem size_single (version : tx.data.version = 0) (kind : tx.data.kind = .payment)
    (unsequenced : ∀ input ∈ tx.data.inputs, input.sequence = 0) {payment : TransactionOut}
    (outputs : tx.data.outputs = [payment]) :
    transactionCodec.size tx = estimateTransactionSize tx.data.inputs.length 1 +
      (inputExcess tx.data.inputs + Codec.u64.size payment.value) := by
  have vector : transactionOutCodec.vector.size [payment] = Codec.u64.size payment.value + 43 := by
    rw [Codec.size_vector, List.map_singleton, List.sum_singleton, size_transactionOutCodec,
      List.length_singleton, Codec.length_lengthBytes_eq_one (by decide)]
    omega
  rw [size_payment version kind unsequenced, outputs, vector]
  simp only [estimateTransactionSize]
  split_ifs <;> omega

/-- With change the estimate counts one byte for the amount and two for the change. -/
theorem size_change (version : tx.data.version = 0) (kind : tx.data.kind = .payment)
    (unsequenced : ∀ input ∈ tx.data.inputs, input.sequence = 0) {payment change : TransactionOut}
    (outputs : tx.data.outputs = [payment, change]) (wide : 2 ≤ Codec.u64.size change.value) :
    transactionCodec.size tx = estimateTransactionSize tx.data.inputs.length 2 +
      (inputExcess tx.data.inputs + (Codec.u64.size payment.value - 1) +
        (Codec.u64.size change.value - 2)) := by
  have vector : transactionOutCodec.vector.size [payment, change] =
      Codec.u64.size payment.value + Codec.u64.size change.value + 85 := by
    rw [Codec.size_vector, List.map_cons, List.map_singleton, List.sum_cons, List.sum_singleton,
      size_transactionOutCodec, size_transactionOutCodec, List.length_cons, List.length_singleton,
      Codec.length_lengthBytes_eq_one (by decide)]
    omega
  have amount := size_u64_pos payment.value
  rw [size_payment version kind unsequenced, outputs, vector]
  simp only [estimateTransactionSize]
  split_ifs <;> omega

end Size

namespace FeePolicy

variable [Primitives]

/-- `FeeCalculator::is_fee_sufficient` (`fee_policy.rs:83-86`). -/
def isFeeSufficient (policy : FeePolicy) (tx : Transaction) (providedFee : UInt64) : Bool :=
  let requiredFee := policy.calculateFee tx
  decide (requiredFee ≤ providedFee)

/-- The fee that the node asks for, without a bound. -/
def nodeFee (policy : FeePolicy) (tx : Transaction) : Nat :=
  policy.fixedFee.toNat + policy.inputCost.toNat * tx.data.inputs.length +
    policy.outputCost.toNat * tx.data.outputs.length + policy.byteCost.toNat * tx.serializedSize

variable {policy : FeePolicy} {tx : Transaction}

theorem calculateFee_eq : policy.calculateFee tx = UInt64.ofNat (policy.nodeFee tx) := by
  simp only [calculateFee, nodeFee, UInt64.ofNat_add, UInt64.ofNat_mul, UInt64.ofNat_toNat]

theorem isFeeSufficient_iff (fits : policy.nodeFee tx < 2 ^ 64) (providedFee : UInt64) :
    policy.isFeeSufficient tx providedFee = true ↔ policy.nodeFee tx ≤ providedFee.toNat := by
  rw [isFeeSufficient, decide_eq_true_iff, calculateFee_eq, UInt64.le_iff_toNat_le,
    toNat_ofNat_u64 fits]

/-- The node asks for the estimate and for the bytes beyond the estimated size. -/
theorem nodeFee_eq {excess : Nat} (size : tx.serializedSize =
      estimateTransactionSize tx.data.inputs.length tx.data.outputs.length + excess) :
    policy.nodeFee tx = policy.fee tx.data.inputs.length tx.data.outputs.length +
      policy.byteCost.toNat * excess := by
  rw [nodeFee, fee, size]
  ring

omit [Primitives] in
/-- What a second output adds to the estimate. -/
theorem fee_second_output (policy : FeePolicy) (n : Nat) :
    policy.fee n 2 = policy.fee n 1 + policy.outputCost.toNat + policy.byteCost.toNat * 45 := by
  have size : estimateTransactionSize n 2 = estimateTransactionSize n 1 + 45 := by
    simp only [estimateTransactionSize]
    split_ifs <;> omega
  rw [fee, fee, size]
  ring

end FeePolicy

section Payment

variable [Primitives] {checks : Bool} {senderKey : PrivateKey} {recipient : AccountAddress}
  {amount : UInt64} {feePolicy : FeePolicy} {utxos selected : List SpendableUtxo} {tx : Transaction}

/-- The encoding that the node measures is the one of `postcard`. -/
def EncodesTransactions : Prop :=
  ∀ tx, Primitives.encodeTransaction tx = transactionCodec.encode tx

/-- The wallet sets no sequence. -/
theorem paymentOf_unsequenced (outputs : List TransactionOut) :
    ∀ input ∈ (paymentOf senderKey selected outputs).data.inputs, input.sequence = 0 := by
  intro input mem
  obtain ⟨utxo, -, same⟩ := List.mem_map.mp mem
  rw [← same]

/-- Without change the payment is longer than the estimate. -/
theorem serializedSize_single (encoded : EncodesTransactions) :
    let tx := paymentOf senderKey selected [⟨amount, recipient⟩]
    tx.serializedSize = estimateTransactionSize tx.data.inputs.length 1 +
      (inputExcess tx.data.inputs + Codec.u64.size amount) := by
  intro tx
  have size : tx.serializedSize = transactionCodec.size tx := congrArg List.length (encoded tx)
  rw [size, size_single rfl rfl (paymentOf_unsequenced _) rfl]

/-- Without change the node asks for more than the estimate. -/
theorem nodeFee_single (encoded : EncodesTransactions) :
    let tx := paymentOf senderKey selected [⟨amount, recipient⟩]
    feePolicy.nodeFee tx = feePolicy.fee selected.length 1 +
      feePolicy.byteCost.toNat * (inputExcess tx.data.inputs + Codec.u64.size amount) := by
  intro tx
  have count : tx.data.inputs.length = selected.length := List.length_map _
  rw [FeePolicy.nodeFee_eq (serializedSize_single encoded), count]
  rfl

/-- With change the node asks for the estimate at least. -/
theorem nodeFee_change (encoded : EncodesTransactions) {change : UInt64}
    (wide : 2 ≤ Codec.u64.size change) :
    let tx := paymentOf senderKey selected [⟨amount, recipient⟩, ⟨change, senderKey.address⟩]
    feePolicy.nodeFee tx = feePolicy.fee selected.length 2 +
      feePolicy.byteCost.toNat * (inputExcess tx.data.inputs + (Codec.u64.size amount - 1) +
        (Codec.u64.size change - 2)) := by
  intro tx
  have size : tx.serializedSize = transactionCodec.size tx :=
    congrArg List.length (encoded tx)
  have count : tx.data.inputs.length = selected.length := List.length_map _
  rw [size_change rfl rfl (paymentOf_unsequenced _) rfl wide] at size
  rw [FeePolicy.nodeFee_eq size, count]
  rfl

/-- Change above the dust threshold takes two bytes. -/
theorem two_le_size_change {change : UInt64} (worthwhile : dustThreshold < change) :
    2 ≤ Codec.u64.size change := by
  by_contra narrow
  have small := size_u64_le_one_iff.mp (Nat.lt_succ_iff.mp (Nat.not_le.mp narrow))
  exact absurd (UInt64.lt_trans worthwhile small) (by decide)

/-- A payment without change pays the node with what it leaves beyond the estimate. -/
theorem sufficient_single_iff (encoded : EncodesTransactions) {paid : UInt64}
    (nodeFits : feePolicy.nodeFee (paymentOf senderKey selected [⟨amount, recipient⟩]) < 2 ^ 64)
    (least : feePolicy.fee selected.length 1 ≤ paid.toNat) :
    let tx := paymentOf senderKey selected [⟨amount, recipient⟩]
    feePolicy.isFeeSufficient tx paid = true ↔
      feePolicy.byteCost.toNat * (inputExcess tx.data.inputs + Codec.u64.size amount) ≤
        paid.toNat - feePolicy.fee tx.data.inputs.length 1 := by
  intro tx
  have count : tx.data.inputs.length = selected.length := List.length_map _
  rw [FeePolicy.isFeeSufficient_iff nodeFits, nodeFee_single encoded, count]
  exact (Nat.le_sub_iff_add_le' least).symm

/-- What a second output would add to the estimate pays for the width of any amount, and for 35
bytes of the inputs. -/
theorem sufficient_single (encoded : EncodesTransactions) {paid : UInt64}
    (nodeFits : feePolicy.nodeFee (paymentOf senderKey selected [⟨amount, recipient⟩]) < 2 ^ 64)
    (enough : feePolicy.fee selected.length 2 ≤ paid.toNat) :
    let tx := paymentOf senderKey selected [⟨amount, recipient⟩]
    inputExcess tx.data.inputs ≤ 35 → feePolicy.isFeeSufficient tx paid = true := by
  intro tx narrow
  have second := feePolicy.fee_second_output selected.length
  have width : Codec.u64.size amount ≤ 10 := by
    rw [Codec.size_u64]
    exact length_varint_le 10 amount.toNat
  have bytes : inputExcess tx.data.inputs + Codec.u64.size amount ≤ 45 := by omega
  have cost := Nat.mul_le_mul_left feePolicy.byteCost.toNat bytes
  rw [FeePolicy.isFeeSufficient_iff nodeFits, nodeFee_single encoded]
  show feePolicy.fee selected.length 1 +
    feePolicy.byteCost.toNat * (inputExcess tx.data.inputs + Codec.u64.size amount) ≤ paid.toNat
  omega

/-- A payment with change pays the node when no byte beyond the estimate has a cost. -/
theorem sufficient_change_iff (encoded : EncodesTransactions) {change paid : UInt64}
    (worthwhile : dustThreshold < change)
    (nodeFits : feePolicy.nodeFee (paymentOf senderKey selected
      [⟨amount, recipient⟩, ⟨change, senderKey.address⟩]) < 2 ^ 64)
    (exactly : paid.toNat = feePolicy.fee selected.length 2) :
    let tx := paymentOf senderKey selected [⟨amount, recipient⟩, ⟨change, senderKey.address⟩]
    feePolicy.isFeeSufficient tx paid = true ↔
      feePolicy.byteCost = 0 ∨ tx.data.inputs.length < 128 ∧
        (∀ input ∈ tx.data.inputs, input.previousOutput.vout < 128) ∧
        amount < 128 ∧ change < 16384 := by
  intro tx
  have free : feePolicy.byteCost.toNat = 0 ↔ feePolicy.byteCost = 0 := by
    rw [← UInt64.toNat_inj]
    rfl
  rw [FeePolicy.isFeeSufficient_iff nodeFits, nodeFee_change encoded (two_le_size_change worthwhile),
    exactly, add_le_iff_nonpos_right, Nat.le_zero, Nat.mul_eq_zero, free, Nat.add_eq_zero_iff,
    Nat.add_eq_zero_iff, inputExcess_eq_zero_iff, Nat.sub_eq_zero_iff_le, size_u64_le_one_iff,
    Nat.sub_eq_zero_iff_le, size_u64_le_two_iff, and_assoc, and_assoc]

/-- The coins, the fee that is left for it, and what becomes of a payment that `build_payment`
returns. -/
theorem buildPayment_outcome (fits : PaymentFits feePolicy amount utxos)
    (built : buildPayment checks senderKey utxos recipient amount feePolicy = .ok tx) :
    let selected := chosenUtxos feePolicy amount utxos
    (amount.toNat + feePolicy.fee selected.length 1 ≤ totalValue selected ∧
      (checks = true → amount.toNat + feePolicy.fee selected.length 2 ≤ totalValue selected) ∧
      tx = paymentOf senderKey selected [⟨amount, recipient⟩]) ∨
    ∃ change, dustThreshold < change ∧
      totalValue selected = amount.toNat + feePolicy.fee selected.length 2 + change.toNat ∧
      tx = paymentOf senderKey selected [⟨amount, recipient⟩, ⟨change, senderKey.address⟩] := by
  intro selected
  by_cases ne : utxos = []
  · rw [ne] at built
    cases built
  · rw [buildPayment_eq ne fits] at built
    cases finishPayment_outcome fits.chosen built with
    | inl single => exact .inl ⟨single.1, single.2.2.1, single.2.2.2⟩
    | inr withChange => exact .inr withChange

/-- A payment that `build_payment` returns leaves the estimated fee. With change it leaves exactly
that, which is the fee of the node only where no number takes more bytes than the estimate has for
it. Without change the estimate is always short of the size, and the payment covers it with what
it leaves beyond the estimate; a build that checks its arithmetic returns no such payment that
leaves too little, as long as the lengths and indexes of its inputs are short. -/
theorem payment_fee_sufficient_iff (encoded : EncodesTransactions) (checks : Bool)
    (senderKey : PrivateKey) (utxos : List SpendableUtxo) (recipient : AccountAddress)
    (amount : UInt64) (feePolicy : FeePolicy) (fits : PaymentFits feePolicy amount utxos)
    (tx : Transaction)
    (built : buildPayment checks senderKey utxos recipient amount feePolicy = .ok tx)
    (nodeFits : feePolicy.nodeFee tx < 2 ^ 64) :
    ∃ (selected : List SpendableUtxo) (paid : UInt64),
      selected.Subperm utxos ∧
      tx.data.inputs = selected.map (fun utxo => ⟨utxo.outpoint, 0⟩) ∧
      totalValue selected = (tx.data.outputs.map fun output => output.value.toNat).sum +
        paid.toNat ∧
      feePolicy.fee tx.data.inputs.length tx.data.outputs.length ≤ paid.toNat ∧
      ((tx.data.outputs = [⟨amount, recipient⟩] ∧
          tx.serializedSize = estimateTransactionSize tx.data.inputs.length 1 +
            (inputExcess tx.data.inputs + Codec.u64.size amount) ∧
          (feePolicy.isFeeSufficient tx paid = true ↔
            feePolicy.byteCost.toNat * (inputExcess tx.data.inputs + Codec.u64.size amount) ≤
              paid.toNat - feePolicy.fee tx.data.inputs.length 1) ∧
          (checks = true → inputExcess tx.data.inputs ≤ 35 →
            feePolicy.isFeeSufficient tx paid = true)) ∨
        ∃ change, tx.data.outputs = [⟨amount, recipient⟩, ⟨change, senderKey.address⟩] ∧
          paid.toNat = feePolicy.fee tx.data.inputs.length 2 ∧
          (feePolicy.isFeeSufficient tx paid = true ↔
            feePolicy.byteCost = 0 ∨ tx.data.inputs.length < 128 ∧
              (∀ input ∈ tx.data.inputs, input.previousOutput.vout < 128) ∧
              amount < 128 ∧ change < 16384)) := by
  have total := fits.chosen.total
  have count : ∀ outputs, (paymentOf senderKey (chosenUtxos feePolicy amount utxos)
      outputs).data.inputs.length = (chosenUtxos feePolicy amount utxos).length :=
    fun _ => List.length_map _
  cases buildPayment_outcome fits built with
  | inl single =>
    obtain ⟨least, checked, same⟩ := single
    have left : (UInt64.ofNat (totalValue (chosenUtxos feePolicy amount utxos) -
        amount.toNat)).toNat = totalValue (chosenUtxos feePolicy amount utxos) - amount.toNat :=
      toNat_ofNat_u64 (by omega)
    have enough : feePolicy.fee (chosenUtxos feePolicy amount utxos).length 1 ≤
        (UInt64.ofNat (totalValue (chosenUtxos feePolicy amount utxos) - amount.toNat)).toNat := by
      rw [left]
      omega
    rw [same] at nodeFits ⊢
    refine ⟨_, UInt64.ofNat (totalValue (chosenUtxos feePolicy amount utxos) - amount.toNat),
      chosenUtxos_subperm, rfl, ?_, ?_,
      .inl ⟨rfl, serializedSize_single encoded, sufficient_single_iff encoded nodeFits enough, ?_⟩⟩
    · rw [left]
      show _ = amount.toNat + 0 + _
      omega
    · rw [count]
      exact enough
    · intro isChecked
      have more := checked isChecked
      refine sufficient_single encoded nodeFits ?_
      rw [left]
      omega
  | inr withChange =>
    obtain ⟨change, worthwhile, exactly, same⟩ := withChange
    have paid : (UInt64.ofNat (feePolicy.fee (chosenUtxos feePolicy amount utxos).length 2)).toNat =
        feePolicy.fee (chosenUtxos feePolicy amount utxos).length 2 :=
      toNat_ofNat_u64 (by omega)
    rw [same] at nodeFits ⊢
    refine ⟨_, UInt64.ofNat (feePolicy.fee (chosenUtxos feePolicy amount utxos).length 2),
      chosenUtxos_subperm, rfl, ?_, ?_, .inr ⟨change, rfl, ?_,
        sufficient_change_iff encoded worthwhile nodeFits paid⟩⟩
    · rw [paid, exactly]
      show _ = amount.toNat + (change.toNat + 0) + _
      omega
    · rw [count, paid]
      exact le_refl _
    · rw [count, paid]

end Payment

namespace Sample

@[reducible] def encodedPrimitives : Primitives :=
  { primitives with encodeTransaction := transactionCodec.encode }

def richPayment : Transaction :=
  @paymentOf encodedPrimitives payer [richCoin] [⟨100000, ⟨8⟩⟩, ⟨895510, ⟨7⟩⟩]

theorem buildPayment_rich :
    @buildPayment encodedPrimitives true payer [richCoin] ⟨8⟩ 100000 defaultFees =
      .ok richPayment := by
  have fits : PaymentFits defaultFees 100000 [richCoin] := fits_single (by decide)
  have chosen : chosenUtxos defaultFees 100000 [richCoin] = [richCoin] := by
    rw [chosenUtxos, List.mergeSort_singleton]
    rfl
  obtain ⟨remainder, value, result⟩ :=
    @finishPayment_covered encodedPrimitives true payer ⟨8⟩ _ _ _ fits (by decide)
  have change : remainder = 895510 := UInt64.toNat_inj.mp (value.trans (by decide))
  have paid := @buildPayment_eq encodedPrimitives true payer ⟨8⟩ _ _ _ (by simp) fits
  rw [chosen, result, change] at paid
  exact paid

/-- The amount takes two bytes more than the estimate has for it, the change takes one. -/
theorem nodeFee_rich : @FeePolicy.nodeFee encodedPrimitives defaultFees richPayment = 4520 := by
  have wide : 2 ≤ Codec.u64.size 895510 := by decide
  have fee := @nodeFee_change encodedPrimitives payer ⟨8⟩ 100000 defaultFees [richCoin]
    (fun _ => rfl) 895510 wide
  exact fee.trans (by decide)

end Sample

open Sample in
/-- The estimate for one input and two outputs is 4490, and the node asks for 4520. -/
theorem payment_fee_short : PaymentFits defaultFees 100000 [richCoin] ∧
    @buildPayment encodedPrimitives true payer [richCoin] ⟨8⟩ 100000 defaultFees =
      .ok richPayment ∧
    richPayment.data.inputs = [⟨richCoin.outpoint, 0⟩] ∧
    totalValue [richCoin] =
      (richPayment.data.outputs.map fun output => output.value.toNat).sum + (4490 : UInt64).toNat ∧
    @FeePolicy.calculateFee encodedPrimitives defaultFees richPayment = 4520 ∧
    @FeePolicy.isFeeSufficient encodedPrimitives defaultFees richPayment 4490 = false := by
  have fee : @FeePolicy.calculateFee encodedPrimitives defaultFees richPayment = 4520 := by
    rw [@FeePolicy.calculateFee_eq encodedPrimitives, nodeFee_rich]
    rfl
  refine ⟨fits_single (by decide), buildPayment_rich, rfl, rfl, fee, ?_⟩
  rw [@FeePolicy.isFeeSufficient.eq_1 encodedPrimitives, fee]
  decide

open Sample in
/-- The payment above has change and an amount of more than one byte, and leaves the node too
little. -/
theorem payment_fee_sufficient_iff_sample :
    ∃ (selected : List SpendableUtxo) (paid : UInt64), selected.Subperm [richCoin] ∧
      totalValue selected = 995510 + paid.toNat ∧ 4490 ≤ paid.toNat ∧
      @FeePolicy.isFeeSufficient encodedPrimitives defaultFees richPayment paid = false := by
  have nodeFits : @FeePolicy.nodeFee encodedPrimitives defaultFees richPayment < 2 ^ 64 := by
    rw [nodeFee_rich]
    decide
  obtain ⟨selected, paid, sub, -, sum, estimate, ⟨single, -⟩ | ⟨change, -, -, sufficient, -⟩⟩ :=
    @payment_fee_sufficient_iff encodedPrimitives (fun _ => rfl) true payer [richCoin] ⟨8⟩ 100000
      defaultFees (fits_single (by decide)) richPayment buildPayment_rich nodeFits
  · cases congrArg List.length single
  · refine ⟨selected, paid, sub, sum, estimate, Bool.eq_false_iff.mpr fun enough => ?_⟩
    rcases sufficient enough with costless | ⟨-, -, narrow, -⟩
    · exact absurd costless (by decide)
    · exact absurd narrow (by decide)

end StryiChain
