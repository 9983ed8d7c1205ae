import StryiChain.Core.Hash
import StryiChain.Misc.Base64
import StryiChain.Misc.Codec
import StryiChain.Misc.DiGraph

/-!
# Transactions (`transactions/mod.rs`, `transactions/utxo.rs`)

The data model of transactions, and the class of everything the node takes from outside its
own source: the hash functions, the encodings of postcard, base64 and hex, the graphs of petgraph,
public-key recovery and the iteration order of a hash map.
-/

namespace StryiChain

/-- `OutPoint`: the transaction that created an output and its index there. -/
structure OutPoint where
  txid : TransactionHash
  vout : UInt32
  deriving DecidableEq

/-- `Display for OutPoint`. -/
instance : ToString OutPoint := ⟨fun outpoint => s!"{outpoint.txid}:{outpoint.vout}"⟩

/-- The derived `Debug` of `OutPoint`. -/
def OutPoint.debug (outpoint : OutPoint) : String :=
  "OutPoint \x7b txid: " ++ outpoint.txid.debug ++ s!", vout: {outpoint.vout}" ++ " \x7d"

/-- `TransactionIn`. -/
structure TransactionIn where
  previousOutput : OutPoint
  sequence : UInt32
  deriving DecidableEq

/-- `TransactionOut`. -/
structure TransactionOut where
  value : UInt64
  recipient : AccountAddress
  deriving DecidableEq

/-- `UTXO`: a spendable output. -/
structure UTXO where
  txid : TransactionHash
  vout : UInt32
  value : UInt64
  owner : AccountAddress
  deriving DecidableEq

/-- `TransactionKind`. A coinbase carries the height and parent of its block, so that they enter
its hash. -/
inductive TransactionKind where
  | coinbase (height : UInt64) (parent : BlockHash)
  | genesis
  | payment
  deriving DecidableEq

/-- `matches!(kind, TransactionKind::Coinbase { .. })`. -/
def TransactionKind.isCoinbase : TransactionKind → Bool
  | .coinbase _ _ => true
  | _ => false

/-- `TransactionData`: the unsigned payload. -/
structure TransactionData where
  version : UInt16
  kind : TransactionKind
  inputs : List TransactionIn
  outputs : List TransactionOut
  deriving DecidableEq

/-- `StryiSignature`: 65 bytes, the recovery id first. -/
structure StryiSignature where
  bytes : BitVec 520
  deriving DecidableEq

/-- `Transaction`. -/
structure Transaction where
  data : TransactionData
  signature : StryiSignature
  deriving DecidableEq

/-- What the source takes from other crates.

`blockDigest` is `BlockHashKind::hash` (HashX mixed by BLAKE3), `blake3` the default
`HashKind::hash` with a 32-byte output, `encodeData` and `encodeTransaction` are
`postcard::to_stdvec`, and `recoverAuthor` is `recover_public_key` followed by
`AccountAddress::from_public_key`. The classes that are extended are what is relied on of
`postcard`, `base64`, `hex` and `petgraph`. A `HashMap` or `HashSet` lists its entries in an order
that is not specified: `iter` is that order, and all that is known of it is that nothing is lost,
added or repeated. The threads of a parallel loop take their steps in an order that is not specified
either: `schedule n` lists whose turn it is in the `n`th such loop of a block. -/
class Primitives extends Serializer, Base64, Hex, GraphLibrary where
  blake3 : List UInt8 → BitVec 256
  blockDigest : List UInt8 → BitVec 256
  encodeData : TransactionData → List UInt8
  encodeTransaction : Transaction → List UInt8
  recoverAuthor : Transaction → Option AccountAddress
  iter : {α : Type} → List α → List α
  iter_perm : ∀ {α : Type} (l : List α), (iter l).Perm l
  schedule : Nat → List Nat

export Primitives (iter iter_perm)

variable [Primitives]

/-- `TransactionData::hash` (`transactions/mod.rs:73-78`): the signature is not part of it. -/
def TransactionData.hash (data : TransactionData) : TransactionHash :=
  ⟨Primitives.blake3 (Primitives.encodeData data)⟩

@[simp] theorem mem_iter {α : Type} {l : List α} {a : α} : a ∈ iter l ↔ a ∈ l :=
  (iter_perm l).mem_iff

@[simp] theorem iter_nil {α : Type} : iter ([] : List α) = [] :=
  (iter_perm _).eq_nil

theorem nodup_iter {α : Type} {l : List α} : (iter l).Nodup ↔ l.Nodup :=
  (iter_perm l).nodup_iff

/-- The outputs of a transaction as spendable outputs under their outpoints, the index truncated
to 32 bits (`vout as u32`). -/
def Transaction.createdUtxos (tx : Transaction) : List (OutPoint × UTXO) :=
  tx.data.outputs.zipIdx.map fun (output, index) =>
    let vout := UInt32.ofNat index
    (⟨tx.data.hash, vout⟩, ⟨tx.data.hash, vout, output.value, output.recipient⟩)

/-- The outpoints a transaction names as inputs. -/
def Transaction.spentOutpoints (tx : Transaction) : List OutPoint :=
  tx.data.inputs.map TransactionIn.previousOutput

/-- The inputs a block applies: only a payment consumes anything. -/
def Transaction.paymentInputs (tx : Transaction) : List OutPoint :=
  if tx.data.kind = .payment then tx.spentOutpoints else []

end StryiChain
