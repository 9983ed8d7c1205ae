import StryiChain.Misc.Hex
import StryiChain.Misc.MachineInt

/-!
# Typed hashes (`hash.rs`)

The four digests of the chain differ in their length and in the text they are printed with.
A digest is kept as the number its bytes spell in big-endian order, which is the number that
the proof-of-work comparison reads.
-/

namespace StryiChain

/-- The implementors of the trait `HashKind`: `BlockHashKind`, `TransactionHasher`,
`MerkleRootHashKind` and `AddressHasher`. -/
inductive HashKind where
  | block
  | transaction
  | merkle
  | address
  deriving DecidableEq, Repr

/-- `HashKind::SIZE`, in bytes. -/
@[reducible] def HashKind.size : HashKind → Nat
  | .address => 20
  | _ => 32

/-- `HashKind::PREFIX`. -/
def HashKind.tag : HashKind → String
  | .block => "Bx"
  | .transaction => "Tx"
  | .merkle => "MKR"
  | .address => "@"

/-- The name of the kind in debug output, without `Hasher` or `HashKind`. -/
def HashKind.debugName : HashKind → String
  | .block => "Block"
  | .transaction => "Transaction"
  | .merkle => "MerkleRoot"
  | .address => "Address"

/-- `Hash<K>` (`hash.rs:37-45`). -/
structure Hash (kind : HashKind) where
  data : BitVec (8 * kind.size)
  deriving DecidableEq

instance (kind : HashKind) : LawfulBEq (Hash kind) := inferInstance

abbrev BlockHash := Hash .block
abbrev TransactionHash := Hash .transaction
abbrev MerkleHash := Hash .merkle
abbrev AccountAddress := Hash .address

/-- The digest of zero bytes: `BlockHash::empty()` and `MerkleHash::empty()`. -/
def Hash.empty {kind : HashKind} : Hash kind := ⟨0⟩

/-- The bytes of the field `data`. -/
def Hash.bytes {kind : HashKind} (hash : Hash kind) : List UInt8 :=
  beBytes kind.size hash.data.toNat

@[simp] theorem Hash.length_bytes {kind : HashKind} (hash : Hash kind) :
    hash.bytes.length = kind.size := length_beBytes _ _

theorem Hash.bytes_injective {kind : HashKind} :
    Function.Injective (Hash.bytes : Hash kind → List UInt8) := by
  intro a b same
  have bound : ∀ hash : Hash kind, hash.data.toNat < 256 ^ kind.size := by
    intro hash
    have fits := hash.data.isLt
    rwa [Nat.pow_mul] at fits
  have data : a.data = b.data := BitVec.eq_of_toNat_eq (beBytes_inj (bound a) (bound b) same)
  cases a
  cases b
  exact congrArg Hash.mk data

/-- `Display for Hash<K>` (`hash.rs:116-127`). -/
def Hash.display {kind : HashKind} (hash : Hash kind) : String :=
  kind.tag ++ hexEncode hash.bytes

instance {kind : HashKind} : ToString (Hash kind) := ⟨Hash.display⟩

/-- `Debug for Hash<K>` (`hash.rs:183-208`). -/
def Hash.debug {kind : HashKind} (hash : Hash kind) : String :=
  s!"StryiHash({kind.debugName}, {hash})"

/-- `BlockHash::meets_threshold` (`block_hash.rs:89-91`): inclusive comparison of the big-endian
integer value. -/
def Hash.meetsThreshold (hash : BlockHash) (threshold : BitVec 256) : Bool :=
  decide (hash.data.toNat ≤ threshold.toNat)

end StryiChain
