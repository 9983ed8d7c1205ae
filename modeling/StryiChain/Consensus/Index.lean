import StryiChain.Storage.Traits

/-!
# The chain index and the fork registry (`consensus/index.rs`, `consensus/forks/registry.rs`)

What the engine keeps in memory: an index of the canonical chain, and the competing branches,
each under the hash of its tip.
-/

namespace StryiChain

variable [Primitives]

/-- `ChainIndexEntry`. -/
structure ChainIndexEntry where
  parent : BlockHash
  height : UInt64
  work : Nat
  deriving DecidableEq

/-- `TipInfo`. -/
structure TipInfo where
  height : UInt64
  hash : BlockHash
  work : Nat
  deriving DecidableEq

/-- `ChainIndex` (`index.rs:21-24`). -/
structure ChainIndex where
  entries : Table BlockHash ChainIndexEntry
  tip : Option TipInfo

namespace ChainIndex

/-- `ChainIndex::new`. -/
def new : ChainIndex := ⟨∅, none⟩

/-- `ChainIndex::insert` (`index.rs:36-63`): a tie keeps the old tip. -/
def insert (index : ChainIndex) (block : Block) (cumulativeWork : Nat) : ChainIndex :=
  let hash := block.blockHash
  let newTip : TipInfo := ⟨block.header.height, hash, cumulativeWork⟩
  { entries := AList.insert hash
      ⟨block.header.previousBlockHash, block.header.height, cumulativeWork⟩ index.entries
    tip :=
      match index.tip with
      | none => some newTip
      | some tip => if tip.work < cumulativeWork then some newTip else some tip }

/-- `max_by_key` over the entries: the last of the heaviest. -/
def heaviest (entries : List (BlockHash × ChainIndexEntry)) :
    Option (BlockHash × ChainIndexEntry) :=
  entries.foldl
    (fun best entry =>
      match best with
      | none => some entry
      | some best => if best.2.work ≤ entry.2.work then some entry else some best)
    none

/-- `ChainIndex::recompute_tip` (`index.rs:95-112`). -/
def recomputeTip (index : ChainIndex) : ChainIndex :=
  { index with
    tip := (heaviest (iter index.entries.toPairs)).map fun (hash, entry) =>
      ⟨entry.height, hash, entry.work⟩ }

/-- `ChainIndex::remove` (`index.rs:66-77`). -/
def remove (index : ChainIndex) (hash : BlockHash) : ChainIndex :=
  if (index.entries.read hash).isNone then
    index
  else
    let index := { index with entries := AList.erase hash index.entries }
    if index.tip.any fun tip => tip.hash = hash then index.recomputeTip else index

/-- `ChainIndex::has`. -/
def has (index : ChainIndex) (hash : BlockHash) : Bool := (index.entries.read hash).isSome

/-- `ChainIndex::parent`. -/
def parent (index : ChainIndex) (hash : BlockHash) : Option BlockHash :=
  (index.entries.read hash).map ChainIndexEntry.parent

/-- `ChainIndex::height`. -/
def height (index : ChainIndex) (hash : BlockHash) : Option UInt64 :=
  (index.entries.read hash).map ChainIndexEntry.height

/-- `ChainIndex::work`. -/
def work (index : ChainIndex) (hash : BlockHash) : Option Nat :=
  (index.entries.read hash).map ChainIndexEntry.work

end ChainIndex

/-- `ForkEntry` (`registry.rs:10-24`). -/
structure ForkEntry where
  tip : BlockHash
  cumulativeWork : Nat
  commonAncestor : BlockHash
  blocks : List Block
  deriving DecidableEq

/-- `ForkRegistry` (`registry.rs:53-56`). -/
abbrev ForkRegistry := Table BlockHash ForkEntry

namespace ForkRegistry

/-- `ForksRead::get`. -/
def get (forks : ForkRegistry) (hash : BlockHash) : Option ForkEntry := forks.read hash

/-- `ForksRead::has`: by tip. -/
def has (forks : ForkRegistry) (hash : BlockHash) : Bool := (forks.read hash).isSome

/-- `ForksRead::all`. -/
def all (forks : ForkRegistry) : List ForkEntry := (iter forks.toPairs).map Prod.snd

/-- `ForksRead::has_block`: at any position of any branch. -/
def hasBlock (forks : ForkRegistry) (hash : BlockHash) : Bool :=
  (all forks).any fun entry => entry.blocks.any fun block => block.blockHash = hash

/-- `ForksWrite::insert`. -/
def insert (forks : ForkRegistry) (entry : ForkEntry) : ForkRegistry :=
  AList.insert entry.tip entry forks

/-- `ForksWrite::remove`. -/
def remove (forks : ForkRegistry) (tip : BlockHash) : ForkRegistry := AList.erase tip forks

end ForkRegistry

end StryiChain
