import StryiChain.Misc.Fallible
import StryiChain.Misc.Table
import StryiChain.Misc.Runs
import StryiChain.Misc.Traversal
import StryiChain.Misc.DiGraph
import StryiChain.Storage.Memory
import StryiChain.Storage.Rocks
import StryiChain.Consensus.Engine
import StryiChain.Storage.MemoryLawful
import StryiChain.Storage.RocksLawful
import StryiChain.Storage.Addresses
import StryiChain.Chain.Run
import StryiChain.Chain.Exact
import StryiChain.Chain.Views
import StryiChain.Chain.Total
import StryiChain.Chain.Report
import StryiChain.Chain.Spending
import StryiChain.Chain.Choice
import StryiChain.Chain.Mentions
import StryiChain.Chain.Locators
import StryiChain.Chain.Transitions
import StryiChain.Chain.Stepwise
import StryiChain.Utxo.Rewind
import StryiChain.Utxo.CreateUndo
import StryiChain.Chain.Prepared
import StryiChain.Mempool.Pool
import StryiChain.Mempool.Indexes
import StryiChain.Mempool.Tracker
import StryiChain.Mempool.Admission
import StryiChain.Mempool.Selection
import StryiChain.Mempool.Parents
import StryiChain.Mempool.Template
import StryiChain.Mempool.Replacement
import StryiChain.Mempool.Snapshot
import StryiChain.Node.Runtime
import StryiChain.Node.Relay
import StryiChain.Node.Coherence
import StryiChain.Node.Peer
import StryiChain.Node.Sync
import StryiChain.Node.Adoption
import StryiChain.Node.Download
import StryiChain.Node.Miner
import StryiChain.Core.Layout
import StryiChain.Utxo.Delta
import StryiChain.Chain.Startup
import StryiChain.Misc.FixedPoint
import StryiChain.Consensus.Asert
import StryiChain.Misc.Median
import StryiChain.Chain.MedianTime
import StryiChain.Misc.Merkle
import StryiChain.Core.Merkle
import StryiChain.Chain.Bodies
import StryiChain.Chain.Redelivery
import StryiChain.Misc.Greedy
import StryiChain.Wallet.TxBuilder
import StryiChain.Wallet.Payment
import StryiChain.Misc.Codec
import StryiChain.Misc.Base64
import StryiChain.Core.HashText
import StryiChain.Core.Postcard
import StryiChain.Consensus.Parallel
import StryiChain.Node.CommonAncestor
import StryiChain.Node.Wire
import StryiChain.Wallet.Completeness
import StryiChain.Wallet.NodeFee
import StryiChain.Devkit.TxGen
import StryiChain.Devkit.Conservation
import StryiChain.Chain.Agreement
import StryiChain.Storage.Genesis
import StryiChain.Storage.Open
import StryiChain.Chain.Opening
import StryiChain.Node.EventLoop
import StryiChain.Node.Bootstrap
import StryiChain.Node.Startup
import StryiChain.Node.Mining
import StryiChain.Node.Network
import StryiChain.Storage.Handle
import StryiChain.Misc.Simulation
import StryiChain.Misc.Rows
import StryiChain.Storage.Encoding
import StryiChain.Storage.Bytes
import StryiChain.Storage.Rowwise
import StryiChain.Storage.Lockstep
import StryiChain.Storage.Database
import StryiChain.Chain.Stored
import StryiChain.Net.Adverts
import StryiChain.Net.Discovery
import StryiChain.Net.Fetches
import StryiChain.Net.Pings
import StryiChain.Wallet.Send
