import GoPlasma.Lib.Bytes
import GoPlasma.Lib.BinTree
import GoPlasma.Lib.Trie
import GoPlasma.Lib.ListRel
import GoPlasma.Basic
import GoPlasma.Smt.Node
import GoPlasma.Smt.Tree
import GoPlasma.Smt.KeyTheorems
import GoPlasma.Smt.MerkleTheorems
import GoPlasma.Smt.Represents
import GoPlasma.Smt.UpdateTheorems
import GoPlasma.Smt.RootTheorems
import GoPlasma.Smt.ProofTheorems
import GoPlasma.Smt.MemoryTheorems
import GoPlasma.Smt.StorageTheorems
import GoPlasma.Smt.WorldTheorems
import GoPlasma.Smt.RunTheorems
import GoPlasma.Smt.DurabilityTheorems
import GoPlasma.Lib.Act
import GoPlasma.Lib.Rlp
import GoPlasma.Plasma.Transaction
import GoPlasma.Plasma.StateDB
import GoPlasma.Plasma.Apply
import GoPlasma.Plasma.ApplyTheorems
import GoPlasma.Plasma.AtomicityTheorems
import GoPlasma.Plasma.MintTheorems
import GoPlasma.Plasma.HistoryTheorems
import GoPlasma.Smt.SoundnessTheorems
import GoPlasma.Contract.Solidity
import GoPlasma.Contract.SparseMerkle
import GoPlasma.Contract.SparseMerkleTheorems
import GoPlasma.Contract.PriorityQueue
import GoPlasma.Contract.Transaction
import GoPlasma.Contract.RootChain
import GoPlasma.Contract.RootChainTheorems
import GoPlasma.Contract.ExitTheorems
import GoPlasma.Contract.SolvencyTheorems
import GoPlasma.Contract.TransactionTheorems
import GoPlasma.Contract.MembershipTheorems
import GoPlasma.Contract.ChallengeTheorems
import GoPlasma.Plasma.AnchorTheorems
import GoPlasma.Lib.Holdings
import GoPlasma.Plasma.AmountTheorems
import GoPlasma.Plasma.AccountTheorems
import GoPlasma.Contract.AgreementTheorems
import GoPlasma.Plasma.RecordTheorems
import GoPlasma.Plasma.TransferTheorems
import GoPlasma.Plasma.ValidationTheorems
import GoPlasma.Plasma.SequenceTheorems
import GoPlasma.Plasma.Consensus
import GoPlasma.Plasma.Backend
import GoPlasma.Plasma.SealTheorems
import GoPlasma.Plasma.ReceiptTheorems
import GoPlasma.Smt.CanonicalTheorems
import GoPlasma.Plasma.SelectionTheorems
import GoPlasma.Plasma.SnapshotTheorems
import GoPlasma.Plasma.DepositReplay
import GoPlasma.Plasma.Records
import GoPlasma.Plasma.Commit
import GoPlasma.Plasma.AnchorTreeTheorems
import GoPlasma.Smt.SharedStore
import GoPlasma.Plasma.OrderTheorems
import GoPlasma.Plasma.ReadableTheorems
import GoPlasma.Contract.QueueTheorems
import GoPlasma.Plasma.BloomTheorems
import GoPlasma.Plasma.Encoding
import GoPlasma.Deep.RemoteStorage
import GoPlasma.Plasma.EncodingTheorems
import GoPlasma.Deep.RemoteStorageTheorems
import GoPlasma.Deep.Raft
import GoPlasma.Deep.RaftTheorems
import GoPlasma.Deep.MinterTheorems
import GoPlasma.Plasma.Pool
import GoPlasma.Plasma.PoolTheorems
import GoPlasma.Smt.MinimalTheorems
import GoPlasma.Deep.Cluster
import GoPlasma.Deep.ClusterTheorems
import GoPlasma.Smt.ReadFailures
import GoPlasma.Smt.LostWrites
import GoPlasma.Plasma.ReadFailureTheorems
import GoPlasma.Merkle.Tree
import GoPlasma.Merkle.CheckTheorems
import GoPlasma.Contract.Merkle
import GoPlasma.Plasma.OwnershipTheorems
import GoPlasma.Deep.Snapshot
import GoPlasma.Deep.SnapshotTheorems
import GoPlasma.Bridge.System
import GoPlasma.Bridge.Publishing
import GoPlasma.Bridge.Backing
import GoPlasma.Bridge.Serving
import GoPlasma.Bridge.Exiting
import GoPlasma.Bridge.Restart
import GoPlasma.Plasma.Refinement
