import Brace.Allocator.ClientSafety
import Brace.Allocator.HostileGuest
import Brace.Arithmetic.Approximation
import Brace.Arithmetic.MultiplyByRational
import Brace.Client.Leaves
import Brace.Client.StorageCache
import Brace.Democracy.VoteThreshold
import Brace.Epochs.PruneFinalized
import Brace.ForkTree.Canonical
import Brace.Grandpa.Enactment
import Brace.Grandpa.FinalityProof
import Brace.Grandpa.StandardChanges
import Brace.Grandpa.VoterState
import Brace.Runtime.Era
import Brace.Session.KeyOwner
import Brace.Staking.DeferredSlashes
import Brace.Staking.SlashHistory
import Brace.StateDb.PruningExact
import Brace.StateDb.PruningRevert
import Brace.StateDb.Restart
import Brace.StateDb.UndoPending
import Brace.StateMachine.ChildRoots
import Brace.TransactionPool.BestOrder
import Brace.TransactionPool.ReadyMeansReady
import Brace.TransactionPool.UnsafeTransaction
import Brace.Trie.TrieStream
import Brace.Vesting.Coherence
