import ArcSwap.Proofs.Assertions
import ArcSwap.Proofs.NodeOwners
import ArcSwap.Proofs.Cooldowns
import ArcSwap.Proofs.Transactions
import ArcSwap.Proofs.Loads
import ArcSwap.Proofs.Updates
import ArcSwap.Proofs.Caches
import ArcSwap.Proofs.Pointees
import ArcSwap.Proofs.Promotions
import ArcSwap.Proofs.PointerTypes
import ArcSwap.Proofs.RefCounts
import ArcSwap.Proofs.Helping
import ArcSwap.Proofs.Accounting
import ArcSwap.Proofs.WalkLengths
import ArcSwap.Proofs.Linearizability
import ArcSwap.Proofs.NonBlocking
import ArcSwap.Proofs.LockWaits
