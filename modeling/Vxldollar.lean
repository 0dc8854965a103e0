import Vxldollar.Conservation
import Vxldollar.Receivable
import Vxldollar.Receipts
import Vxldollar.BulkPulls
import Vxldollar.Reversal
import Vxldollar.Forks
import Vxldollar.Capacity
import Vxldollar.LedgerWalker
import Vxldollar.Caches
import Vxldollar.Replay
import Vxldollar.Parking
import Vxldollar.Arrivals
import Vxldollar.Tags
import Vxldollar.InactiveVotes
import Vxldollar.Announcements
import Vxldollar.Publishing
import Vxldollar.OptimisticCount
import Vxldollar.VoteHistory
import Vxldollar.Activation
import Vxldollar.FinalVotes
import Vxldollar.Spacing
import Vxldollar.PrunedAcceptance
import Vxldollar.PrunedRollback
import Vxldollar.WalletImports
import Vxldollar.BlockTexts
import Vxldollar.IndexCoherence
import Vxldollar.RoundTrips
import Vxldollar.Datagrams
import Vxldollar.VoteUniquer
import Vxldollar.FrontierSync
import Vxldollar.UpgradedBlocks
import Vxldollar.AccountUpgrades
