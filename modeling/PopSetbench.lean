import PopSetbench.Library.Run
import PopSetbench.Library.Replay
import PopSetbench.Library.Round
import PopSetbench.Library.Handshake
import PopSetbench.Library.Custody
import PopSetbench.Library.Hazard
import PopSetbench.Library.Rows
import PopSetbench.Library.Slots
import PopSetbench.Library.Eras
import PopSetbench.Library.Stamps
import PopSetbench.Library.ArrayList
import PopSetbench.Library.TokenRing
import PopSetbench.Library.Fuel
import PopSetbench.Library.Separated
import PopSetbench.Library.StoreBuffer
import PopSetbench.Library.Grace
import PopSetbench.Library.PastList
import PopSetbench.Reclaim.Object
import PopSetbench.Reclaim.HazardPtr
import PopSetbench.Reclaim.HazardPtrScan
import PopSetbench.Reclaim.HazardPtrSchedule
import PopSetbench.Reclaim.HazardPtrBound
import PopSetbench.Reclaim.IbrHpAsyf
import PopSetbench.Reclaim.IbrHpAsyfSafety
import PopSetbench.Reclaim.He
import PopSetbench.Reclaim.HeSafety
import PopSetbench.Reclaim.Ibr2ge
import PopSetbench.Reclaim.Ibr2geSafety
import PopSetbench.Reclaim.Qsbr
import PopSetbench.Reclaim.QsbrSafety
import PopSetbench.Reclaim.IbrRcu
import PopSetbench.Reclaim.IbrRcuSafety
import PopSetbench.Reclaim.IbrRcuWaits
import PopSetbench.Reclaim.IbrRcuSchedule
import PopSetbench.Reclaim.Debra
import PopSetbench.Reclaim.DebraGrace
import PopSetbench.Reclaim.DebraWaits
import PopSetbench.Reclaim.DebraSchedule
import PopSetbench.Reclaim.DebraInit
import PopSetbench.Reclaim.DebraInitGrace
import PopSetbench.Reclaim.Token
import PopSetbench.Reclaim.Ibr2gePopPlus
import PopSetbench.Reclaim.Ibr2gePopPlusBase
import PopSetbench.Reclaim.Ibr2gePopPlusSafety
import PopSetbench.Reclaim.Ibr2gePopPlusSchedule
import PopSetbench.Reclaim.RcuPopPlus
import PopSetbench.Reclaim.RcuPopPlusSafety
import PopSetbench.Reclaim.TokenGrace
import PopSetbench.Reclaim.HazardPtrPop
import PopSetbench.Reclaim.HazardPtrPopBase
import PopSetbench.Reclaim.HazardPtrPopSchedule
import PopSetbench.Reclaim.HazardPtrPopSafety
import PopSetbench.Reclaim.HazardPtrPopBound
import PopSetbench.Reclaim.EpochPop
import PopSetbench.Reclaim.EpochPopBase
import PopSetbench.Reclaim.EpochPopSchedule
import PopSetbench.Reclaim.EpochPopSafety
import PopSetbench.Reclaim.EpochPopBound
import PopSetbench.Reclaim.HazardEraPop
import PopSetbench.Reclaim.HazardEraPopBase
import PopSetbench.Reclaim.HazardEraPopSchedule
import PopSetbench.Reclaim.HazardEraPopSafety
import PopSetbench.Reclaim.HazardEraPopPatience
import PopSetbench.Library.Neutralize
import PopSetbench.Library.Publication
import PopSetbench.Reclaim.Nbr
import PopSetbench.Reclaim.NbrBase
import PopSetbench.Reclaim.NbrSafety
import PopSetbench.Reclaim.NbrSchedule
import PopSetbench.Library.MarkedList
import PopSetbench.Library.OwnedList
import PopSetbench.Library.Interval
import PopSetbench.Ds.Common
import PopSetbench.Library.Linearizable
import PopSetbench.Ds.FlatMap
import PopSetbench.Ds.HmList
import PopSetbench.Ds.HmListInv
import PopSetbench.Ds.HmListLinear
import PopSetbench.Ds.HmHt
import PopSetbench.Ds.HmListRetire
import PopSetbench.Ds.HmListSum
import PopSetbench.Ds.HmListGrace
import PopSetbench.Ds.HmListSchedule
import PopSetbench.Ds.HarrisList
import PopSetbench.Ds.HarrisListInv
import PopSetbench.Ds.HarrisListLinear
import PopSetbench.Ds.HarrisListRetire
import PopSetbench.Ds.HarrisListGrace
import PopSetbench.Ds.HarrisListSchedule
import PopSetbench.Library.Monitor
import PopSetbench.Ds.Brackets
import PopSetbench.Ds.AbTree
import PopSetbench.Ds.AbTreeInv
import PopSetbench.Ds.AbTreeNodes
import PopSetbench.Ds.AbTreeBalance
import PopSetbench.Ds.AbTreeSteps
import PopSetbench.Ds.AbTreeRelaxed
import PopSetbench.Ds.AbTreeRepairs
import PopSetbench.Ds.AbTreePairs
import PopSetbench.Ds.AbTreeMemory
import PopSetbench.Ds.AbTreeSchedule
import PopSetbench.Ds.AbTreeRuns
import PopSetbench.Ds.AbTreeSibling
import PopSetbench.Ds.AbTreeMap
import PopSetbench.Ds.AbTreeSet
import PopSetbench.Ds.AbTreeSetSchedule
import PopSetbench.Ds.AbTreeLinear
import PopSetbench.Ds.AbTreeRewrites
import PopSetbench.Ds.AbTreeQuiet
import PopSetbench.Ds.AbTreeValidate
import PopSetbench.Library.ExternalTree
import PopSetbench.Ds.TicketLock
import PopSetbench.Ds.Ticket
import PopSetbench.Ds.TicketInv
import PopSetbench.Ds.TicketStep
import PopSetbench.Ds.TicketLinear
import PopSetbench.Ds.TicketSchedule
import PopSetbench.Ds.TicketRounds
import PopSetbench.Ds.TicketCopies
import PopSetbench.Ds.TicketVersion
import PopSetbench.Ds.TicketEpoch
import PopSetbench.Ds.TicketReuse
import PopSetbench.Ds.WritePhase
import PopSetbench.Ds.HmListNzb
import PopSetbench.Ds.HmListNzbSaved
import PopSetbench.Ds.LazyListNzb
import PopSetbench.Ds.LazyListNzbSaved
import PopSetbench.Ds.TicketNzb
import PopSetbench.Ds.TicketNzbSaved
import PopSetbench.Library.Locks
import PopSetbench.Library.Journal
import PopSetbench.Ds.LazyList
import PopSetbench.Ds.LazyListInv
import PopSetbench.Ds.LazyListLinear
import PopSetbench.Ds.LazyListLedger
import PopSetbench.Ds.LazyListGrace
import PopSetbench.Ds.LazyListSchedule
import PopSetbench.Ds.ListsServed
import PopSetbench.Library.Totals
import PopSetbench.Common.RWLock
import PopSetbench.Library.Chain
import PopSetbench.Common.LockfreeBlockbag
import PopSetbench.Library.Probing
import PopSetbench.Common.HashsetNew
import PopSetbench.Common.Hashset
import PopSetbench.Reclaim.RcuPop
import PopSetbench.Common.Blockpool
import PopSetbench.Common.Blockbag
import PopSetbench.Common.BlockbagMoves
import PopSetbench.Common.BlockbagRuns
import PopSetbench.Common.BlockbagIterator
import PopSetbench.Reclaim.NbrPlusBag
import PopSetbench.Common.Descriptors
import PopSetbench.Common.TreeStats
