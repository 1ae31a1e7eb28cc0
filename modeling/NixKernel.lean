import NixKernel.HeapChain
import NixKernel.StepSystem
import NixKernel.QioModel
import NixKernel.QioRep
import NixKernel.QioOps
import NixKernel.QioRead
import NixKernel.QioWrite
import NixKernel.Custody
import NixKernel.QioCustody
import NixKernel.QioSystem
import NixKernel.QioStep
import NixKernel.QioProtocol
import NixKernel.QioWakeup
import NixKernel.IndexList
import NixKernel.Tiling
import NixKernel.Physalloc
import NixKernel.PhysallocLists
import NixKernel.PhysallocBlocks
import NixKernel.PhysallocOps
import NixKernel.PhysallocInit
import NixKernel.PhysallocOwned
import NixKernel.PhysallocConserve
import NixKernel.PhysallocDomains
import NixKernel.Segment
import NixKernel.SegmentCopy
import NixKernel.SegmentOverlap
import NixKernel.Iproute
import NixKernel.IprouteTree
import NixKernel.IproutePrefix
import NixKernel.IprouteUpdate
import NixKernel.IprouteLookup
import NixKernel.Qlock
import NixKernel.RWlock
import NixKernel.SleepWakeup
import NixKernel.Ring
import NixKernel.Semaphore
import NixKernel.Limbo
import NixKernel.LimboTable
import NixKernel.LimboRun
import NixKernel.QioOwner
import NixKernel.Pullup
import NixKernel.MntRead
import NixKernel.Ipfrag
import NixKernel.IpfragRound
import NixKernel.Ip6frag
import NixKernel.Ip6fragRound
import NixKernel.LinkList
import NixKernel.RunQueue
import NixKernel.EdfAdmit
import NixKernel.OnesSum
import NixKernel.TcpCodec
import NixKernel.TcpCodecSum
import NixKernel.TcpCodecRound
import NixKernel.AdrMap
import NixKernel.AdrSteps
import NixKernel.AdrRun
import NixKernel.HashChain
import NixKernel.MountTable
import NixKernel.MountRun
import NixKernel.DoubleList
import NixKernel.Pages
import NixKernel.PagesRun
import NixKernel.Timers
import NixKernel.TimersLists
import NixKernel.TimersRun
import NixKernel.Il
import NixKernel.IlQueues
import NixKernel.IlRun
import NixKernel.Mntcache
import NixKernel.MntcachePages
import NixKernel.MntcacheRun
import NixKernel.Qallocb
import NixKernel.QallocbRun
import NixKernel.Fdtab
import NixKernel.FdtabRun
import NixKernel.Netif
import NixKernel.Tally
import NixKernel.NetifRun
import NixKernel.ArpTable
import NixKernel.ArpTableRun
import NixKernel.Buffer
import NixKernel.Cbc
import NixKernel.Esp
import NixKernel.EspRound
import NixKernel.EspSession
import NixKernel.Image
import NixKernel.ImageRefs
import NixKernel.ImageRun
import NixKernel.Mmu
import NixKernel.MmuSwitch
import NixKernel.MmuPut
import NixKernel.MmuRun
import NixKernel.MmuTables
import NixKernel.MmuStale
import NixKernel.LimboPass
import NixKernel.Ip6Header
import NixKernel.Ip6Forward
import NixKernel.ReassemblyOverlap
import NixKernel.IpfragOverlap
import NixKernel.IpfragBlocks
import NixKernel.IpfragBounds
import NixKernel.IpOptions
import NixKernel.Sdbio
import NixKernel.SdbioFile
import NixKernel.FileOffset
import NixKernel.CString
import NixKernel.Parsename
import NixKernel.ParsenameSpec
import NixKernel.ParsenameRun
import NixKernel.BitTable
import NixKernel.Mntalloc
import NixKernel.MntallocRun
import NixKernel.ConsRead
import NixKernel.ConsReadBounds
import NixKernel.MntSize
import NixKernel.Rendezvous
import NixKernel.RendezvousRun
import NixKernel.RendezvousSteps
import NixKernel.PgrpCpy
import NixKernel.PgrpCpyRun
import NixKernel.PgrpCpyLoops
import NixKernel.Cmount
import NixKernel.CmountRun
import NixKernel.MntBlocks
import NixKernel.MntBlocksRun
import NixKernel.Lexical
import NixKernel.Paths
import NixKernel.PathsSpec
import NixKernel.PathsRun
import NixKernel.SemaResult
import NixKernel.TcpSeq
import NixKernel.Reseq
import NixKernel.Iphash
import NixKernel.Ptclcsum
import NixKernel.TcpBlocks
import NixKernel.TcpTimer
import NixKernel.TcpTimerRun
import NixKernel.TcpWindow
import NixKernel.TcpWindowTrim
import NixKernel.TcpWindowRun
import NixKernel.FixedPoint
import NixKernel.Tod
import NixKernel.EdfQueue
import NixKernel.SegmentBrk
import NixKernel.SegmentFlush
import NixKernel.SegmentTables
import NixKernel.SegmentFree
import NixKernel.QioQwrite
import NixKernel.PhysallocAlign
import NixKernel.PhysallocCount
import NixKernel.EspWindow
import NixKernel.ExecHeader
import NixKernel.UserAddr
import NixKernel.NetMulti
import NixKernel.Kmap
import NixKernel.KmapTree
import NixKernel.KmapRun
import NixKernel.KmapPhys
import NixKernel.ByteMem
import NixKernel.ExecStack
import NixKernel.StreamRing
import NixKernel.KbdStage
import NixKernel.TodSet
import NixKernel.TodRun
import NixKernel.Log2
import NixKernel.EspLoss
import NixKernel.IpifcGrace
import NixKernel.SdPart
import NixKernel.PhysallocFirst
import NixKernel.PhysallocCarve
import NixKernel.SdbioRace
import NixKernel.SdScsi
import NixKernel.ArpHold
import NixKernel.ArpHoldRun
