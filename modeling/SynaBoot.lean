import SynaBoot.BootControl
import SynaBoot.EarlyLoader
import SynaBoot.UBootSlots
import SynaBoot.VerifiedBoot
import SynaBoot.SlotAgreement
import SynaBoot.SlotActivation
import SynaBoot.SlotRollback
import SynaBoot.SlotDemotion
import SynaBoot.VerityFallback
import SynaBoot.DoublyLinked
import SynaBoot.Tiling
import SynaBoot.Mmgr
import SynaBoot.MmgrLists
import SynaBoot.MmgrHeap
import SynaBoot.MmgrAlloc
import SynaBoot.MmgrFree
import SynaBoot.MmgrRuns
import SynaBoot.MmgrFirstFit
import SynaBoot.MmgrGaps
import SynaBoot.PowerCut
import SynaBoot.FlashDevice
import SynaBoot.FlashRecord
import SynaBoot.FlashTs
import SynaBoot.StringArea
import SynaBoot.BootMode
import SynaBoot.MiscFlash
import SynaBoot.MiscFrame
import SynaBoot.FlashStrings
import SynaBoot.FlashSlots
import SynaBoot.FlashDriver
import SynaBoot.FlashScan
import SynaBoot.FlashCommit
import SynaBoot.FlashPages
import SynaBoot.FlashRounds
import SynaBoot.FlashDurable
import SynaBoot.FlashSets
import SynaBoot.FlashRollback
import SynaBoot.FlashRest
import SynaBoot.FlashCrash
import SynaBoot.Bindings
import SynaBoot.FlashReturns
import SynaBoot.FlashMap
import SynaBoot.CheckedStrings
import SynaBoot.TsArea
import SynaBoot.FlashBounds
import SynaBoot.FlashGet
import SynaBoot.RamStore
import SynaBoot.Schedules
import SynaBoot.Ring
import SynaBoot.Mailbox
import SynaBoot.MailboxFifo
import SynaBoot.MailboxDelivery
import SynaBoot.MailboxTotals
import SynaBoot.CText
import SynaBoot.PartTool
import SynaBoot.PartLayout
import SynaBoot.TableCrc
import SynaBoot.Crc32
import SynaBoot.VersionTable
import SynaBoot.CrcErrors
import SynaBoot.KernelParam
import SynaBoot.MtdPlacement
import SynaBoot.PowerFlow
import SynaBoot.PowerPhases
import SynaBoot.PowerCoherence
import SynaBoot.PowerSuspend
import SynaBoot.PowerTimer
import SynaBoot.PowerProgress
import SynaBoot.Emmcburn
import SynaBoot.GptLookup
import SynaBoot.PartList
import SynaBoot.PartRoundTrip
import SynaBoot.Packing
import SynaBoot.Genimg
import SynaBoot.ImageContainer
import SynaBoot.EmmcParts
import SynaBoot.BlockRange
import SynaBoot.EmmcBlocks
import SynaBoot.LoadGpt
import SynaBoot.GptLoading
import SynaBoot.GptRedundancy
import SynaBoot.ImageAccess
import SynaBoot.PartitionCalls
import SynaBoot.VersionBounds
import SynaBoot.BootImages
import SynaBoot.PartTable
import SynaBoot.FastbootMmc
import SynaBoot.SmFirmware
import SynaBoot.BoundedArray
import SynaBoot.LmbReserve
import SynaBoot.MemRegions
import SynaBoot.TzMem
import SynaBoot.IonPools
import SynaBoot.BigEndian
import SynaBoot.ByteStore
import SynaBoot.ReserveMap
import SynaBoot.FileWrites
import SynaBoot.UniImage
import SynaBoot.BurnLookup
import SynaBoot.BurnImage
import SynaBoot.Overlay
import SynaBoot.SparseImage
import SynaBoot.SparseMeaning
import SynaBoot.SparseBurn
import SynaBoot.CString
import SynaBoot.PartBuffer
import SynaBoot.SkipList
import SynaBoot.CircularBuffer
import SynaBoot.IrSamples
import SynaBoot.PairDecoder
import SynaBoot.IrLookahead
import SynaBoot.PairFrames
import SynaBoot.PairReceiver
import SynaBoot.NecFrames
import SynaBoot.NecResync
import SynaBoot.Tc9012Frames
import SynaBoot.Rc5
import SynaBoot.Rc5Waveform
import SynaBoot.CecSrv
import SynaBoot.FeatureAbort
import SynaBoot.CecTask
import SynaBoot.CecWaiting
import SynaBoot.CecRetries
import SynaBoot.CecOrder
import SynaBoot.EmmcFeasible
import SynaBoot.PairLoop
import SynaBoot.Xmp
import SynaBoot.KeyEvents
import SynaBoot.LongTimer
import SynaBoot.ConsoleRing
import SynaBoot.BcmBuf
import SynaBoot.FastLogo
import SynaBoot.Bump
import SynaBoot.TzMalloc
import SynaBoot.Vsnprintf
import SynaBoot.FindStr
import SynaBoot.HumanFormat
import SynaBoot.AddressSpace
import SynaBoot.StringLib
import SynaBoot.MmgrCalloc
