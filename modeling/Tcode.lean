import Tcode.SupportTransitionSystem
import Tcode.SupportIncrementalDecoder
import Tcode.SupportMachineInt
import Tcode.SupportListSums
import Tcode.BufferBlock
import Tcode.BufferByteBuffer
import Tcode.FilterSizeFilter
import Tcode.FilterFraming
import Tcode.ChannelFlagWord
import Tcode.ChannelMachine
import Tcode.ChannelTokens
import Tcode.ChannelInvariant
import Tcode.ChannelRefinement
import Tcode.ChannelEvents
import Tcode.ChannelLifetime
import Tcode.ChannelStream
import Tcode.SupportLinkedList
import Tcode.PipelineAcceptor
import Tcode.PipelineChain
import Tcode.PipelineInsertion
import Tcode.PipelineRemoval
import Tcode.PipelineEvents
import Tcode.SupportUpperBound
import Tcode.TimerMachine
import Tcode.TimerReferences
import Tcode.TimerOrder
import Tcode.TimerCancel
import Tcode.TimerAborts
import Tcode.WriteOperation
import Tcode.WriteStream
import Tcode.SupportReferenceCount
import Tcode.CompletionPortMachine
import Tcode.CompletionPortReferences
import Tcode.EpollWakeUp
import Tcode.EpollMachine
import Tcode.EpollReferences
import Tcode.EpollPosting
import Tcode.EpollDescriptors
import Tcode.EpollEngineCount
import Tcode.EpollConfinement
import Tcode.SupportPlacement
import Tcode.EpollPlaces
import Tcode.EpollCompletion
import Tcode.EpollConnect
import Tcode.EpollReadiness
import Tcode.EpollAwake
import Tcode.TimerWait
import Tcode.TimerDrain
import Tcode.ReadOperation
import Tcode.FilterFrames
import Tcode.FilterOpenssl
import Tcode.SupportHistory
import Tcode.FilterTimeout
import Tcode.PipelineConnector
import Tcode.SelectRun
import Tcode.SupportSwapRemove
import Tcode.PollMachine
import Tcode.PollIndices
import Tcode.PollCompletion
import Tcode.SupportChangeBatch
import Tcode.KqueueMachine
import Tcode.KqueueChanges
import Tcode.SupportCString
import Tcode.LogRecord
import Tcode.LogRoundTrip
import Tcode.LogDecoding
import Tcode.FilterDelivery
import Tcode.SupportIteration
import Tcode.FilterOpensslLoops
import Tcode.CompletionPortSetup
import Tcode.SupportBoundedQueue
import Tcode.BufferQueue
import Tcode.BufferHeap
import Tcode.BufferPositions
import Tcode.BufferReferences
import Tcode.BufferReserve
import Tcode.SupportRegions
import Tcode.BufferBlockManager
import Tcode.BufferPools
import Tcode.SupportPieces
import Tcode.TimeCalendar
import Tcode.TimeFiletime
import Tcode.SupportFixedWidth
import Tcode.LogRetention
import Tcode.LogDump
import Tcode.LogDumpReading
import Tcode.SupportCrc
import Tcode.ChecksumCrc32
import Tcode.SupportBitGroups
import Tcode.Base64Codec
import Tcode.Base64RoundTrip
import Tcode.Base64Safety
import Tcode.SupportStringSearch
import Tcode.StringSplit
import Tcode.StringReplace
import Tcode.StringTrim
import Tcode.BufferThreshold
import Tcode.BufferWriteFmt
import Tcode.SupportHolders
import Tcode.FunctionObjects
import Tcode.FunctionHandlers
import Tcode.SupportTwosComplement
import Tcode.BigIntegerArithmetic
import Tcode.BigIntegerComplement
import Tcode.BigIntegerProduct
import Tcode.BigIntegerDecimal
import Tcode.SupportSinglyLinked
import Tcode.SlistQueue
import Tcode.SupportSimulation
import Tcode.SupportCompletionQueue
import Tcode.PollDelivery
import Tcode.KqueueReferences
import Tcode.KqueueDelivery
import Tcode.SelectMachine
import Tcode.SelectReferences
import Tcode.SelectDelivery
import Tcode.BufferOwnership
import Tcode.ChannelInput
import Tcode.ChannelTransfer
import Tcode.LogFormatter
import Tcode.LogFileWriter
import Tcode.LogConsoleWriter
import Tcode.CompletionPortDelivery
import Tcode.BigIntegerShift
import Tcode.SupportTwosComplementBits
import Tcode.BigIntegerBitwise
import Tcode.BigIntegerConversions
import Tcode.EpollDelivery
import Tcode.FilterOpensslRelay
