import DmrWatchkeeper.Library.Loop
import DmrWatchkeeper.Library.SyndromeCode
import DmrWatchkeeper.Library.ProductCode
import DmrWatchkeeper.Bptc19696
import DmrWatchkeeper.BptcConsistency
import DmrWatchkeeper.BptcLinearity
import DmrWatchkeeper.BptcRefinement
import DmrWatchkeeper.BptcStructured
import DmrWatchkeeper.BptcTransmit
import DmrWatchkeeper.BptcCorrection
import DmrWatchkeeper.BptcInterleaver
import DmrWatchkeeper.Library.FourErrors
import DmrWatchkeeper.BptcAcceptance
import DmrWatchkeeper.Library.Stage
import DmrWatchkeeper.Library.StreamWindow
import DmrWatchkeeper.BurstSync
import DmrWatchkeeper.BurstSyncTracking
import DmrWatchkeeper.SyncWords
import DmrWatchkeeper.Library.GreedyScan
import DmrWatchkeeper.BurstSyncPayload
import DmrWatchkeeper.BurstSyncScanner
import DmrWatchkeeper.BurstSyncCounters
import DmrWatchkeeper.BurstSyncFraming
import DmrWatchkeeper.BurstSyncRepresentation
import DmrWatchkeeper.Library.BigEndian
import DmrWatchkeeper.LcParser
import DmrWatchkeeper.LcParserVoice
import DmrWatchkeeper.LcParserGps
import DmrWatchkeeper.ChannelFilterExact
import DmrWatchkeeper.Library.FejerJackson
import DmrWatchkeeper.ChannelFilterDesign
import DmrWatchkeeper.SlotManager
import DmrWatchkeeper.SlotManagerRuns
import DmrWatchkeeper.Channel
import DmrWatchkeeper.DemodChain
import DmrWatchkeeper.Library.GatedAverage
import DmrWatchkeeper.FskSlicerLevels
import DmrWatchkeeper.FskSlicerAdaptation
import DmrWatchkeeper.ChannelEvents
import DmrWatchkeeper.Library.Utf8
import DmrWatchkeeper.Library.Printf
import DmrWatchkeeper.Library.Json
import DmrWatchkeeper.Library.JsonLexing
import DmrWatchkeeper.EventJson
import DmrWatchkeeper.EventJsonReading
import DmrWatchkeeper.RingBuffer
import DmrWatchkeeper.RingBufferCopies
import DmrWatchkeeper.RingBufferFifo
import DmrWatchkeeper.RingBufferThreads
import DmrWatchkeeper.RingBufferSafety
import DmrWatchkeeper.Library.PairedStream
import DmrWatchkeeper.Channelizer
import DmrWatchkeeper.ChannelizerRounds
import DmrWatchkeeper.CaptureAlignment
import DmrWatchkeeper.TimingRecovery
import DmrWatchkeeper.TimingRecoveryExact
import DmrWatchkeeper.TimingRecoveryClock
import DmrWatchkeeper.TimingRecoveryFeedback
import DmrWatchkeeper.Capture
import DmrWatchkeeper.CaptureHandles
import DmrWatchkeeper.CaptureFailedStart
import DmrWatchkeeper.CaptureThreads
import DmrWatchkeeper.Monitor
import DmrWatchkeeper.MonitorEvents
import DmrWatchkeeper.CaptureAccounting
import DmrWatchkeeper.Library.LabelledRun
import DmrWatchkeeper.MonitorShutdown
import DmrWatchkeeper.MonitorStatus
import DmrWatchkeeper.Library.AcceptedGrids
import DmrWatchkeeper.Library.Counting
import DmrWatchkeeper.BptcNoise
import DmrWatchkeeper.FskSlicerNoise
import DmrWatchkeeper.ChannelMessages
import DmrWatchkeeper.Library.Baseband
import DmrWatchkeeper.FrontEnd
import DmrWatchkeeper.TimingRecoveryLimits
import DmrWatchkeeper.Library.Throughput
import DmrWatchkeeper.DemodChainLimits
import DmrWatchkeeper.DemodChainSilence
import DmrWatchkeeper.ChannelNoise
import DmrWatchkeeper.Library.Binary64
import DmrWatchkeeper.LcParserDouble
import DmrWatchkeeper.Library.FixedPoint
import DmrWatchkeeper.ChannelDouble
import DmrWatchkeeper.EventJsonGps
import DmrWatchkeeper.MonitorOutput
