import Trit.Lib.Transition
import Trit.Lib.LittleEndian
import Trit.Chunk
import Trit.Worker
import Trit.Crypto
import Trit.EncryptionManager
import Trit.TransferManager
import Trit.ProgressTracker
import Trit.Utils
import Trit.TransferRequest
import Trit.FileManager
import Trit.Pipeline
import Trit.Lib.Blocks
import Trit.Packing
import Trit.Sender
import Trit.Unpacking
import Trit.Receiver
import Trit.StageProgress
import Trit.QuietSender
import Trit.AbortedSender
import Trit.QuietReceiver
import Trit.AbortedReceiver
import Trit.AttackedReceiver
import Trit.Session
import Trit.Staging
import Trit.StagingLock
import Trit.Lib.Serial
import Trit.StagingCommands
import Trit.StagingSession
import Trit.Lib.Counting
import Trit.QueueMonitor
import Trit.StagingStore
import Trit.Handshake
import Trit.Disclosure
import Trit.Lib.Confluence
import Trit.Lib.Exchange
import Trit.Agreement
import Trit.PeerInput
import Trit.Survival
import Trit.Freshness
import Trit.TamperedRequest
import Trit.Confinement
import Trit.Lib.Framing
import Trit.Reading
import Trit.Traffic
import Trit.Geometry
import Trit.Lib.Positions
import Trit.Codec
import Trit.Solo
import Trit.PackingLaw
import Trit.Transmission
import Trit.Oversize
import Trit.CutShort
import Trit.Lib.Lines
import Trit.StagingFile
import Trit.Lib.BufferedOutput
import Trit.StagingSave
import Trit.FilePatterns
import Trit.Lib.FileTree
import Trit.WorkingTree
import Trit.StagingDirectories
import Trit.RecursivePatterns
import Trit.LinkedFiles
import Trit.FileStreams
import Trit.PlacedFiles
import Trit.DeclaredSizes
import Trit.Lib.TextInput
import Trit.UserInput
import Trit.Zlib
import Trit.CompressionManager
import Trit.Lib.Intervals
import Trit.MachineWriter
import Trit.MachineReader
import Trit.MachineTransfer
import Trit.Completion
import Trit.Lib.Binary64
import Trit.ProgressBar
import Trit.StagedTransfer
import Trit.Backlog
import Trit.StaleLock
import Trit.Lib.Numerals
import Trit.Lib.Quoted
import Trit.StagingReports
import Trit.CommandLine
import Trit.EndToEnd
import Trit.StagedFiles
import Trit.Consent
import Trit.Lib.Fairness
import Trit.FairPipeline
import Trit.FairSession
import Trit.Lib.Stuttering
import Trit.MonitoredQueue
import Trit.MonitoredWorker
import Trit.MonitoredPipeline
import Trit.MonitoredSession
import Trit.AbortedRuns
