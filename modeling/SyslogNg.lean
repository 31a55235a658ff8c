import SyslogNg.LogMsg.SetValueIndirect
import SyslogNg.AckTracker.Window
import SyslogNg.LogMsg.AckTypes
import SyslogNg.Pipeline.Isolation
import SyslogNg.Pipeline.SourceAck
import SyslogNg.Pipeline.Routing
import SyslogNg.LogQueue.Backlog
import SyslogNg.LogQueue.Throttle
import SyslogNg.PersistState.Rename
import SyslogNg.LogProto.KeepOne
import SyslogNg.LogProto.Frames
import SyslogNg.LogProto.FileWriter
import SyslogNg.LogProto.FrameDecoding
import SyslogNg.LogProto.LineReading
import SyslogNg.LogProto.Restart
import SyslogNg.SyslogFormat.IsoStamp
import SyslogNg.PatternDb.TimerRuns
import SyslogNg.ValuePairs.WalkTree
import SyslogNg.PatternDb.RadixInsert
import SyslogNg.PatternDb.RadixMatches
import SyslogNg.LogQueue.InputCounter
import SyslogNg.LogMsg.Rcptid
import SyslogNg.SyslogFormat.SequenceId
import SyslogNg.NvTable.UpgradedTable
import SyslogNg.Time.CacheTransparency
import SyslogNg.Template.Scanner
import SyslogNg.Template.Literals
import SyslogNg.Filter.Comparison
import SyslogNg.Filter.InList
import SyslogNg.Filter.Holders
import SyslogNg.Json.DotNotation
import SyslogNg.Template.Escaping
import SyslogNg.ValuePairs.WelfOrder
import SyslogNg.Template.StrFormat
import SyslogNg.LogMsg.Tags
import SyslogNg.AckTracker.RingQueue
