import Tinjac.Lib.Span
import Tinjac.Lib.Heap
import Tinjac.Lib.KeyedList
import Tinjac.Lib.BitMem
import Tinjac.Lib.Steps
import Tinjac.Lib.Gregorian
import Tinjac.Model.Macros
import Tinjac.Model.Stream
import Tinjac.Model.Bitstring
import Tinjac.Model.Fields
import Tinjac.Model.Env
import Tinjac.Model.LoadEntry
import Tinjac.Model.PrintTime
import Tinjac.Model.Crontabs
import Tinjac.Text.Field
import Tinjac.Text.Line
import Tinjac.Text.Grammar
import Tinjac.Text.Due
import Tinjac.Proofs.FieldText
import Tinjac.Proofs.Consume
import Tinjac.Proofs.LineText
import Tinjac.Proofs.Bitstring
import Tinjac.Proofs.Footprint
import Tinjac.Proofs.EnvVector
import Tinjac.Proofs.EnvRun
import Tinjac.Proofs.Grammar
import Tinjac.Proofs.Strictness
import Tinjac.Proofs.Locality
import Tinjac.Proofs.Schedule
import Tinjac.Proofs.Job
import Tinjac.Proofs.Granted
import Tinjac.Proofs.Formats
import Tinjac.Proofs.Denote
import Tinjac.Proofs.Meaning
import Tinjac.Proofs.Search
import Tinjac.Proofs.Loaded
import Tinjac.Proofs.Alike
import Tinjac.Proofs.Due
import Tinjac.Proofs.Nicknames
import Tinjac.Lib.ByteMem
import Tinjac.Model.PwDup
import Tinjac.Proofs.Glue
import Tinjac.Proofs.Numbers
import Tinjac.Proofs.PwDup
import Tinjac.Proofs.Pushback
import Tinjac.Proofs.JobEnv
import Tinjac.Proofs.Written
import Tinjac.Proofs.Stops
import Tinjac.Proofs.Stars
import Tinjac.Proofs.Skips
import Tinjac.Proofs.LineEnds
import Tinjac.Proofs.Accepted
import Tinjac.Proofs.Recovery
import Tinjac.Proofs.Ending
import Tinjac.Proofs.LineByLine
import Tinjac.Proofs.JobLog
import Tinjac.Proofs.Report
import Tinjac.Proofs.NothingLost
import Tinjac.Lib.Batch
import Tinjac.Proofs.SameReport
import Tinjac.Proofs.Directory
import Tinjac.Proofs.Comments
import Tinjac.Proofs.Rows
import Tinjac.Lib.StoreLog
import Tinjac.Model.Buffers
import Tinjac.Proofs.Buffers
import Tinjac.Proofs.BitRuns
import Tinjac.Crond.Model.Clock
import Tinjac.Crond.Proofs.Minutes
import Tinjac.Crond.Model.LoadEntry
import Tinjac.Crond.Proofs.Port
import Tinjac.Crond.Proofs.Rule
import Tinjac.Crond.Model.LoadEnv
import Tinjac.Crond.Model.LoadUser
import Tinjac.Crond.Proofs.LoadEnv
import Tinjac.Crond.Proofs.LoadUser
import Tinjac.Crond.Proofs.Served
import Tinjac.Crond.Model.Child
import Tinjac.Crond.Model.Database
import Tinjac.Crond.Proofs.Child
import Tinjac.Crond.Proofs.Database
import Tinjac.Crond.Model.Crontab
import Tinjac.Crond.Proofs.Crontab
import Tinjac.Lib.Interleave
import Tinjac.Anacron.Model.Gregor
import Tinjac.Anacron.Model.Lock
import Tinjac.Anacron.Model.Main
import Tinjac.Anacron.Proofs.Lock
import Tinjac.Anacron.Proofs.Stamp
import Tinjac.Anacron.Proofs.Runs
import Tinjac.Lib.Days
import Tinjac.Lib.Periods
import Tinjac.Anacron.Proofs.Gregor
import Tinjac.Anacron.Model.Daily
import Tinjac.Anacron.Proofs.Named
import Tinjac.Anacron.Proofs.Daily
import Tinjac.Anacron.Proofs.SetBack
