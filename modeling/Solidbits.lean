import Solidbits.Lib.Pool
import Solidbits.Lib.Chain
import Solidbits.File.Index
import Solidbits.Serial.Desk
import Solidbits.Jobs.Discipline
import Solidbits.Jobs.Table
import Solidbits.Serial.Cache
import Solidbits.Serial.Overwrite
import Solidbits.Net.Pipeline
import Solidbits.Net.Teardown
import Solidbits.Serial.Alone
import Solidbits.Serial.Failing
import Solidbits.Serial.Limit
import Solidbits.Serial.Combine
import Solidbits.Serial.Count
import Solidbits.Serial.OneKey
import Solidbits.Bitops.Bitcount
import Solidbits.Serial.Exact
import Solidbits.Serial.Unchanged
import Solidbits.Serial.Routes
import Solidbits.Client.Calls
import Solidbits.Jobs.Balance
import Solidbits.Parser.Cursor
import Solidbits.File.Faults
import Solidbits.File.Evict
import Solidbits.File.Refill
import Solidbits.File.Lru
import Solidbits.File.Paths
import Solidbits.Bitops.Answers
import Solidbits.Jobs.Reply
import Solidbits.Jobs.Safety
import Solidbits.Jobs.Bounds
import Solidbits.Net.Service
import Solidbits.Jobs.Setbits
import Solidbits.Serial.Shared
import Solidbits.Net.Ledger
import Solidbits.Net.Sessions
import Solidbits.Net.Isolation
import Solidbits.Net.Restart
import Solidbits.Jobs.Bits
import Solidbits.Client.Results
import Solidbits.Client.Link
import Solidbits.Client.Roundtrip
import Solidbits.Lib.Fair
import Solidbits.Net.Progress
import Solidbits.File.Still
import Solidbits.Net.ReadOnly
import Solidbits.Net.Crash
import Solidbits.Jobs.Snapshot
import Solidbits.Net.Backlog
import Solidbits.Lib.Heap
import Solidbits.Net.Blocks
import Solidbits.Net.Memory
import Solidbits.Client.Aliases
import Solidbits.Serial.InPlace
