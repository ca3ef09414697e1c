import Zu.Txn.Recovery
import Zu.File.Crash
import Zu.Query.Answer
import Zu.Shared.Isolated
import Zu.Graph.Independent
import Zu.Txn.Torn
import Zu.Schema.Reused
import Zu.Txn.EpochLedger
import Zu.Txn.EdgeOrder
import Zu.Encoding.Refused
import Zu.Encoding.AlpRd
import Zu.Txn.Folded
import Zu.Txn.Labelled
import Zu.Wal.RolledBack
import Zu.Txn.Logged
import Zu.Txn.Tombstones
import Zu.File.Walk
import Zu.File.Coherent
import Zu.Props.Overlay
import Zu.Segment.Written
import Zu.Common.Operators
import Zu.Common.TemporalTrip
import Zu.Query.RecursiveModes
import Zu.Props.ListRowLaw
import Zu.Query.Bidirectional
import Zu.Query.Components
import Zu.Query.Triangles
import Zu.Props.StatKeys
import Zu.Query.VarExpand
import Zu.Query.SetOps
import Zu.Schema.TypeName
import Zu.Vector.Intersect
import Zu.Exec.ColumnSink
