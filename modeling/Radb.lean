import Radb.Raft.Acknowledgement
import Radb.Raft.ElectionSafety
import Radb.Raft.LogMatching
import Radb.Raft.LogStore
import Radb.Raft.Restart
import Radb.Raft.Uptime
import Radb.Sql.Engine.Autocommit
import Radb.Sql.Engine.Dropping
import Radb.Sql.Engine.Failure
import Radb.Sql.Execution.Sorting
import Radb.Sql.Parser.Lexer
import Radb.Sql.Parser.Precedence
import Radb.Sql.Plan.ConstantFolder
import Radb.Sql.Plan.IndexLookup
import Radb.Sql.Plan.JoinType
import Radb.Sql.Plan.Pushdown
import Radb.Sql.Types.Arithmetic
import Radb.Sql.Types.Hash
import Radb.Sql.Types.Shape
import Radb.Sql.Types.Wildcards
import Radb.Storage.Bitcask.Durability
import Radb.Storage.Bitcask.Recovery
import Radb.Storage.Mvcc.Interruption
import Radb.Storage.Mvcc.LostUpdate
import Radb.Storage.Mvcc.TimeTravel
import Radb.Storage.Mvcc.TwoEnded
