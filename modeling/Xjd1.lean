import Xjd1.Lib.Run
import Xjd1.Lib.SlotSort
import Xjd1.Lib.SortedSets
import Xjd1.Lib.Delivery
import Xjd1.Lib.Groups
import Xjd1.Lib.Scan
import Xjd1.Lib.Comparison
import Xjd1.Lib.RefCount
import Xjd1.Lib.Rows
import Xjd1.Lib.Grammar
import Xjd1.Lib.ShiftReduce
import Xjd1.Json.Node
import Xjd1.Json.Paths
import Xjd1.Json.Text
import Xjd1.Json.Lexing
import Xjd1.Json.RoundTrip
import Xjd1.Json.Truncated
import Xjd1.Json.Reads
import Xjd1.Json.Bounds
import Xjd1.Json.Written
import Xjd1.Json.Tidy
import Xjd1.Json.Grammar
import Xjd1.Json.Recovery
import Xjd1.Json.Accept
import Xjd1.Json.Order
import Xjd1.Json.Unique
import Xjd1.Json.Convert
import Xjd1.Json.Numeral
import Xjd1.Query.Syntax
import Xjd1.Query.Operators
import Xjd1.Json.Store
import Xjd1.Json.Owned
import Xjd1.Query.Characters
import Xjd1.Query.Results
import Xjd1.Query.Eval
import Xjd1.Query.DataSrc
import Xjd1.Query.Step
import Xjd1.Query.Interp
import Xjd1.Query.InMemory
import Xjd1.Query.MemoryEval
import Xjd1.Query.Unshared
import Xjd1.Query.Fuel
import Xjd1.Query.Overlay
import Xjd1.Query.Stream
import Xjd1.Query.Initial
import Xjd1.Query.Supply
import Xjd1.Query.Neutral
import Xjd1.Query.Rewind
import Xjd1.Query.Distinct
import Xjd1.Query.Ordered
import Xjd1.Query.Limit
import Xjd1.Query.Compound
import Xjd1.Query.Sources
import Xjd1.Query.Group
import Xjd1.Query.Tally
import Xjd1.Query.PlainAgg
import Xjd1.Query.Join
import Xjd1.Query.SelectRows
import Xjd1.Query.Members
import Xjd1.Query.InKeys
import Xjd1.Query.Flatten
import Xjd1.Query.Scoped
import Xjd1.Query.Heads
import Xjd1.Query.HeadSteps
import Xjd1.Query.SubqueryEnd
import Xjd1.Query.IntOperators
import Xjd1.Update.Revise
import Xjd1.Update.InPlace
import Xjd1.Update.Rows
import Xjd1.Store.Sqlite
import Xjd1.Store.Step
import Xjd1.Store.Collections
import Xjd1.Store.Delete
import Xjd1.Store.Update
import Xjd1.Store.Script
import Xjd1.Store.ReadBack
import Xjd1.Store.Selected
import Xjd1.Update.Ignored
import Xjd1.Stmt.Tokenize
import Xjd1.Stmt.Literal
import Xjd1.Stmt.Cut
import Xjd1.Stmt.Keywords
import Xjd1.Stmt.RunParser
import Xjd1.Stmt.Complete
import Xjd1.Stmt.CompleteTokens
import Xjd1.Stmt.Command
import Xjd1.Query.Numbering
import Xjd1.Stmt.Init
import Xjd1.Stmt.Visit
import Xjd1.Stmt.Prepare
import Xjd1.Stmt.Close
import Xjd1.Stmt.Scope
import Xjd1.Lib.Heap
import Xjd1.Lib.Buffer
import Xjd1.Mem.Pool
import Xjd1.Mem.Strings
import Xjd1.Conn.Handles
import Xjd1.Conn.StmtList
import Xjd1.Conn.Release
import Xjd1.Parser.Driver
import Xjd1.Parser.Sentences
import Xjd1.Parser.Engine
import Xjd1.Parser.ActTab
import Xjd1.Parser.ReportTable
