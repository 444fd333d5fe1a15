import RustExperiments.Lib.Machine
import RustExperiments.Lib.U64
import RustExperiments.Lib.Except
import RustExperiments.Lib.BinaryHeap
import RustExperiments.Lib.Table
import RustExperiments.Lib.Decimal
import RustExperiments.Lib.Json
import RustExperiments.Lib.ScriptData
import RustExperiments.Lib.ScriptPieces
import RustExperiments.Lib.Session
import RustExperiments.Lib.Proc
import RustExperiments.Lib.Hidden
import RustExperiments.Lib.Clients
import RustExperiments.Lib.History
import RustExperiments.Lib.Scan
import RustExperiments.Lib.Peg
import RustExperiments.Lib.PegExact
import RustExperiments.TradeFeed.Message
import RustExperiments.TradeFeed.Json
import RustExperiments.TradeFeed.Store
import RustExperiments.TradeFeed.Handler
import RustExperiments.AsyncRedb.Protocol
import RustExperiments.AsyncRedb.Order
import RustExperiments.AsyncRedb.Feed
import RustExperiments.AsyncRedb.Linearizable
import RustExperiments.TradeFeed.Writer
import RustExperiments.TradeFeed.AppendOnly
import RustExperiments.TradeFeed.Log
import RustExperiments.TradeFeed.Handling
import RustExperiments.TradeFeed.Atomicity
import RustExperiments.TradeFeed.Redelivery
import RustExperiments.TradeFeed.RangeReads
import RustExperiments.TradeFeed.Stored
import RustExperiments.Lib.Variants
import RustExperiments.TradeFeed.Untagged
import RustExperiments.TradeFeed.Understanding
import RustExperiments.Sums.Store
import RustExperiments.Sums.Handler
import RustExperiments.AsyncRedb.Server
import RustExperiments.Sums.Submission
import RustExperiments.Sums.Json
import RustExperiments.Sums.Acceptance
import RustExperiments.Maroon.Task
import RustExperiments.Maroon.Runtime
import RustExperiments.Maroon.Solo
import RustExperiments.Maroon.Consistency
import RustExperiments.Maroon.Isolation
import RustExperiments.Maroon.Overflow
import RustExperiments.Maroon.Frames
import RustExperiments.Maroon.Steps
import RustExperiments.Maroon.Typing
import RustExperiments.Maroon.Rank
import RustExperiments.Maroon.Halting
import RustExperiments.Maroon.Drain
import RustExperiments.Maroon.Clock
import RustExperiments.Maroon.Trail
import RustExperiments.Maroon.Factorial
import RustExperiments.Maroon.Divisors
import RustExperiments.Maroon.Fibonacci
import RustExperiments.Maroon.Termination
import RustExperiments.Maroon.Ackermann
import RustExperiments.Maroon.AckermannRoute
import RustExperiments.Maroon.Validator
import RustExperiments.Maroon.Timetable
import RustExperiments.Lib.Channel
import RustExperiments.Maroon.Sockets
import RustExperiments.Sums.Journal
import RustExperiments.TradeFeed.Worker
import RustExperiments.TradeFeed.Panics
import RustExperiments.TradeFeed.Publication
import RustExperiments.Sums.Acknowledged
import RustExperiments.Sums.TrueSums
import RustExperiments.Http.JsonHtml
import RustExperiments.Http.CreateJson
import RustExperiments.Http.Displayed
import RustExperiments.Http.Shown
import RustExperiments.Sums.Page
import RustExperiments.Pest.Identifiers
import RustExperiments.Pest.Terms
import RustExperiments.Pest.Tokens
import RustExperiments.Mermaid.Canvas
import RustExperiments.Mermaid.Diagram
import RustExperiments.Mermaid.Lifetimes
import RustExperiments.Mermaid.Runs
import RustExperiments.Mermaid.Record
import RustExperiments.Lib.Watch
import RustExperiments.Ticker.Broadcast
import RustExperiments.TradeFeed.Classification
import RustExperiments.TradeFeed.Connection
import RustExperiments.AsyncRedb.Disconnect
import RustExperiments.AsyncRedb.Calls
import RustExperiments.AsyncRedb.Port
import RustExperiments.AsyncRedb.Served
import RustExperiments.AsyncRedb.Programs
import RustExperiments.Sums.Counters
import RustExperiments.TradeFeed.Recorded
import RustExperiments.TradeFeed.Acknowledged
import RustExperiments.Sums.Readings
import RustExperiments.AsyncRedb.Reads
