import Animus.Lib.BigStep
import Animus.Lib.Codec
import Animus.Lib.Effect
import Animus.Lib.Framing
import Animus.Lib.Json
import Animus.Lib.Lines
import Animus.Lib.Lts
import Animus.Lib.Linear
import Animus.Lib.Notify
import Animus.Lib.Ranking
import Animus.Lib.Slice
import Animus.Lib.Tally
import Animus.Lib.Transcript
import Animus.Lib.Sql
import Animus.Lib.Table
import Animus.Lib.Utf8
import Animus.Lib.Uuid
import Animus.Lib.Yaml
import Animus.Model.Work
import Animus.Model.Pool
import Animus.Model.WorkJson
import Animus.Db.Schema
import Animus.Db.Exec
import Animus.Db.Spec
import Animus.Runtime
import Animus.Db.Work
import Animus.Db.Atomicity
import Animus.Db.Submission
import Animus.Engine.Focus
import Animus.Engine.Control
import Animus.Engine.Faculty
import Animus.Engine.Pipeline
import Animus.System.Protocol
import Animus.System.Step
import Animus.System.Inversion
import Animus.System.Rows
import Animus.System.WorkTable
import Animus.System.History
import Animus.System.Once
import Animus.System.Messages
import Animus.System.Redelivery
import Animus.System.Finished
import Animus.System.Capacity
import Animus.System.Limit
import Animus.System.Dedup
import Animus.System.Outcomes
import Animus.System.Success
import Animus.System.Trace
import Animus.System.Cleanup
import Animus.System.Telemetry
import Animus.System.Transcripts
import Animus.System.Hooks
import Animus.System.Retirement
import Animus.System.Fleet
import Animus.System.Alone
import Animus.System.Drain
import Animus.System.Accounts
import Animus.System.Recovery
import Animus.System.Linear
import Animus.System.Briefs
import Animus.Llm.Types
import Animus.Llm.Sse
import Animus.Llm.OpenAi
import Animus.Llm.Server
import Animus.Llm.Delivery
import Animus.Llm.Chunking
import Animus.Llm.Agreement
import Animus.Llm.Lines
import Animus.Llm.Accumulators
import Animus.Llm.ToolCalls
import Animus.Llm.Done
import Animus.Llm.Grammar
import Animus.Llm.Interrupted
import Animus.Llm.Retry
import Animus.Llm.Request
import Animus.Llm.Conversation
import Animus.Llm.Wire
import Animus.Llm.History
import Animus.Cli.Llm
import Animus.Cli.Work
import Animus.Cli.Submit
import Animus.Cli.List
import Animus.Memory.Store
import Animus.Memory.Searches
import Animus.Cli.Yaml
