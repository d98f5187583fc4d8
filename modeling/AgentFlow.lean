import AgentFlow.Lib.Run
import AgentFlow.Lib.History
import AgentFlow.Lib.Precedence
import AgentFlow.Lib.OrderedMap
import AgentFlow.Lib.Json
import AgentFlow.Lib.JsonSort
import AgentFlow.Lib.JsonOrder
import AgentFlow.Lib.Status
import AgentFlow.Lib.Requests
import AgentFlow.Lib.PrefixCode
import AgentFlow.Lib.JsonText
import AgentFlow.Lib.Deletion
import AgentFlow.Lib.Fallible
import AgentFlow.Lib.Incremental
import AgentFlow.Lib.Coroutine
import AgentFlow.Lib.DepthFirst
import AgentFlow.Lib.Nesting
import AgentFlow.Core.State
import AgentFlow.Core.Graph
import AgentFlow.Core.Runner
import AgentFlow.Core.Effects
import AgentFlow.Core.Steps
import AgentFlow.Core.Start
import AgentFlow.Core.Trace
import AgentFlow.Core.Log
import AgentFlow.Core.Plan
import AgentFlow.Core.Frontier
import AgentFlow.Core.Ledger
import AgentFlow.Core.Dag
import AgentFlow.Core.Resume
import AgentFlow.Core.Chain
import AgentFlow.Core.FailStop
import AgentFlow.Core.FanIn
import AgentFlow.Core.WellFormed
import AgentFlow.Core.ColdStart
import AgentFlow.Core.Stall
import AgentFlow.Core.Tiers
import AgentFlow.Core.Reuse
import AgentFlow.Core.Potential
import AgentFlow.Inference.Openai.MessageMap
import AgentFlow.Inference.Openai.StreamAccumulator
import AgentFlow.Inference.Openai.ChatBackend
import AgentFlow.Inference.Openai.Turns
import AgentFlow.Inference.Openai.Pairing
import AgentFlow.Inference.Openai.Repair
import AgentFlow.Inference.Openai.Wire
import AgentFlow.Inference.Openai.Canonical
import AgentFlow.Inference.Openai.Images
import AgentFlow.Inference.Openai.Streaming
import AgentFlow.Inference.Openai.Rollback
import AgentFlow.Inference.Openai.Fragments
import AgentFlow.Inference.Openai.CallStreams
import AgentFlow.Inference.Openai.Response
import AgentFlow.Inference.Openai.Checked
import AgentFlow.Inference.Openai.Untrusted
import AgentFlow.Inference.Openai.StrictTools
import AgentFlow.Inference.Openai.StrictSchemas
import AgentFlow.Inference.Openai.StrictVisits
import AgentFlow.Lib.Channel
import AgentFlow.Lib.Pipe
import AgentFlow.Lib.JsonWeight
import AgentFlow.Inference.CanonicalMessage
import AgentFlow.Inference.StreamAssembly
import AgentFlow.Inference.LiteRt.SendAsync
import AgentFlow.Inference.LiteRt.Stream
import AgentFlow.Inference.LiteRt.Delivery
import AgentFlow.Inference.SpecialTokens
import AgentFlow.Inference.SpecialTokenProbe
import AgentFlow.Inference.Leftovers
import AgentFlow.Inference.StrippedJson
import AgentFlow.Inference.LiteRt.Shown
import AgentFlow.Inference.LiteRt.Slot
import AgentFlow.Inference.LiteRt.Interrupt
import AgentFlow.Nodes.AgentNode
import AgentFlow.Nodes.OnDevice
import AgentFlow.Nodes.TeamNode
import AgentFlow.Core.StateFields
import AgentFlow.Lib.Stacks
import AgentFlow.Core.Cancel
import AgentFlow.Nodes.LlmSelect
import AgentFlow.Skills.SkillUtf8
import AgentFlow.Lib.FileSystem
import AgentFlow.Skills.Skill
import AgentFlow.Skills.SkillTools
import AgentFlow.Tools.Mcp.Rpc
import AgentFlow.Tools.Mcp.Stdio
import AgentFlow.Tools.Mcp.Matching
import AgentFlow.Net.Sse
import AgentFlow.Net.HttpParse
import AgentFlow.Net.HttpsClient
import AgentFlow.Net.Framing
import AgentFlow.Net.SseFrames
import AgentFlow.Net.SseLimit
import AgentFlow.Net.SseData
import AgentFlow.Net.Reads
import AgentFlow.Net.Bodies
import AgentFlow.Net.Packets
import AgentFlow.Net.Chunks
import AgentFlow.Net.ChunkCoding
import AgentFlow.Net.ChunkErrors
import AgentFlow.Tools.Mcp.StdioSteps
import AgentFlow.Tools.Mcp.Handshake
import AgentFlow.Tools.Mcp.Reconnect
import AgentFlow.Tools.Mcp.Tokens
import AgentFlow.Tools.Mcp.Cancellation
import AgentFlow.Tools.Mcp.HttpCodec
import AgentFlow.Tools.Mcp.Http
import AgentFlow.Tools.Mcp.HttpAnswers
import AgentFlow.Tools.Mcp.HttpSteps
import AgentFlow.Tools.Mcp.HttpReader
import AgentFlow.Tools.Mcp.HttpHandshake
import AgentFlow.Tools.Mcp.SingleFlight
import AgentFlow.Tools.Mcp.Shutdown
import AgentFlow.Tools.Mcp.ClientPool
import AgentFlow.Workflow.Template
import AgentFlow.Workflow.Escaping
import AgentFlow.Workflow.JsonPath
import AgentFlow.Workflow.PathLanguage
import AgentFlow.Workflow.Spec
import AgentFlow.Workflow.Effects
import AgentFlow.Tools.Mcp.ServerJson
import AgentFlow.Tools.InvocationToolView
import AgentFlow.Workflow.SubAgentRuntime
import AgentFlow.Workflow.WorkflowRunner
import AgentFlow.Workflow.TokenForwarding
import AgentFlow.Workflow.TokenOrder
import AgentFlow.Workflow.ToolCalls
import AgentFlow.Workflow.Boundary
import AgentFlow.Nodes.Dispatch
import AgentFlow.Workflow.ToolMessage
import AgentFlow.Workflow.RunShape
import AgentFlow.Workflow.Exhaustion
import AgentFlow.Workflow.Spans
import AgentFlow.Workflow.CancelReport
import AgentFlow.Workflow.DelegateTools
import AgentFlow.Workflow.WorkflowLoader
import AgentFlow.Workflow.Accepted
import AgentFlow.Workflow.Deeds
import AgentFlow.Workflow.Delegation
import AgentFlow.Workflow.Prompts
import AgentFlow.Workflow.Integers
import AgentFlow.Workflow.Signing
import AgentFlow.Workflow.WorkflowRegistry
import AgentFlow.Persist.FileCheckpoints
import AgentFlow.Persist.Lives
import AgentFlow.Persist.Recovery
import AgentFlow.Nodes.Remote
import AgentFlow.Net.Search
import AgentFlow.Net.Url
import AgentFlow.Net.SseCoding
import AgentFlow.Net.HttpRequest
import AgentFlow.Inference.Openai.Endpoint
import AgentFlow.Lib.WorkerPool
import AgentFlow.Jni.HostTools
import AgentFlow.Jni.Signals
import AgentFlow.Jni.Starvation
import AgentFlow.Jni.LateSignals
