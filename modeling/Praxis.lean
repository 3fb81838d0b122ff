import Praxis.Proofs.Aliases
import Praxis.Proofs.Attach
import Praxis.Proofs.BadCalls
import Praxis.Proofs.Balance
import Praxis.Proofs.CacheHistory
import Praxis.Proofs.CacheKeys
import Praxis.Proofs.Cascade
import Praxis.Proofs.CommandLine
import Praxis.Proofs.Conversation
import Praxis.Proofs.Crash
import Praxis.Proofs.Decoding
import Praxis.Proofs.DigestJson
import Praxis.Proofs.Dispatch
import Praxis.Proofs.Encoding
import Praxis.Proofs.Escalation
import Praxis.Proofs.Escape
import Praxis.Proofs.Extract
import Praxis.Proofs.FakeRuns
import Praxis.Proofs.HardKeys
import Praxis.Proofs.History
import Praxis.Proofs.Independence
import Praxis.Proofs.Interleavings
import Praxis.Proofs.Isolation
import Praxis.Proofs.JsonRpc
import Praxis.Proofs.Metrics
import Praxis.Proofs.Outgoing
import Praxis.Proofs.Overlap
import Praxis.Proofs.Panel
import Praxis.Proofs.Pipes
import Praxis.Proofs.Process
import Praxis.Proofs.Providers
import Praxis.Proofs.Pump
import Praxis.Proofs.Race
import Praxis.Proofs.Reach
import Praxis.Proofs.Recall
import Praxis.Proofs.RemoteCalls
import Praxis.Proofs.Replay
import Praxis.Proofs.Reply
import Praxis.Proofs.Reports
import Praxis.Proofs.Retrying
import Praxis.Proofs.Review
import Praxis.Proofs.Schedule
import Praxis.Proofs.Serial
import Praxis.Proofs.Soft
import Praxis.Proofs.Sse
import Praxis.Proofs.SseSession
import Praxis.Proofs.Stale
import Praxis.Proofs.Tally
import Praxis.Proofs.Timeouts
import Praxis.Proofs.Trace
import Praxis.Proofs.Traffic
import Praxis.Proofs.Transparency
import Praxis.Proofs.Url
import Praxis.Proofs.Web
import Praxis.Proofs.WorkingSet
