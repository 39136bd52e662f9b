import Dafeng.Plugin.EndToEnd
import Dafeng.Protocol.Compatibility
import Dafeng.Protocol.PartialFields
import Dafeng.Daemon.Counters
import Dafeng.Daemon.ReplySize
import Dafeng.Daemon.ServerStream
import Dafeng.Client.Calls
import Dafeng.Session.Replies
import Dafeng.Session.Commits
import Dafeng.Session.Traffic
import Dafeng.Learning.Agreement
import Dafeng.Learning.Accumulation
import Dafeng.Learning.LearnedRows
import Dafeng.Learning.SaveLoad
import Dafeng.Learning.Learnable
import Dafeng.Learning.Notice
import Dafeng.Learning.Watermark
import Dafeng.Inspector.Forgetting
import Dafeng.Session.Order
import Dafeng.Inspector.Deletion
import Dafeng.Daemon.Rankings
import Dafeng.Daemon.Deterministic
import Dafeng.Plugin.Context
import Dafeng.Learning.Retention
import Dafeng.Learning.PrivacyGuard
import Dafeng.Learning.PhraseCode
import Dafeng.Inspector.Edits
import Dafeng.Learning.Writers
import Dafeng.Learning.Backlog
import Dafeng.Learning.TypingOrder
import Dafeng.Learning.WordShape
import Dafeng.Learning.Redeploy
import Dafeng.Client.Setup
import Dafeng.Learning.YamlDict
import Dafeng.Plugin.LuaStack
import Dafeng.Endpoint.WindowsPaths
import Dafeng.Endpoint.WindowsAccepting
import Dafeng.Daemon.Transport
import Dafeng.Inspector.StatsPage
import Dafeng.Learning.GitSync
import Dafeng.Learning.Pace
import Dafeng.Daemon.Arguments
import Dafeng.Plugin.Handles
import Dafeng.Plugin.Lifecycle
import Dafeng.Endpoint.SocketPaths
import Dafeng.Learning.Walkers
