import Boostcache.Cpp.Memory
import Boostcache.Resp.Basic
import Boostcache.Resp.Lemmas
import Boostcache.Kernel.CommandHandler.Impl
import Boostcache.Kernel.CommandHandler.Lemmas.Bulk
import Boostcache.Kernel.CommandHandler.Lemmas.Inline
import Boostcache.Kernel.CommandHandler.Lemmas.Feed
import Boostcache.Kernel.CommandHandler.Lemmas.Request
import Boostcache.Machine.Basic
import Boostcache.Kernel.CommandHandler.Run
import Boostcache.Kernel.CommandHandler.Fragmentation
import Boostcache.Kernel.CommandHandler.Grammar
import Boostcache.Kernel.CommandHandler.InlineFragmentation
import Boostcache.Kernel.CommandHandler.Reply
import Boostcache.Server.JsVm
import Boostcache.Boost.Intrusive
import Boostcache.Db.AvlTree
import Boostcache.Db.Foreach
import Boostcache.Db.Lemmas.AvlTree
import Boostcache.Db.Agreement
import Boostcache.Kernel.Commands.Impl
import Boostcache.Kernel.Commands.Reply
import Boostcache.Kernel.Net.Session
import Boostcache.Kernel.Net.CommandServer
import Boostcache.Kernel.CommandHandler.State
import Boostcache.Kernel.Commands.Dispatch
import Boostcache.Kernel.CommandHandler.Bounds
import Boostcache.Kernel.CommandHandler.Numerals
import Boostcache.Kernel.Net.InlineRequest
import Boostcache.Db.Invariant
import Boostcache.Db.ForeachMap
import Boostcache.Boost.SharedMutex
import Boostcache.Machine.Linearizable
import Boostcache.Machine.Locked
import Boostcache.Db.Sections
import Boostcache.Kernel.Commands.Sections
import Boostcache.Kernel.Net.Acceptors
import Boostcache.Kernel.Net.Workers
import Boostcache.Db.Bindings
import Boostcache.Kernel.CommandHandler.Reparse
import Boostcache.Kernel.Commands.Noninterference
import Boostcache.Kernel.Commands.Reference
import Boostcache.Kernel.Net.Reference
import Boostcache.Db.ForeachAgreement
import Boostcache.Kernel.CommandHandler.Decision
import Boostcache.Util.Options
