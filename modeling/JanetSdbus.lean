import JanetSdbus.Async.Aging
import JanetSdbus.Async.Atomic
import JanetSdbus.Async.CallMethod
import JanetSdbus.Async.Close
import JanetSdbus.Async.Collect
import JanetSdbus.Async.Conn
import JanetSdbus.Async.Effect
import JanetSdbus.Async.Events
import JanetSdbus.Async.Frame
import JanetSdbus.Async.Invariant
import JanetSdbus.Async.Notify
import JanetSdbus.Async.Once
import JanetSdbus.Async.Owners
import JanetSdbus.Async.Queue
import JanetSdbus.Async.Quiescence
import JanetSdbus.Async.Reentry
import JanetSdbus.Async.Runs
import JanetSdbus.Async.Sweep
import JanetSdbus.Async.Traversal
import JanetSdbus.Async.View
import JanetSdbus.Client.Call
import JanetSdbus.Client.Properties
import JanetSdbus.Client.Proxy
import JanetSdbus.Client.Signals
import JanetSdbus.DBus.MatchRule
import JanetSdbus.DBus.Signature
import JanetSdbus.DBus.Value
import JanetSdbus.Delivery.Handler
import JanetSdbus.Delivery.Subscribers
import JanetSdbus.Export.Arity
import JanetSdbus.Export.Interface
import JanetSdbus.Export.Lifetime
import JanetSdbus.Export.Method
import JanetSdbus.Export.Property
import JanetSdbus.Export.Stored
import JanetSdbus.Export.Vtable
import JanetSdbus.Introspect.Dictionary
import JanetSdbus.Introspect.Flaws
import JanetSdbus.Introspect.Grammar
import JanetSdbus.Introspect.Lossless
import JanetSdbus.Introspect.Markup
import JanetSdbus.Introspect.Mirror
import JanetSdbus.Introspect.Reading
import JanetSdbus.Message.Append
import JanetSdbus.Message.Brackets
import JanetSdbus.Message.Cut
import JanetSdbus.Message.Decode
import JanetSdbus.Message.Denote
import JanetSdbus.Message.Descriptors
import JanetSdbus.Message.Guard
import JanetSdbus.Message.Integers
import JanetSdbus.Message.Janet
import JanetSdbus.Message.Outgoing
import JanetSdbus.Message.Pointing
import JanetSdbus.Message.Read
import JanetSdbus.Message.Refusals
import JanetSdbus.Message.RoundTrip
import JanetSdbus.Message.Sequence
import JanetSdbus.Message.Span
import JanetSdbus.Message.Spelling
import JanetSdbus.Message.Steps
import JanetSdbus.Message.Storable
import JanetSdbus.Message.Total
import JanetSdbus.Message.Verdict
import JanetSdbus.Message.Walker
import JanetSdbus.Message.Watch
import JanetSdbus.Schemes.CMemory
import JanetSdbus.Schemes.Descriptors
import JanetSdbus.Schemes.Exchange
import JanetSdbus.Schemes.Fiber
import JanetSdbus.Schemes.LinkedList
import JanetSdbus.Schemes.Mailbox
import JanetSdbus.Schemes.Objects
import JanetSdbus.Schemes.Peg
import JanetSdbus.Schemes.Replace
import JanetSdbus.Schemes.Run
import JanetSdbus.Signals.Rules
import JanetSdbus.Signals.Subscriptions
import JanetSdbus.Async.Mailboxes
