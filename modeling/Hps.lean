import Hps.Lib.Run
import Hps.Lib.Slots
import Hps.Lib.Handles
import Hps.Lib.OrderedMap
import Hps.Lib.OrderedSet
import Hps.Lib.Splice
import Hps.Lib.Machine
import Hps.Lib.Words
import Hps.Lib.Containers
import Hps.Lib.Lines
import Hps.Lib.Registry
import Hps.Lib.Count
import Hps.Lib.SearchTree
import Hps.Lib.Integers
import Hps.Lib.Segments
import Hps.Lib.Stripping
import Hps.Lib.Base128
import Hps.Bytes.Model
import Hps.Bytes.Blocks
import Hps.Bytes.Refine
import Hps.Bytes.Typed
import Hps.Bytes.Codec
import Hps.Bytes.Varint
import Hps.Bytes.RoundTrip
import Hps.Bytes.Buffers
import Hps.Bytes.Calls
import Hps.Bytes.VarintFormat
import Hps.Bytes.Gather
import Hps.Bytes.Transfer
import Hps.Bytes.Tls
import Hps.Bytes.ByteOrder
import Hps.Bytes.Positioned
import Hps.Bytes.File
import Hps.Bytes.NullNode
import Hps.Bytes.Strings
import Hps.Http.RequestGrammar
import Hps.Http.Message
import Hps.Http.RequestParser
import Hps.Http.Session
import Hps.Http.Receiving
import Hps.Http.Tokens
import Hps.Http.TokenFacts
import Hps.Http.Method
import Hps.Http.Reading
import Hps.Http.Head
import Hps.Http.Headers
import Hps.Http.Dump
import Hps.Http.Parts
import Hps.Http.Encoding
import Hps.Http.Pieces
import Hps.Http.Splitting
import Hps.Http.Fragments
import Hps.Http.KeepAlive
import Hps.Http.ResponseGrammar
import Hps.Http.ResponseParser
import Hps.Http.ResponseParts
import Hps.Http.ResponseRoundTrip
import Hps.Http.Connection
import Hps.Http.ResponseCalls
import Hps.Http.ResponseHead
import Hps.Http.ChunkLines
import Hps.Http.ChunkInput
import Hps.Http.ChunkLoops
import Hps.Http.Chunks
import Hps.Http.Closing
import Hps.Http.Assembly
import Hps.Http.FixSize
import Hps.Http.Declared
import Hps.Http.ChunkSizes
import Hps.Http.Servlet
import Hps.Http.Recognition
import Hps.Http.UrlCoding
import Hps.Http.Params
import Hps.Http.ParamRoundTrip
import Hps.Http.Trimming
import Hps.Timers.Model
import Hps.Timers.Operations
import Hps.Timers.Expiry
import Hps.Timers.Reachable
import Hps.Timers.Wakeup
import Hps.Timers.Control
import Hps.IOManager.Model
import Hps.IOManager.Sections
import Hps.IOManager.Invariant
import Hps.IOManager.Table
import Hps.IOManager.Interleavings
import Hps.IOManager.Idle
import Hps.IOManager.Indexing
import Hps.IOManager.Continuations
import Hps.Hook.Nonblock
import Hps.Hook.Contexts
import Hps.Hook.Creation
import Hps.Hook.DoIo
import Hps.Hook.Sleep
import Hps.Hook.Connect
import Hps.Hook.Returning
import Hps.Log.Format
import Hps.Log.Pattern
import Hps.Log.Percent
import Hps.Log.Rotation
import Hps.Log.Reconfigure
import Hps.Log.Sharing
import Hps.Scheduler.Model
import Hps.Scheduler.Steps
import Hps.Scheduler.Conservation
import Hps.Scheduler.Roles
import Hps.Scheduler.Exclusion
import Hps.Scheduler.Tickle
import Hps.Scheduler.Stopping
import Hps.Scheduler.Contexts
import Hps.Scheduler.Order
import Hps.Lib.Bits
import Hps.Net.Subnet
import Hps.Lib.Numerals
import Hps.Net.Ipv6Text
import Hps.Net.Lookup
import Hps.Net.Bind
import Hps.Net.AddressText
import Hps.Net.Sockets
import Hps.Net.Descriptors
import Hps.Pool.Model
import Hps.Http.Serving
import Hps.Pool.Ownership
import Hps.Pool.Age
import Hps.Pool.Reuse
import Hps.Pool.Conversation
import Hps.Uri.Grammar
import Hps.Uri.Model
import Hps.Uri.Rules
import Hps.Uri.Authority
import Hps.Uri.Components
import Hps.Uri.Printing
import Hps.Uri.Reaching
import Hps.Config.Yaml
import Hps.Config.PlainYaml
import Hps.Config.Loading
import Hps.Config.Loaded
import Hps.Config.Names
import Hps.Config.LexicalCast
import Hps.Config.RoundTrip
import Hps.Config.Listeners
import Hps.Config.Directory
import Hps.Log.Define
import Hps.Log.Snapshot
