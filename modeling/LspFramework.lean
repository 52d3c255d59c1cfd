import LspFramework.Lib.Loop
import LspFramework.Lib.Visits
import LspFramework.Json.RoundTrip
import LspFramework.Json.Trimming
import LspFramework.Json.ErrorPosition
import LspFramework.Json.Conformance.Accepted
import LspFramework.Json.Conformance.Printed
import LspFramework.Json.Conformance.Spellings
import LspFramework.Uri.FileUri
import LspFramework.Uri.Lengths
import LspFramework.Uri.Segments
import LspFramework.Uri.Order
import LspFramework.Io.Streams
import LspFramework.Io.CmdLine
import LspFramework.Jsonrpc.Shape
import LspFramework.Jsonrpc.RoundTrip
import LspFramework.Connection.Writers
import LspFramework.Connection.Wire
import LspFramework.Connection.Termination
import LspFramework.Connection.Truncation
import LspFramework.Handler.Answers
import LspFramework.Handler.AutoReplies
import LspFramework.Handler.FailedWrites
import LspFramework.Handler.Conversions
import LspFramework.Handler.ThreadCount
import LspFramework.Handler.Drain
import LspFramework.Handler.Calls
import LspFramework.Handler.RemoteCall
import LspFramework.Handler.Session
import LspFramework.Serialization.Structures
import LspFramework.Serialization.Probe
import LspFramework.Serialization.RoundTrip
import LspFramework.Serialization.Integers
import LspFramework.Serialization.Tuples
import LspFramework.Lspgen.Coverage
import LspFramework.Lspgen.OrTypes
import LspFramework.Lspgen.Messages
import LspFramework.Lspgen.Comments
import LspFramework.Lspgen.Compiled
import LspFramework.Lspgen.MemberLookup
import LspFramework.Lspgen.Enumerations
