import DevFramework.Base64.Base64
import DevFramework.Base64.RoundTrip
import DevFramework.CmdParser.BackEnds
import DevFramework.CmdParser.Bison
import DevFramework.CmdParser.Building
import DevFramework.CmdParser.Comments
import DevFramework.CmdParser.Course
import DevFramework.CmdParser.Declarations
import DevFramework.CmdParser.Draining
import DevFramework.CmdParser.Files
import DevFramework.CmdParser.Flex
import DevFramework.CmdParser.FrontEnd
import DevFramework.CmdParser.Handles
import DevFramework.CmdParser.Ids
import DevFramework.CmdParser.Laid
import DevFramework.CmdParser.Output
import DevFramework.CmdParser.Parser
import DevFramework.CmdParser.RangeCheck
import DevFramework.CmdParser.Ranges
import DevFramework.CmdParser.Rules
import DevFramework.CmdParser.Scanning
import DevFramework.CmdParser.Sections
import DevFramework.CmdParser.Stages
import DevFramework.CmdParser.Token
import DevFramework.CmdParser.Tree
import DevFramework.CommonApp.Callbacks
import DevFramework.CommonApp.Eviction
import DevFramework.CommonApp.Pool
import DevFramework.CommonApp.Shutdown
import DevFramework.CommonApp.Steps
import DevFramework.Connector.Closing
import DevFramework.Connector.Helper
import DevFramework.Connector.Leaks
import DevFramework.Connector.Strand
import DevFramework.Des.Cipher
import DevFramework.Des.Padding
import DevFramework.Des.RoundTrip
import DevFramework.Des.Tables
import DevFramework.Foundations.Bits
import DevFramework.Foundations.BlockCipher
import DevFramework.Foundations.Buffers
import DevFramework.Foundations.Bytes
import DevFramework.Foundations.CString
import DevFramework.Foundations.Decimal
import DevFramework.Foundations.Framing
import DevFramework.Foundations.Groups
import DevFramework.Foundations.Issued
import DevFramework.Foundations.OrderedMap
import DevFramework.Foundations.Places
import DevFramework.Foundations.RegExp
import DevFramework.Foundations.Scanner
import DevFramework.Foundations.Transition
import DevFramework.Foundations.Utf8
import DevFramework.Http.Completion
import DevFramework.Http.Request
import DevFramework.Json.CJSon
import DevFramework.Json.Copies
import DevFramework.Json.Courses
import DevFramework.Json.Document
import DevFramework.Json.Encoding
import DevFramework.Json.Faults
import DevFramework.Json.Items
import DevFramework.Json.Layout
import DevFramework.Json.Levels
import DevFramework.Json.Memory
import DevFramework.Json.Numerals
import DevFramework.Json.Parsing
import DevFramework.Json.Pieces
import DevFramework.Json.Printing
import DevFramework.Json.Progress
import DevFramework.Json.Proper
import DevFramework.Json.RoundTrip
import DevFramework.Json.Strings
import DevFramework.Json.Written
import DevFramework.Log.DayChange
import DevFramework.Log.Expiry
import DevFramework.Log.Files
import DevFramework.Log.Manager
import DevFramework.Log.Retention
import DevFramework.Marshal.Record
import DevFramework.Marshal.Rejection
import DevFramework.Marshal.RoundTrip
import DevFramework.Marshal.Stream
import DevFramework.MemPool.Block
import DevFramework.MemPool.Exhaustion
import DevFramework.MemPool.Handed
import DevFramework.MemPool.Layout
import DevFramework.MemPool.Manager
import DevFramework.MemPool.Merge
import DevFramework.MemPool.Operations
import DevFramework.MemPool.Outcomes
import DevFramework.MemPool.Search
import DevFramework.MemPool.Serving
import DevFramework.MemPool.Sessions
import DevFramework.MemPool.Stock
import DevFramework.MemPool.Tiling
import DevFramework.MemPool.Upkeep
import DevFramework.Netport.Alike
import DevFramework.Netport.Bounds
import DevFramework.Netport.Chunks
import DevFramework.Netport.Delivery
import DevFramework.Netport.Flow
import DevFramework.Netport.Frame
import DevFramework.Netport.Holding
import DevFramework.Netport.Leftovers
import DevFramework.Netport.Life
import DevFramework.Netport.Parsing
import DevFramework.Netport.Port
import DevFramework.Netport.Rebinding
import DevFramework.Netport.Receiver
import DevFramework.Netport.Receiving
import DevFramework.Netport.Release
import DevFramework.Netport.Sender
import DevFramework.Netport.Sending
import DevFramework.Netport.Silence
import DevFramework.Netport.Stall
import DevFramework.Netport.Tracking
import DevFramework.Netport.Wire
import DevFramework.Platform
import DevFramework.Protocol.Router
import DevFramework.Socket.Acceptor
import DevFramework.Socket.Stopping
import DevFramework.ThreadPool.Accepted
import DevFramework.ThreadPool.Pool
import DevFramework.ThreadPool.Registry
import DevFramework.ThreadPool.Strands
import DevFramework.ThreadPool.Worker
import DevFramework.Timer.Cancelling
import DevFramework.Timer.Conservation
import DevFramework.Timer.Filing
import DevFramework.Timer.Index
import DevFramework.Timer.Manager
import DevFramework.Timer.Shutdown
import DevFramework.Timer.Sleep
import DevFramework.Timer.Waiting
import DevFramework.Xml.Copies
import DevFramework.Xml.Cursor
import DevFramework.Xml.Dom
import DevFramework.Xml.FindAll
import DevFramework.Xml.Numbers
