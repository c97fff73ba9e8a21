import Libdank.Foundation.Requests
import Libdank.Foundation.SeparatedRanges
import Libdank.Foundation.SpanPoints
import Libdank.Foundation.ScratchCopy
import Libdank.Foundation.OrderedTree
import Libdank.Foundation.Buffers
import Libdank.Foundation.ThreadedList
import Libdank.Foundation.Bitmap
import Libdank.Foundation.Transitions
import Libdank.Foundation.Ring
import Libdank.Foundation.PointerTree
import Libdank.Foundation.Guarded
import Libdank.Foundation.Walks
import Libdank.Foundation.LittleEndian
import Libdank.SlabAllocator.FailedGrowth
import Libdank.SlabAllocator.Traversal
import Libdank.SlabAllocator.Stock
import Libdank.Addresses
import Libdank.IpSet.Canonical
import Libdank.IpSet.Capacity
import Libdank.IpSet.Exchange
import Libdank.IpSet.Printing
import Libdank.IpSet.Queries
import Libdank.IpSet.Area
import Libdank.IpSet.BrokenLists
import Libdank.PortSet.Canonical
import Libdank.PortSet.Printing
import Libdank.PortSet.Queries
import Libdank.PortSet.NumericPorts
import Libdank.PortSet.PortGrammar
import Libdank.SetUpdates
import Libdank.Printing.Failures
import Libdank.PatriciaTrie.Blob
import Libdank.PatriciaTrie.Nocase
import Libdank.PatriciaTrie.Terminated
import Libdank.PatriciaTrie.Unfolding
import Libdank.Intervals.Balance
import Libdank.Strings
import Libdank.Mac
import Libdank.Lexers.Signed
import Libdank.Carving.QuotedTokens
import Libdank.Carving.CommaLists
import Libdank.Carving.ValuePairs
import Libdank.Carving.SingleIps
import Libdank.Carving.Endpoints
import Libdank.CrlfStream.Delivery
import Libdank.CrlfStream.FreshLines
import Libdank.CrlfStream.Releases
import Libdank.LineParser.Delivery
import Libdank.LineParser.ShortReads
import Libdank.LineParser.LineStarts
import Libdank.WideLineParser
import Libdank.TokenParser
import Libdank.Uri.Ports
import Libdank.Uri.PortDigits
import Libdank.Uri.Schemes
import Libdank.Uri.Connect
import Libdank.PidLock.Exclusion
import Libdank.CtlServer.References
import Libdank.CtlServer.Accepting
import Libdank.CtlServer.Handshake
import Libdank.CtlServer.Lifecycle
import Libdank.CtlServer.Registration
import Libdank.LogListener.Delivery
import Libdank.LogListener.Messages
import Libdank.ThreadLaunch.Releases
import Libdank.ThreadLaunch.Registry
import Libdank.Signals
import Libdank.MmapWindow.Accessors
import Libdank.MmapWindow.Scratchfiles
import Libdank.MemLimit.Accounting
import Libdank.MemLimit.Countdown
import Libdank.MemLimit.Shares
import Libdank.Times
import Libdank.CacheLines
import Libdank.Descriptors
import Libdank.SocketLines
import Libdank.Magic.Leftovers
import Libdank.Magic.BitCounts
import Libdank.Magic.WideModuli
import Libdank.Lexers.Overflow
import Libdank.Lexers.Hexadecimal
import Libdank.Netlink.LocalAddresses
import Libdank.Netlink.RouteMessages
import Libdank.Netlink.Neighbors
import Libdank.EventCore.Releases
import Libdank.EventCore.Operations
import Libdank.EventCore.Dispatch
import Libdank.MmapWindow.AddressSpace
import Libdank.CtlServer.Switchboard
import Libdank.CtlServer.Requests
import Libdank.LineParser.Callbacks
import Libdank.ProcFiles
import Libdank.LogListener.LogFiles
import Libdank.Netlink.SourceRoutes
import Libdank.Netlink.Tables
import Libdank.Netlink.Dumps
import Libdank.LogDir
import Libdank.Sockets
import Libdank.Privs
import Libdank.Cunit
import Libdank.PidLock.Daemonizer
