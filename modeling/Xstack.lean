import Xstack.Lib.TreeShape
import Xstack.Tree.Macros
import Xstack.Tree.Repr
import Xstack.Tree.Insert
import Xstack.Tree.Remove
import Xstack.Tree.Find
import Xstack.Arp.Cache
import Xstack.Arp.Invariant
import Xstack.Lib.Bytes
import Xstack.Lib.Ring
import Xstack.Lib.Lex
import Xstack.Ip.Header
import Xstack.Ip.Fragment
import Xstack.Ip.Feed
import Xstack.Ip.Order
import Xstack.Ip.Residue
import Xstack.Ip.Route
import Xstack.Ether
import Xstack.Lib.Program
import Xstack.Tcp
import Xstack.Udp
import Xstack.Net.State
import Xstack.Arp.Remember
import Xstack.Net.Send
import Xstack.Net.Input
import Xstack.Sock.Queue
import Xstack.Sock.Fifo
import Xstack.Sock.Slot
import Xstack.Sock.Egress
import Xstack.Net.Validate
import Xstack.Tree.Map
import Xstack.Udp.Bind
import Xstack.Udp.RoundTrip
import Xstack.Tcp.Conn
import Xstack.Tcp.Handshake
import Xstack.Tcp.Demux
import Xstack.Net.Frame
import Xstack.Net.Defer
import Xstack.Net.Unresolved
import Xstack.Ip.Rib
import Xstack.Ip.IfaceIndex
import Xstack.Arp.Static
import Xstack.Net.Reassemble
import Xstack.Ip.Checksum
import Xstack.Net.TwoRuns
import Xstack.Arp.Evict
import Xstack.Net.Overrun
import Xstack.Net.Periodic
import Xstack.Tcp.Reject
import Xstack.Net.Interop
import Xstack.Ip.Lookup
import Xstack.Net.Fragmentation
import Xstack.Net.GiveUp
import Xstack.Sock.Clear
import Xstack.Sock.Wakeup
import Xstack.Net.Leak
import Xstack.Lib.Crc
import Xstack.Net.Fcs
import Xstack.Net.Mtu
import Xstack.Net.Echo
import Xstack.Net.Unreachable
import Xstack.Ip.Full
import Xstack.Net.Answer
import Xstack.Net.Pool
import Xstack.Tcp.Checksum
import Xstack.Sock.Bounded
import Xstack.Arp.Age
import Xstack.Ip.Bitmap
import Xstack.Net.DeferLoop
import Xstack.Net.DeferSim
import Xstack.Arp.Lookup
import Xstack.Lib.Hoare
import Xstack.Net.Amplify
import Xstack.Net.Stations
import Xstack.Net.Chains
import Xstack.Net.Deliver
import Xstack.Lib.Parties
import Xstack.Lib.TreeHeight
import Xstack.Net.Messages
import Xstack.Net.Network
import Xstack.Net.Tables
import Xstack.Tree.Runs
import Xstack.Lib.Collect
import Xstack.Net.Datagrams
