import Hyperboria.Crypto.Atomicity
import Hyperboria.Crypto.Authenticity
import Hyperboria.Crypto.Replay
import Hyperboria.Crypto.Nonces
import Hyperboria.Crypto.Agreement
import Hyperboria.Net.UnexpectedIncoming
import Hyperboria.Net.CompleteMessages
import Hyperboria.Crypto.Teardown
import Hyperboria.Crypto.Channel
import Hyperboria.Net.PeerStates
import Hyperboria.Tunnel.GeneratedRoutes
import Hyperboria.Interface.FramingIface
import Hyperboria.Switch.SchemeWire
import Hyperboria.Dht.SearchOnce
import Hyperboria.Dht.SearchCompletion
import Hyperboria.Switch.ErrorPath
import Hyperboria.Tunnel.Grants
import Hyperboria.Memory.AncestorTest
import Hyperboria.Switch.SchemeList
import Hyperboria.Switch.CannonicalForm
import Hyperboria.Dht.WalkEnds
import Hyperboria.Dht.GetPeers
import Hyperboria.Dht.Worst
import Hyperboria.Dht.Counters
import Hyperboria.Dht.ClosestNodes
import Hyperboria.Crypto.LostPackets
import Hyperboria.Crypto.Passwords
import Hyperboria.Dht.Labels
import Hyperboria.Net.Paths
import Hyperboria.Util.MapArrays
import Hyperboria.Net.PeerHeap
import Hyperboria.Benc.Dict
import Hyperboria.Tunnel.ControlFrames
import Hyperboria.Tunnel.RouteFlag
import Hyperboria.Benc.JsonBencSerializer
import Hyperboria.Net.EventEmitter
import Hyperboria.Crypto.Key
