import Dep2p.Rcmgr.Accounting
import Dep2p.Rcmgr.Migration
import Dep2p.Yamux.Credit
import Dep2p.Yamux.SynSlots
import Dep2p.Swarm.DialLimits
import Dep2p.Swarm.DialRuns
import Dep2p.Multistream.Agreement
import Dep2p.Peerstore.TwoBooks
import Dep2p.Yamux.Writers
import Dep2p.Yamux.Lifecycle
import Dep2p.ConnMgr.Books
import Dep2p.Msgio.RoundTrip
import Dep2p.Cid.Reader
import Dep2p.Cid.Text
import Dep2p.Rcmgr.Memory
import Dep2p.Rcmgr.ConnResidue
import Dep2p.Rcmgr.ConnBooks
import Dep2p.Rcmgr.SpanRuns
import Dep2p.Multiaddr.Text
import Dep2p.Multiaddr.Onion
import Dep2p.Multiaddr.Patterns
import Dep2p.Peer.Record
import Dep2p.HttpAuth.Tokens
import Dep2p.HttpAuth.ClientRuns
import Dep2p.Datastore.KeyTransform
import Dep2p.Datastore.MountRuns
import Dep2p.Swarm.Resolve
import Dep2p.Swarm.Backoff
import Dep2p.Peerstore.MemCap
import Dep2p.Swarm.DialQueue
import Dep2p.HttpAuth.Headers
