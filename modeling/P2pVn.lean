import P2pVn.DArrayMem
import P2pVn.DPeer.Admission
import P2pVn.DPeer.Alignment
import P2pVn.DPeer.Locking
import P2pVn.DPeer.Pacing
import P2pVn.DPeer.Probing
import P2pVn.DPeer.Registered
import P2pVn.DPeer.Resources
import P2pVn.DPeer.Schedule
import P2pVn.DPeer.Staying
import P2pVn.DPeer.WriteLock
import P2pVn.Mesh.Origins
import P2pVn.Mesh.Traffic
import P2pVn.Routing.Coherence
import P2pVn.Routing.Converging
import P2pVn.Routing.Delivery
import P2pVn.Routing.DirectPeers
import P2pVn.Routing.Exported
import P2pVn.Routing.Freeing
import P2pVn.Routing.OwnMap
import P2pVn.Routing.ReadLock
import P2pVn.Routing.Relay
import P2pVn.Routing.Representation
