import P2pVn.PeerProto

/-!
# `Pkt` — host addresses to and from packets (`pkt.c`)

`struct sockaddr_in` keeps address and port in network order. `pkt_ipv4_pack` converts them again, and
`pkt_ipv4_unpack` converts nothing; both are written here as they are.
-/

namespace P2pVn

/-- `pkt_ipv4_unpack`. -/
def pktIpv4Unpack (pip : PktIpv4Host) : Ipv4Host where
  mac := pip.mac
  addrIn := { sinFamily := afInet, sinPort := pip.port, sinAddr := pip.ip }

/-- `pkt_ipv4_pack`. -/
def pktIpv4Pack (h : Ipv4Host) : PktIpv4Host where
  ip := htonl h.addrIn.sinAddr
  port := htons h.addrIn.sinPort
  mac := h.mac

@[simp] theorem pktIpv4Unpack_mac (p : PktIpv4Host) : (pktIpv4Unpack p).mac = p.mac := rfl

@[simp] theorem pktIpv4Pack_mac (h : Ipv4Host) : (pktIpv4Pack h).mac = h.mac := rfl

end P2pVn
