import NanoDtls.Framework.Inevitably
import NanoDtls.Impl.Server
import NanoDtls.Spec.Ecdsa
import NanoDtls.Spec.Wire

/-!
# A client and a server on a network

The two handshakes beside each other, with a queue of datagrams in each
direction. The client may time out as long as nothing has reached it, and a
copy of its ClientHello may be lost unless that would be the loss of all of
them. Everything else is delivered once and in order, at any time.
-/

namespace ND.Spec.Network

open ND.Impl Udp Client Server Handshake X509

/-- The two programs, and the datagrams under way. -/
structure Net where
  client : Prog UdpOp UdpRes (Result ClientResult)
  server : Prog UdpOp UdpRes (Result HandshakeKeys)
  toServer : List Bytes
  toClient : List Bytes
  /-- How often the client has timed out. -/
  timeouts : Nat
  /-- A copy of the ClientHello was not lost. -/
  survived : Bool
  /-- A datagram of the server has reached the client. -/
  arrived : Bool

/-- One system call of one side. -/
inductive Step (n : Net) : Net → Prop
  | clientSend {d : Bytes} {p} : n.client.Next (.send d) true p →
    Step n { n with client := p, toServer := n.toServer ++ [d], survived := true }
  /-- A copy of the ClientHello is lost: what the client sends before it has received anything. -/
  | clientLose {d : Bytes} {p} : n.client.Next (.send d) true p → n.arrived = false →
    (n.survived = true ∨ n.timeouts < 4) → Step n { n with client := p }
  | clientRecv {d : Bytes} {q : List Bytes} {p} : n.client.Next .recv (some d) p → n.toClient = d :: q →
    Step n { n with client := p, toClient := q, arrived := true }
  | clientTimeout {p} : n.client.Next .recv none p → n.arrived = false → n.timeouts < 4 →
    Step n { n with client := p, timeouts := n.timeouts + 1 }
  | serverSend {d : Bytes} {p} : n.server.Next (.send d) true p →
    Step n { n with server := p, toClient := n.toClient ++ [d] }
  | serverRecv {d : Bytes} {q : List Bytes} {p} : n.server.Next .recv (some d) p → n.toServer = d :: q →
    Step n { n with server := p, toServer := q }
  | serverConnect {p} : n.server.Next .connect true p → Step n { n with server := p }

/-- A client and a server that start. -/
def start (client : Io ClientResult) (server : Io HandshakeKeys) : Net :=
  { client := ExceptT.run client, server := ExceptT.run server, toServer := [], toClient := [], timeouts := 0
    survived := false, arrived := false }

/-- Both have returned `ND_OK`, with the same keys. -/
def Agreed (n : Net) : Prop :=
  ∃ result keys, n.client = .ret (.ok result) ∧ n.server = .ret (.ok keys) ∧ result.keys = keys

/-- A server whose chain verifies for a client with this trust anchor at this time, whose Certificate
message fits a record, and whose `sign_fn` signs with the key of the leaf. -/
structure Serves (config : ServerConfig) (leaf : X509Cert) (issuers : List X509Cert) (trustAnchor : X509Cert)
    (atTime : Nat) : Prop where
  parse : List.Forall₂ (fun der c => x509Parse 64 der = .ok c) config.certDer (leaf :: issuers)
  verify : x509VerifyChain (leaf :: issuers) trustAnchor atTime = .ok ()
  count : config.certDer.length ≤ 4
  fits : 12 + (Wire.certificate config.certDer).length + 1 ≤ 2048
  signs : ∀ hash, ∃ r s, config.signFn hash = .ok (r, s) ∧
    Ecdsa.Verifies (beNat leaf.pubkeyQx.1) (beNat leaf.pubkeyQy.1) (beNat hash.1) (beNat r.1) (beNat s.1)

end ND.Spec.Network
