import NanoDtls.Framework.Prog
import NanoDtls.Impl.Types

/-!
# The sockets (`src/transport/udp.c`)

What the handshakes do on a connected UDP socket. A call of the operating
system is answered by the environment: a send succeeds or fails, a receive
gives a datagram or times out. A datagram longer than the buffer is cut off.
-/

namespace ND.Impl.Udp

/-- The system calls of a handshake. -/
inductive UdpOp where
  | send (data : Bytes)
  | recv
  | connect

/-- Whether a send or a connect succeeded; the datagram received, if any. -/
@[reducible] def UdpRes : UdpOp → Type
  | .send _ => Bool
  | .recv => Option Bytes
  | .connect => Bool

/-- A handshake, and the functions it calls. -/
abbrev Io (α : Type) := Action UdpOp UdpRes Status α

/-- The system calls. -/
def send (data : Bytes) : Io Bool := Action.call (UdpOp.send data)
def recv : Io (Option Bytes) := Action.call UdpOp.recv
def connect : Io Bool := Action.call UdpOp.connect

/-- A computation that makes no system call. -/
def check {α : Type} (x : Result α) : Io α := Action.check x

/-- `nd_udp_send`. -/
def udpSend (data : Bytes) : Io Unit := do
  let ok ← send data
  check (failIf (ok = false) .badLength)

/-- `nd_udp_recv` into a buffer of `cap` bytes. -/
def udpRecv (cap : Nat) : Io Bytes := do
  match ← recv with
  | none => throw .truncated
  | some d => return d.take cap

/-- `nd_udp_server_accept_peer`: the first datagram, whose sender becomes the peer. -/
def udpServerAcceptPeer (cap : Nat) : Io Bytes := do
  let d ← udpRecv cap
  let ok ← connect
  check (failIf (ok = false) .badArg)
  return d

/-- The status of a call that the caller looks at. What is undefined stays so. -/
def outcome {α : Type} : Result α → Result (Result α)
  | .error .ub => .error .ub
  | r => .ok r

/-- A call whose status the caller looks at. -/
def attempt {α : Type} (x : Io α) : Io (Result α) := ExceptT.mk (ExceptT.run x >>= fun r => .ret (outcome r))

/-! ## Runs -/

/-- What the operating system answers to the calls of one endpoint: whether its `i`-th send succeeds,
the datagram of its `i`-th receive (none if that times out or fails), whether it can connect. -/
structure Env where
  sends : Nat → Bool
  recvs : Nat → Option Bytes
  connects : Bool

/-- How many calls have been made. -/
structure Calls where
  sent : Nat
  received : Nat

/-- The answer to a call. -/
def Env.answer (env : Env) : (o : UdpOp) → Calls → UdpRes o × Calls
  | .send _, c => (env.sends c.sent, { c with sent := c.sent + 1 })
  | .recv, c => (env.recvs c.received, { c with received := c.received + 1 })
  | .connect, c => (env.connects, c)

/-- The result of a handshake on a fresh socket. -/
def exec {α : Type} (env : Env) (x : Io α) : Result α := (Action.run env.answer x ⟨0, 0⟩).1

end ND.Impl.Udp
