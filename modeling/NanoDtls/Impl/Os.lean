import NanoDtls.Impl.Udp

/-!
# The operating system (`src/transport/udp.c`, `src/random.c`)

The calls below the sockets of `NanoDtls.Impl.Udp`, on POSIX: files, memory,
address lists and socket descriptors, which are handed out and have to be
given back. The environment answers every call. A read of allocated memory is
no call, but has its place among them. `onSocket` runs a handshake on a
descriptor: `nd_udp_send`, `nd_udp_recv` and `nd_udp_server_accept_peer`
down to their system calls, `recv` and `recvfrom` being one call here.
-/

namespace ND.Impl.Os

open Udp

/-- What the system hands out. A block of memory has a size. -/
inductive Handle where
  | file (id : Nat)
  | memory (id size : Nat)
  | addrinfo (id : Nat)
  | socket (id : Nat)
deriving DecidableEq

/-- `struct tm`. -/
structure Tm where
  tmYear : Int
  tmMon : Int
  tmMday : Int
  tmHour : Int
  tmMin : Int
  tmSec : Int

inductive OsOp where
  | fopen (path : List Char)
  | fseek (file : Nat) (toEnd : Bool)
  | ftell (file : Nat)
  | malloc (size : Nat)
  /-- Into a block of memory, or into a buffer of the caller. -/
  | fread (block : Option (Nat × Nat)) (len file : Nat)
  /-- The program reads from a block of memory. -/
  | load (id size : Nat)
  | getaddrinfo (host : Option (List Char)) (port : List Char) (passive : Bool)
  | socket (ai : Nat)
  | connect (fd ai : Nat)
  | bind (fd ai : Nat)
  /-- `connect` to the sender of the last datagram. -/
  | connectPeer (fd : Nat)
  /-- `SO_RCVTIMEO`. -/
  | setsockopt (fd : Nat) (sec usec : Int)
  | send (fd : Nat) (data : Bytes)
  | recv (fd : Nat)
  /-- `fclose`, `free`, `freeaddrinfo`, `close`. -/
  | release (h : Handle)
  /-- `time` and `gmtime_r`. -/
  | gmtime

/-- What is handed out, if anything; the bytes that were read; whether a call succeeded. -/
@[reducible] def OsRes : OsOp → Type
  | .fopen _ | .malloc _ | .getaddrinfo _ _ _ | .socket _ => Option Nat
  | .ftell _ | .send _ _ => Int
  | .fread _ len _ => { b : Bytes // b.length ≤ len }
  | .connect _ _ | .bind _ _ | .connectPeer _ => Bool
  | .recv _ => Option Bytes
  | .gmtime => Tm
  | .fseek _ _ | .load _ _ | .setsockopt _ _ _ | .release _ => Unit

/-- A program that calls the system. -/
abbrev Proc (α : Type) := Prog OsOp OsRes α

def call (o : OsOp) : Proc (OsRes o) := .call o .ret

def fclose (file : Nat) : Proc Unit := call (.release (.file file))
def free (id size : Nat) : Proc Unit := call (.release (.memory id size))
def freeaddrinfo (ai : Nat) : Proc Unit := call (.release (.addrinfo ai))
def close (fd : Nat) : Proc Unit := call (.release (.socket fd))

/-! ## Sockets -/

/-- The loop of `port_to_str`: the digits from the last one on. -/
def portDigits : Nat → Nat → List Char
  | 0, _ => []
  | fuel + 1, v => if v = 0 then [] else Char.ofNat (0x30 + v % 10) :: portDigits fuel (v / 10)

/-- `port_to_str`. -/
def portToStr (port : BitVec 16) : List Char := if port = 0 then ['0'] else (portDigits 5 port.toNat).reverse

/-- `resolve`. -/
def resolve (host : Option (List Char)) (port : BitVec 16) (passive : Bool) : Proc (Option Nat) :=
  call (.getaddrinfo host (portToStr port) passive)

/-- A socket that `attach` gives an address: `nd_udp_client_connect` and `nd_udp_server_bind`. -/
def openSocket (host : Option (List Char)) (port : BitVec 16) (passive : Bool) (attach : Nat → Nat → Proc Bool) :
    Proc (Option Nat) := do
  match ← resolve host port passive with
  | none => return none
  | some ai =>
    match ← call (.socket ai) with
    | none =>
      freeaddrinfo ai
      return none
    | some fd =>
      let ok ← attach fd ai
      freeaddrinfo ai
      if ok then return some fd
      else do
        close fd
        return none

/-- `nd_udp_client_connect`. -/
def udpClientConnect (host : List Char) (port : BitVec 16) : Proc (Option Nat) :=
  openSocket (some host) port false fun fd ai => call (.connect fd ai)

/-- The timeout, if there is one, and a datagram. -/
def receive (fd : Nat) (timeoutMs : Int) : Proc (Option Bytes) := do
  if 0 ≤ timeoutMs then call (.setsockopt fd (timeoutMs.tdiv 1000) (timeoutMs.tmod 1000 * 1000))
  call (.recv fd)

/-- One call of a handshake, on the socket `fd`. -/
def udpCall (fd : Nat) (timeoutMs : Int) : (o : UdpOp) → Proc (UdpRes o)
  | .send data => do
    let sent ← call (.send fd data)
    return decide (0 ≤ sent ∧ sent = data.length)
  | .recv => receive fd timeoutMs
  | .connect => call (.connectPeer fd)

/-- A handshake on the socket `fd`. -/
def onSocket {α : Type} (fd : Nat) (timeoutMs : Int) : Prog UdpOp UdpRes α → Proc α
  | .ret a => .ret a
  | .call o k => udpCall fd timeoutMs o >>= fun r => onSocket fd timeoutMs (k r)

/-! ## Random bytes -/

/-- `nd_random_bytes` for 32 bytes. -/
def ndRandomBytes : Proc (Option (BytesN 32)) := do
  match ← call (.fopen "/dev/urandom".toList) with
  | none => return none
  | some file =>
    let got ← call (.fread none 32 file)
    fclose file
    return if h : got.1.length = 32 then some ⟨got.1, h⟩ else none

end ND.Impl.Os
