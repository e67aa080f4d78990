import NanoDtls.Framework.Contract
import NanoDtls.Proof.Defined
import NanoDtls.Proof.Honest

/-!
# Traces of system calls

The system calls of a handshake with their answers, and the rules by which a
handshake is followed call by call. The contracts here have the trace so far as
their state, so what a call is permitted after is a property of the whole past.
-/

namespace ND.Proof.Conduct

open ND.Impl Udp
open Prog (Event Yields)
open ND.Action (Meets)

/-- A system call with its answer. -/
abbrev Call := Event UdpOp UdpRes

abbrev Trace := List Call

/-- The datagrams that were given to `send`. -/
def sends (t : Trace) : List Bytes := t.filterMap fun
  | ⟨.send d, _⟩ => some d
  | _ => none

/-- The number of receives. -/
def receives (t : Trace) : Nat := t.countP fun
  | ⟨.recv, _⟩ => true
  | _ => false

section Count

variable (t t' : Trace)

@[simp] theorem sends_append : sends (t ++ t') = sends t ++ sends t' := List.filterMap_append

@[simp] theorem sends_send (d : Bytes) (ok : Bool) : sends [⟨.send d, ok⟩] = [d] := rfl

@[simp] theorem sends_recv (r : Option Bytes) : sends [⟨.recv, r⟩] = [] := rfl

@[simp] theorem receives_append : receives (t ++ t') = receives t + receives t' := List.countP_append

@[simp] theorem receives_send (d : Bytes) (ok : Bool) : receives [⟨.send d, ok⟩] = 0 := rfl

@[simp] theorem receives_recv (r : Option Bytes) : receives [⟨.recv, r⟩] = 1 := rfl

@[simp] theorem receives_connect (ok : Bool) : receives [⟨.connect, ok⟩] = 0 := rfl

end Count

/-- The answers to the sends. -/
def sendAnswers (t : Trace) : List Bool := t.filterMap fun
  | ⟨.send _, ok⟩ => some ok
  | _ => none

/-- The answers to the receives. -/
def recvAnswers (t : Trace) : List (Option Bytes) := t.filterMap fun
  | ⟨.recv, r⟩ => some r
  | _ => none

/-- The environment that answers as a trace says. -/
def envOf (t : Trace) : Env where
  sends i := (sendAnswers t).getD i false
  recvs i := (recvAnswers t).getD i none
  connects := true

/-- The calls of a trace have been made. -/
def callsOf (t : Trace) : Calls := ⟨(sendAnswers t).length, (recvAnswers t).length⟩

theorem answers_envOf : ∀ (t before : Trace), ⟨.connect, false⟩ ∉ t →
    Prog.Answers (envOf (before ++ t)).answer (callsOf before) t
  | [], _, _ => trivial
  | ⟨o, r⟩ :: t, before, h => by
    have hrest := answers_envOf t (before ++ [⟨o, r⟩]) (fun hmem => h (List.mem_cons_of_mem _ hmem))
    rw [List.append_assoc, List.singleton_append] at hrest
    cases o with
    | send d =>
      have hcalls : callsOf (before ++ [⟨.send d, r⟩]) = { callsOf before with sent := (callsOf before).sent + 1 } := by
        simp [callsOf, sendAnswers, recvAnswers]
      rw [hcalls] at hrest
      refine ⟨?_, hrest⟩
      simp [Env.answer, envOf, callsOf, sendAnswers]
    | recv =>
      have hcalls : callsOf (before ++ [⟨.recv, r⟩]) = { callsOf before with received := (callsOf before).received + 1 } := by
        simp [callsOf, sendAnswers, recvAnswers]
      rw [hcalls] at hrest
      refine ⟨?_, hrest⟩
      simp [Env.answer, envOf, callsOf, recvAnswers]
    | connect =>
      have hcalls : callsOf (before ++ [⟨.connect, r⟩]) = callsOf before := by simp [callsOf, sendAnswers, recvAnswers]
      rw [hcalls] at hrest
      refine ⟨?_, hrest⟩
      cases r with
      | false => exact absurd List.mem_cons_self h
      | true => rfl

/-! ## The calls of `udp.c` -/

section Calls

variable {P : Trace → UdpOp → Prop} {α : Type} {Q : α → Trace → Prop} {E : Status → Trace → Prop} {t : Trace}

/-- A step that makes no call. -/
theorem meets_defined {x : Result α} (hx : Avoids Status.ub x) (hQ : ∀ a, x = .ok a → Q a t) (hE : ∀ e, e ≠ .ub → E e t) :
    Meets (.ofTrace P) Q E (check x) t := by
  apply Action.meets_check
  cases x with
  | ok a => exact hQ a rfl
  | error e => exact hE e fun h => hx (h ▸ rfl)

theorem meets_udpSend {d : Bytes} {Q : Unit → Trace → Prop} (hP : P t (.send d)) (hQ : Q () (t ++ [⟨.send d, true⟩]))
    (hE : E .badLength (t ++ [⟨.send d, false⟩])) : Meets (.ofTrace P) Q E (udpSend d) t := by
  refine ⟨hP, fun ok => ?_⟩
  cases ok with
  | false => exact hE
  | true => exact hQ

theorem meets_udpRecv {Q : Bytes → Trace → Prop} {cap : Nat} (hP : P t .recv)
    (hQ : ∀ d, Q (d.take cap) (t ++ [⟨.recv, some d⟩])) (hE : E .truncated (t ++ [⟨.recv, none⟩])) :
    Meets (.ofTrace P) Q E (udpRecv cap) t := by
  refine ⟨hP, fun r => ?_⟩
  cases r with
  | none => exact hE
  | some d => exact hQ d

/-- A call whose status the caller looks at, if it cannot be undefined. -/
theorem meets_attempt {x : Io α} {E' : Status → Trace → Prop} (h : Meets (.ofTrace P) Q E x t)
    (hE : ∀ e t, E e t → e ≠ .ub) : Meets (.ofTrace P) (Action.Post Q E) E' (attempt x) t := by
  refine Prog.Meets.bind (fun r t hr => ?_) h
  cases r with
  | ok a => exact hr
  | error e =>
    rw [Client.outcome_eq (avoids_error (hE e t hr))]
    exact hr

theorem yields_udpSend {d : Bytes} {t : Trace} {r : Result Unit} (h : Yields (ExceptT.run (udpSend d)) t r) :
    ∃ ok, t = [⟨.send d, ok⟩] ∧ (r = .ok () ∧ ok = true ∨ r = .error .badLength) := by
  cases h with
  | @call o k ok t a h =>
    cases ok with
    | false =>
      cases h
      exact ⟨false, rfl, .inr rfl⟩
    | true =>
      cases h
      exact ⟨true, rfl, .inl ⟨rfl, rfl⟩⟩

end Calls

/-! ## A run to the end -/

section Sample

variable {config : Server.ServerConfig} {leaf trustAnchor : X509.X509Cert} {issuers : List X509.X509Cert} {atTime : Nat}

/-- A client and a server that both draw zeros. -/
def sampleParties (config : Server.ServerConfig) (r s : BytesN 32) : Honest.Parties :=
  ⟨zeros 32, zeros 32, zeros 32, zeros 32, config.certDer, r, s⟩

/-- The signature of a server that serves does not depend on itself. -/
theorem sampleParties_signed (hserves : Spec.Network.Serves config leaf issuers trustAnchor atTime) : ∃ r s,
    config.signFn (Sha256.sha256 (Spec.Client.signedContent (Sha256.sha256 (sampleParties config r s).signed.fed.flatten))) =
      .ok (r, s) ∧ Honest.Signed (sampleParties config r s) leaf :=
  hserves.signs (Sha256.sha256 (Spec.Client.signedContent
    (Sha256.sha256 (sampleParties config (zeros 32) (zeros 32)).signed.fed.flatten)))

/-- A client that is served succeeds; its last call sends its Finished. -/
theorem does_clientHandshake (hserves : Spec.Network.Serves config leaf issuers trustAnchor atTime) :
    ∃ t d result, Action.Does (Client.clientHandshake (some (zeros 32)) (some (zeros 32)) trustAnchor atTime)
      (t ++ [⟨.send d, true⟩]) result := by
  obtain ⟨r, s, -, hsigned⟩ := sampleParties_signed hserves
  have hflight := Honest.client_does (p := sampleParties config r s) hserves rfl X25519.x25519_zeros_ne hsigned 0 (by decide)
  exact ⟨_, _, _, hflight.bind ((Honest.does_udpSend _).bind (Action.does_pure _))⟩

end Sample

end ND.Proof.Conduct
