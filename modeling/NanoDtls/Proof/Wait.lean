import NanoDtls.Proof.Honest

/-!
# The wait for the client's Finished

The server skips datagrams that do not unprotect, eight of them at most. The
loop with all the memory it writes to is the loop on values
(`run_finishedLoopInto`): the receive buffer, the plaintext and the state of
`nd_record_unprotect` bring nothing of a rejected datagram to the next one. So
a call of `nd_server_handshake` ends as if the rejected datagrams had not
arrived (`rejected_skipped`).
-/

namespace ND.Proof.Wait

open ND.Impl Server Handshake Record Udp
open ND.Impl.Client (maxMsg)
open Spec.Client (received)
open Proof.Client Proof.Record Proof.Server

variable {env : Env}

/-! ## The memory -/

/-- What the checks after the loop read. -/
def contentOf (m : FinishedMem) : Bytes × Byte := (m.read.plaintextOut.take m.read.plaintextLen, m.read.outContentType)

theorem length_received {i : Nat} {d : Bytes} (h : received env i = some d) : d.length ≤ maxMsg := by
  obtain ⟨e, -, rfl⟩ := Option.map_eq_some_iff.mp h
  rw [List.length_take]
  exact Nat.min_le_left _ _

/-- A datagram in the receive buffer, over what was there before. -/
theorem take_patch {buf d : Bytes} : (patch buf 0 d).take d.length = d := by
  rw [patch, List.take_zero, List.nil_append, List.take_left]

/-- The loop with its memory is the loop on values. -/
theorem run_finishedLoopInto : ∀ (n : Nat) (st : Status) (m : FinishedMem) (c : Calls),
    m.datagram.length = maxMsg → m.read.plaintextOut.length = maxMsg →
    ∃ (o : Result FinishedMem) (c' : Calls), Action.run env.answer (finishedLoopInto n st m) c = (o, c') ∧
      Action.run env.answer (finishedLoop m.read.u n st) c = (contentOf <$> o, c')
  | 0, st, m, c, _, _ => ⟨.error st, c, rfl, rfl⟩
  | n + 1, st, m, c, hd, hp => by
    rw [finishedLoopInto, finishedLoop, Action.run_bind, Action.run_bind, run_udpRecv]
    cases hrecv : received env c.received with
    | none => exact ⟨.error .truncated, _, rfl, rfl⟩
    | some d =>
      have hle := length_received hrecv
      have hlen : (patch m.datagram 0 d).length = maxMsg := by rw [length_patch (by omega), hd]
      simp only [take_patch, recordUnprotectInto_eq, hp]
      cases hopen : recordUnprotect m.read.u d maxMsg with
      | ok r =>
        obtain ⟨content, contentType, u⟩ := r
        refine ⟨_, _, rfl, ?_⟩
        simp only [map_ok, contentOf, List.take_left]
        rfl
      | error st' =>
        by_cases hub : st' = .ub
        · subst hub
          exact ⟨.error .ub, _, rfl, rfl⟩
        · obtain ⟨o, c', hinto, hloop⟩ := run_finishedLoopInto n st' { m with datagram := patch m.datagram 0 d }
            { c with received := c.received + 1 } hlen hp
          refine ⟨o, c', ?_, ?_⟩
          · rw [← hinto]
            cases st' <;> first | rfl | exact absurd rfl hub
          · rw [← hloop]
            cases st' <;> first | rfl | exact absurd rfl hub

/-- The status of a call and `out_result` after it. -/
def resultOf (env : Env) (config : ServerConfig) (priv random : Option (BytesN 32)) (datagram plaintext : BytesN maxMsg)
    (out : HandshakeKeys) : Result Unit × HandshakeKeys :=
  (Prog.run env.answer (serverHandshakeInto config priv random datagram plaintext out) ⟨0, 0⟩).1

/-- What `nd_server_handshake` writes: the keys if it succeeds, nothing otherwise. -/
def written (out : HandshakeKeys) : Result HandshakeKeys → Result Unit × HandshakeKeys
  | .ok keys => (.ok (), keys)
  | .error st => (.error st, out)

theorem exec_serverHandshakeMem (config : ServerConfig) (priv random : Option (BytesN 32)) (datagram plaintext : BytesN maxMsg) :
    exec env (serverHandshakeMem config priv random datagram plaintext) = exec env (serverHandshake config priv random) := by
  simp only [exec, serverHandshakeMem, serverHandshake, serverRun, Action.run_bind]
  rcases Action.run env.answer (serverFlight config priv random) ⟨0, 0⟩ with ⟨e | s, c⟩
  · rfl
  · obtain ⟨o, c', hinto, hloop⟩ := @run_finishedLoopInto env 8 .truncated
      ⟨datagram.1, ⟨s.clientRead, plaintext.1, 0, 0⟩⟩ c datagram.2 plaintext.2
    simp only [hinto, hloop]
    cases o with
    | error st => rfl
    | ok m =>
      simp only [map_ok, contentOf, check, Action.run_check]
      cases onFinished s (m.read.plaintextOut.take m.read.plaintextLen) m.read.outContentType <;> rfl

/-- The call with its memory is the handshake on values. -/
theorem resultOf_eq (config : ServerConfig) (priv random : Option (BytesN 32)) (datagram plaintext : BytesN maxMsg)
    (out : HandshakeKeys) :
    resultOf env config priv random datagram plaintext out = written out (exec env (serverHandshake config priv random)) := by
  rw [← exec_serverHandshakeMem config priv random datagram plaintext, resultOf, serverHandshakeInto, Prog.run_bind, exec,
    Action.run]
  rcases Prog.run env.answer (ExceptT.run (serverHandshakeMem config priv random datagram plaintext)) ⟨0, 0⟩ with ⟨e | keys, c⟩ <;>
    rfl

/-! ## Datagrams that are skipped -/

/-- `nd_record_unprotect` fails on the datagram. -/
def Rejects (u : RecordUnprotection) (d : Bytes) : Prop := ∃ st, recordUnprotect u (d.take maxMsg) maxMsg = .error st

/-- `nd_record_unprotect` succeeds on the datagram. -/
def Accepts (u : RecordUnprotection) (d : Bytes) : Prop := ∃ r, recordUnprotect u (d.take maxMsg) maxMsg = .ok r

variable {u : RecordUnprotection}

theorem received_eq {i : Nat} {d : Bytes} (h : env.recvs i = some d) : received env i = some (d.take maxMsg) := by
  rw [received, h]
  rfl

/-- A datagram that is rejected costs one attempt. -/
theorem run_finishedLoop_rejected {d : Bytes} {n : Nat} {c : Calls} (st : Status) (hrecv : env.recvs c.received = some d)
    (hd : Rejects u d) : ∃ st', st' ≠ .ub ∧ Action.run env.answer (finishedLoop u (n + 1) st) c =
      Action.run env.answer (finishedLoop u n st') { c with received := c.received + 1 } := by
  obtain ⟨st', hst⟩ := hd
  have hub : st' ≠ .ub := by
    rintro rfl
    exact avoids_recordUnprotect _ _ _ hst
  refine ⟨st', hub, ?_⟩
  rw [finishedLoop, Action.run_bind, run_udpRecv, received_eq hrecv]
  simp only [hst]

theorem run_finishedLoop_skip : ∀ (rejected : List Bytes) (st : Status) {n : Nat} {c : Calls},
    (∀ i < rejected.length, env.recvs (c.received + i) = rejected[i]?) → (∀ e ∈ rejected, Rejects u e) →
    ∃ st', (st ≠ .ub → st' ≠ .ub) ∧ Action.run env.answer (finishedLoop u (n + rejected.length) st) c =
      Action.run env.answer (finishedLoop u n st') { c with received := c.received + rejected.length }
  | [], st, n, c, _, _ => ⟨st, id, rfl⟩
  | e :: rejected, st, n, c, hrecv, hrej => by
    obtain ⟨st₁, hst₁, hfirst⟩ := run_finishedLoop_rejected (n := n + rejected.length) st (hrecv 0 (Nat.succ_pos _))
      (hrej e List.mem_cons_self)
    obtain ⟨st₂, hst₂, hrest⟩ := run_finishedLoop_skip rejected st₁ (n := n) (c := { c with received := c.received + 1 })
      (fun i hi => by
        have := hrecv (i + 1) (Nat.succ_lt_succ hi)
        rwa [List.getElem?_cons_succ, Nat.add_comm i 1, ← Nat.add_assoc] at this)
      (fun d hd => hrej d (List.mem_cons_of_mem _ hd))
    refine ⟨st₂, fun _ => hst₂ hst₁, ?_⟩
    rw [List.length_cons, ← Nat.add_assoc, hfirst, hrest]
    simp only [Nat.add_assoc, Nat.add_comm 1]

/-- A datagram that is accepted ends the loop. -/
theorem run_finishedLoop_accepted {d : Bytes} {n : Nat} {st : Status} {c : Calls} (hrecv : env.recvs c.received = some d)
    {content : Bytes} {contentType : Byte} {u' : RecordUnprotection}
    (hd : recordUnprotect u (d.take maxMsg) maxMsg = .ok (content, contentType, u')) :
    Action.run env.answer (finishedLoop u (n + 1) st) c =
      (.ok (content, contentType), { c with received := c.received + 1 }) := by
  rw [finishedLoop, Action.run_bind, run_udpRecv, received_eq hrecv]
  simp only [hd]
  rfl

/-! ## What else is received -/

/-- A run depends on the datagrams it has received only. -/
theorem run_congr_recvs (env' : Env) {α : Type} (hsends : env'.sends = env.sends) (hconnects : env'.connects = env.connects) :
    ∀ (x : Prog UdpOp UdpRes α) {c c' : Calls} {a : α}, Prog.run env.answer x c = (a, c') →
      c.received ≤ c'.received ∧ ((∀ i < c'.received, env'.recvs i = env.recvs i) → Prog.run env'.answer x c = (a, c'))
  | .ret a, c, c', _, h => by
    cases h
    exact ⟨le_rfl, fun _ => rfl⟩
  | .call (.send data) k, c, c', a, h => by
    obtain ⟨hle, hrun⟩ := run_congr_recvs env' hsends hconnects (k (env.sends c.sent)) h
    refine ⟨hle, fun hrecvs => ?_⟩
    rw [Prog.run, Env.answer, hsends]
    exact hrun hrecvs
  | .call .recv k, c, c', a, h => by
    obtain ⟨hle, hrun⟩ := run_congr_recvs env' hsends hconnects (k (env.recvs c.received)) h
    refine ⟨(Nat.le_succ _).trans hle, fun hrecvs => ?_⟩
    rw [Prog.run, Env.answer, hrecvs c.received hle]
    exact hrun hrecvs
  | .call .connect k, c, c', a, h => by
    obtain ⟨hle, hrun⟩ := run_congr_recvs env' hsends hconnects (k env.connects) h
    refine ⟨hle, fun hrecvs => ?_⟩
    rw [Prog.run, Env.answer, hconnects]
    exact hrun hrecvs

theorem received_exchangeHellos {priv random : Option (BytesN 32)} {s : Session} {c c' : Calls}
    (h : Action.run env.answer (exchangeHellos priv random) c = (.ok s, c')) : c'.received = c.received + 1 := by
  simp only [exchangeHellos, udpServerAcceptPeer, connect, Action.run_bind_eq_ok, run_check_eq_ok, Prod.exists,
    run_udpRecv_eq_ok, run_udpSend_eq_ok, run_pure_eq_ok, Action.run_call, Env.answer, Prod.mk.injEq] at h
  obtain ⟨_, _, ⟨_, _, ⟨_, rfl⟩, _, _, ⟨_, rfl⟩, _, _, ⟨_, rfl⟩, _, rfl⟩, _, _, _, ⟨_, rfl⟩, _, _, ⟨_, rfl⟩, _, _, ⟨_, rfl⟩,
    _, _, _, ⟨_, rfl⟩, _, _, ⟨_, rfl⟩, _, rfl⟩ := h
  rfl

/-- Up to its own Finished the server receives one datagram. -/
theorem received_serverFlight {config : ServerConfig} {priv random : Option (BytesN 32)} {s : Session} {c c' : Calls}
    (h : Action.run env.answer (serverFlight config priv random) c = (.ok s, c')) : c'.received = c.received + 1 := by
  simp only [serverFlight, Action.run_bind_eq_ok, sendEncryptedExtensions, sendCertificate, sendCertificateVerify,
    sendFinished, run_sendMessage, run_check_eq_ok] at h
  obtain ⟨_, _, ⟨_, rfl⟩, _, _, hhello, _, _, ⟨_, _, _, _, _, rfl⟩, _, _, ⟨_, _, _, _, _, rfl⟩, _, _, ⟨_, _, _, _, _, rfl⟩,
    _, _, _, _, _, rfl⟩ := h
  have hreceived := received_exchangeHellos hhello
  exact hreceived

/-- The environment, with these datagrams for the wait. -/
def waitFor (env : Env) (datagrams : List Bytes) : Env :=
  { env with recvs := fun i => if i = 0 then env.recvs 0 else datagrams[i - 1]? }

theorem run_serverFlight_waitFor {config : ServerConfig} {priv random : Option (BytesN 32)} {s : Session}
    (h : exec env (serverFlight config priv random) = .ok s) : ∃ c : Calls, c.received = 1 ∧ ∀ datagrams,
      Action.run (waitFor env datagrams).answer (serverFlight config priv random) ⟨0, 0⟩ = (.ok s, c) := by
  obtain ⟨c, hrun⟩ := exec_eq_ok.mp h
  have hc : c.received = 1 := received_serverFlight hrun
  refine ⟨c, hc, fun datagrams => ?_⟩
  obtain ⟨-, hcongr⟩ := @run_congr_recvs env (waitFor env datagrams) _ rfl rfl (serverFlight config priv random) _ _ _ hrun
  refine hcongr fun i hi => ?_
  rw [hc] at hi
  obtain rfl : i = 0 := by omega
  rfl

/-- What follows the loop depends on its result only. -/
def afterLoop (s : Session) (o : Result (Bytes × Byte)) : Result HandshakeKeys := do
  let (content, contentType) ← o
  let _ ← onFinished s content contentType
  return s.keys

theorem exec_serverHandshake {config : ServerConfig} {priv random : Option (BytesN 32)} {s : Session} {c c' : Calls}
    {o : Result (Bytes × Byte)} (hflight : Action.run env.answer (serverFlight config priv random) ⟨0, 0⟩ = (.ok s, c))
    (hloop : Action.run env.answer (finishedLoop s.clientRead 8 .truncated) c = (o, c')) :
    exec env (serverHandshake config priv random) = afterLoop s o := by
  simp only [exec, serverHandshake, serverRun, Action.run_bind, hflight, hloop, afterLoop]
  cases o with
  | error st => rfl
  | ok r =>
    simp only [check, Action.run_check, ok_bind]
    cases onFinished s r.1 r.2 <;> rfl

/-- The datagrams of the wait. -/
theorem recvs_waitFor (env : Env) (datagrams : List Bytes) {c : Calls} (hc : c.received = 1) (i : Nat) :
    (waitFor env datagrams).recvs (c.received + i) = datagrams[i]? := by
  rw [hc, waitFor]
  simp

/-- Once the server has sent its Finished: up to seven datagrams that do not unprotect, before one that does, change
neither the status nor `out_result`, whatever comes later; after eight of them the server fails, and leaves `out_result`
as it was. -/
theorem rejected_skipped (env : Env) (config : ServerConfig) (priv random : Option (BytesN 32))
    (datagram plaintext : BytesN maxMsg) (out : HandshakeKeys) {s : Session}
    (hflight : exec env (serverFlight config priv random) = .ok s) :
    (∀ (rejected : List Bytes) (d : Bytes) (rest rest' : List Bytes), rejected.length ≤ 7 →
      (∀ e ∈ rejected, Rejects s.clientRead e) → Accepts s.clientRead d →
      resultOf (waitFor env (rejected ++ d :: rest)) config priv random datagram plaintext out =
        resultOf (waitFor env (d :: rest')) config priv random datagram plaintext out) ∧
    (∀ rejected rest : List Bytes, rejected.length = 8 → (∀ e ∈ rejected, Rejects s.clientRead e) →
      ∃ st, st ≠ Status.ub ∧
        resultOf (waitFor env (rejected ++ rest)) config priv random datagram plaintext out = (.error st, out)) := by
  obtain ⟨c, hc, hrun⟩ := run_serverFlight_waitFor hflight
  constructor
  · intro rejected d rest rest' hlen hrej hacc
    obtain ⟨⟨content, contentType, u'⟩, hd⟩ := hacc
    -- the loop returns what `d` contains, whatever was skipped
    have hresult : ∀ skipped later : List Bytes, skipped.length ≤ 7 → (∀ e ∈ skipped, Rejects s.clientRead e) →
        exec (waitFor env (skipped ++ d :: later)) (serverHandshake config priv random) =
          afterLoop s (.ok (content, contentType)) := by
      intro skipped later hle hskip
      have hrecvs := recvs_waitFor env (skipped ++ d :: later) hc
      obtain ⟨st, -, hloop⟩ := run_finishedLoop_skip (u := s.clientRead) skipped .truncated (n := 7 - skipped.length + 1)
        (fun i hi => by rw [hrecvs i, List.getElem?_append_left hi]) hskip
      rw [show 7 - skipped.length + 1 + skipped.length = 8 by omega] at hloop
      apply exec_serverHandshake (hrun _)
      rw [hloop]
      apply run_finishedLoop_accepted _ hd
      rw [hrecvs skipped.length, List.getElem?_append_right le_rfl, Nat.sub_self, List.getElem?_cons_zero]
    rw [resultOf_eq, resultOf_eq, hresult rejected rest hlen hrej, ← hresult [] rest' (Nat.zero_le 7) nofun, List.nil_append]
  · intro rejected rest hlen hrej
    obtain ⟨st, hst, hloop⟩ := run_finishedLoop_skip (u := s.clientRead) rejected .truncated (n := 0)
      (fun i hi => by rw [recvs_waitFor env (rejected ++ rest) hc i, List.getElem?_append_left hi]) hrej
    rw [hlen] at hloop
    refine ⟨st, hst (by decide), ?_⟩
    rw [resultOf_eq, exec_serverHandshake (hrun _) hloop]
    rfl

theorem exec_serverFlight_of_serverRun {config : ServerConfig} {priv random : Option (BytesN 32)} {r : ServerRun}
    (h : exec env (serverRun config priv random) = .ok r) : exec env (serverFlight config priv random) = .ok r.session := by
  rw [exec_eq_ok] at h ⊢
  simp only [serverRun, Action.run_bind_eq_ok, run_check_eq_ok, run_pure_eq_ok] at h
  obtain ⟨_, s, c, hflight, _, _, _, _, _, _, rfl, -⟩ := h
  exact ⟨c, hflight⟩

/-- A server to which the ClientHello arrives again and again. -/
theorem rejected_skipped_sample : ∃ (env : Env) (s : Session) (stale d : Bytes),
    exec env (serverFlight Honest.sampleConfig (some (zeros 32)) (some (zeros 32))) = .ok s ∧
    Rejects s.clientRead stale ∧ Accepts s.clientRead d ∧
    (resultOf (waitFor env (List.replicate 7 stale ++ [d])) Honest.sampleConfig (some (zeros 32)) (some (zeros 32))
        (zeros maxMsg) (zeros maxMsg) s.keys =
      resultOf (waitFor env [d]) Honest.sampleConfig (some (zeros 32)) (some (zeros 32))
        (zeros maxMsg) (zeros maxMsg) s.keys) ∧
    ∃ st, st ≠ Status.ub ∧
      resultOf (waitFor env (List.replicate 8 stale ++ [])) Honest.sampleConfig (some (zeros 32)) (some (zeros 32))
        (zeros maxMsg) (zeros maxMsg) s.keys = (.error st, s.keys) := by
  obtain ⟨i, j, hserves⟩ := Honest.sample_serves
  obtain ⟨p, _, _, _, _, hserver⟩ :=
    Honest.exec_honest hserves (zeros 32) (zeros 32) (zeros 32) (zeros 32) X25519.x25519_zeros_ne
  have hflight := exec_serverFlight_of_serverRun hserver
  have hstale : Rejects (Honest.serverSession p).clientRead p.chRecord := by
    rw [Rejects, List.take_of_length_le (Honest.length_chRecord p)]
    exact ⟨_, Honest.unprotect_chRecord _⟩
  have hd : Accepts (Honest.serverSession p).clientRead p.clientRecord := by
    rw [Accepts, List.take_of_length_le (Honest.length_clientRecord p)]
    exact ⟨_, Honest.unprotect_clientRecord p⟩
  have hall : ∀ n, ∀ e ∈ List.replicate n p.chRecord, Rejects (Honest.serverSession p).clientRead e := by
    intro n e he
    rw [List.eq_of_mem_replicate he]
    exact hstale
  obtain ⟨hskip, hfail⟩ := rejected_skipped _ _ _ _ (zeros maxMsg) (zeros maxMsg) (Honest.serverSession p).keys hflight
  exact ⟨_, _, p.chRecord, p.clientRecord, hflight, hstale, hd, hskip _ _ [] [] List.length_replicate.le (hall 7) hd,
    hfail _ [] List.length_replicate (hall 8)⟩

end ND.Proof.Wait
