import NanoDtls.Proof.Honest

/-!
# Loss and retransmission of the ClientHello

The invariant of a client and a server on a network that may lose copies of
the ClientHello: where each side is in its trace (`ClientAt`, `ServerAt`), and
what is under way between them (`Inv`). The datagrams that the client still
waits for are those in its queue and those that the server has yet to send;
the queue of the server holds copies of the ClientHello, and the Finished
behind them. Every step lowers the rank of the invariant, so the handshake
ends (`handshake_inevitable`).
-/

namespace ND.Proof.Network

open ND.Impl Udp Handshake X509
open Prog (Yields Next)
open Spec.Network Proof.Honest

section phases

variable (ch fin : Bytes) (flight : List Bytes)

/-- What is left of the attempts to send the ClientHello, after the first. -/
def waits (j : Nat) : List (Prog.Event UdpOp UdpRes) := (List.replicate j [timedOut, sent ch]).flatten

/-- What the client does once the first reply is there. -/
def reads (expected : List Bytes) : List (Prog.Event UdpOp UdpRes) := expected.map got ++ [sent fin]

/-- Where the client is: the replies it waits for, the copies of the ClientHello that may have been
sent, what was sent behind them, and the rank. -/
inductive ClientAt {α : Type} (result : α) (client : Prog UdpOp UdpRes α) (timeouts : Nat) (survived arrived : Bool) :
    List Bytes → Nat → List Bytes → Nat → Prop
  | sending {w : Nat} : (∀ j ≤ w, Yields client (sent ch :: (waits ch j ++ reads fin flight)) result) →
    timeouts + w = 4 → arrived = false → ClientAt result client timeouts survived arrived flight timeouts []
      (2 * w + flight.length + 2)
  | waiting {w : Nat} : (∀ j ≤ w, Yields client (waits ch j ++ reads fin flight) result) →
    timeouts + w = 4 → arrived = false → (w = 0 → survived = true) →
    ClientAt result client timeouts survived arrived flight (timeouts + 1) [] (2 * w + flight.length + 1)
  | reading {expected : List Bytes} : Yields client (reads fin expected) result → arrived = true →
    expected.length < flight.length →
    ClientAt result client timeouts survived arrived expected 5 [] (expected.length + 1)
  | finished : client = .ret result → ClientAt result client timeouts survived arrived [] 5 [fin] 0

/-- What the server does after it has found its peer. -/
def serves (todo : List Bytes) (j : Nat) : List (Prog.Event UdpOp UdpRes) :=
  todo.map sent ++ (List.replicate j (got ch) ++ [got fin])

/-- Where the server is: the datagrams it has yet to send, the copies of the ClientHello it has
received, and the rank. -/
inductive ServerAt {α : Type} (result : α) (server : Prog UdpOp UdpRes α) : List Bytes → Nat → Nat → Prop
  | listening : (∀ j ≤ 4, Yields server (got ch :: connected :: serves ch fin flight j) result) →
    ServerAt result server flight 0 (flight.length + 7)
  | connecting : (∀ j ≤ 4, Yields server (connected :: serves ch fin flight j) result) →
    ServerAt result server flight 1 (flight.length + 6)
  | replying {todo : List Bytes} {w received : Nat} : (∀ j ≤ w, Yields server (serves ch fin todo j) result) →
    received + w = 5 → 1 ≤ received → ServerAt result server todo received (todo.length + w + 1)

end phases

/-! ## What one side can do -/

variable {ch fin : Bytes} {flight : List Bytes} {α β : Type} {result : α} {client client' : Prog UdpOp UdpRes α}
variable {timeouts : Nat} {survived arrived : Bool} {expected last : List Bytes} {copies k : Nat}

theorem ClientAt.copies_le (h : ClientAt ch fin flight result client timeouts survived arrived expected copies last k) :
    copies ≤ 5 := by
  cases h with
  | sending => omega
  | waiting => omega
  | reading => omega
  | finished => omega

/-- The client sends the ClientHello once more, or its Finished. -/
theorem ClientAt.send (h : ClientAt ch fin flight result client timeouts survived arrived expected copies last k)
    (hflight : flight ≠ []) {d : Bytes} (hn : Next client (.send d) true client') : last = [] ∧
    ((d = ch ∧ arrived = false ∧ ∀ survived', (timeouts = 4 → survived' = true) → ∃ k' < k,
        ClientAt ch fin flight result client' timeouts survived' arrived expected (copies + 1) [] k') ∨
      (d = fin ∧ arrived = true ∧ ∃ k' < k, ∀ survived',
        ClientAt ch fin flight result client' timeouts survived' arrived expected copies [fin] k')) := by
  cases h with
  | @sending w h ht harr =>
    cases (h 0 (Nat.zero_le _)).op_eq hn
    refine ⟨rfl, .inl ⟨rfl, harr, ?_⟩⟩
    intro survived' hsurvived
    exact ⟨_, by omega, .waiting (fun j hj => (h j hj).next hn) ht harr fun hw => hsurvived (by omega)⟩
  | waiting h =>
    cases flight with
    | nil => exact absurd rfl hflight
    | cons => cases (h 0 (Nat.zero_le _)).op_eq hn
  | @reading expected h harr hlen =>
    cases expected with
    | nil =>
      cases Yields.op_eq h hn
      exact ⟨rfl, .inr ⟨rfl, harr, 0, by simp, fun _ => .finished (Yields.eq_ret (h.next hn))⟩⟩
    | cons => cases Yields.op_eq h hn
  | finished h => cases h ▸ hn

/-- The client receives the datagram it waits for. -/
theorem ClientAt.recv (h : ClientAt ch fin flight result client timeouts survived arrived expected copies last k)
    {d : Bytes} {rest : List Bytes} (hd : expected = d :: rest) (hn : Next client .recv (some d) client') :
    last = [] ∧ ∃ k' < k, ClientAt ch fin flight result client' timeouts survived true rest 5 [] k' := by
  cases h with
  | sending h => cases (h 0 (Nat.zero_le _)).op_eq hn
  | waiting h =>
    subst hd
    refine ⟨rfl, _, ?_, .reading ((h 0 (Nat.zero_le _)).next hn) rfl (Nat.lt_succ_self _)⟩
    rw [List.length_cons]
    omega
  | reading h harr hlen =>
    subst hd
    rw [List.length_cons] at hlen
    exact ⟨rfl, _, Nat.lt_succ_self _, .reading (Yields.next h hn) rfl (by omega)⟩
  | finished => cases hd

/-- The client times out, and will send the ClientHello once more. -/
theorem ClientAt.timeout (h : ClientAt ch fin flight result client timeouts survived arrived expected copies last k)
    (harrived : arrived = false) (ht : timeouts < 4) (hn : Next client .recv none client') :
    last = [] ∧ ∃ k' < k, ClientAt ch fin flight result client' (timeouts + 1) survived arrived expected copies [] k' := by
  cases h with
  | sending h => cases (h 0 (Nat.zero_le _)).op_eq hn
  | @waiting w h hw =>
    obtain ⟨w, rfl⟩ : ∃ w', w = w' + 1 := ⟨w - 1, by omega⟩
    refine ⟨rfl, 2 * w + flight.length + 2, by omega, .sending ?_ (by omega) harrived⟩
    intro j hj
    exact (h (j + 1) (by omega)).next hn
  | reading _ harr => cases harr.symm.trans harrived
  | finished h => cases h ▸ hn

variable {keys : β} {server server' : Prog UdpOp UdpRes β} {todo : List Bytes} {received : Nat}

/-- The server sends the next datagram of its flight. -/
theorem ServerAt.send (h : ServerAt ch fin flight keys server todo received k) {d : Bytes}
    (hn : Next server (.send d) true server') :
    ∃ rest, todo = d :: rest ∧ ∃ k' < k, ServerAt ch fin flight keys server' rest received k' := by
  cases h with
  | listening h => cases (h 0 (Nat.zero_le _)).op_eq hn
  | connecting h => cases (h 0 (Nat.zero_le _)).op_eq hn
  | @replying todo w _ h hw h1 =>
    cases todo with
    | nil => cases (h 0 (Nat.zero_le _)).op_eq hn
    | cons d' rest =>
      cases (h 0 (Nat.zero_le _)).op_eq hn
      refine ⟨rest, rfl, _, ?_, .replying (fun j hj => (h j hj).next hn) hw h1⟩
      rw [List.length_cons]
      omega

theorem ServerAt.connect (h : ServerAt ch fin flight keys server todo received k) (hn : Next server .connect true server') :
    ∃ k' < k, ServerAt ch fin flight keys server' todo received k' := by
  cases h with
  | listening h => cases (h 0 (Nat.zero_le _)).op_eq hn
  | connecting h => exact ⟨_, by omega, .replying (fun j hj => (h j hj).next hn) (show 1 + 4 = 5 from rfl) (by omega)⟩
  | @replying todo _ _ h =>
    cases todo with
    | nil => cases (h 0 (Nat.zero_le _)).op_eq hn
    | cons => cases (h 0 (Nat.zero_le _)).op_eq hn

/-- The server receives a copy of the ClientHello: the first, or one that it skips. -/
theorem ServerAt.recv_hello (h : ServerAt ch fin flight keys server todo received k) (hreceived : received < 5)
    (hn : Next server .recv (some ch) server') : ∃ k' < k, ServerAt ch fin flight keys server' todo (received + 1) k' := by
  cases h with
  | listening h => exact ⟨_, by omega, .connecting fun j hj => (h j hj).next hn⟩
  | connecting h => cases (h 0 (Nat.zero_le _)).op_eq hn
  | @replying todo w _ h hw h1 =>
    cases todo with
    | nil =>
      obtain ⟨w, rfl⟩ : ∃ w', w = w' + 1 := ⟨w - 1, by omega⟩
      exact ⟨_, by omega, .replying (fun j hj => (h (j + 1) (by omega)).next hn) (show received + 1 + w = 5 by omega)
        (by omega)⟩
    | cons => cases (h 0 (Nat.zero_le _)).op_eq hn

/-- The server receives the Finished, behind its own flight. -/
theorem ServerAt.recv_finished (h : ServerAt ch fin flight keys server [] received k) (hflight : flight ≠ [])
    (hn : Next server .recv (some fin) server') : server' = .ret keys := by
  generalize htodo : ([] : List Bytes) = todo at h
  cases h with
  | listening => exact absurd htodo.symm hflight
  | connecting => exact absurd htodo.symm hflight
  | replying h =>
    subst htodo
    exact Yields.eq_ret ((h 0 (Nat.zero_le _)).next hn)

/-! ## Both sides -/

/-- The two sides, and what is under way between them. -/
inductive Inv (ch fin : Bytes) (flight : List Bytes) (result : Result Client.ClientResult) (keys : Result HandshakeKeys) :
    Nat → Net → Prop
  | intro {n : Net} {expected last todo : List Bytes} {copies received m kc ks : Nat} :
    ClientAt ch fin flight result n.client n.timeouts n.survived n.arrived expected copies last kc →
    ServerAt ch fin flight keys n.server todo received ks →
    n.toClient ++ todo = expected → n.toServer = List.replicate m ch ++ last → received + m ≤ copies →
    (n.survived = true → n.arrived = false → 1 ≤ received + m) → Inv ch fin flight result keys (kc + ks) n

theorem ClientAt.last_eq (h : ClientAt ch fin flight result client timeouts survived arrived expected copies last k) :
    last = [] ∨ last = [fin] ∧ expected = [] ∧ client = .ret result := by
  cases h with
  | sending => exact .inl rfl
  | waiting => exact .inl rfl
  | reading => exact .inl rfl
  | finished h => exact .inr ⟨rfl, rfl, h⟩

/-- A step keeps the invariant and lowers its rank, unless it is the last. -/
theorem inv_step {result : Client.ClientResult} {n n' : Net} (hflight : flight ≠ [])
    (h : Inv ch fin flight (.ok result) (.ok result.keys) k n) (hstep : Step n n') :
    Agreed n' ∨ ∃ k' < k, Inv ch fin flight (.ok result) (.ok result.keys) k' n' := by
  cases h with
  | @intro _ expected last todo copies received m kc ks hclient hserver htoClient htoServer hcopies hsurvived =>
  cases hstep with
  | clientSend hn =>
    obtain ⟨rfl, ⟨rfl, harr, hnext⟩ | ⟨rfl, harr, kc', hlt, hnext⟩⟩ := hclient.send hflight hn
    · obtain ⟨kc', hlt, hnext⟩ := hnext true fun _ => rfl
      refine .inr ⟨kc' + ks, by omega, .intro (m := m + 1) hnext hserver htoClient ?_ (by omega) fun _ _ => by omega⟩
      simp only [htoServer, List.append_nil, List.replicate_succ']
    · refine .inr ⟨kc' + ks, by omega, .intro (m := m) (hnext true) hserver htoClient ?_ hcopies ?_⟩
      · simp only [htoServer, List.append_nil]
      · intro _ hfalse
        cases harr.symm.trans hfalse
  | clientLose hn harr hlose =>
    obtain ⟨rfl, ⟨rfl, _, hnext⟩ | ⟨_, htrue, _⟩⟩ := hclient.send hflight hn
    · obtain ⟨kc', hlt, hnext⟩ := hnext n.survived fun ht => hlose.resolve_right (by omega)
      exact .inr ⟨kc' + ks, by omega, .intro (m := m) hnext hserver htoClient htoServer (by omega) hsurvived⟩
    · cases htrue.symm.trans harr
  | @clientRecv d q _ hn hq =>
    have hle := hclient.copies_le
    have hexpected : expected = d :: (q ++ todo) := by rw [← htoClient, hq, List.cons_append]
    obtain ⟨rfl, kc', hlt, hnext⟩ := hclient.recv hexpected hn
    exact .inr ⟨kc' + ks, by omega, .intro (m := m) hnext hserver rfl htoServer (by omega) fun _ hfalse => by cases hfalse⟩
  | clientTimeout hn harr ht =>
    obtain ⟨rfl, kc', hlt, hnext⟩ := hclient.timeout harr ht hn
    exact .inr ⟨kc' + ks, by omega, .intro (m := m) hnext hserver htoClient htoServer hcopies hsurvived⟩
  | serverSend hn =>
    obtain ⟨rest, rfl, ks', hlt, hnext⟩ := hserver.send hn
    refine .inr ⟨kc + ks', by omega, .intro (m := m) hclient hnext ?_ htoServer hcopies hsurvived⟩
    rw [← htoClient, List.append_assoc]
    rfl
  | serverRecv hn hq =>
    have hle := hclient.copies_le
    rw [hq] at htoServer
    cases m with
    | zero =>
      -- the Finished is the first in the queue
      rcases hclient.last_eq with rfl | ⟨rfl, rfl, hdone⟩
      · cases htoServer
      · cases htoServer
        obtain ⟨_, rfl⟩ := List.append_eq_nil_iff.mp htoClient
        exact .inl ⟨result, result.keys, hdone, hserver.recv_finished hflight hn, rfl⟩
    | succ m =>
      cases htoServer
      obtain ⟨ks', hlt, hnext⟩ := hserver.recv_hello (by omega) hn
      exact .inr ⟨kc + ks', by omega, .intro (m := m) hclient hnext htoClient rfl (by omega) fun hs ha => by
        have := hsurvived hs ha
        omega⟩
  | serverConnect hn =>
    obtain ⟨ks', hlt, hnext⟩ := hserver.connect hn
    exact .inr ⟨kc + ks', by omega, .intro (m := m) hclient hnext htoClient htoServer hcopies hsurvived⟩

/-- The server can do something as long as it has something to send and, at first, something to receive. -/
theorem ServerAt.exists_step {n : Net} {keys : Result HandshakeKeys}
    (h : ServerAt ch fin flight keys n.server todo received k) (htodo : todo ≠ [])
    (hqueue : received = 0 → n.toServer ≠ []) : ∃ n', Step n n' := by
  cases h with
  | listening h =>
    obtain ⟨d, q, hq⟩ := List.exists_cons_of_ne_nil (hqueue rfl)
    obtain ⟨_, hn⟩ := (h 0 (Nat.zero_le _)).exists_next (some d)
    exact ⟨_, .serverRecv hn hq⟩
  | connecting h =>
    obtain ⟨_, hn⟩ := (h 0 (Nat.zero_le _)).exists_next true
    exact ⟨_, .serverConnect hn⟩
  | replying h =>
    obtain ⟨d, rest, rfl⟩ := List.exists_cons_of_ne_nil htodo
    obtain ⟨_, hn⟩ := (h 0 (Nat.zero_le _)).exists_next true
    exact ⟨_, .serverSend hn⟩

theorem ServerAt.todo_eq {n : Net} {keys : Result HandshakeKeys}
    (h : ServerAt ch fin flight keys n.server todo received k) (h0 : received = 0) : todo = flight := by
  cases h with
  | listening => rfl
  | connecting => rfl
  | replying => omega

/-- A datagram that the client waits for is under way to it, or the server can do something. -/
theorem exists_step_of_expected {n : Net} {keys : Result HandshakeKeys} {d : Bytes} {rest : List Bytes}
    {t : List (Prog.Event UdpOp UdpRes)} {result : Result Client.ClientResult}
    (hclient : Yields n.client (got d :: t) result) (hserver : ServerAt ch fin flight keys n.server todo received k)
    (htoClient : n.toClient ++ todo = d :: rest) (hqueue : received = 0 → todo = d :: rest → n.toServer ≠ []) :
    ∃ n', Step n n' := by
  cases hq : n.toClient with
  | nil =>
    rw [hq, List.nil_append] at htoClient
    exact hserver.exists_step (by rw [htoClient]; exact List.cons_ne_nil _ _) fun h0 => hqueue h0 htoClient
  | cons d' q =>
    obtain ⟨_, hn⟩ := hclient.exists_next (some d')
    exact ⟨_, .clientRecv hn hq⟩

theorem inv_progress {n : Net} {result : Result Client.ClientResult} {keys : Result HandshakeKeys} (hflight : flight ≠ [])
    (h : Inv ch fin flight result keys k n) : ∃ n', Step n n' := by
  obtain ⟨sh, replies, rfl⟩ := List.exists_cons_of_ne_nil hflight
  cases h with
  | @intro _ expected last todo copies received m kc ks hclient hserver htoClient htoServer hcopies hsurvived =>
  cases hclient with
  | sending h =>
    obtain ⟨_, hn⟩ := (h 0 (Nat.zero_le _)).exists_next true
    exact ⟨_, .clientSend hn⟩
  | @waiting w h hw harr hw0 =>
    cases w with
    | zero =>
      refine exists_step_of_expected (h 0 (Nat.zero_le _)) hserver htoClient ?_
      intro h0 _
      have hm : 1 ≤ received + m := hsurvived (hw0 rfl) harr
      obtain ⟨m, rfl⟩ : ∃ m', m = m' + 1 := ⟨m - 1, by omega⟩
      rw [htoServer]
      exact List.cons_ne_nil _ _
    | succ w =>
      obtain ⟨_, hn⟩ := (h 0 (Nat.zero_le _)).exists_next none
      exact ⟨_, .clientTimeout hn harr (by omega)⟩
  | @reading expected h harr hlen =>
    cases expected with
    | nil =>
      obtain ⟨_, hn⟩ := Yields.exists_next h true
      exact ⟨_, .clientSend hn⟩
    | cons d rest =>
      refine exists_step_of_expected h hserver htoClient ?_
      intro h0 htodo
      rw [← htodo, hserver.todo_eq h0] at hlen
      exact absurd hlen (Nat.lt_irrefl _)
  | finished =>
    -- the server waits for the Finished, which is in its queue
    obtain ⟨_, rfl⟩ := List.append_eq_nil_iff.mp htoClient
    obtain ⟨d, q, hq⟩ := List.exists_cons_of_ne_nil (show n.toServer ≠ [] by rw [htoServer]; simp)
    generalize htodo : ([] : List Bytes) = todo at hserver
    cases hserver with
    | listening => cases htodo
    | connecting => cases htodo
    | replying h =>
      subst htodo
      obtain ⟨_, hn⟩ := (h 0 (Nat.zero_le _)).exists_next (some d)
      exact ⟨_, .serverRecv hn hq⟩

/-! ## The handshake -/

theorem retries_append (ch : Bytes) (t : List (Prog.Event UdpOp UdpRes)) : ∀ j,
    retries ch j ++ sent ch :: t = sent ch :: (waits ch j ++ t)
  | 0 => rfl
  | j + 1 => by
    rw [retries_succ, List.cons_append, List.cons_append, retries_append ch t j]
    rfl

/-- Whatever copies of the ClientHello are lost, but not all, and whenever the client times out before
the ServerHello: both handshakes return `ND_OK`, with the same keys. -/
theorem handshake_inevitable {config : Server.ServerConfig} {leaf : X509Cert} {issuers : List X509Cert}
    {trustAnchor : X509Cert} {atTime : Nat} (hserves : Serves config leaf issuers trustAnchor atTime)
    (random priv serverRandom serverPriv : BytesN 32)
    (hne : Spec.X25519.x25519 priv (Spec.X25519.publicKey serverPriv) ≠ zeros 32) :
    Inevitably Step Agreed (start (Client.clientHandshake (some random) (some priv) trustAnchor atTime)
      (Server.serverHandshake config (some serverPriv) (some serverRandom))) := by
  let p₀ : Parties := ⟨random, priv, serverRandom, serverPriv, config.certDer, zeros 32, zeros 32⟩
  obtain ⟨r, s, hsign, hsigned⟩ :=
    hserves.signs (Impl.Sha256.sha256 (Spec.Client.signedContent (Impl.Sha256.sha256 p₀.signed.fed.flatten)))
  let p : Parties := { p₀ with r := r, s := s }
  have hclient := client_does (p := p) hserves rfl hne hsigned
  let result : Client.ClientResult := ⟨p.keys, leaf.shift 19, (clientSession p).plaintext⟩
  have hclient : ∀ j ≤ 4, Yields (ExceptT.run (Client.clientHandshake (some random) (some priv) trustAnchor atTime))
      (sent p.chRecord :: (waits p.chRecord j ++ reads p.clientRecord p.flight)) (.ok result) := by
    intro j hj
    have hall : Action.Does (Client.clientHandshake (some random) (some priv) trustAnchor atTime)
        ((retries p.chRecord j ++ sent p.chRecord :: p.flight.map got) ++ [sent p.clientRecord]) result :=
      (hclient j hj).bind ((does_udpSend p.clientRecord).bind (Action.does_pure result))
    rw [List.append_assoc, List.cons_append, retries_append] at hall
    exact hall
  have hserver : ∀ j ≤ 4, Yields (ExceptT.run (Server.serverHandshake config (some serverPriv) (some serverRandom)))
      (got p.chRecord :: connected :: serves p.chRecord p.clientRecord p.flight j) (.ok p.keys) := by
    intro j hj
    have hrun := server_does (p := p) (serves_ne_nil hserves) hserves.count hserves.fits rfl hsign hne hj
    have hall : Action.Does (Server.serverHandshake config (some serverPriv) (some serverRandom)) (_ ++ []) p.keys :=
      hrun.bind (Action.does_pure p.keys)
    rw [List.append_nil] at hall
    exact hall
  exact inevitably_of_rank (fun _ _ h => inv_progress (List.cons_ne_nil _ _) h)
    (fun _ _ _ h hstep => inv_step (List.cons_ne_nil _ _) h hstep) _ _
    (.intro (m := 0) (.sending hclient rfl rfl) (.listening hserver) rfl rfl (Nat.le_refl _) fun h => by cases h)

theorem handshake_inevitable_sample : ∃ i j, Serves sampleConfig (sampleLeaf i j) [] sampleAnchor 20300101000000 ∧
    Spec.X25519.x25519 (zeros 32) (Spec.X25519.publicKey (zeros 32)) ≠ zeros 32 ∧
    Inevitably Step Agreed (start (Client.clientHandshake (some (zeros 32)) (some (zeros 32)) sampleAnchor 20300101000000)
      (Server.serverHandshake sampleConfig (some (zeros 32)) (some (zeros 32)))) := by
  obtain ⟨i, j, hserves⟩ := sample_serves
  exact ⟨i, j, hserves, X25519.x25519_zeros_ne, handshake_inevitable hserves _ _ _ _ X25519.x25519_zeros_ne⟩

end ND.Proof.Network
