import NanoDtls.Framework.Calendar
import NanoDtls.Impl.Demo
import NanoDtls.Proof.Chain
import NanoDtls.Proof.Conduct.Client
import NanoDtls.Proof.P256.Sign
import NanoDtls.Proof.Process

/-!
# What the exit code of the client says

`client_exits_zero` reads the exit code 0 of the demo client back to its system
calls, for all answers of the system: the root certificate that it loaded, the
bytes it drew, the clock it read and the datagrams it received are a handshake
that `Spec.Client` accepts. The certificates are compared with the clock as
numbers `YYYYMMDDhhmmss`; for times of the calendar that is a comparison of
seconds.
-/

namespace ND.Proof.Program

open ND.Impl ND.Impl.Os ND.Impl.Demo ND.Impl.X509
open Prog (Yields Meets meets_call_bind)
open Conduct (Trace envOf)
open Process (Log datagram datagrams datagrams_append anyCalls)
open Spec.Client (Acceptance)

/-! ## The clock -/

/-- `gmtime_r` gave this time. The numbers of later years do not fit into 64 bits. -/
structure Shows (tm : Tm) (now : Civil) : Prop where
  year : tm.tmYear = now.year - 1900
  month : tm.tmMon = now.month - 1
  day : tm.tmMday = now.day
  hour : tm.tmHour = now.hour
  minute : tm.tmMin = now.minute
  second : tm.tmSec = now.second
  year_lt : now.year < 1000000000

theorem u64_cast {x : Int} {n : Nat} (h : x = n) (hn : n < 2 ^ 64) : u64 x = n := by
  subst h
  rw [u64]
  omega

/-- `now_canonical` does not wrap around. -/
theorem nowCanonical_eq {tm : Tm} {now : Civil} (h : Shows tm now) : nowCanonical tm = now.stamp := by
  have hmonth := now.month_mem
  have hday := now.day_le
  have hhour := now.hour_lt
  have hminute := now.minute_lt
  have hsecond := now.second_lt
  have hyear := h.year_lt
  rw [nowCanonical, u64_cast (n := now.year) (by rw [h.year]; omega) (by omega),
    u64_cast (n := now.month) (by rw [h.month]; omega) (by omega), u64_cast h.day (by omega), u64_cast h.hour (by omega),
    u64_cast h.minute (by omega), u64_cast h.second (by omega), Civil.stamp, Civil.date, Civil.clock]
  omega

/-! ## The parts of a run -/

/-- The bytes were read from a file: it was opened with this path, and was not closed before it was read. -/
def Loads (t : Log) (path : List Char) (b : Bytes) : Prop :=
  ∃ (before opened after : Log) (file : Nat) (block : Option (Nat × Nat)) (len : Nat) (got : { b : Bytes // b.length ≤ len }),
    t = before ++ ⟨.fopen path, some file⟩ :: (opened ++ ⟨.fread block len file, got⟩ :: after) ∧
    ⟨.release (.file file), ()⟩ ∉ opened ∧ got.1 = b ∧ b.length = len

theorem Loads.append {t : Log} {path : List Char} {b : Bytes} (h : Loads t path b) (t' : Log) : Loads (t ++ t') path b := by
  obtain ⟨before, opened, after, file, block, len, got, rfl, hopened, hgot⟩ := h
  exact ⟨before, opened, after ++ t', file, block, len, got, by simp only [List.append_assoc, List.cons_append], hopened, hgot⟩

/-- No call of a handshake, and `P` of the result if there is one. -/
def Silent {α : Type} (P : α → Log → Prop) : Option α → Log → Prop
  | none, t => datagrams t = []
  | some a, t => datagrams t = [] ∧ P a t

theorem meets_readWholeFile (path : List Char) :
    Meets anyCalls (Silent fun x t => Loads t path x.2) (readWholeFile path) [] := by
  refine meets_call_bind.mpr ⟨trivial, fun r => ?_⟩
  cases r with
  | none => exact rfl
  | some file =>
    refine meets_call_bind.mpr ⟨trivial, fun _ => meets_call_bind.mpr ⟨trivial, fun len => ?_⟩⟩
    refine meets_call_bind.mpr ⟨trivial, fun _ => ?_⟩
    by_cases hlen : len < 0
    · rw [if_pos hlen]
      exact ⟨trivial, fun _ => rfl⟩
    rw [if_neg hlen]
    refine meets_call_bind.mpr ⟨trivial, fun block => ?_⟩
    cases block with
    | none => exact ⟨trivial, fun _ => rfl⟩
    | some id =>
      refine meets_call_bind.mpr ⟨trivial, fun got => meets_call_bind.mpr ⟨trivial, fun _ => ?_⟩⟩
      by_cases hgot : got.1.length ≠ len.toNat
      · rw [if_pos hgot]
        exact ⟨trivial, fun _ => rfl⟩
      · rw [if_neg hgot]
        exact ⟨rfl, [], [⟨.fseek file true, ()⟩, ⟨.ftell file, len⟩, ⟨.fseek file false, ()⟩, ⟨.malloc len.toNat, some id⟩],
          [⟨.release (.file file), ()⟩], file, some (id, len.toNat), len.toNat, got, rfl, by simp, rfl, not_ne_iff.mp hgot⟩

theorem meets_ndRandomBytes : Meets anyCalls (Silent fun b t => Loads t "/dev/urandom".toList b.1) ndRandomBytes [] := by
  refine meets_call_bind.mpr ⟨trivial, fun r => ?_⟩
  cases r with
  | none => exact rfl
  | some file =>
    refine meets_call_bind.mpr ⟨trivial, fun got => meets_call_bind.mpr ⟨trivial, fun _ => ?_⟩⟩
    by_cases hgot : got.1.length = 32
    · rw [dif_pos hgot]
      exact ⟨rfl, [], [], [⟨.release (.file file), ()⟩], file, none, 32, got, rfl, List.not_mem_nil, rfl, hgot⟩
    · rw [dif_neg hgot]
      exact rfl

theorem Does.draw {t : Log} {b : BytesN 32} (h : Action.Does Process.draw t b) :
    datagrams t = [] ∧ Loads t "/dev/urandom".toList b.1 := by
  obtain ⟨t₁, t₂, r, rfl, hdraw, hcheck⟩ := Action.Does.of_bind h
  obtain ⟨r', hr, hdraw⟩ := Action.yields_lift_iff.mp hdraw
  obtain rfl := Except.ok.inj hr
  obtain ⟨hsilent, -⟩ := meets_ndRandomBytes.of_trace hdraw
  cases r with
  | none => cases hcheck
  | some b' =>
    cases hcheck
    rw [List.append_nil]
    exact hsilent

theorem meets_udpClientConnect (host : List Char) (port : BitVec 16) :
    Meets anyCalls (Silent fun _ _ => True) (udpClientConnect host port) [] := by
  refine meets_call_bind.mpr ⟨trivial, fun r => ?_⟩
  cases r with
  | none => exact rfl
  | some ai =>
    refine meets_call_bind.mpr ⟨trivial, fun r => ?_⟩
    cases r with
    | none => exact ⟨trivial, fun _ => rfl⟩
    | some fd =>
      refine meets_call_bind.mpr ⟨trivial, fun ok => meets_call_bind.mpr ⟨trivial, fun _ => ?_⟩⟩
      cases ok with
      | false => exact ⟨trivial, fun _ => rfl⟩
      | true => exact ⟨rfl, trivial⟩

/-! ## The exit code -/

/-- A handshake that succeeds: the calls up to the Finished are a flight that the client accepts, and
the last one sends its Finished. -/
theorem Does.clientHandshake {random priv : Option (BytesN 32)} {trustAnchor : X509Cert} {atTime : Nat} {t : Trace}
    {result : Client.ClientResult} (h : Action.Does (Client.clientHandshake random priv trustAnchor atTime) t result) :
    ∃ random' priv' flight, random = some random' ∧ priv = some priv' ∧
      ∃ a : Acceptance (envOf flight) random' priv' trustAnchor atTime,
        t = flight ++ [⟨.send (Client.flightOf a).record, true⟩] := by
  obtain ⟨flight, t₂, f, rfl, hflight, hrest⟩ := Action.Does.of_bind h
  obtain ⟨t₂, t₃, _, rfl, hsend, hret⟩ := Action.Does.of_bind hrest
  cases hret
  obtain ⟨ok, rfl, ⟨-, rfl⟩ | he⟩ := Conduct.yields_udpSend hsend
  swap
  · cases he
  by_cases hnone : random = none ∨ priv = none
  · cases (Conduct.clientFlight_none hflight hnone).2
  · obtain ⟨⟨random, rfl⟩, priv, rfl⟩ : (∃ b, random = some b) ∧ ∃ b, priv = some b := by
      simpa only [not_or, Option.ne_none_iff_exists', ← ne_eq] using hnone
    obtain ⟨-, -, hconnect, -⟩ := Conduct.clientFlight_conduct hflight
    obtain ⟨a, rfl⟩ := Conduct.Does.acceptance hflight (hconnect false)
    exact ⟨random, priv, flight, rfl, rfl, a, rfl⟩

/-- The client first draws two times, and then its socket sees a handshake with what it has drawn. -/
theorem Does.process {fd : Nat} {timeoutMs : Int} {root : Nat × Nat} {trustAnchor : X509Cert} {atTime : Nat} {t : Log}
    {result : Client.ClientResult} (h : Action.Does (Process.clientHandshake fd timeoutMs root trustAnchor atTime) t result) :
    ∃ t₁ t₂ t₃ random priv flight, t = t₁ ++ (t₂ ++ t₃) ∧ (datagrams t₁ = [] ∧ Loads t₁ "/dev/urandom".toList random.1) ∧
      (datagrams t₂ = [] ∧ Loads t₂ "/dev/urandom".toList priv.1) ∧
      ∃ a : Acceptance (envOf flight) random priv trustAnchor atTime,
        datagrams t₃ = flight ++ [⟨.send (Client.flightOf a).record, true⟩] := by
  obtain ⟨t₁, t', random, rfl, hrandom, hrest⟩ := Action.Does.of_bind h
  obtain ⟨t₂, t₃, priv, rfl, hpriv, hrest⟩ := Action.Does.of_bind hrest
  obtain ⟨-, hhandshake⟩ := (Process.refines_clientRest fd timeoutMs root trustAnchor atTime random priv).sound hrest
  obtain ⟨random, priv, flight, ⟨⟩, ⟨⟩, a, ht⟩ := Does.clientHandshake hhandshake
  exact ⟨t₁, t₂, t₃, random, priv, flight, rfl, Does.draw hrandom, Does.draw hpriv, a, ht⟩

/-! ## A run to the end -/

/-- A root for the certificate of `X509.sampleTbs`, with the same key. -/
def sampleRoot : Spec.X509.Tbs :=
  { X509.sampleTbs with
    subject := X509.sampleTbs.issuer
    extensions := some [.basicConstraints (some true) (some true) none] }

def sampleRootDer : Bytes := Spec.X509.certificate sampleRoot (beNat (zeros 32).1) (beNat (zeros 32).1)

/-- The first of January 2030. -/
def sampleNow : Tm := ⟨130, 0, 1, 0, 0, 0⟩

theorem sampleRoot_verifies (i j n k l : Nat) :
    x509VerifyChain [Honest.sampleLeaf i j] (X509.parsed sampleRoot (zeros 32) (zeros 32) n k l) 20300101000000 = .ok () := by
  have hleaf : X509.sampleTbs.notBefore.canonical ≤ 20300101000000 ∧ 20300101000000 ≤ X509.sampleTbs.notAfter.canonical := by
    decide
  have hca : sampleRoot.isCa = true := by decide
  refine (Chain.x509VerifyChain_eq_ok (List.cons_ne_nil _ _)).mpr ⟨?_, List.isChain_pair.mpr ⟨rfl, hca, ?_⟩⟩
  · rw [List.forall_mem_append, List.forall_mem_singleton, List.forall_mem_singleton]
    exact ⟨hleaf, hleaf⟩
  · exact (Honest.sampleLeaf_issued i j).2.2

theorem sampleRoot_serves : ∃ trustAnchor leaf, x509Parse 64 sampleRootDer = .ok trustAnchor ∧
    Spec.Network.Serves Honest.sampleConfig leaf [] trustAnchor (nowCanonical sampleNow) := by
  obtain ⟨i, j, hserves⟩ := Honest.sample_serves
  obtain ⟨k, l, hparse⟩ := X509.x509Parse_certificate sampleRoot (zeros 32) (zeros 32) (by decide +kernel)
  have hnow : nowCanonical sampleNow = 20300101000000 := by decide
  refine ⟨_, _, hparse, hserves.parse, ?_, hserves.count, hserves.fits, hserves.signs⟩
  rw [hnow]
  exact sampleRoot_verifies i j _ k l

/-- A file that is there is loaded. -/
theorem exists_yields_readWholeFile (path : List Char) (id : Nat) (content : Bytes) :
    ∃ t, Yields (readWholeFile path) t (some (id, content)) := by
  have hlen : ¬ (content.length : Int) < 0 := by omega
  have hread : ¬ content.length ≠ (content.length : Int).toNat := not_not.mpr rfl
  refine ⟨[⟨.fopen path, some 3⟩, ⟨.fseek 3 true, ()⟩, ⟨.ftell 3, (content.length : Int)⟩, ⟨.fseek 3 false, ()⟩,
    ⟨.malloc content.length, some id⟩, ⟨.fread (some (id, content.length)) content.length 3, ⟨content, le_rfl⟩⟩,
    ⟨.release (.file 3), ()⟩], .call (.call (.call (.call ?_)))⟩
  rw [Prog.bind, if_neg hlen]
  refine .call (.call (.call ?_))
  rw [Prog.bind, if_neg hread]
  exact .ret _

theorem exists_yields_udpClientConnect (host : List Char) (port : BitVec 16) :
    ∃ t, Yields (udpClientConnect host port) t (some 4) :=
  ⟨[⟨.getaddrinfo (some host) (portToStr port) false, some 1⟩, ⟨.socket 1, some 4⟩, ⟨.connect 4 1, true⟩,
    ⟨.release (.addrinfo 1), ()⟩], .call (.call (.call (.call (.ret _))))⟩

/-- The client exits with 0 if each of its steps succeeds. -/
theorem yields_clientMain {certDir host : List Char} {port : BitVec 16} {root fd : Nat} {rootDer : Bytes} {trustAnchor : X509Cert}
    {tm : Tm} {result : Client.ClientResult} {t₁ t₂ t₃ : Log}
    (hload : Yields (readWholeFile (certPath certDir "root_cert.der")) t₁ (some (root, rootDer)))
    (hparse : x509Parse 64 rootDer = .ok trustAnchor) (hconnect : Yields (udpClientConnect host port) t₂ (some fd))
    (hhandshake : Yields (ExceptT.run (Process.clientHandshake fd 10000 (root, rootDer.length) trustAnchor (nowCanonical tm))) t₃
      (.ok result)) :
    Yields (clientMain certDir host port) (t₁ ++ ⟨.load root rootDer.length, ()⟩ :: (t₂ ++ ⟨.gmtime, tm⟩ :: (t₃ ++
      [⟨.release (.socket fd), ()⟩, ⟨.release (.memory root rootDer.length), ()⟩]))) 0 := by
  refine hload.bind ?_
  dsimp only
  rw [hparse]
  exact .call (hconnect.bind (.call (hhandshake.bind (.call (.call (.ret 0))))))

/-- A client that is served exits with 0. -/
theorem exists_yields_clientMain : ∃ t, Yields (clientMain "certs".toList "localhost".toList 4443) t 0 := by
  obtain ⟨trustAnchor, leaf, hparse, hserves⟩ := sampleRoot_serves
  obtain ⟨flight, d, result, hclient⟩ := Conduct.does_clientHandshake hserves
  obtain ⟨t₁, hload⟩ := exists_yields_readWholeFile (certPath "certs".toList "root_cert.der") 7 sampleRootDer
  obtain ⟨t₂, hconnect⟩ := exists_yields_udpClientConnect "localhost".toList 4443
  obtain ⟨t₃, -, hprocess⟩ := (Process.realizes_clientHandshake 4 10000 (7, sampleRootDer.length) trustAnchor
    (nowCanonical sampleNow)).complete (some (zeros 32), some (zeros 32)) hclient
  exact ⟨_, yields_clientMain hload hparse hconnect hprocess⟩

/-- If the certificate is dated with two times of the calendar, `now` is not before the first one and not
after the second. -/
def InForce (now : Civil) (c : X509Cert) : Prop :=
  ∀ nb na : Civil, c.notBefore = nb.stamp → c.notAfter = na.stamp → nb.seconds ≤ now.seconds ∧ now.seconds ≤ na.seconds

theorem inForce_of_validAt {tm : Tm} {now : Civil} (hnow : Shows tm now) {c : X509Cert}
    (h : Chain.ValidAt (nowCanonical tm) c) : InForce now c := by
  intro nb na hnb hna
  obtain ⟨hbefore, hafter⟩ := h
  rw [nowCanonical_eq hnow, hnb] at hbefore
  rw [nowCanonical_eq hnow, hna] at hafter
  exact ⟨(Civil.stamp_le_iff _ _).mp hbefore, (Civil.stamp_le_iff _ _).mp hafter⟩

/-- For all answers of the system: if the client exits with 0, it has first loaded a root certificate, then read
the clock, then drawn 32 bytes and another 32 bytes, and the datagrams of its socket, all of them after that, are
a flight that a client with these accepts and then its Finished. Every certificate of the chain, with the root, is
in force at the time that the clock showed. -/
theorem client_exits_zero {certDir host : List Char} {port : BitVec 16} {t : Log}
    (h : Yields (clientMain certDir host port) t 0) :
    ∃ (t₁ t₂ t₃ t₄ : Log) (rootDer : Bytes) (trustAnchor : X509Cert) (tm : Tm) (random priv : BytesN 32) (flight : Trace),
      t = t₁ ++ ⟨.gmtime, tm⟩ :: (t₂ ++ (t₃ ++ t₄)) ∧ Loads t₁ (certPath certDir "root_cert.der") rootDer ∧
      x509Parse 64 rootDer = .ok trustAnchor ∧
      Loads t₂ "/dev/urandom".toList random.1 ∧ Loads t₃ "/dev/urandom".toList priv.1 ∧
      ∃ a : Acceptance (envOf flight) random priv trustAnchor (nowCanonical tm),
        datagrams t₄ = flight ++ [⟨.send (Client.flightOf a).record, true⟩] ∧ datagrams t = datagrams t₄ ∧
        ∀ now, Shows tm now → ∀ c ∈ a.leaf :: a.issuers ++ [trustAnchor], InForce now c := by
  obtain ⟨s₁, t, file, rfl, hload, hloaded⟩ := Yields.of_bind _ h
  obtain ⟨hfile, -⟩ := (meets_readWholeFile _).of_trace hload
  obtain _ | ⟨root, rootDer⟩ := file
  · cases hloaded
  dsimp only at hloaded
  obtain ⟨_, t, rfl, hread⟩ := Yields.of_call_bind hloaded
  cases hparse : x509Parse 64 rootDer with
  | error e =>
    rw [hparse] at hread
    obtain ⟨_, t, rfl, hend⟩ := Yields.of_call_bind hread
    cases hend
  | ok trustAnchor =>
    rw [hparse] at hread
    obtain ⟨s₂, t, fd, rfl, hconnect, hconnected⟩ := Yields.of_bind _ hread
    obtain ⟨hfd, -⟩ := (meets_udpClientConnect host port).of_trace hconnect
    cases fd with
    | none =>
      obtain ⟨_, t, rfl, hend⟩ := Yields.of_call_bind hconnected
      cases hend
    | some fd =>
      obtain ⟨tm, t, rfl, htimed⟩ := Yields.of_call_bind hconnected
      obtain ⟨s₃, t, st, rfl, hst, hdone⟩ := Yields.of_bind _ htimed
      obtain ⟨_, t, rfl, hclosed⟩ := Yields.of_call_bind hdone
      obtain ⟨_, t, rfl, hend⟩ := Yields.of_call_bind hclosed
      cases st with
      | error e => cases hend
      | ok result =>
        cases hend
        obtain ⟨t₂, t₃, t₄, random, priv, flight, rfl, ⟨hs₂, hrandom⟩, ⟨hs₃, hpriv⟩, a, ht₄⟩ := Does.process hst
        have hvalid := ((Chain.x509VerifyChain_eq_ok (List.cons_ne_nil _ _)).mp a.chain_verify).1
        have hsplit : s₁ ++ ⟨.load root rootDer.length, ()⟩ :: (s₂ ++ ⟨.gmtime, tm⟩ :: (t₂ ++ (t₃ ++ t₄) ++
            [⟨.release (.socket fd), ()⟩, ⟨.release (.memory root rootDer.length), ()⟩])) =
            (s₁ ++ ⟨.load root rootDer.length, ()⟩ :: s₂) ++ ⟨.gmtime, tm⟩ :: (t₂ ++ (t₃ ++ (t₄ ++
            [⟨.release (.socket fd), ()⟩, ⟨.release (.memory root rootDer.length), ()⟩]))) := by
          simp only [List.append_assoc, List.cons_append]
        -- of the parts of the run, only the handshake has datagrams
        have hbefore : datagrams (s₁ ++ ⟨.load root rootDer.length, ()⟩ :: s₂) = [] := by
          rw [datagrams_append, hfile.1]
          exact hfd.1
        have hafter : datagrams (t₄ ++ [⟨.release (.socket fd), ()⟩, ⟨.release (.memory root rootDer.length), ()⟩]) =
            datagrams t₄ := by
          rw [datagrams_append]
          exact List.append_nil _
        refine ⟨_, t₂, t₃, _, rootDer, trustAnchor, tm, random, priv, flight, hsplit, hfile.2.append _, hparse, hrandom, hpriv, a,
          hafter.trans ht₄, ?_, fun now hnow c hc => inForce_of_validAt hnow (hvalid c hc)⟩
        rw [hsplit, datagrams_append, hbefore, List.nil_append]
        change datagrams (t₂ ++ (t₃ ++ _)) = _
        rw [datagrams_append, datagrams_append, hs₂, hs₃]
        rfl

/-- A client that is served, with the root that it loads. -/
theorem client_exits_zero_sample : ∃ (t : Log) (rootDer : Bytes) (trustAnchor : X509Cert) (tm : Tm),
    Yields (clientMain "certs".toList "localhost".toList 4443) t 0 ∧
    Loads t (certPath "certs".toList "root_cert.der") rootDer ∧ x509Parse 64 rootDer = .ok trustAnchor ∧ ⟨.gmtime, tm⟩ ∈ t ∧
    ∀ now, Shows tm now → InForce now trustAnchor := by
  obtain ⟨t, hrun⟩ := exists_yields_clientMain
  obtain ⟨t₁, t₂, t₃, t₄, rootDer, trustAnchor, tm, _, _, _, rfl, hload, hparse, -, -, a, -, -, hforce⟩ := client_exits_zero hrun
  exact ⟨_, rootDer, trustAnchor, tm, hrun, hload.append _, hparse, by simp, fun now hnow => hforce now hnow trustAnchor (by simp)⟩

end ND.Proof.Program
