import NanoDtls.Impl.X509
import Mathlib.Data.List.Chain

/-!
# Certificate chains

`nd_x509_verify_chain` accepts a chain if it is valid at the time given and
each certificate is issued by the next, the last one by the trust anchor. As
a relation between neighbours this splits at every certificate
(`verifyChain_correct`): what a chain says of a certificate inside it is what
it says of a trust anchor.
-/

namespace ND.Proof.Chain

open ND.Impl ND.Impl.X509

/-- The time lies in the validity of the certificate. -/
def ValidAt (t : Nat) (c : X509Cert) : Prop := c.notBefore ≤ t ∧ t ≤ c.notAfter

/-- `c` names `g` as its issuer, `g` is a CA, and the signature of `c` is one of `g`. -/
def IssuedBy (c g : X509Cert) : Prop :=
  c.issuerDer.bytes = g.subjectDer.bytes ∧ g.isCa = true ∧ x509VerifySignature c g.pubkeyQx g.pubkeyQy = .ok ()

variable {trustAnchor : X509Cert} {t : Nat}

theorem outsideValidity_eq_false {c : X509Cert} : outsideValidity c t = false ↔ ValidAt t c := by
  simp [outsideValidity, ValidAt]

/-- One turn of the second loop. -/
theorem verifyLinks_cons {c : X509Cert} {chain : List X509Cert} : verifyLinks trustAnchor (c :: chain) = .ok () ↔
    IssuedBy c (chain.headD trustAnchor) ∧ verifyLinks trustAnchor chain = .ok () := by
  rw [verifyLinks]
  simp only [bind_eq_ok, failIf_eq_ok, exists_const, Bool.not_eq_false]
  simp only [derEq, beq_iff_eq, IssuedBy, and_assoc, Unique.exists_iff, PUnit.default_eq_unit]

theorem verifyLinks_eq_ok : ∀ {chain : List X509Cert},
    verifyLinks trustAnchor chain = .ok () ↔ (chain ++ [trustAnchor]).IsChain IssuedBy
  | [] => by simp [verifyLinks]
  | [c] => by
    rw [verifyLinks_cons, List.headD_nil, List.cons_append, List.nil_append, List.isChain_pair, verifyLinks, eq_self, and_true]
  | c :: g :: chain => by
    have ih : verifyLinks trustAnchor (g :: chain) = .ok () ↔ (g :: chain ++ [trustAnchor]).IsChain IssuedBy :=
      verifyLinks_eq_ok
    rw [List.cons_append] at ih
    rw [verifyLinks_cons, ih, List.headD_cons, List.cons_append, List.cons_append, List.isChain_cons_cons]

/-- The chain with its anchor: all valid, each issued by the next. -/
theorem x509VerifyChain_eq_ok {chain : List X509Cert} (h : chain ≠ []) : x509VerifyChain chain trustAnchor t = .ok () ↔
    (∀ c ∈ chain ++ [trustAnchor], ValidAt t c) ∧ (chain ++ [trustAnchor]).IsChain IssuedBy := by
  have hany : chain.any (outsideValidity · t) = false ↔ ∀ c ∈ chain, ValidAt t c := by
    simp only [List.any_eq_false, Bool.not_eq_true, outsideValidity_eq_false]
  simp only [x509VerifyChain, bind_eq_ok, failIf_eq_ok, exists_const, List.length_eq_zero_iff, h, not_false_eq_true, true_and,
    Bool.not_eq_true, outsideValidity_eq_false, hany, verifyLinks_eq_ok, List.forall_mem_append, List.forall_mem_singleton]
  rw [← and_assoc, and_comm (a := ValidAt t trustAnchor)]

/-- The chain as the relation of each certificate to the one at the next index. -/
theorem isChain_iff_get {chain : List X509Cert} : (chain ++ [trustAnchor]).IsChain IssuedBy ↔
    ∀ i : Fin chain.length, IssuedBy (chain.get i) (chain.getD (i + 1) trustAnchor) := by
  have hsigner (i : Nat) (hi : i + 1 < (chain ++ [trustAnchor]).length) :
      (chain ++ [trustAnchor])[i + 1] = chain.getD (i + 1) trustAnchor := by
    rw [List.getD_eq_getElem?_getD]
    rcases Nat.lt_or_ge (i + 1) chain.length with hlt | hge
    · rw [List.getElem_append_left hlt, List.getElem?_eq_getElem hlt, Option.getD_some]
    · rw [List.getElem_append_right hge, List.getElem?_eq_none hge, Option.getD_none, List.getElem_singleton]
  rw [List.isChain_iff_getElem]
  constructor
  · intro h i
    have hi : i.1 + 1 < (chain ++ [trustAnchor]).length := by
      rw [List.length_append, List.length_singleton]
      omega
    have hlink := h i.1 hi
    rwa [hsigner, List.getElem_append_left i.2] at hlink
  · intro h i hi
    have hlt : i < chain.length := by
      rw [List.length_append, List.length_singleton] at hi
      omega
    rw [hsigner, List.getElem_append_left hlt]
    exact h ⟨i, hlt⟩

/-- `nd_x509_verify_chain` accepts a chain iff the time lies in every validity and each certificate is
issued by the next one, the last by the anchor; and a chain is accepted iff it is when cut at any
certificate inside it, which is the anchor of the first part and the leaf of the second. -/
theorem verifyChain_correct (trustAnchor : X509Cert) (t : Nat) :
    (∀ leaf rest, x509VerifyChain (leaf :: rest) trustAnchor t = .ok () ↔
      (ValidAt t trustAnchor ∧ ∀ c ∈ leaf :: rest, ValidAt t c) ∧
      ∀ i : Fin (leaf :: rest).length, IssuedBy ((leaf :: rest).get i) ((leaf :: rest).getD (i + 1) trustAnchor)) ∧
    ∀ leaf before c after, x509VerifyChain ((leaf :: before) ++ [c] ++ after) trustAnchor t = .ok () ↔
      x509VerifyChain (leaf :: before) c t = .ok () ∧ x509VerifyChain ([c] ++ after) trustAnchor t = .ok () := by
  constructor
  · intro leaf rest
    rw [x509VerifyChain_eq_ok (List.cons_ne_nil _ _), isChain_iff_get, List.forall_mem_append, List.forall_mem_singleton,
      and_comm (a := ∀ c ∈ leaf :: rest, ValidAt t c)]
  · intro leaf before c after
    have hassoc : (leaf :: before) ++ [c] ++ after ++ [trustAnchor] = (leaf :: before) ++ c :: (after ++ [trustAnchor]) := by
      simp
    rw [x509VerifyChain_eq_ok (by simp), x509VerifyChain_eq_ok (by simp), x509VerifyChain_eq_ok (by simp), hassoc,
      List.isChain_split]
    simp only [List.forall_mem_append, List.forall_mem_cons, List.cons_append]
    tauto

end ND.Proof.Chain
