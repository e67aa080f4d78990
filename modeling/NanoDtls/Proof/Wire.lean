import NanoDtls.Impl.Wire
import NanoDtls.Proof.Record
import NanoDtls.Spec.Grammar

/-!
# What the writers write and the readers read

`Writes f out`: the writes of `f` append `out` to a writer that has room for
it, mark one that has not, and leave a marked one alone. A length that is
reserved and patched is the length of what was written between
(`Writes.withLen`). `At r rest`: `rest` is what a reader has still to read. A
read that succeeds has its bytes in front of it, and the other way around
(`At.uint` and `At.of_uint`, `At.vector` and `At.of_vector`). A loop over a
list (`ReadsList`) goes through all of it (`ReadsList.eq_ok_iff`).
-/

namespace ND.Proof.Wire

open ND.Impl
open Spec.Wire (vec)
open Spec.Grammar (Opaque)

/-! ## Writers -/

structure Writes (f : Writer → Writer) (out : Bytes) : Prop where
  ok : ∀ {w : Writer}, w.bad = none → w.cap < 2 ^ 64 → w.buf.length + out.length ≤ w.cap →
    f w = { w with buf := w.buf ++ out }
  full : ∀ {w : Writer}, w.bad = none → w.buf.length ≤ w.cap → w.cap < w.buf.length + out.length →
    w.buf.length + out.length < 2 ^ 64 → (f w).bad = some .badLength
  overflows : ∀ {w : Writer}, w.bad = none → w.cap < 2 ^ 64 → w.buf.length ≤ w.cap → w.cap < w.buf.length + out.length →
    (f w).bad.isSome
  marked : ∀ {w : Writer}, w.bad.isSome → f w = w

theorem writes_id : Writes id [] where
  ok _ _ _ := by simp
  full _ hle hlt _ := absurd hlt (by simp only [List.length_nil]; omega)
  overflows _ _ hle hlt := absurd hlt (by simp only [List.length_nil]; omega)
  marked _ := rfl

theorem writes_bytes (data : Bytes) : Writes (Writer.bytes data) data where
  ok {w} hb hcap hle := by
    rw [Writer.bytes, hb, if_neg (by simp), szAdd_eq (by omega), if_neg (by omega), if_neg (by omega)]
  full {w} hb _ hlt hsz := by rw [Writer.bytes, hb, if_neg (by simp), szAdd_eq hsz, if_pos hlt]
  overflows {w} hb _ _ hlt := by
    rw [Writer.bytes, hb, if_neg (by simp), if_pos hlt]
    split <;> rfl
  marked h := by rw [Writer.bytes, if_pos h]

theorem writes_u8 (v : Nat) : Writes (Writer.u8 v) (beBytes 1 v) := writes_bytes _

theorem writes_u16 (v : Nat) : Writes (Writer.u16 v) (beBytes 2 v) := writes_bytes _

theorem Writes.of_eq {f : Writer → Writer} {a b : Bytes} (hf : Writes f a) (h : a = b) : Writes f b := h ▸ hf

/-- One write after another. -/
theorem Writes.comp {f g : Writer → Writer} {a b : Bytes} (hf : Writes f a) (hg : Writes g b) :
    Writes (fun w => g (f w)) (a ++ b) where
  ok {w} hb hcap hle := by
    rw [List.length_append] at hle
    rw [hf.ok hb hcap (by omega), hg.ok (by exact hb) (by exact hcap) (by simp only [List.length_append]; omega)]
    simp
  full {w} hb hle hlt hsz := by
    rw [List.length_append] at hlt hsz
    by_cases ha : w.buf.length + a.length ≤ w.cap
    · by_cases hcap : w.cap < 2 ^ 64
      · rw [hf.ok hb hcap ha]
        exact hg.full (by exact hb) (by simp only [List.length_append]; omega)
          (by simp only [List.length_append]; omega) (by simp only [List.length_append]; omega)
      · omega
    · have hbad := hf.full hb hle (by omega) (by omega)
      rw [hg.marked (by rw [hbad]; rfl), hbad]
  overflows {w} hb hcap hle hlt := by
    rw [List.length_append] at hlt
    by_cases ha : w.buf.length + a.length ≤ w.cap
    · rw [hf.ok hb hcap ha]
      exact hg.overflows (by exact hb) (by exact hcap) (by simp only [List.length_append]; omega)
        (by simp only [List.length_append]; omega)
    · have hbad := hf.overflows hb hcap hle (by omega)
      rw [hg.marked hbad]
      exact hbad
  marked h := by rw [hf.marked h, hg.marked h]

/-- A length field and what it is the length of. -/
theorem Writes.withLen {f : Writer → Writer} {a : Bytes} (n : Nat) (hf : Writes f a) :
    Writes (Writer.withLen n f) (beBytes n a.length ++ a) where
  ok {w} hb hcap hle := by
    rw [List.length_append, length_beBytes] at hle
    have hres := (writes_bytes (List.replicate n 0)).ok hb hcap (by rw [List.length_replicate]; omega)
    have hlen : (w.buf ++ List.replicate n (0 : Byte) ++ a).length - w.buf.length - n = a.length := by
      simp only [List.length_append, List.length_replicate]; omega
    have htake : (w.buf ++ List.replicate n (0 : Byte) ++ a).take w.buf.length = w.buf := by
      rw [List.append_assoc, List.take_left]
    have hdrop : (w.buf ++ List.replicate n (0 : Byte) ++ a).drop (w.buf.length + n) = a := by
      rw [List.drop_left' (by simp)]
    rw [Writer.withLen, Writer.reserve, hres, hf.ok (by exact hb) (by exact hcap)
      (by simp only [List.length_append, List.length_replicate]; omega), Writer.patch]
    simp only [hb, Option.isSome_none, Bool.false_eq_true, ↓reduceIte, hlen, htake, hdrop]
    rw [List.append_assoc]
  full {w} hb hle hlt hsz := by
    have hboth := ((writes_bytes (List.replicate n 0)).comp hf).full hb hle
      (by simpa using hlt) (by simpa using hsz)
    rw [Writer.withLen, Writer.patch, if_pos (by rw [Writer.reserve, hboth]; rfl)]
    exact hboth
  overflows {w} hb hcap hle hlt := by
    have hboth := ((writes_bytes (List.replicate n 0)).comp hf).overflows hb hcap hle (by simpa using hlt)
    rw [Writer.withLen, Writer.patch, if_pos (by exact hboth)]
    exact hboth
  marked {w} h := by
    rw [Writer.withLen, Writer.reserve, (writes_bytes _).marked h, hf.marked h, Writer.patch, if_pos h]

/-- The result of a function that writes its whole output with one writer. -/
theorem Writes.finish {f : Writer → Writer} {out : Bytes} (hf : Writes f out) {cap : Nat} (hcap : cap < 2 ^ 64)
    (hle : out.length ≤ cap) : Writer.finish (f (Writer.init cap)) = .ok out := by
  rw [hf.ok (w := Writer.init cap) rfl hcap (by simpa [Writer.init] using hle)]
  rfl

theorem Writes.finish_full {f : Writer → Writer} {out : Bytes} (hf : Writes f out) {cap : Nat}
    (hsz : out.length < 2 ^ 64) (hlt : cap < out.length) :
    Writer.finish (f (Writer.init cap)) = .error .badLength := by
  have h := hf.full (w := Writer.init cap) rfl (Nat.zero_le _) (by simpa [Writer.init] using hlt)
    (by simpa [Writer.init] using hsz)
  simp only [Writer.finish, h]

theorem Writes.finish_eq {f : Writer → Writer} {out : Bytes} (hf : Writes f out) {cap : Nat} (hcap : cap < 2 ^ 64)
    (hsz : out.length < 2 ^ 64) :
    Writer.finish (f (Writer.init cap)) = if out.length ≤ cap then .ok out else .error .badLength := by
  split
  · exact hf.finish hcap (by assumption)
  · exact hf.finish_full hsz (by omega)

/-- What is returned fits the buffer, whatever the sizes are. -/
theorem Writes.length_le_of_finish {f : Writer → Writer} {out : Bytes} (hf : Writes f out) {cap : Nat} (hcap : cap < 2 ^ 64)
    {res : Bytes} (h : Writer.finish (f (Writer.init cap)) = .ok res) : res.length ≤ cap := by
  by_cases hle : out.length ≤ cap
  · rw [hf.finish hcap hle, Except.ok.injEq] at h
    rwa [← h]
  · have hbad := hf.overflows (w := Writer.init cap) rfl hcap (Nat.zero_le _) (by simpa [Writer.init] using hle)
    unfold Writer.finish at h
    split at h
    · cases h
    · rename_i hnone
      rw [hnone] at hbad
      cases hbad

/-! ## Readers -/

/-- `rest` is what `r` has still to read. -/
structure At (r : Reader) (rest : Bytes) : Prop where
  pos_le : r.pos ≤ r.span.len
  drop_eq : r.span.bytes.drop r.pos = rest
  len_lt : r.span.len < 2 ^ 64

theorem at_init {b : Bytes} (off : Nat) (h : b.length < 2 ^ 64) : At (Reader.init ⟨off, b⟩) b := ⟨Nat.zero_le _, rfl, h⟩

/-- The reader after `n` bytes. -/
def advance (r : Reader) (n : Nat) : Reader := { r with pos := r.pos + n }

theorem At.next {r : Reader} {data rest : Bytes} (h : At r (data ++ rest)) : At (advance r data.length) rest := by
  obtain ⟨hle, hdrop, hlt⟩ := h
  have hlen := congrArg List.length hdrop
  rw [List.length_drop, List.length_append] at hlen
  refine ⟨?_, ?_, hlt⟩
  · simp only [advance, Span.len] at hle ⊢; omega
  · rw [advance, ← List.drop_drop, hdrop, List.drop_left]

theorem At.view {r : Reader} {data rest : Bytes} (h : At r (data ++ rest)) (e : Status) {n : Nat}
    (hn : n = data.length) : r.view e n = .ok (⟨r.span.off + r.pos, data⟩, advance r n) := by
  obtain ⟨hle, hdrop, hlt⟩ := h
  have hlen := congrArg List.length hdrop
  rw [List.length_drop, List.length_append] at hlen
  simp only [Span.len] at hle hlt
  have hfit : r.pos + n ≤ r.span.bytes.length := by omega
  rw [Reader.view, szAdd_eq (by omega), failIf_bind (by simp only [Span.len]; omega), Span.sub, readSlice, if_pos hfit,
    hdrop, hn, List.take_left]
  rfl

theorem At.skip {r : Reader} {data rest : Bytes} (h : At r (data ++ rest)) (e : Status) {n : Nat}
    (hn : n = data.length) : r.skip e n = .ok (advance r n) := by
  rw [Reader.skip, h.view e hn]
  rfl

theorem At.bytes {r : Reader} {data rest : Bytes} (h : At r (data ++ rest)) (e : Status) {n : Nat}
    (hn : n = data.length) : r.bytes e n = .ok (data, advance r n) := by
  rw [Reader.bytes, h.view e hn]
  rfl

theorem At.uint {r : Reader} {rest : Bytes} {n v : Nat} (h : At r (beBytes n v ++ rest)) (e : Status)
    (hv : v < 256 ^ n) : r.uint n e = .ok (v, advance r n) ∧ At (advance r n) rest := by
  refine ⟨?_, ?_⟩
  · rw [Reader.uint, h.bytes e (length_beBytes n v).symm]
    simp only [ok_bind, pure_eq_ok, beNat_beBytes, Nat.mod_eq_of_lt hv]
  · have := h.next
    rwa [length_beBytes] at this

theorem At.more {r : Reader} {rest : Bytes} (h : At r rest) : r.more = true ↔ rest ≠ [] := by
  rw [Reader.more, decide_eq_true_eq, ← h.drop_eq, ne_eq, List.drop_eq_nil_iff, Nat.not_le]
  rfl

/-- A reader is at its end if nothing is left. -/
theorem At.pos_eq_len {r : Reader} {rest : Bytes} (h : At r rest) : r.pos = r.span.len ↔ rest = [] := by
  rw [← h.drop_eq, List.drop_eq_nil_iff]
  exact ⟨fun he => Nat.le_of_eq he.symm, fun hle => Nat.le_antisymm h.pos_le hle⟩

/-- A vector in front of a reader. -/
theorem At.vector {r : Reader} {rest : Bytes} {n : Nat} {b : Opaque n} (h : At r (vec n b.1 ++ rest)) (e e' : Status) :
    r.uint n e = .ok (b.1.length, advance r n) ∧
      (advance r n).view e' b.1.length = .ok (⟨r.span.off + (r.pos + n), b.1⟩, advance (advance r n) b.1.length) ∧
      (advance r n).skip e' b.1.length = .ok (advance (advance r n) b.1.length) ∧
      At (advance (advance r n) b.1.length) rest := by
  rw [vec, List.append_assoc] at h
  obtain ⟨hlen, h⟩ := h.uint e b.2
  exact ⟨hlen, h.view e' rfl, h.skip e' rfl, h.next⟩

/-! ## What a read has read -/

section Read

variable {r r' : Reader} {rest : Bytes} {e : Status} {n : Nat}

theorem At.of_view {s : Span} (h : At r rest) (hv : r.view e n = .ok (s, r')) :
    ∃ rest', rest = s.bytes ++ rest' ∧ s.bytes.length = n ∧ At r' rest' := by
  unfold Reader.view Span.sub at hv
  simp only [bind_eq_ok, failIf_eq_ok, exists_const, pure_eq_ok, Except.ok.injEq, Prod.mk.injEq] at hv
  obtain ⟨-, -, ⟨b, hb, rfl⟩, rfl, rfl⟩ := hv
  obtain ⟨hle, -⟩ := Proof.Record.readSlice_eq_ok.mp hb
  have hlen := Proof.Record.length_of_readSlice hb
  have hrest := Proof.Record.drop_of_readSlice hb
  rw [h.drop_eq] at hrest
  have hpos : szAdd r.pos n = r.pos + n := szAdd_eq (Nat.lt_of_le_of_lt hle h.len_lt)
  refine ⟨_, hrest, hlen, ?_⟩
  rw [hpos]
  exact ⟨hle, rfl, h.len_lt⟩

theorem At.of_skip (h : At r rest) (hs : r.skip e n = .ok r') :
    ∃ data rest', rest = data ++ rest' ∧ data.length = n ∧ At r' rest' := by
  unfold Reader.skip at hs
  simp only [bind_eq_ok, Prod.exists, pure_eq_ok, Except.ok.injEq] at hs
  obtain ⟨s, r'', hv, rfl⟩ := hs
  exact ⟨s.bytes, h.of_view hv⟩

theorem At.of_bytes {b : Bytes} (h : At r rest) (hb : r.bytes e n = .ok (b, r')) :
    ∃ rest', rest = b ++ rest' ∧ b.length = n ∧ At r' rest' := by
  unfold Reader.bytes at hb
  simp only [bind_eq_ok, Prod.exists, pure_eq_ok, Except.ok.injEq, Prod.mk.injEq] at hb
  obtain ⟨s, r'', hv, rfl, rfl⟩ := hb
  exact h.of_view hv

theorem At.of_uint {v : Nat} (h : At r rest) (hu : r.uint n e = .ok (v, r')) :
    ∃ rest', rest = beBytes n v ++ rest' ∧ v < 256 ^ n ∧ At r' rest' := by
  unfold Reader.uint at hu
  simp only [bind_eq_ok, Prod.exists, pure_eq_ok, Except.ok.injEq, Prod.mk.injEq] at hu
  obtain ⟨b, r'', hb, rfl, rfl⟩ := hu
  obtain ⟨rest', hrest, rfl, h⟩ := h.of_bytes hb
  exact ⟨rest', by rw [beBytes_beNat, hrest], beNat_lt b, h⟩

theorem At.of_u16 {v : Nat} (h : At r rest) (hu : r.u16 e = .ok (v, r')) :
    ∃ (w : BitVec 16) (rest' : Bytes), v = w.toNat ∧ rest = beBytes 2 w.toNat ++ rest' ∧ At r' rest' := by
  obtain ⟨rest', hrest, hv, h⟩ := h.of_uint hu
  have hw : (BitVec.ofNat 16 v).toNat = v := by
    rw [BitVec.toNat_ofNat]
    exact Nat.mod_eq_of_lt hv
  exact ⟨BitVec.ofNat 16 v, rest', hw.symm, by rw [hw, hrest], h⟩

/-- A length and a view of as many bytes. -/
theorem At.of_vector {e' : Status} {len : Nat} {s : Span} {r'' : Reader} (h : At r rest) (hl : r.uint n e = .ok (len, r'))
    (hv : r'.view e' len = .ok (s, r'')) :
    ∃ (b : Opaque n) (rest' : Bytes), s.bytes = b.1 ∧ rest = vec n b.1 ++ rest' ∧ At r'' rest' := by
  obtain ⟨_, rfl, hlen, h'⟩ := h.of_uint hl
  obtain ⟨rest', rfl, rfl, h''⟩ := h'.of_view hv
  exact ⟨⟨s.bytes, hlen⟩, rest', rfl, by rw [vec, List.append_assoc], h''⟩

/-- A length and as many bytes that are skipped. -/
theorem At.of_vector_skip {e' : Status} {len : Nat} {r'' : Reader} (h : At r rest) (hl : r.uint n e = .ok (len, r'))
    (hs : r'.skip e' len = .ok r'') :
    ∃ (b : Opaque n) (rest' : Bytes), rest = vec n b.1 ++ rest' ∧ At r'' rest' := by
  obtain ⟨_, rfl, hlen, h'⟩ := h.of_uint hl
  obtain ⟨b, rest', rfl, rfl, h''⟩ := h'.of_skip hs
  exact ⟨⟨b, hlen⟩, rest', by rw [vec, List.append_assoc], h''⟩

end Read

/-! ## Loops -/

/-- A loop of a parser: while there is something left, it reads an element and goes on in the state after it. -/
structure ReadsList {σ α : Type} (loop : Nat → σ → Reader → Result σ) (encode : α → Bytes) (step : σ → α → σ) : Prop where
  ne_nil : ∀ a, encode a ≠ []
  stop : ∀ {r : Reader}, At r [] → ∀ fuel s, loop (fuel + 1) s r = .ok s
  turn : ∀ {r : Reader} {a : α} {rest : Bytes}, At r (encode a ++ rest) →
    ∃ r', At r' rest ∧ ∀ fuel s, loop (fuel + 1) s r = loop fuel (step s a) r'
  front : ∀ {r : Reader} {rest : Bytes} {fuel : Nat} {s t : σ}, At r rest → rest ≠ [] → loop (fuel + 1) s r = .ok t →
    ∃ a rest', rest = encode a ++ rest'

/-- Such a loop ends well if what is left is a list of elements, in the state after all of them. -/
theorem ReadsList.eq_ok_iff {σ α : Type} {loop : Nat → σ → Reader → Result σ} {encode : α → Bytes} {step : σ → α → σ}
    (hl : ReadsList loop encode step) : ∀ (fuel : Nat) {s t : σ} {r : Reader} {rest : Bytes}, At r rest →
    rest.length < fuel → (loop fuel s r = .ok t ↔ ∃ l : List α, rest = l.flatMap encode ∧ t = l.foldl step s)
  | 0, _, _, _, _, _, hf => absurd hf (Nat.not_lt_zero _)
  | fuel + 1, s, t, r, rest, h, hf => by
    have hlt (a : α) (rest' : Bytes) (hrest : rest = encode a ++ rest') : rest'.length < fuel := by
      have hpos := List.length_pos_iff.mpr (hl.ne_nil a)
      rw [hrest, List.length_append] at hf
      omega
    refine ⟨fun hok => ?_, fun hspec => ?_⟩
    · by_cases hnil : rest = []
      · subst hnil
        rw [hl.stop h] at hok
        exact ⟨[], rfl, (Except.ok.inj hok).symm⟩
      · obtain ⟨a, rest', hrest⟩ := hl.front h hnil hok
        obtain ⟨r', h', hturn⟩ := hl.turn (hrest ▸ h)
        rw [hturn] at hok
        obtain ⟨l, hlist, ht⟩ := (hl.eq_ok_iff fuel h' (hlt a rest' hrest)).mp hok
        exact ⟨a :: l, by rw [hrest, hlist, List.flatMap_cons], ht⟩
    · obtain ⟨l, hlist, ht⟩ := hspec
      cases l with
      | nil =>
        subst hlist
        rw [hl.stop h, ht, List.foldl_nil]
      | cons a l =>
        rw [List.flatMap_cons] at hlist
        obtain ⟨r', h', hturn⟩ := hl.turn (hlist ▸ h)
        rw [hturn]
        exact (hl.eq_ok_iff fuel h' (hlt a _ hlist)).mpr ⟨l, rfl, ht⟩

end ND.Proof.Wire
