import NanoDtls.Impl.Types

/-!
# The byte readers and writers of the handshake messages

`src/handshake/hello.c` and `src/handshake/messages.c` each have the same
`reader` and `writer`. A view is a `Span`: its offset in the input of the
function that returns it, and the bytes there. A read that its check does not
cover is `Status.ub`.
-/

namespace ND.Impl

/-! ## Views -/

/-- A pointer into a buffer with a length: where it points and what is there. -/
structure Span where
  off : Nat
  bytes : Bytes
deriving DecidableEq

namespace Span

def len (s : Span) : Nat := s.bytes.length

/-- The whole of a buffer. -/
def ofBytes (b : Bytes) : Span := ⟨0, b⟩

/-- `n` bytes from `off` on. -/
def sub (s : Span) (off n : Nat) : Result Span := do
  let b ← readSlice s.bytes off n
  return ⟨s.off + off, b⟩

/-- A view into a buffer that is itself `k` bytes into another one. -/
def shift (k : Nat) (s : Span) : Span := ⟨k + s.off, s.bytes⟩

end Span

/-! ## The reader -/

/-- `reader`. -/
structure Reader where
  span : Span
  pos : Nat

namespace Reader

/-- `r_init`. -/
def init (s : Span) : Reader := ⟨s, 0⟩

/-- `r_view`, and `r_skip`, which drops the view. A failed call is followed by `return e` in every
caller. -/
def view (e : Status) (r : Reader) (n : Nat) : Result (Span × Reader) := do
  failIf (r.span.len < szAdd r.pos n) e
  let s ← r.span.sub r.pos n
  return (s, { r with pos := szAdd r.pos n })

/-- `r_skip`. -/
def skip (e : Status) (r : Reader) (n : Nat) : Result Reader := do
  let (_, r) ← view e r n
  return r

/-- `r_bytes`. -/
def bytes (e : Status) (r : Reader) (n : Nat) : Result (Bytes × Reader) := do
  let (s, r) ← view e r n
  return (s.bytes, r)

/-- `r_u8`, `r_u16` and `r_u24`: `n` bytes, big-endian. -/
def uint (n : Nat) (e : Status) (r : Reader) : Result (Nat × Reader) := do
  let (b, r) ← bytes e r n
  return (beNat b, r)

/-- `r_u8`. -/
def u8 (e : Status) (r : Reader) : Result (Nat × Reader) := uint 1 e r

/-- `r_u16`. -/
def u16 (e : Status) (r : Reader) : Result (Nat × Reader) := uint 2 e r

/-- `r_u24`. -/
def u24 (e : Status) (r : Reader) : Result (Nat × Reader) := uint 3 e r

/-- `r.pos < r.len`. -/
def more (r : Reader) : Bool := r.pos < r.span.len

end Reader

/-! ## The writer -/

/-- `writer`: the bytes written, and `overflow` as the status it ends with. `Status.ub` stands for a
copy out of the buffer, after the sum in its check has wrapped around. -/
structure Writer where
  buf : Bytes
  cap : Nat
  bad : Option Status

namespace Writer

/-- `w_init`. -/
def init (cap : Nat) : Writer := ⟨[], cap, none⟩

/-- `w_bytes`. -/
def bytes (data : Bytes) (w : Writer) : Writer :=
  if w.bad.isSome then w
  else if w.cap < szAdd w.buf.length data.length then { w with bad := some .badLength }
  else if w.cap < w.buf.length + data.length then { w with bad := some .ub }
  else { w with buf := w.buf ++ data }

/-- `w_u8`. -/
def u8 (v : Nat) (w : Writer) : Writer := bytes (beBytes 1 v) w

/-- `w_u16`. -/
def u16 (v : Nat) (w : Writer) : Writer := bytes (beBytes 2 v) w

/-- `w_reserve_u8_len`, `w_reserve_u16_len`, `w_reserve_u24_len`. -/
def reserve (n : Nat) (w : Writer) : Writer := bytes (List.replicate n 0) w

/-- `w_patch_u8_len`, `w_patch_u16_len`, `w_patch_u24_len`: write the length of what follows the
`n` bytes reserved at `pos`. -/
def patch (n pos : Nat) (w : Writer) : Writer :=
  if w.bad.isSome then w
  else { w with buf := w.buf.take pos ++ beBytes n (w.buf.length - pos - n) ++ w.buf.drop (pos + n) }

/-- `pos = w_reserve_..(&w); body; w_patch_..(&w, pos)`. -/
def withLen (n : Nat) (body : Writer → Writer) (w : Writer) : Writer :=
  patch n w.buf.length (body (reserve n w))

/-- `if (w.overflow) return ND_ERR_BAD_LENGTH`, or else the bytes written. -/
def finish (w : Writer) : Result Bytes :=
  match w.bad with
  | some e => .error e
  | none => .ok w.buf

end Writer

end ND.Impl
