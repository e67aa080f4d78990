import NanoDtls.Framework.Bytes
import Mathlib.Data.Fin.VecNotation
import Mathlib.Logic.Function.Iterate

/-!
# ChaCha20

The block function of RFC 8439, section 2.3, on the state as a square of
words: a round works on the columns, and every second one on the diagonals,
which become columns when row `i` is rotated by `i`. The keystream is given
by position: byte `i` is in block `i / 64`, counted from the initial counter.
-/

namespace ND.Spec.ChaCha20

open Matrix (vecHead vecTail)

abbrev Word := BitVec 32

/-- The state, by row and column. -/
abbrev Square := Fin 4 → Fin 4 → Word

def quarterRound (a b c d : Word) : Fin 4 → Word :=
  let a₁ := a + b
  let d₁ := (d ^^^ a₁).rotateLeft 16
  let c₁ := c + d₁
  let b₁ := (b ^^^ c₁).rotateLeft 12
  let a₂ := a₁ + b₁
  let d₂ := (d₁ ^^^ a₂).rotateLeft 8
  let c₂ := c₁ + d₂
  let b₂ := (b₁ ^^^ c₂).rotateLeft 7
  ![a₂, b₂, c₂, d₂]

/-- `f` of the four entries of `v`. -/
def ofEntries {α β : Type} (f : α → α → α → α → β) (v : Fin 4 → α) : β :=
  f (vecHead v) (vecHead (vecTail v)) (vecHead (vecTail (vecTail v))) (vecHead (vecTail (vecTail (vecTail v))))

def columnRound (x : Square) : Square := fun i j => ofEntries quarterRound (fun k => x k j) i

/-- Diagonal `j` becomes column `j`. -/
def rotateRows (x : Square) : Square := fun i j => x i (j + i)

def unrotateRows (x : Square) : Square := fun i j => x i (j - i)

def diagonalRound (x : Square) : Square := unrotateRows (columnRound (rotateRows x))

/-- `inner_block`. -/
def innerBlock (x : Square) : Square := diagonalRound (columnRound x)

/-- The little-endian word `i` of a string. -/
def word (b : Bytes) (i : Nat) : Word := BitVec.ofNat 32 (leNat ((b.drop (4 * i)).take 4))

/-- The constants, the key in two rows, and the block counter with the nonce. -/
def initial (key : BytesN 32) (nonce : BytesN 12) (counter : Word) : Square :=
  ![![0x61707865, 0x3320646e, 0x79622d32, 0x6b206574],
    fun j => word key.1 j,
    fun j => word key.1 (4 + j),
    ![counter, word nonce.1 0, word nonce.1 1, word nonce.1 2]]

/-- The words row by row, each little-endian. -/
def serialize (x : Square) : Bytes :=
  (List.finRange 4).flatMap fun i => (List.finRange 4).flatMap fun j => leBytes 4 (x i j).toNat

/-- `chacha20_block`. -/
def block (key : BytesN 32) (nonce : BytesN 12) (counter : Word) : Bytes :=
  let s := initial key nonce counter
  serialize fun i j => innerBlock^[10] s i j + s i j

theorem length_block (key : BytesN 32) (nonce : BytesN 12) (counter : Word) : (block key nonce counter).length = 64 := by
  simp [block, serialize]

/-- Byte `i` of the keystream that starts with the block `counter`. -/
def keystream (key : BytesN 32) (nonce : BytesN 12) (counter : Word) (i : Nat) : Byte :=
  (block key nonce (counter + BitVec.ofNat 32 (i / 64))).getD (i % 64) 0

/-- `chacha20_encrypt`. -/
def encrypt (key : BytesN 32) (nonce : BytesN 12) (counter : Word) (text : Bytes) : Bytes :=
  text.mapIdx fun i b => b ^^^ keystream key nonce counter i

end ND.Spec.ChaCha20
