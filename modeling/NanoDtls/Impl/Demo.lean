import NanoDtls.Impl.Process

/-!
# The demo programs (`tools/dtls_client_demo.c`, `tools/dtls_server_demo.c`)

`main` of both, after their arguments are read, with the exit code as result.
What they print is left out.
-/

namespace ND.Impl.Demo

open Os X509

/-- `read_whole_file`: the block that holds the file, and its content. -/
def readWholeFile (path : List Char) : Proc (Option (Nat × Bytes)) := do
  match ← call (.fopen path) with
  | none => return none
  | some file =>
    call (.fseek file true)
    let len ← call (.ftell file)
    call (.fseek file false)
    if len < 0 then do
      fclose file
      return none
    else
      match ← call (.malloc len.toNat) with
      | none =>
        fclose file
        return none
      | some id =>
        let got ← call (.fread (some (id, len.toNat)) len.toNat file)
        fclose file
        if got.1.length ≠ len.toNat then do
          free id len.toNat
          return none
        else return some (id, got.1)

/-- `snprintf` of a path into 512 bytes. -/
def certPath (certDir : List Char) (name : String) : List Char := (certDir ++ '/' :: name.toList).take 511

/-- `(uint64_t)`. -/
def u64 (x : Int) : Nat := (x % 2 ^ 64).toNat

/-- `now_canonical`. -/
def nowCanonical (tm : Tm) : Nat :=
  (u64 (tm.tmYear + 1900) * 10000000000 + u64 (tm.tmMon + 1) * 100000000 + u64 tm.tmMday * 1000000 +
    u64 tm.tmHour * 10000 + u64 tm.tmMin * 100 + u64 tm.tmSec) % 2 ^ 64

/-- `return st == ND_OK ? 0 : 1`. -/
def exitCode {α : Type} : Result α → Nat
  | .ok _ => 0
  | .error _ => 1

/-- `main` of the client. -/
def clientMain (certDir host : List Char) (port : BitVec 16) : Proc Nat := do
  match ← readWholeFile (certPath certDir "root_cert.der") with
  | none => return 1
  | some (root, rootDer) =>
    call (.load root rootDer.length)
    match x509Parse 64 rootDer with
    | .error _ =>
      free root rootDer.length
      return 1
    | .ok trustAnchor =>
      match ← udpClientConnect host port with
      | none =>
        free root rootDer.length
        return 1
      | some fd =>
        let tm ← call .gmtime
        let st ← ExceptT.run (Process.clientHandshake fd 10000 (root, rootDer.length) trustAnchor (nowCanonical tm))
        close fd
        free root rootDer.length
        return exitCode st

end ND.Impl.Demo
