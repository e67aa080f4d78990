import NanoDtls.Framework.Bytes
import NanoDtls.Framework.Checked
import NanoDtls.Impl.Types
import NanoDtls.Impl.Replay
import NanoDtls.Spec.Replay
import NanoDtls.Impl.Sha256
import NanoDtls.Proof.Replay
import NanoDtls.Impl.Ack
import NanoDtls.Impl.Aead
import NanoDtls.Impl.Record
import NanoDtls.Proof.Ack
import NanoDtls.Proof.Aead
import NanoDtls.Proof.Record
import NanoDtls.Proof.Session
import NanoDtls.Framework.Limbs
import NanoDtls.Impl.X25519
import NanoDtls.Proof.X25519.Field
import NanoDtls.Spec.X25519
import NanoDtls.Proof.X25519.Ladder
import NanoDtls.Framework.Montgomery
import NanoDtls.Framework.Primality
import NanoDtls.Proof.X25519.Agreement
import NanoDtls.Impl.P256
import NanoDtls.Framework.BinaryMethod
import NanoDtls.Framework.Jacobian
import NanoDtls.Proof.P256.Bignum
import NanoDtls.Spec.Ecdsa
import NanoDtls.Proof.P256.Points
import NanoDtls.Proof.P256.Ecdsa
import NanoDtls.Framework.Prog
import NanoDtls.Impl.Handshake
import NanoDtls.Impl.Asn1
import NanoDtls.Impl.Hello
import NanoDtls.Impl.X509
import NanoDtls.Impl.Messages
import NanoDtls.Impl.Udp
import NanoDtls.Impl.Client
import NanoDtls.Impl.Server
import NanoDtls.Proof.Hello
import NanoDtls.Proof.Handshake
import NanoDtls.Proof.Client
import NanoDtls.Proof.Server
import NanoDtls.Proof.Agreement
import NanoDtls.Proof.Messages
import NanoDtls.Framework.Inevitably
import NanoDtls.Proof.Honest
import NanoDtls.Proof.Network
import NanoDtls.Proof.Asn1
import NanoDtls.Proof.X509
import NanoDtls.Framework.Slice
import NanoDtls.Proof.Span
import NanoDtls.Proof.X509.Bounds
import NanoDtls.Proof.X509.Signed
import NanoDtls.Proof.Parsers
import NanoDtls.Proof.Leaf
import NanoDtls.Framework.Coverage
import NanoDtls.Impl.Reassembly
import NanoDtls.Proof.Reassembly
import NanoDtls.Framework.Blocks
import NanoDtls.Framework.Words
import NanoDtls.Proof.Poly1305.Limbs
import NanoDtls.Proof.Poly1305.Stream
import NanoDtls.Proof.Sha256
import NanoDtls.Proof.Framing
import NanoDtls.Proof.Reconstruct
import NanoDtls.Proof.Unified
import NanoDtls.Spec.Record
import NanoDtls.Proof.Sender
import NanoDtls.Proof.Signature
import NanoDtls.Framework.Pieces
import NanoDtls.Proof.Bodies
import NanoDtls.Proof.Fragments
import NanoDtls.Proof.Wait
import NanoDtls.Framework.Multiples
import NanoDtls.Impl.Sign
import NanoDtls.Proof.P256.Sign
import NanoDtls.Proof.X509.Algorithms
import NanoDtls.Proof.P256.Group
import NanoDtls.Proof.Hkdf
import NanoDtls.Spec.Aead
import NanoDtls.Proof.MacData
import NanoDtls.Proof.P256.Modular
import NanoDtls.Proof.Sizes
import NanoDtls.Proof.X25519.Shifts
import NanoDtls.Framework.Contract
import NanoDtls.Proof.Authentication
import NanoDtls.Proof.Conduct.Client
import NanoDtls.Proof.X25519.Commute
import NanoDtls.Proof.X25519.LowOrder
import NanoDtls.Framework.CurveOrder
import NanoDtls.Framework.PolyHash
import NanoDtls.Framework.Twist
import NanoDtls.Proof.ChaCha20
import NanoDtls.Proof.P256.Order
import NanoDtls.Proof.Poly1305.Forgery
import NanoDtls.Proof.X25519.Rejected
import NanoDtls.Framework.Calendar
import NanoDtls.Impl.Demo
import NanoDtls.Proof.Program
import NanoDtls.Proof.Resources
import NanoDtls.Proof.X509.Language
