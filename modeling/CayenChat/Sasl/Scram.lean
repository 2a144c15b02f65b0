import CayenChat.Wire.Text

/-! # The SCRAM exchange

The client's side of SCRAM without channel binding: it checks the values of the
server, derives its keys in a job of its own, and checks the server's signature
before the exchange counts as verified.
-/

namespace CayenChat

namespace Scram

inductive Hash | sha1 | sha256 | sha512
  deriving DecidableEq, Repr

end Scram

/-- What the exchange takes from libraries: base64, SASLprep, the derivations of a hash, and the
keys of the ECDSA mechanism. -/
structure Crypto where
  encode : List UInt8 → String
  decode : String → Option (List UInt8)
  saslprep : String → Option String
  digest : Scram.Hash → List UInt8 → List UInt8
  hmac : Scram.Hash → List UInt8 → List UInt8 → List UInt8
  pbkdf2 : Scram.Hash → List UInt8 → List UInt8 → ℕ → List UInt8
  keyIsValid : String → Bool
  sign : String → List UInt8 → Except String (List UInt8)

namespace Scram

def rejected : String := "The server rejected the SCRAM exchange."

def minIterations : ℕ := 4096
def maxIterations : ℕ := 1000000
def maxSaltBytes : ℕ := 1024

/-- The GS2 header `n,,` in base64. -/
def gs2HeaderB64 : String := "biws"

/-- The derivation of one exchange. -/
structure Job where
  hash : Hash
  password : String
  salt : List UInt8
  iterations : ℕ
  authMessage : String
  deriving DecidableEq, Repr

/-- What a job derived. -/
structure Derived where
  proof : List UInt8
  serverSignature : List UInt8
  deriving DecidableEq, Repr

inductive Phase | first | final | verified
  deriving DecidableEq, Repr

end Scram

structure Scram where
  hash : Scram.Hash
  password : Option String
  nonce : String
  firstBare : String
  finalWithoutProof : String := ""
  serverSignature : List UInt8 := []
  phase : Scram.Phase := .first
  iterations : ℕ := 0
  deriving DecidableEq, Repr

namespace Scram

/-- A new exchange, with the bytes of the random source if it has any. -/
def new (c : Crypto) (random : Option (List UInt8)) (hash : Hash) (username password : String) :
    Except String Scram := do
  let some password := c.saslprep password
    | throw "The SASL password cannot be normalized with SASLprep."
  let some raw := random | throw "No random number source for SCRAM."
  let nonce := c.encode raw
  let username := replaceChar ',' "=2C" (replaceChar '=' "=3D" username)
  return { hash, password := some password, nonce, firstBare := "n=" ++ username ++ ",r=" ++ nonce }

def firstMessage (s : Scram) : String := "n,," ++ s.firstBare

/-- The values of a server-first message; the last one of a name counts. -/
structure ServerFirst where
  nonce : Option String := none
  salt : Option String := none
  iterations : Option String := none

/-- Reads the parts of a server-first message, up to an extension that is not supported. -/
def readParts : ServerFirst → List String → Except String ServerFirst
  | values, [] => .ok values
  | values, part :: parts =>
    match splitOnce '=' part with
    | some ("r", value) => readParts { values with nonce := some value } parts
    | some ("s", value) => readParts { values with salt := some value } parts
    | some ("i", value) => readParts { values with iterations := some value } parts
    | some ("m", _) => .error "Unsupported SCRAM extension."
    | _ => readParts values parts

/-- The server-first message, validated; the job is the derivation to run. -/
def serverFirst (c : Crypto) (s : Scram) (data : List UInt8) : Except String (Scram × Job) := do
  let some text := fromUtf8 data | throw "SCRAM server-first is not UTF-8."
  if startsWith "e=" text then throw rejected
  let values ← readParts {} (splitChar ',' text)
  let some nonce := values.nonce | throw "Malformed SCRAM server-first."
  let some salt := values.salt | throw "Malformed SCRAM server-first."
  let some iterations := values.iterations | throw "Malformed SCRAM server-first."
  if !startsWith s.nonce nonce || byteLen nonce == byteLen s.nonce then
    throw "The SCRAM server nonce does not extend ours."
  let some salt := (c.decode salt).filter fun salt => salt != [] && decide (salt.length ≤ maxSaltBytes)
    | throw "The SCRAM salt is invalid."
  let count := if iterations.toList.all Char.isDigit then parseUnsigned (2 ^ 32 - 1) iterations else none
  let some iterations := count.filter fun n => minIterations ≤ n && n ≤ maxIterations
    | throw "The SCRAM iteration count is out of range."
  let finalWithoutProof := "c=" ++ gs2HeaderB64 ++ ",r=" ++ nonce
  let authMessage := s.firstBare ++ "," ++ text ++ "," ++ finalWithoutProof
  let some password := s.password | throw "Unexpected SCRAM state."
  return ({ s with iterations, finalWithoutProof, password := none },
    { hash := s.hash, password, salt, iterations, authMessage })

def derived (c : Crypto) (s : Scram) (d : Derived) : Scram × String :=
  ({ s with serverSignature := d.serverSignature, phase := .final },
    s.finalWithoutProof ++ ",p=" ++ c.encode d.proof)

/-- Checks the signature of the server-final message. -/
def serverFinal (c : Crypto) (s : Scram) (data : List UInt8) : Except String Scram := do
  if s.phase ≠ .final then throw "Unexpected SCRAM server-final."
  let some text := fromUtf8 data | throw "SCRAM server-final is not UTF-8."
  let first := (splitChar ',' text).headD ""
  if startsWith "e=" first then throw rejected
  let some signature := (stripStart "v=" first).bind c.decode
    | throw "Malformed SCRAM server-final."
  if signature ≠ s.serverSignature then throw "The SCRAM server signature does not match."
  return { s with serverSignature := [], phase := .verified }

/-- The derivation of the proof and of the server's signature. -/
def Job.run (c : Crypto) (j : Job) : Derived :=
  let salted := c.pbkdf2 j.hash (utf8Bytes j.password) j.salt j.iterations
  let clientKey := c.hmac j.hash salted (utf8Bytes "Client Key")
  let storedKey := c.digest j.hash clientKey
  let signature := c.hmac j.hash storedKey (utf8Bytes j.authMessage)
  let serverKey := c.hmac j.hash salted (utf8Bytes "Server Key")
  { proof := List.zipWith (· ^^^ ·) clientKey signature
    serverSignature := c.hmac j.hash serverKey (utf8Bytes j.authMessage) }

end Scram

end CayenChat
