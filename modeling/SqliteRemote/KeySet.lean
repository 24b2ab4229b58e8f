import SqliteRemote.History
import SqliteRemote.Rows
import SqliteRemote.CacheControl

/-! The keys of the token service: the JWKS and its parsing, the cache with its two reasons to fetch
it again, and the limits on how old the keys and how frequent the fetches are. find runs under a mutex,
so concurrent logins are some sequence of calls. What the service answers is an argument of the call;
JSON, base64 and the curve are functions of the standard library. -/
namespace SqliteRemote.Token
open StoreContract Rows

def refetchInterval : Duration := 60*10^9
def maxStale : Duration := 3600*10^9
def maxJWKSBytes : Nat := 2^20
def uncompressedPoint : UInt8 := 4
def ed25519KeyBytes : Nat := 32

inductive VerifyKey where
  | ed25519 (key : Bytes)
  | p256 (point : Bytes)
  deriving DecidableEq, Repr

structure PublicKey where
  key : VerifyKey
  alg : String
  deriving DecidableEq, Repr

abbrev Keys := Table String PublicKey

structure JWK where
  kty : String
  crv : String
  x : String
  y : String
  kid : String
  alg : String
  use : String
  deriving DecidableEq, Repr

structure Library where
  quote : String → String
  unmarshal : Bytes → Except String (List JWK)
  base64 : String → Option Bytes
  offCurve : Bytes → Option String

def parseEd25519 (lib : Library) (k : JWK) : Except String (Option PublicKey) :=
  if k.alg != "" && k.alg != "EdDSA" then .error s!"an Ed25519 key cannot be for {k.alg}"
  else match lib.base64 k.x with
    | none => .error "x is not a base64url Ed25519 key"
    | some x =>
        if x.length ≠ ed25519KeyBytes then .error "x is not a base64url Ed25519 key"
        else .ok (some ⟨.ed25519 x,k.alg⟩)

def parseP256 (lib : Library) (k : JWK) : Except String (Option PublicKey) :=
  if k.alg != "" && k.alg != "ES256" then .error s!"a P-256 key cannot be for {k.alg}"
  else match lib.base64 k.x, lib.base64 k.y with
    | some x, some y =>
        if x.length ≠ 32 || y.length ≠ 32 then .error "x and y must be base64url coordinates of 32 bytes"
        else match lib.offCurve (uncompressedPoint :: x ++ y) with
          | some err => .error s!"not a point on P-256: {err}"
          | none => .ok (some ⟨.p256 (uncompressedPoint :: x ++ y),k.alg⟩)
    | _, _ => .error "x and y must be base64url coordinates of 32 bytes"

-- A key of another type is no key and no error.
def parseKey (lib : Library) (k : JWK) : Except String (Option PublicKey) :=
  if k.kty == "OKP" && k.crv == "Ed25519" then parseEd25519 lib k
  else if k.kty == "EC" && k.crv == "P-256" then parseP256 lib k
  else .ok none

def JWK.skipped (k : JWK) : Bool := k.kid == "" || (k.use != "" && k.use != "sig")

def addKey (lib : Library) (keys : Keys) (k : JWK) : Except String Keys :=
  if k.skipped then .ok keys
  else match parseKey lib k with
    | .error err => .error s!"key {lib.quote k.kid}: {err}"
    | .ok none => .ok keys
    | .ok (some key) => .ok (keys.insert k.kid key)

def parseSet (lib : Library) (keys : Keys) : List JWK → Except String Keys
  | [] => if keys.keys = [] then .error "the JWKS has no Ed25519 or P-256 signature key with a key ID" else .ok keys
  | k :: rest => match addKey lib keys k with
    | .error err => .error err
    | .ok keys => parseSet lib keys rest

def parseJWKS (lib : Library) (data : Bytes) : Except String Keys :=
  match lib.unmarshal data with
  | .error err => .error s!"invalid JWKS: {err}"
  | .ok set => parseSet lib ∅ set

/- What comes back for a request: nothing, or a status, the Cache-Control headers and a body that
may break off with an error. -/
inductive Response where
  | failed (err : String)
  | answered (code : Nat) (status : String) (cacheControl : List Bytes) (body : Bytes) (broken : Option String)
  deriving DecidableEq, Repr

def readLimited (limit : Nat) (body : Bytes) (broken : Option String) : Except String Bytes :=
  if limit ≤ body.length then .ok (body.take limit)
  else match broken with
    | some err => .error err
    | none => .ok body

def fetch (lib : Library) : Response → Except String (Keys × Duration)
  | .failed err => .error err
  | .answered code status cacheControl body broken =>
      if code ≠ 200 then .error s!"status {status}"
      else match readLimited (maxJWKSBytes+1) body broken with
        | .error err => .error err
        | .ok data =>
            if maxJWKSBytes < data.length then .error s!"the JWKS exceeds {maxJWKSBytes} bytes"
            else match parseJWKS lib data with
              | .error err => .error err
              | .ok keys => .ok (keys,cacheAge (cacheControl.headD []))

structure KeySet where
  url : String
  keys : Keys
  fresh : Time
  fetched : Time

def newKeySet (lib : Library) (url file : String) (read : Except String Bytes) : Except String KeySet :=
  if file = "" then .ok ⟨url,∅,zeroTime,zeroTime⟩
  else match read with
    | .error err => .error s!"read the JWKS file: {err}"
    | .ok data => match parseJWKS lib data with
      | .error err => .error s!"JWKS file {file}: {err}"
      | .ok keys => .ok ⟨url,keys,zeroTime,zeroTime⟩

structure DeniedError where
  reason : String
  deriving DecidableEq, Repr

def unknownKey (lib : Library) (kid : String) : DeniedError := ⟨s!"unknown key ID {lib.quote kid}"⟩

def unavailable : DeniedError := ⟨"the token service's keys are not available"⟩

structure Attempt where
  time : Time
  response : Response
  deriving DecidableEq, Repr

def KeySet.refresh (lib : Library) (s : KeySet) (a : Attempt) : KeySet :=
  match fetch lib a.response with
  | .error _ => {s with fetched := a.time}
  | .ok (keys,age) => {s with keys := keys, fresh := a.time+age, fetched := a.time}

/- One call of find: the key ID, the time it reads, and what the service answers to its first and to
its second fetch. -/
structure Find where
  kid : String
  now : Time
  first : Response
  second : Response
  deriving DecidableEq, Repr

structure Found where
  result : Except DeniedError PublicKey
  attempts : List Attempt

def KeySet.known (lib : Library) (s : KeySet) (kid : String) : Except DeniedError PublicKey :=
  match s.keys.lookup kid with
  | some key => .ok key
  | none => .error (unknownKey lib kid)

def KeySet.expired (s : KeySet) (now : Time) : Bool :=
  decide (s.fresh ≤ now) && decide (minCacheAge ≤ timeSub now s.fetched)

def KeySet.findCached (lib : Library) (s : KeySet) (call : Find) (made : List Attempt) : Found × KeySet :=
  if s.fresh+maxStale ≤ call.now then (⟨.error unavailable,made⟩,s)
  else match s.keys.lookup call.kid with
    | some key => (⟨.ok key,made⟩,s)
    | none =>
        if refetchInterval ≤ timeSub call.now s.fetched then
          let again : Attempt := ⟨call.now,call.second⟩
          let after := s.refresh lib again
          (⟨after.known lib call.kid,made ++ [again]⟩,after)
        else (⟨.error (unknownKey lib call.kid),made⟩,s)

def KeySet.find (lib : Library) (s : KeySet) (call : Find) : Found × KeySet :=
  if s.url = "" then (⟨s.known lib call.kid,[]⟩,s)
  else if s.expired call.now then
    let attempt : Attempt := ⟨call.now,call.first⟩
    (s.refresh lib attempt).findCached lib call [attempt]
  else s.findCached lib call []

end SqliteRemote.Token
