import SqliteRemote.ConnectionHandler

/-! A connection from its first frame on: the Hello, the access token, the challenge and its proof,
and then the loop that hands frames to the request handler. Reading a frame, the random nonce and
the verification of a token are questions to the surroundings; Ed25519 and the subject's hash are
functions of the server. -/
namespace SqliteRemote.Protocol
open StoreContract Programs

def protocolVersion : UInt32 := 1
def maxInstanceIDBytes : Nat := 64
def nonceBytes : Nat := 32
def ed25519PublicKeyBytes : Nat := 32
def defaultChallengeTTL : Duration := 30*10^9
def transcriptLabel : String := "sqlite-remote-auth-v1"
def subjectLabel : String := "sqlite-remote-subject-v1"

-- An enumeration of proto3 is open: a client can send any number.
abbrev SigAlg := UInt32
def sigAlgEd25519 : SigAlg := 1

structure Hello where
  protocolVersion : UInt32
  instanceID : Bytes
  sigAlg : SigAlg
  publicKey : Bytes
  accessToken : String
  deriving DecidableEq, Repr

structure Proof where
  signature : Bytes
  deriving DecidableEq, Repr

inductive WireBody where
  | hello (hello : Hello)
  | proof (proof : Proof)
  | request (body : ClientBody) (other : body ≠ .hello ∧ body ≠ .proof)
  deriving DecidableEq, Repr

structure WireFrame where
  requestID : UInt64
  body : WireBody
  deriving DecidableEq, Repr

def WireFrame.client (frame : WireFrame) : ClientFrame :=
  ⟨frame.requestID,match frame.body with
    | .hello _ => .hello
    | .proof _ => .proof
    | .request body _ => body⟩

inductive ReadError where
  | notBinary
  | malformed
  | deadline
  | closed
  deriving DecidableEq, Repr

inductive StatusCode where
  | normalClosure
  | unsupportedData
  | invalidFramePayloadData
  | policyViolation
  deriving DecidableEq, Repr

structure Closing where
  status : StatusCode
  reason : String
  deriving DecidableEq, Repr

def readFailed : ReadError → Closing
  | .notBinary => ⟨.unsupportedData,"binary frames only"⟩
  | .malformed => ⟨.invalidFramePayloadData,"malformed frame"⟩
  | .deadline => ⟨.policyViolation,"no frame in time"⟩
  | .closed => ⟨.normalClosure,""⟩

abbrev Nonce := {nonce : Bytes // nonce.length = nonceBytes}

/- What a valid token says about its client. A token needs an expiry and is rejected after it, so
its expiry is a time. -/
structure Grant where
  expires : Time
  owner : String
  dated : expires ≠ zeroTime

inductive LoginFailure where
  | noHello
  | version (spoken : UInt32)
  | instanceIDLength
  | denied (reason : String)
  | noServerID
  | noPublicKey
  | noNonce
  | noProof (e : ReadError)
  | notProof (body : WireBody)
  | challengeExpired
  | publicKeyLength (got : Nat)
  | signature
  | algorithm (alg : SigAlg)
  deriving DecidableEq, Repr

inductive LoginCode where
  | unauthenticated
  | accessDenied
  | badRequest
  | internal
  deriving DecidableEq, Repr

structure HelloOk where
  protocolVersion : UInt32
  maxFrameBytes : UInt32
  pingIntervalMs : UInt32
  leaseTtlMs : UInt32
  accessTokenTtlMs : UInt64
  deriving DecidableEq, Repr

inductive LoginBody where
  | challenge (nonce : Bytes) (serverID : String) (expiresAtMs : UInt64)
  | helloOk (body : HelloOk)
  | error (code : LoginCode) (detail : String)
  deriving DecidableEq, Repr

structure LoginFrame where
  requestID : UInt64
  body : LoginBody
  deriving DecidableEq, Repr

/- The texts that come from Go's libraries: an error of reading or of the random source, the type
of a frame's body and the name of an algorithm. -/
structure LoginFormats where
  readError : ReadError → String
  randomError : String
  bodyType : WireBody → String
  algorithm : SigAlg → String

structure Crypto where
  ed25519Verify (publicKey message signature : Bytes) : Bool
  sha256URL (input : Bytes) : String

structure LoginOptions where
  requests : Options
  pingInterval : Duration
  helloTimeout : Duration
  challengeTTL : Duration
  serverID : String
  tokens : Bool
  formats : LoginFormats
  crypto : Crypto

def unauthenticated (text : String) : String := "unauthenticated: " ++ text

def LoginFailure.text (formats : LoginFormats) : LoginFailure → String
  | .noHello => unauthenticated "the first frame must be a Hello"
  | .version spoken => s!"protocol version {spoken}, this server speaks {protocolVersion}"
  | .instanceIDLength => s!"instance id must have 1 to {maxInstanceIDBytes} bytes"
  | .denied reason => "access token rejected: " ++ reason
  | .noServerID => "no server ID configured, all logins are rejected"
  | .noPublicKey => unauthenticated "no public key"
  | .noNonce => formats.randomError
  | .noProof e => unauthenticated ("no proof: " ++ formats.readError e)
  | .notProof body => unauthenticated ("expected a Proof, got " ++ formats.bodyType body)
  | .challengeExpired => unauthenticated "the challenge expired"
  | .publicKeyLength got =>
      unauthenticated s!"ed25519 public key must have {ed25519PublicKeyBytes} bytes, got {got}"
  | .signature => unauthenticated "signature does not match the challenge"
  | .algorithm alg => "signature algorithm " ++ formats.algorithm alg ++ " is not supported"

def LoginFailure.code : LoginFailure → LoginCode
  | .version _ | .instanceIDLength | .algorithm _ => .badRequest
  | .denied _ => .accessDenied
  | .noServerID | .noNonce => .internal
  | _ => .unauthenticated

def loginError (formats : LoginFormats) (id : UInt64) (failure : LoginFailure) : LoginFrame :=
  ⟨id,.error failure.code (if failure.code = .internal then "internal error" else failure.text formats)⟩

def bigEndian (n : UInt32) : Bytes := [(n >>> 24).toUInt8,(n >>> 16).toUInt8,(n >>> 8).toUInt8,n.toUInt8]

def textBytes (text : String) : Bytes := text.toUTF8.data.toList

def withLength (part : Bytes) : Bytes := bigEndian (UInt32.ofNat part.length) ++ part

def transcript (serverID : String) (nonce instanceID : Bytes) (alg : SigAlg) (publicKey : Bytes) : Bytes :=
  [textBytes transcriptLabel,textBytes serverID,nonce,instanceID,bigEndian alg,publicKey].flatMap withLength

def subjectOf (crypto : Crypto) (alg : SigAlg) (publicKey : Bytes) : String :=
  crypto.sha256URL (transcript subjectLabel [] [] alg publicKey)

def checkProof (crypto : Crypto) (alg : SigAlg) (publicKey signed signature : Bytes) : Option LoginFailure :=
  if alg = sigAlgEd25519 then
    if publicKey.length ≠ ed25519PublicKeyBytes then some (.publicKeyLength publicKey.length)
    else if !crypto.ed25519Verify publicKey signed signature then some .signature
    else none
  else some (.algorithm alg)

inductive Wire : Type → Type 1 where
  | clock : Wire Time
  | read (timeout : Duration) : Wire (Except ReadError WireFrame)
  | newNonce : Wire (Option Nonce)
  | verify (accessToken : String) (publicKey : Bytes) : Wire (Except String Grant)
  | answer (frame : LoginFrame) : Wire Unit
  | request {β : Type} (e : Effect β) : Wire β

abbrev Service := Program Wire (Option Closing)

def closeWith (closing : Closing) : Service := .done (some closing)

def LoginOptions.refuse (opts : LoginOptions) (id : UInt64) (failure : LoginFailure) : Service :=
  .ask (.answer (loginError opts.formats id failure)) fun _ => closeWith ⟨.policyViolation,failure.text opts.formats⟩

def checkHello (frame : WireFrame) : Except LoginFailure Hello :=
  match frame.body with
  | .hello hello =>
      if hello.protocolVersion ≠ protocolVersion then .error (.version hello.protocolVersion)
      else if hello.instanceID.length = 0 ∨ maxInstanceIDBytes < hello.instanceID.length then .error .instanceIDLength
      else .ok hello
  | _ => .error .noHello

def LoginOptions.admitHello (opts : LoginOptions) (hello : Hello) (failed : LoginFailure → Service)
    (next : Option Grant → Service) : Service :=
  if !opts.tokens then next none
  else if hello.sigAlg ≠ sigAlgEd25519 then failed (.denied "access tokens are bound to Ed25519 keys only")
  else .ask (.verify hello.accessToken hello.publicKey) fun
    | .error reason => failed (.denied reason)
    | .ok grant => next (some grant)

def LoginOptions.challengeTime (opts : LoginOptions) : Duration :=
  if 0 < opts.challengeTTL then opts.challengeTTL else defaultChallengeTTL

def LoginOptions.challenge (opts : LoginOptions) (id : UInt64) (nonce : Nonce) (deadline : Time) : LoginFrame :=
  ⟨id,.challenge nonce.val opts.serverID (unixMilli deadline)⟩

def LoginOptions.identify (opts : LoginOptions) (id : UInt64) (hello : Hello) (failed : UInt64 → LoginFailure → Service)
    (next : UInt64 → String → Service) : Service :=
  if opts.serverID = "" then failed id .noServerID
  else if hello.publicKey.length = 0 then failed id .noPublicKey
  else .ask .newNonce fun
    | none => failed id .noNonce
    | some nonce => .ask .clock fun now =>
        let deadline := now+opts.challengeTime
        .ask (.answer (opts.challenge id nonce deadline)) fun _ => .ask (.read opts.challengeTime) fun
          | .error e => failed id (.noProof e)
          | .ok answer => match answer.body with
            | .proof proof => .ask .clock fun later =>
                if deadline < later then failed answer.requestID .challengeExpired
                else
                  let signed := transcript opts.serverID nonce.val hello.instanceID hello.sigAlg hello.publicKey
                  match checkProof opts.crypto hello.sigAlg hello.publicKey signed proof.signature with
                  | some failure => failed answer.requestID failure
                  | none => next answer.requestID (subjectOf opts.crypto hello.sigAlg hello.publicKey)
            | body => failed answer.requestID (.notProof body)

def milliseconds (d : Duration) : Int := d.tdiv 1000000

def Grant.tokenExpires (grant : Grant) : Option Time :=
  if grant.expires = zeroTime then none else some grant.expires

def tokenTTL (c : Connection) (next : UInt64 → Service) : Service :=
  match c.tokenExpires with
  | none => next 0
  | some expires => .ask .clock fun now => next (UInt64.ofInt (max (milliseconds (timeSub expires now)) 1))

def LoginOptions.helloOk (opts : LoginOptions) (accessTokenTtlMs : UInt64) : HelloOk :=
  ⟨protocolVersion,opts.requests.maxFrameBytes,UInt32.ofInt (milliseconds opts.pingInterval),
    UInt32.ofInt (milliseconds opts.requests.leaseTTL),accessTokenTtlMs⟩

def ownerOf (grant : Option Grant) : String := (grant.map Grant.owner).getD ""

def LoginOptions.hello (opts : LoginOptions) (frame : WireFrame) (next : Connection → Service) : Service :=
  match checkHello frame with
  | .error failure => opts.refuse frame.requestID failure
  | .ok hello => opts.admitHello hello (opts.refuse frame.requestID) fun grant =>
      opts.identify frame.requestID hello opts.refuse fun answering subject =>
        let c := Connection.loggedIn subject hello.instanceID (ownerOf grant) (grant.bind Grant.tokenExpires)
        tokenTTL c fun ttl => .ask (.answer ⟨answering,.helloOk (opts.helloOk ttl)⟩) fun _ => next c

-- The clock is read for the token only if there is one and the frame is no ping.
def LoginOptions.ifTokenValid (opts : LoginOptions) (c : Connection) (frame : WireFrame) (next : Service) : Service :=
  if frame.client.isPing || c.tokenExpires.isNone then next
  else .ask .clock fun now =>
    if c.tokenExpired opts.requests now then closeWith ⟨.policyViolation,"access token expired"⟩ else next

def LoginOptions.serve (opts : LoginOptions) : Nat → Connection → Service
  | 0, _ => .done none
  | rounds+1, c => .ask (.read (int64 (3*opts.pingInterval))) fun
      | .error e => closeWith (readFailed e)
      | .ok frame => opts.ifTokenValid c frame
          ((c.handle opts.requests frame.client).within .request (opts.serve rounds))

def LoginOptions.run (opts : LoginOptions) (rounds : Nat) : Service :=
  .ask (.read opts.helloTimeout) fun
    | .error e => closeWith (readFailed e)
    | .ok frame => opts.hello frame (opts.serve rounds)

end SqliteRemote.Protocol
