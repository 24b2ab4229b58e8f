import SqliteRemote.ConnectionHandler

/-! The configuration of a server and its check. Twice the ping interval is computed in int64, so
that the check compares the lease with it only if it does not wrap around. -/
namespace SqliteRemote.Server
open StoreContract Protocol

def storeMemory : String := "memory"
def storePostgres : String := "postgres"

-- One block of the largest page size (64 KiB) plus 1 KiB for the rest of the frame.
def minMaxFrameBytes : UInt32 := 65536+1024

def second : Duration := 1000000000
def minute : Duration := 60*second
def hour : Duration := 60*minute

structure Config where
  addr : String
  serverID : String
  store : String
  databaseURL : String
  dbMaxConns : Int
  dbMinConns : Int
  requireSyncReplication : Bool
  maxFrameBytes : UInt32
  maxCommitBytes : UInt64
  pingInterval : Duration
  leaseTTL : Duration
  helloTimeout : Duration
  allowedOrigins : List String
  deleteUnusedAfter : Duration
  tokenJWKSURL : String
  tokenJWKSFile : String
  tokenIssuer : String
  tokenAudience : String
  tokenLeeway : Duration

def defaultConfig : Config :=
  { addr := "", serverID := "", store := "", databaseURL := "", dbMaxConns := 0, dbMinConns := 0
    requireSyncReplication := false
    maxFrameBytes := 2^20
    maxCommitBytes := 256*2^20
    pingInterval := 10*second
    leaseTTL := 5*minute
    helloTimeout := 5*second
    allowedOrigins := []
    deleteUnusedAfter := 180*24*hour
    tokenJWKSURL := "", tokenJWKSFile := "", tokenIssuer := "", tokenAudience := ""
    tokenLeeway := minute }

structure ConfigError where
  field : String
  problem : String
  deriving DecidableEq, Repr

structure URL where
  scheme : String
  host : String
  hostname : String

structure Library where
  quote : String → String
  duration : Duration → String
  parseURL : String → Option URL

def Config.tokens (c : Config) : Bool := c.tokenJWKSURL != "" || c.tokenJWKSFile != ""

-- The cases of the switch in Validate, in their order.
def Config.cases (c : Config) (lib : Library) : List (Bool × ConfigError) :=
  [(c.addr == "",⟨"Addr","is required"⟩),
   (c.serverID == "",⟨"ServerID","is required, e.g. wss://vfs.example/v1/ws"⟩),
   (c.store != storeMemory && c.store != storePostgres,
    ⟨"Store",s!"must be {lib.quote storeMemory} or {lib.quote storePostgres}, got {lib.quote c.store}"⟩),
   (c.store == storePostgres && c.databaseURL == "",⟨"DatabaseURL",s!"is required for the {storePostgres} store"⟩),
   (c.dbMaxConns < 0,⟨"DBMaxConns",s!"must not be negative, got {c.dbMaxConns}"⟩),
   (c.dbMinConns < 0,⟨"DBMinConns",s!"must not be negative, got {c.dbMinConns}"⟩),
   (0 < c.dbMaxConns && c.dbMaxConns < c.dbMinConns,
    ⟨"DBMinConns",s!"must not exceed the maximum pool size {c.dbMaxConns}, got {c.dbMinConns}"⟩),
   (c.requireSyncReplication && c.store != storePostgres,
    ⟨"RequireSyncReplication",s!"needs the {storePostgres} store"⟩),
   (c.maxFrameBytes < minMaxFrameBytes,
    ⟨"MaxFrameBytes",s!"must be at least {minMaxFrameBytes} to hold one block of the largest page size"⟩),
   (c.maxCommitBytes < c.maxFrameBytes.toUInt64,
    ⟨"MaxCommitBytes",s!"must be at least the maximum frame size {c.maxFrameBytes}"⟩),
   (c.pingInterval ≤ 0,⟨"PingInterval","must be positive"⟩),
   (c.leaseTTL < int64 (2*c.pingInterval),
    ⟨"LeaseTTL",s!"must be at least twice the ping interval {lib.duration c.pingInterval}"⟩),
   (c.helloTimeout ≤ 0,⟨"HelloTimeout","must be positive"⟩),
   (c.deleteUnusedAfter < 0 || 0 < c.deleteUnusedAfter && c.deleteUnusedAfter < 24*hour,
    ⟨"DeleteUnusedAfter",s!"must be 0 (off) or at least one day, got {lib.duration c.deleteUnusedAfter}"⟩),
   (c.tokenJWKSURL != "" && c.tokenJWKSFile != "",⟨"TokenJWKSFile","must not be set together with TokenJWKSURL"⟩),
   (!c.tokens && (c.tokenIssuer != "" || c.tokenAudience != ""),
    ⟨"TokenIssuer","needs TokenJWKSURL or TokenJWKSFile, otherwise no token is checked"⟩),
   (c.tokens && c.tokenIssuer == "",⟨"TokenIssuer","is required with access tokens"⟩),
   (c.tokenLeeway < 0,⟨"TokenLeeway","must not be negative"⟩)]

def URL.allowed (u : URL) : Bool :=
  let isLocal := u.hostname == "localhost" || u.hostname == "127.0.0.1" || u.hostname == "::1"
  u.host != "" && (u.scheme == "https" || u.scheme == "http" && isLocal)

def Config.checkURL (c : Config) (lib : Library) : Option ConfigError :=
  if c.tokenJWKSURL != "" && !(lib.parseURL c.tokenJWKSURL).any URL.allowed then
    some ⟨"TokenJWKSURL",s!"must be an https URL, or http on localhost, got {lib.quote c.tokenJWKSURL}"⟩
  else none

def Config.checkOrigins (c : Config) (lib : Library) : Option ConfigError :=
  (c.allowedOrigins.find? (fun origin => origin == "" || origin.any (fun char => char == '/' || char == ' '))).map
    fun origin => ⟨"AllowedOrigins",s!"{lib.quote origin} must be a host pattern without scheme or path"⟩

def Config.validate (c : Config) (lib : Library) : Option ConfigError :=
  ((c.cases lib).find? Prod.fst).map Prod.snd <|> c.checkURL lib <|> c.checkOrigins lib

def Config.options (c : Config) (platform : Platform) : Options :=
  ⟨c.maxFrameBytes,c.leaseTTL,c.maxCommitBytes.toNat,c.tokenLeeway,platform⟩

structure Paced (ping ttl : Duration) : Prop where
  positive : 0 < ping
  twice : 2*ping ≤ ttl

theorem validCases {c : Config} {lib : Library} (valid : c.validate lib = none) {i : Nat} {failing : Bool}
    {error : ConfigError} (listed : (c.cases lib)[i]? = some (failing,error)) : failing = false := by
  have passes : ((c.cases lib).find? Prod.fst).map Prod.snd = none := by
    cases found : ((c.cases lib).find? Prod.fst).map Prod.snd with
    | none => rfl
    | some e =>
      rw [Config.validate,found] at valid
      contradiction
  simpa using List.find?_eq_none.mp (Option.map_eq_none_iff.mp passes) _ (List.mem_of_getElem? listed)

theorem validPositive {c : Config} {lib : Library} (valid : c.validate lib = none) : 0 < c.pingInterval := by
  have positive : decide (c.pingInterval ≤ 0) = false := validCases valid (i := 10) rfl
  exact Int.not_le.mp (of_decide_eq_false positive)

theorem validPaced {c : Config} {lib : Library} (valid : c.validate lib = none) (unwrapped : 2*c.pingInterval < 2^63) :
    Paced c.pingInterval c.leaseTTL := by
  have positive := validPositive valid
  have twice : decide (c.leaseTTL < int64 (2*c.pingInterval)) = false := validCases valid (i := 11) rfl
  have fits : IsInt64 (2*c.pingInterval) :=
    ⟨Int.le_trans (by decide) (Int.mul_nonneg (by decide) (Int.le_of_lt positive)),unwrapped⟩
  rw [int64Exact fits] at twice
  exact ⟨positive,Int.not_lt.mp (of_decide_eq_false twice)⟩

theorem validLimit {c : Config} {lib : Library} (valid : c.validate lib = none) : minMaxFrameBytes ≤ c.maxFrameBytes := by
  have large : decide (c.maxFrameBytes < minMaxFrameBytes) = false := validCases valid (i := 8) rfl
  exact UInt32.not_lt.mp (of_decide_eq_false large)

theorem defaultValid {addr serverID : String} (lib : Library) (listens : addr ≠ "") (named : serverID ≠ "") :
    {defaultConfig with addr := addr, serverID := serverID, store := storeMemory}.validate lib = none := by
  have differ : storeMemory ≠ storePostgres := by decide
  simp [Config.validate,Config.cases,Config.checkURL,Config.checkOrigins,Config.tokens,defaultConfig,listens,named,
    differ,second,minute,hour]
  exact ⟨decide_eq_false (by decide),decide_eq_false (by decide),decide_eq_false (by decide)⟩

end SqliteRemote.Server
