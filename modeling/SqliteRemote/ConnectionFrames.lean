import SqliteRemote.Rows
import SqliteRemote.StoreContract

/-! The frames of the protocol after login, the failures a request can end with and the error
frame each of them becomes. Numbers that a frame only hands to the store are the store's. -/
namespace SqliteRemote.Protocol
open StoreContract

def commitIDBytes : Nat := 16
def maxDBIDBytes : Nat := 128
def pagesFrameOverhead : UInt32 := 64
def pagesBlockOverhead : UInt32 := 8
def changesFrameOverhead : UInt32 := 64
def maxFetchRanges : Nat := 4096
def maxSlotLabelBytes : Nat := 256

structure Open where
  dbID : String
  pageSize : UInt32
  createIfMissing : Bool
  takeover : Bool
  resume : Option Resume
  deriving DecidableEq, Repr

structure Range where
  firstBlock : UInt64
  count : UInt64
  deriving DecidableEq, Repr

structure Fetch where
  dbID : String
  version : Nat
  firstBlock : UInt64
  count : UInt64
  ranges : List Range
  deriving DecidableEq, Repr

structure Commit where
  dbID : String
  commitID : Bytes
  leaseEpoch : Nat
  baseVersion : UInt64
  pageCount : UInt64
  blocks : List Block
  more : Bool
  part : UInt32
  deriving DecidableEq, Repr

structure Changed where
  dbID : String
  fromVersion : Nat
  deriving DecidableEq, Repr

structure CloseDB where
  dbID : String
  leaseEpoch : Nat
  deriving DecidableEq, Repr

structure Delete where
  dbID : String
  takeover : Bool
  deriving DecidableEq, Repr

inductive ClientBody where
  | hello
  | proof
  | openDB (req : Open)
  | fetch (req : Fetch)
  | commit (req : Commit)
  | changed (req : Changed)
  | ping (clientTimeMs : UInt64)
  | closeDB (req : CloseDB)
  | delete (req : Delete)
  | claimSlot
  | deleteSlot
  | setSlotLabel (label : String)
  | none
  deriving DecidableEq, Repr

structure ClientFrame where
  requestID : UInt64
  body : ClientBody
  deriving DecidableEq, Repr

inductive ErrorCode where
  | notFound
  | leaseHeld
  | fenced
  | versionConflict
  | badRequest
  | tooLarge
  | internal
  | slotTaken
  deriving DecidableEq, Repr

structure ErrorBody where
  code : ErrorCode
  detail : String
  currentVersion : Nat
  leaseHolderSinceMs : UInt64
  deriving DecidableEq, Repr

structure Opened where
  leaseID : Bytes
  leaseEpoch : Nat
  version : Nat
  pageSize : UInt32
  pageCount : UInt64
  lastCommitID : Bytes
  deriving DecidableEq, Repr

structure Pages where
  firstBlock : UInt64
  blocks : List Bytes
  last : Bool
  deriving DecidableEq, Repr

structure SlotBody where
  label : String
  claimedAtMs : UInt64
  replacedLabel : String
  deriving DecidableEq, Repr

inductive ServerBody where
  | opened (body : Opened)
  | pages (body : Pages)
  | commitAck (commitID : Bytes) (version : Nat)
  | changes (set : ChangeSet)
  | pong (clientTimeMs : UInt64)
  | slot (body : SlotBody)
  | error (body : ErrorBody)
  | ok
  deriving DecidableEq, Repr

structure ServerFrame where
  requestID : UInt64
  body : ServerBody
  deriving DecidableEq, Repr

/- What the connection itself refuses, before or instead of asking the store. -/
inductive Complaint where
  | requestIDZero
  | helloTwice
  | emptyFrame
  | invalidDBID
  | alreadyOpen (dbID : String)
  | notOpen (dbID : String)
  | stillOpen (dbID : String)
  | anyOpen
  | tooManyRanges (count : Nat)
  | rangeBack (number : Nat) (first : UInt64)
  | commitIDLength
  | discontinued (part : UInt32)
  | noOwner
  | labelLength
  deriving DecidableEq, Repr

inductive Fault where
  | declared (e : Error)
  | unknown
  deriving DecidableEq, Repr

inductive Failure where
  | fault (f : Fault)
  | deleted
  | tooLarge
  | complaint (c : Complaint)
  deriving DecidableEq, Repr

/- What Go decides: how its library prints a quoted string and an RFC 3339 time, and the longest
[][]byte that make gives; a longer one panics (2^48 bytes on a 64-bit system, 24 for each element). -/
structure Platform where
  quote : String → String
  rfc3339 : Time → String
  maxSlice : Nat

def Complaint.text (platform : Platform) : Complaint → String
  | .requestIDZero => "request id must be greater than 0"
  | .helloTwice => "Hello was already sent"
  | .emptyFrame => "empty frame"
  | .invalidDBID => s!"database id must be 1 to {maxDBIDBytes} bytes of UTF-8"
  | .alreadyOpen dbID => s!"database {platform.quote dbID} is already open on this connection"
  | .notOpen dbID => s!"database {platform.quote dbID} is not open on this connection"
  | .stillOpen dbID => s!"database {platform.quote dbID} is open on this connection; close it first"
  | .anyOpen => "databases are open on this connection; close them first"
  | .tooManyRanges count => s!"fetch has {count} ranges, at most {maxFetchRanges} are allowed"
  | .rangeBack number first => s!"range {number} starts at {first}, before the end of the previous range"
  | .commitIDLength => s!"commit id must have {commitIDBytes} bytes"
  | .discontinued part => s!"part {part} does not continue a pending commit"
  | .noOwner => "slots need access tokens with a sub claim"
  | .labelLength => s!"label must have at most {maxSlotLabelBytes} bytes"

def errorText (platform : Platform) : Error → String
  | .notFound => "database not found"
  | .fenced => "lease epoch is stale"
  | .slotTaken => "another key holds the owner's slot"
  | .leaseHeld since => s!"another instance has held the lease since {platform.rfc3339 since}"
  | .versionConflict current => s!"current version is {current}"
  | .badRequest reason => reason.text

def unixMilli (t : Time) : UInt64 := UInt64.ofInt (t / 1000000)

def errorBody (platform : Platform) : Failure → ErrorBody
  | .fault (.declared e) =>
      let body (code : ErrorCode) : ErrorBody := ⟨code,errorText platform e,0,0⟩
      match e with
      | .notFound => body .notFound
      | .fenced => body .fenced
      | .slotTaken => body .slotTaken
      | .leaseHeld since => {body .leaseHeld with leaseHolderSinceMs := unixMilli since}
      | .versionConflict current => {body .versionConflict with currentVersion := current}
      | .badRequest _ => body .badRequest
  | .fault .unknown => ⟨.internal,"internal error",0,0⟩
  | .deleted => ⟨.fenced,errorText platform .fenced ++ ": the database was deleted",0,0⟩
  | .tooLarge => ⟨.tooLarge,"commit exceeds the size limit",0,0⟩
  | .complaint c => ⟨.badRequest,c.text platform,0,0⟩

def errorFrame (platform : Platform) (id : UInt64) (failure : Failure) : ServerFrame :=
  ⟨id,.error (errorBody platform failure)⟩

/- A database that is open on the connection and missing in the store was deleted while open. -/
def gone : Fault → Failure
  | .declared .notFound => .deleted
  | f => .fault f

def checkDBID (dbID : String) : Option Complaint :=
  if dbID = "" ∨ maxDBIDBytes < dbID.utf8ByteSize then some .invalidDBID else none

end SqliteRemote.Protocol
