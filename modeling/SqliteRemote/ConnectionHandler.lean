import SqliteRemote.Programs
import SqliteRemote.ConnectionFrames

/-! The request handler of a logged-in connection. Handling one frame is a program that reads
the clock, calls the store, sends frames and updates the registry of lease holders; what other
connections do between two of its store calls is in the answers. -/
namespace SqliteRemote.Protocol
open Rows StoreContract Programs

structure Options where
  maxFrameBytes : UInt32
  leaseTTL : Duration
  maxCommitBytes : Nat
  leeway : Duration
  platform : Platform

structure Header where
  commitID : Bytes
  leaseEpoch : Nat
  baseVersion : UInt64
  pageCount : UInt64
  deriving DecidableEq, Repr

structure PendingCommit where
  header : Header
  nextPart : UInt32
  blocks : List Block
  size : Nat
  deriving DecidableEq, Repr

structure OpenDB where
  key : Key
  epoch : Nat
  pageSize : UInt32
  pending : Option PendingCommit
  renewed : Time
  deriving DecidableEq, Repr

structure Connection where
  subject : String
  instanceID : Bytes
  owner : String
  tokenExpires : Option Time
  dbs : Table String OpenDB

inductive Call : Type → Type where
  | openDB (req : OpenRequest) : Call OpenResult
  | fetch (key : Key) (version : Nat) (first count : UInt64) : Call (List Bytes)
  | commit (req : CommitRequest) : Call Nat
  | changes (key : Key) (fromVersion : Nat) : Call ChangeSet
  | renew (key : Key) (epoch : Nat) (now : Time) (ttl : Duration) : Call Unit
  | release (key : Key) (epoch : Nat) : Call Unit
  | delete (req : DeleteRequest) : Call DeleteResult
  | claimSlot (req : ClaimRequest) : Call ClaimResult
  | setSlotLabel (owner subject label : String) : Call Slot
  | deleteSlot (owner subject : String) : Call (List Key)

inductive HolderCall where
  | set (key : Key) (epoch : Nat)
  | remove (key : Key)
  | revoke (key : Key) (epoch : Nat)
  | purge (key : Key)
  deriving DecidableEq, Repr

-- A loop over a Go map asks for the order of its keys. A call that panics has no answer.
inductive Effect : Type → Type 1 where
  | clock : Effect Time
  | call {β : Type} (c : Call β) : Effect (Except Fault β)
  | send (frame : ServerFrame) : Effect Unit
  | holders (h : HolderCall) : Effect Unit
  | anyOrder (keys : List String) : Effect {order : List String // order.Perm keys}

abbrev Handler := Program Effect Connection

def Connection.put (c : Connection) (dbID : String) (db : OpenDB) : Connection :=
  {c with dbs := c.dbs.insert dbID db}

def reply (frame : ServerFrame) (c : Connection) : Handler := .ask (.send frame) (fun _ => .done c)

def fail (opts : Options) (id : UInt64) (failure : Failure) (c : Connection) : Handler :=
  reply (errorFrame opts.platform id failure) c

def refuse (opts : Options) (id : UInt64) (complaint : Complaint) (c : Connection) : Handler :=
  fail opts id (.complaint complaint) c

def openRequest (opts : Options) (c : Connection) (req : Open) (now : Time) : OpenRequest :=
  ⟨⟨c.subject,req.dbID⟩,c.owner,some c.instanceID,req.pageSize,req.createIfMissing,req.takeover,req.resume,now,
    opts.leaseTTL⟩

def Connection.openDB (opts : Options) (c : Connection) (id : UInt64) (req : Open) : Handler :=
  match checkDBID req.dbID with
  | some complaint => refuse opts id complaint c
  | none =>
      if (c.dbs.lookup req.dbID).isSome then refuse opts id (.alreadyOpen req.dbID) c
      else .ask .clock fun now => .ask (.call (.openDB (openRequest opts c req now))) fun
        | .error fault => fail opts id (.fault fault) c
        | .ok res =>
            let key : Key := ⟨c.subject,req.dbID⟩
            .ask (.holders (.set key res.lease.epoch)) fun _ =>
              reply ⟨id,.opened ⟨res.lease.id,res.lease.epoch,res.state.version,res.state.pageSize,
                res.state.pageCount,res.state.lastCommitID⟩⟩
                (c.put req.dbID ⟨key,res.lease.epoch,res.state.pageSize,none,now⟩)

def Fetch.asked (req : Fetch) : List Range :=
  if req.ranges.isEmpty then [⟨req.firstBlock,req.count⟩] else req.ranges

-- Ranges must be sorted and must not overlap; the end of a range wraps at 2^64.
def checkRanges (number : Nat) (reached : UInt64) : List Range → Option Complaint
  | [] => none
  | r :: rest =>
      if 0 < number ∧ r.firstBlock < reached then some (.rangeBack number r.firstBlock)
      else checkRanges (number+1) (r.firstBlock+r.count) rest

def fetchRuns (key : Key) (version : Nat) (failed : Fault → Handler) (next : List (List Bytes) → Handler)
    (runs : List (List Bytes)) : List Range → Handler
  | [] => next runs
  | r :: rest => .ask (.call (.fetch key version r.firstBlock r.count)) fun
      | .error fault => failed fault
      | .ok blocks => fetchRuns key version failed next (runs ++ [blocks]) rest

def blocksPerFrame (opts : Options) (pageSize : UInt32) : Nat :=
  max 1 ((opts.maxFrameBytes-pagesFrameOverhead)/(pageSize+pagesBlockOverhead)).toNat

-- The frames of one run of blocks. Every round but the last sends a full frame, so a round for
-- each block and one more are enough.
def pagesOf (id first : UInt64) (perFrame : Nat) (lastRun : Bool) (blocks : List Bytes) (start : Nat) :
    Nat → List ServerFrame
  | 0 => []
  | rounds+1 =>
      let stop := min (start+perFrame) blocks.length
      let frame : ServerFrame := ⟨id,.pages ⟨first+UInt64.ofNat start,(blocks.take stop).drop start,
        lastRun && stop == blocks.length⟩⟩
      if stop = blocks.length then [frame]
      else frame :: pagesOf id first perFrame lastRun blocks stop rounds

def pageFrames (id : UInt64) (perFrame : Nat) : List (Range × List Bytes) → List ServerFrame
  | [] => []
  | (r,blocks) :: rest =>
      pagesOf id r.firstBlock perFrame rest.isEmpty blocks 0 (blocks.length+1) ++ pageFrames id perFrame rest

def sendAll (c : Connection) : List ServerFrame → Handler
  | [] => .done c
  | frame :: rest => .ask (.send frame) fun _ => sendAll c rest

def Connection.fetch (opts : Options) (c : Connection) (id : UInt64) (req : Fetch) : Handler :=
  match c.dbs.lookup req.dbID with
  | none => refuse opts id (.notOpen req.dbID) c
  | some db =>
      if maxFetchRanges < req.asked.length then refuse opts id (.tooManyRanges req.asked.length) c
      else match checkRanges 0 0 req.asked with
      | some complaint => refuse opts id complaint c
      | none => fetchRuns db.key req.version (fun fault => fail opts id (gone fault) c)
          (fun runs => sendAll c (pageFrames id (blocksPerFrame opts db.pageSize) (req.asked.zip runs))) [] req.asked

def changesPerFrame (opts : Options) : Nat := max 1 ((opts.maxFrameBytes-changesFrameOverhead)/10).toNat

def Connection.changed (opts : Options) (c : Connection) (id : UInt64) (req : Changed) : Handler :=
  match c.dbs.lookup req.dbID with
  | none => refuse opts id (.notOpen req.dbID) c
  | some db => .ask (.call (.changes db.key req.fromVersion)) fun
      | .error fault => fail opts id (gone fault) c
      | .ok set =>
          let fitting := if changesPerFrame opts < set.blocks.length then ⟨set.fromVersion,set.toVersion,[],false⟩ else set
          reply ⟨id,.changes fitting⟩ c

def Commit.header (req : Commit) : Header := ⟨req.commitID,req.leaseEpoch,req.baseVersion,req.pageCount⟩

def continues (header : Header) (frame : Commit) : Bool :=
  header.commitID == frame.commitID && header.leaseEpoch == frame.leaseEpoch &&
    header.baseVersion == frame.baseVersion && header.pageCount == frame.pageCount

def dataBytes (blocks : List Block) : Nat := (blocks.map (fun b => b.data.length)).sum

def PendingCommit.add (pending : PendingCommit) (req : Commit) : PendingCommit :=
  {pending with
    nextPart := pending.nextPart+1
    size := pending.size+dataBytes req.blocks
    blocks := pending.blocks ++ req.blocks}

def Commit.joins (req : Commit) (pending : Option PendingCommit) : Option PendingCommit :=
  if req.part = 0 then some ⟨req.header,0,[],0⟩
  else pending.filter (fun p => req.part == p.nextPart && continues p.header req)

def commitRequest (opts : Options) (key : Key) (pending : PendingCommit) (now : Time) : CommitRequest :=
  ⟨key,pending.header.commitID,pending.header.leaseEpoch,pending.header.baseVersion,pending.header.pageCount,
    pending.blocks,now,opts.leaseTTL⟩

def Connection.commit (opts : Options) (c : Connection) (id : UInt64) (req : Commit) : Handler :=
  match c.dbs.lookup req.dbID with
  | none => refuse opts id (.notOpen req.dbID) c
  | some db =>
      let cleared := c.put req.dbID {db with pending := none}
      if req.commitID.length ≠ commitIDBytes then refuse opts id .commitIDLength cleared
      else match req.joins db.pending with
      -- Otherwise the parts after a rejected one could complete the pending commit.
      | none => refuse opts id (.discontinued req.part) cleared
      | some joined =>
          let pending := joined.add req
          if opts.maxCommitBytes < pending.size then fail opts id .tooLarge cleared
          else if req.more then .done (c.put req.dbID {db with pending := some pending})
          else .ask .clock fun now => .ask (.call (.commit (commitRequest opts db.key pending now))) fun
            | .error fault => fail opts id (gone fault) cleared
            | .ok version => reply ⟨id,.commitAck pending.header.commitID version⟩
                (c.put req.dbID {db with pending := none, renewed := now})

def renewDue (opts : Options) (db : OpenDB) (now : Time) : Bool := decide (opts.leaseTTL.tdiv 2 ≤ now-db.renewed)

-- Half a lease time of 64 bits is not a duration at which Time.Sub ends.
theorem renewDueSub {opts : Options} (fits : IsInt64 opts.leaseTTL) (db : OpenDB) (now : Time) :
    renewDue opts db now = decide (opts.leaseTTL.tdiv 2 ≤ timeSub now db.renewed) := by
  obtain ⟨low,high⟩ := fits
  have half : (opts.leaseTTL.tdiv 2).natAbs = opts.leaseTTL.natAbs/2 := Int.natAbs_tdiv _ _
  refine decide_eq_decide.mpr ((leTimeSub (by omega) (by omega)).trans ?_).symm
  omega

def renewAll (opts : Options) (now : Time) (next : Connection → Handler) (c : Connection) : List String → Handler
  | [] => next c
  | dbID :: rest =>
      match c.dbs.lookup dbID with
      | none => renewAll opts now next c rest
      | some db =>
          if !renewDue opts db now then renewAll opts now next c rest
          else .ask (.call (.renew db.key db.epoch now opts.leaseTTL)) fun
            | .error _ => renewAll opts now next c rest
            | .ok _ => renewAll opts now next (c.put dbID {db with renewed := now}) rest

def Connection.ping (opts : Options) (c : Connection) (id clientTimeMs : UInt64) : Handler :=
  .ask .clock fun now => .ask (.anyOrder c.dbs.keys) fun order =>
    renewAll opts now (reply ⟨id,.pong clientTimeMs⟩) c order.val

def Connection.closeDB (opts : Options) (c : Connection) (id : UInt64) (req : CloseDB) : Handler :=
  match c.dbs.lookup req.dbID with
  | none => refuse opts id (.notOpen req.dbID) c
  | some db => .ask (.call (.release db.key req.leaseEpoch)) fun
      | .error fault => fail opts id (.fault fault) c
      | .ok _ => .ask (.holders (.remove db.key)) fun _ => reply ⟨id,.ok⟩ {c with dbs := c.dbs.erase req.dbID}

def Connection.deleteDB (opts : Options) (c : Connection) (id : UInt64) (req : Delete) : Handler :=
  match checkDBID req.dbID with
  | some complaint => refuse opts id complaint c
  | none =>
      if (c.dbs.lookup req.dbID).isSome then refuse opts id (.stillOpen req.dbID) c
      else
        let key : Key := ⟨c.subject,req.dbID⟩
        .ask .clock fun now => .ask (.call (.delete ⟨key,req.takeover,now⟩)) fun
          | .error fault => fail opts id (.fault fault) c
          | .ok res =>
              if 0 < res.epoch then .ask (.holders (.revoke key res.epoch)) fun _ => reply ⟨id,.ok⟩ c
              else reply ⟨id,.ok⟩ c

def purgeAll (next : Handler) : List Key → Handler
  | [] => next
  | key :: rest => .ask (.holders (.purge key)) fun _ => purgeAll next rest

def slotBody (slot : Slot) (replacedLabel : String) : SlotBody := ⟨slot.label,unixMilli slot.claimedAt,replacedLabel⟩

def Connection.claimSlot (opts : Options) (c : Connection) (id : UInt64) : Handler :=
  if c.owner = "" then refuse opts id .noOwner c
  else .ask .clock fun now => .ask (.call (.claimSlot ⟨c.owner,c.subject,now⟩)) fun
    | .error fault => fail opts id (.fault fault) c
    | .ok res =>
        purgeAll (reply ⟨id,.slot (slotBody res.slot ((res.replaced.map Slot.label).getD ""))⟩ c) res.deleted

def Connection.setSlotLabel (opts : Options) (c : Connection) (id : UInt64) (label : String) : Handler :=
  if c.owner = "" then refuse opts id .noOwner c
  else if maxSlotLabelBytes < label.utf8ByteSize then refuse opts id .labelLength c
  else .ask (.call (.setSlotLabel c.owner c.subject label)) fun
    | .error fault => fail opts id (.fault fault) c
    | .ok slot => reply ⟨id,.slot (slotBody slot "")⟩ c

def Connection.deleteSlot (opts : Options) (c : Connection) (id : UInt64) : Handler :=
  if c.owner = "" then refuse opts id .noOwner c
  else if 0 < c.dbs.entries.length then refuse opts id .anyOpen c
  else .ask (.call (.deleteSlot c.owner c.subject)) fun
    | .error fault => fail opts id (.fault fault) c
    | .ok deleted => purgeAll (reply ⟨id,.ok⟩ c) deleted

def Connection.handle (opts : Options) (c : Connection) (frame : ClientFrame) : Handler :=
  if frame.requestID = 0 then refuse opts 0 .requestIDZero c
  else match frame.body with
  | .openDB req => c.openDB opts frame.requestID req
  | .fetch req => c.fetch opts frame.requestID req
  | .commit req => c.commit opts frame.requestID req
  | .changed req => c.changed opts frame.requestID req
  | .ping clientTimeMs => c.ping opts frame.requestID clientTimeMs
  | .closeDB req => c.closeDB opts frame.requestID req
  | .delete req => c.deleteDB opts frame.requestID req
  | .claimSlot => c.claimSlot opts frame.requestID
  | .deleteSlot => c.deleteSlot opts frame.requestID
  | .setSlotLabel label => c.setSlotLabel opts frame.requestID label
  | .hello => refuse opts frame.requestID .helloTwice c
  | .proof => refuse opts frame.requestID .emptyFrame c
  | .none => refuse opts frame.requestID .emptyFrame c

def Call.oversized (opts : Options) {β : Type} : Call β → Bool
  | .fetch _ _ _ count => decide (opts.platform.maxSlice < count.toNat)
  | _ => false

def Connection.tokenExpired (opts : Options) (c : Connection) (now : Time) : Bool :=
  match c.tokenExpires with
  | none => false
  | some expires => decide (expires+opts.leeway < now)

def ClientFrame.isPing (frame : ClientFrame) : Bool :=
  match frame.body with
  | .ping _ => true
  | _ => false

structure Handled where
  before : Connection
  frame : ClientFrame
  actions : List (Asked Effect)
  after : Connection

/- The loop of run: frames are handled one at a time until one other than a ping arrives after
the access token has expired. -/
inductive Serves (opts : Options) : Connection → List Handled → Connection → Prop where
  | idle (c : Connection) : Serves opts c [] c
  | next {start c after : Connection} {seen : List Handled} {frame : ClientFrame} {actions : List (Asked Effect)}
      (earlier : Serves opts start seen c) (arrived : Time)
      (admitted : frame.isPing = true ∨ c.tokenExpired opts arrived = false)
      (performed : Performs (c.handle opts frame) actions after) :
      Serves opts start (seen ++ [⟨c,frame,actions,after⟩]) after

def serve (answers : {β : Type} → Effect β → β) (opts : Options) (seen : List Handled) (c : Connection) :
    List ClientFrame → List Handled × Connection
  | [] => (seen,c)
  | frame :: rest =>
      if frame.isPing || !c.tokenExpired opts (answers .clock) then
        let (actions,after) := (c.handle opts frame).runWith answers
        serve answers opts (seen ++ [⟨c,frame,actions,after⟩]) after rest
      else (seen,c)

theorem servesAnswered (answers : {β : Type} → Effect β → β) {opts : Options} {start c : Connection}
    {seen : List Handled} (earlier : Serves opts start seen c) (frames : List ClientFrame) :
    Serves opts start (serve answers opts seen c frames).1 (serve answers opts seen c frames).2 := by
  induction frames generalizing seen c with
  | nil => exact earlier
  | cons frame rest ih =>
    unfold serve
    split
    · rename_i admitted
      refine ih (.next earlier (answers .clock) ?_ (performsRun answers _))
      simpa using admitted
    · exact earlier

def Connection.loggedIn (subject : String) (instanceID : Bytes) (owner : String) (tokenExpires : Option Time) :
    Connection := ⟨subject,instanceID,owner,tokenExpires,∅⟩

end SqliteRemote.Protocol
