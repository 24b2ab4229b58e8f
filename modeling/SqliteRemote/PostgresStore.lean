import SqliteRemote.Chunks
import SqliteRemote.PostgresTables

/-! The PostgreSQL store, operation by operation, as scripts of transactions and single
statements. The function given to inTx ends with an error where the Go function returns one. -/
namespace SqliteRemote.Postgres
open Rows Chunks StoreContract Programs RowLocking

def partBytes : Nat := 1024

-- A store operation fails with an error of the contract, or with pgx.ErrNoRows where a
-- statement that must find a row finds none and the code passes the error on.
inductive Failure where
  | declared (e : Error)
  | noRows
  deriving DecidableEq, Repr

abbrev Result := Except Failure Reply
abbrev Body (β : Type) := Program Query (Except Failure β)
abbrev Operation := Script Query Failure Result
abbrev Call := Residual Query Tables Write Lock Failure Result
abbrev Calls := World Query Tables Write Lock Failure Result

def fail {β : Type} (e : Error) : Body β := .done (.error (.declared e))

def must {α β : Type} (q : Query (Option α)) (next : α → Body β) : Body β :=
  .ask q fun
    | none => .done (.error .noRows)
    | some a => next a

def inTx {β : Type} (reply : β → Reply) (body : Body β) : Operation :=
  .ask (.tx false body) fun r => .done (r.map reply)

def holds (row : Row) (epoch : Nat) : Bool := row.leaseHolder.isSome && row.leaseEpoch == epoch

def leaseOf (row : Row) : Lease := ⟨row.leaseID.getD [],row.leaseEpoch⟩

def stateOf (row : Row) : State :=
  ⟨row.pageSize.toUInt32,row.pageCount.toUInt64,row.version,row.lastCommitID.getD []⟩

def Row.active (row : Row) (now : Time) : Bool :=
  row.leaseHolder.isSome && row.leaseExpires.any (fun expires => decide (now < expires))

def Row.since (row : Row) : Time := row.leaseGranted.getD 0

def grantLease (req : OpenRequest) (newLeaseID : Bytes) (row : Row) : Body OpenResult :=
  let active := row.active req.now
  if active && !req.takeover && !bytesEqual row.leaseHolder req.instanceID then fail (.leaseHeld row.since)
  else must (.grantLease req.key newLeaseID req.instanceID req.now (req.now+req.ttl)) fun epoch =>
    .done (.ok ⟨⟨newLeaseID,epoch⟩,stateOf row,active⟩)

def resumeOrGrant (req : OpenRequest) (newLeaseID : Bytes) (row : Row) : Body OpenResult :=
  match req.resume with
  | some resume =>
      if !holds row resume.leaseEpoch || row.leaseID.getD [] != resume.leaseID then fail .fenced
      else .ask (.extendLease req.key row.leaseEpoch (req.now+req.ttl)) fun _ =>
        .done (.ok ⟨leaseOf row,stateOf row,false⟩)
  | none => grantLease req newLeaseID row

def reviveDatabase {β : Type} (req : OpenRequest) (next : Row → Body β) : Body β :=
  if req.resume.isSome then fail .fenced
  else if !req.create then fail .notFound
  else if !validPageSize req.pageSize then fail (.badRequest (.invalidPageSize req.pageSize))
  else must (.reviveDatabase req.key req.pageSize.toInt32) next

def openRow (req : OpenRequest) (newLeaseID : Bytes) (row : Row) : Body OpenResult :=
  if row.deleted then reviveDatabase req (resumeOrGrant req newLeaseID)
  else if req.pageSize ≠ 0 ∧ row.pageSize.toUInt32 ≠ req.pageSize then
    fail (.badRequest (.otherPageSize req.pageSize row.pageSize.toUInt32))
  else resumeOrGrant req newLeaseID row

def createDatabase {β : Type} (req : OpenRequest) (next : Row → Body β) : Body β :=
  if !req.create || req.resume.isSome then fail .notFound
  else if !validPageSize req.pageSize then fail (.badRequest (.invalidPageSize req.pageSize))
  else .ask (.createDatabase req.key req.pageSize.toInt32) fun
    | some row => next row
    -- Another transaction inserted the row first.
    | none => must (.lockDatabase req.key) next

def openDatabase (req : OpenRequest) (newLeaseID : Bytes) : Body OpenResult :=
  .ask (.lockDatabase req.key) fun
    | some row => openRow req newLeaseID row
    | none => createDatabase req (openRow req newLeaseID)

def openBody (req : OpenRequest) (newLeaseID : Bytes) : Body OpenResult :=
  if req.owner ≠ "" then .ask (.shareSlot req.owner) fun
    | some slot => if slot.subject ≠ req.key.subject then fail .slotTaken else openDatabase req newLeaseID
    | none => openDatabase req newLeaseID
  else openDatabase req newLeaseID

-- copy(blocks[idx-first][part*partBytes:], data)
def copyPart (first : UInt64) (blocks : List Bytes) (p : Part) : List Bytes :=
  blocks.modify (p.idx.toUInt64-first).toNat (fun block => overwrite block (p.part*partBytes) p.data)

def fetchBody (key : Key) (version : Nat) (first count : UInt64) : Body (List Bytes) :=
  .ask (.getDatabase key) fun
    | none => fail .notFound
    | some row =>
        if row.deleted then fail .notFound
        else if version ≠ row.version then fail (.versionConflict row.version)
        else match checkRange first count row.pageCount.toUInt64 with
        | some reason => fail (.badRequest reason)
        | none => .ask (.fetchBlocks key first.toInt64 (first+count).toInt64) fun written =>
            .done (.ok (written.foldl (copyPart first) (List.replicate count.toNat (zeros row.pageSize.toUInt32))))

def blockParts (block : Block) : List Part :=
  (List.range (chunkCount partBytes block.data)).map
    (fun n => ⟨block.index.toInt64,n,chunk partBytes block.data n⟩)

def putBlocks {β : Type} (key : Key) (blocks : List Block) (next : Body β) : Body β :=
  if blocks.isEmpty then next else .ask (.putBlocks key (blocks.flatMap blockParts)) fun _ => next

def touchedRows (blocks : List Block) : List Int64 :=
  (blocks.map (fun block => block.index.toInt64)).insertionSort (· ≤ ·)

def recordChange {β : Type} (key : Key) (version : Nat) (blocks : List Block) (next : Body β) : Body β :=
  .ask (.recordChange key version (touchedRows blocks)) fun _ =>
    if version ≤ changeWindow then next
    else .ask (.pruneChanges key (version-changeWindow)) fun _ => next

def Row.repeats (row : Row) (req : CommitRequest) : Bool :=
  row.version == (req.baseVersion+1).toNat && !req.commitID.isEmpty && row.lastCommitID.getD [] == req.commitID

def applyCommit (req : CommitRequest) : Body Nat :=
  putBlocks req.key req.blocks
    (.ask (.deleteBlocksFrom req.key req.pageCount.toInt64) fun _ =>
      must (.applyCommit req.key req.pageCount.toInt64 req.commitID (req.now+req.ttl)) fun version =>
        recordChange req.key version req.blocks (.done (.ok version)))

def commitBody (req : CommitRequest) : Body Nat :=
  .ask (.lockDatabase req.key) fun
    | none => fail .notFound
    | some row =>
        if !holds row req.leaseEpoch then fail .fenced
        else if row.repeats req then
          .ask (.extendLease req.key row.leaseEpoch (req.now+req.ttl)) fun _ => .done (.ok row.version)
        else if row.version ≠ req.baseVersion.toNat then fail (.versionConflict row.version)
        else match validateCommit row.pageSize.toUInt32 req with
        | some reason => fail (.badRequest reason)
        | none => applyCommit req

def changedBlocks (rows : List (Nat × List Int64)) : List UInt64 :=
  ((rows.flatMap (fun entry => entry.2.map Int64.toUInt64)).dedup).insertionSort (· ≤ ·)

def changesBody (key : Key) (fromVersion : Nat) : Body ChangeSet :=
  .ask (.getDatabase key) fun
    | none => fail .notFound
    | some row =>
        if row.deleted then fail .notFound
        else if row.version < fromVersion then fail (.badRequest (.versionAhead fromVersion row.version))
        else if fromVersion = row.version then .done (.ok ⟨fromVersion,row.version,[],true⟩)
        else .ask (.oldestChange key) fun oldest =>
          if oldest = 0 ∨ fromVersion+1 < oldest then .done (.ok ⟨fromVersion,row.version,[],false⟩)
          else .ask (.changedSince key fromVersion) fun rows =>
            .done (.ok ⟨fromVersion,row.version,changedBlocks rows,true⟩)

-- Renew and Release run their statement outside a transaction, and ask for the row if it
-- changed none.
def whyNoRow (key : Key) (rows : Nat) : Operation :=
  if 0 < rows then .done (.ok .done)
  else .ask (.auto (.databaseExists key)) fun present =>
    .done (.error (.declared (if present then .fenced else .notFound)))

def renew (key : Key) (epoch : Nat) (now : Time) (ttl : Duration) : Operation :=
  .ask (.auto (.extendLease key epoch (now+ttl))) (whyNoRow key)

def release (key : Key) (epoch : Nat) : Operation := .ask (.auto (.releaseLease key epoch)) (whyNoRow key)

def remove {β : Type} (key : Key) (next : Nat → Body β) : Body β :=
  .ask (.deleteBlocksFrom key 0) fun _ => .ask (.deleteChanges key) fun _ => must (.deleteDatabase key) next

def deleteBody (req : DeleteRequest) : Body DeleteResult :=
  .ask (.lockDatabase req.key) fun
    | none => .done (.ok ⟨0,false⟩)
    | some row =>
        if row.deleted then .done (.ok ⟨0,false⟩)
        else if row.active req.now && !req.takeover then fail (.leaseHeld row.since)
        else remove req.key fun epoch => .done (.ok ⟨epoch,row.active req.now⟩)

def sweepBody (cutoff : Time) (key : Key) : Body Bool :=
  must (.lockDatabase key) fun row =>
    if row.deleted || !row.leaseExpires.any (fun expires => decide (expires < cutoff)) then .done (.ok false)
    else .ask (.holdsSlot key.subject) fun held =>
      if held then .ask (.purgeDatabase key) fun _ => .done (.ok true)
      else remove key fun _ => .done (.ok true)

-- The keys removed before an error are returned with it.
def sweepAll (cutoff : Time) (finish : List Key → Option Failure → Operation) (removed : List Key) :
    List Key → Operation
  | [] => finish removed none
  | key :: rest => .ask (.tx false (sweepBody cutoff key)) fun
      | .error e => finish removed (some e)
      | .ok true => sweepAll cutoff finish (removed ++ [key]) rest
      | .ok false => sweepAll cutoff finish removed rest

def deleteUnused (cutoff : Time) (limit : Nat) (tie : Key → Nat) : Operation :=
  .ask (.auto (.unusedDatabases cutoff (min limit (2^30)) tie)) fun candidates =>
    sweepAll cutoff (fun removed failed =>
      match failed with
      | some e => .done (.error e)
      | none => .ask (.auto (.unusedSlots cutoff)) fun unused =>
          .ask (.auto (.releaseSlots unused)) fun _ => .done (.ok (.unused removed))) [] candidates

def keysOf (purged : List (Key × Bool)) : List Key :=
  byDBID ((purged.filter (fun entry => !entry.2)).map (fun entry => entry.1))

def purgeSubject {β : Type} (subject : String) (next : List (Key × Bool) → Body β) : Body β :=
  .ask (.subjectRows subject) fun rows => .ask (.purgeRows rows) next

def claimRow (req : ClaimRequest) (slot : Slot) : Body ClaimResult :=
  if slot.subject = req.subject then .done (.ok ⟨slot,none,[]⟩)
  else purgeSubject slot.subject fun purged =>
    must (.updateSlot req.owner ⟨req.subject,"",timestamp req.now⟩) fun updated =>
      .done (.ok ⟨updated,some slot,keysOf purged⟩)

def claimBody (req : ClaimRequest) : Body ClaimResult :=
  .ask (.lockSlot req.owner) fun
    | some slot => claimRow req slot
    | none => .ask (.insertSlot req.owner ⟨req.subject,"",timestamp req.now⟩) fun
        | some slot => .done (.ok ⟨slot,none,[]⟩)
        | none => must (.lockSlot req.owner) (claimRow req)

def setSlotLabel (owner subject label : String) : Operation :=
  .ask (.auto (.setSlotLabel owner subject label)) fun
    | some slot => .done (.ok (.labelled slot))
    | none => .ask (.auto (.getSlot owner)) fun slot =>
        .done (.error (.declared (if slot.isSome then .slotTaken else .notFound)))

def deleteSlotBody (owner subject : String) : Body (List Key) :=
  let purge : Body (List Key) := purgeSubject subject fun purged => .done (.ok (keysOf purged))
  .ask (.lockSlot owner) fun
    | none => purge
    | some slot =>
        if slot.subject ≠ subject then fail .slotTaken
        else .ask (.deleteSlotOf owner) fun _ => purge

def script : Op → Operation
  | .openDatabase req newLeaseID => inTx .opened (openBody req newLeaseID)
  | .fetch key version first count => .ask (.tx true (fetchBody key version first count)) fun r => .done (r.map .blocks)
  | .commit req => inTx .version (commitBody req)
  | .changes key fromVersion => inTx .changeSet (changesBody key fromVersion)
  | .renew key epoch now ttl => renew key epoch now ttl
  | .release key epoch => release key epoch
  | .delete req => inTx .deleted (deleteBody req)
  | .deleteUnused cutoff limit tie => deleteUnused cutoff limit tie
  | .getSlot owner => .ask (.auto (.getSlot owner)) fun slot => .done (.ok (.slot slot))
  | .claimSlot req => inTx .claimed (claimBody req)
  | .setSlotLabel owner subject label => setSlotLabel owner subject label
  | .deleteSlot owner subject => inTx .purged (deleteSlotBody owner subject)

def step (t : Tables) (op : Op) : Result × Tables := exec engine (script op) t

def aKey : Key := ⟨"alice","db"⟩

def anOpen (create : Bool) (holder : Bytes) (now : Time) : OpenRequest :=
  ⟨aKey,"owner",some holder,512,create,false,none,now,10000⟩

def aCommit (id : Bytes) (base pageCount : UInt64) (blocks : List Block) : CommitRequest :=
  ⟨aKey,id,1,base,pageCount,blocks,0,10000⟩

def aBlock (index : UInt64) : Block := ⟨index,List.replicate 512 7⟩

end SqliteRemote.Postgres
