import SqliteRemote.Rows
import SqliteRemote.History
import SqliteRemote.StoreContract

/-! The memory store, operation by operation. Every operation runs under one mutex, so a
concurrent use is some sequence of these steps. A failing operation returns the state its
code leaves behind; that it is the old one is not built in. -/
namespace SqliteRemote.MemoryStore
open Rows StoreContract

structure Change where
  version : Nat
  blocks : List UInt64
  deriving DecidableEq, Repr

structure Database where
  deleted : Bool
  state : State
  blocks : UInt64 → Option Bytes
  changes : List Change
  lease : Lease
  holder : Option Bytes
  grantedAt : Time
  expiresAt : Time

structure Store where
  dbs : Table Key Database
  slots : Table String Slot

def new : Store := ⟨∅,∅⟩

def Store.put (s : Store) (key : Key) (db : Database) : Store := {s with dbs := s.dbs.insert key db}

def Database.fresh (pageSize : UInt32) : Database :=
  ⟨false,⟨pageSize,0,0,[]⟩,fun _ => none,[],⟨[],0⟩,none,0,0⟩

def Database.active (db : Database) (now : Time) : Bool := db.holder.isSome && decide (now < db.expiresAt)

def Database.holds (db : Database) (epoch : Nat) : Bool := db.holder.isSome && db.lease.epoch == epoch

def Database.extend (db : Database) (expiresAt : Time) : Database := {db with expiresAt := expiresAt}

def Database.revive (db : Database) (pageSize : UInt32) : Database :=
  {db with deleted := false, state := {db.state with pageSize := pageSize}}

def Database.grant (db : Database) (req : OpenRequest) (newLeaseID : Bytes) : Database :=
  {db with
    lease := ⟨newLeaseID,db.lease.epoch+1⟩
    holder := req.instanceID
    grantedAt := req.now
    expiresAt := req.now+req.ttl}

def Store.resume (s : Store) (req : OpenRequest) (r : Resume) (db : Database) : Except Error OpenResult × Store :=
  if !db.holds r.leaseEpoch || db.lease.id != r.leaseID then (.error .fenced,s)
  else (.ok ⟨db.lease,db.state,false⟩,s.put req.key (db.extend (req.now+req.ttl)))

def Store.grant (s : Store) (req : OpenRequest) (newLeaseID : Bytes) (db : Database) :
    Except Error OpenResult × Store :=
  if db.active req.now && !req.takeover && !bytesEqual db.holder req.instanceID then
    (.error (.leaseHeld db.grantedAt),s)
  else
    let granted := db.grant req newLeaseID
    (.ok ⟨granted.lease,granted.state,db.active req.now⟩,s.put req.key granted)

def Store.lease (s : Store) (req : OpenRequest) (newLeaseID : Bytes) (db : Database) :
    Except Error OpenResult × Store :=
  match req.resume with
  | some r => s.resume req r db
  | none => s.grant req newLeaseID db

def Store.checkedLease (s : Store) (req : OpenRequest) (newLeaseID : Bytes) (db : Database) :
    Except Error OpenResult × Store :=
  if req.pageSize ≠ 0 ∧ req.pageSize ≠ db.state.pageSize then
    (.error (.badRequest (.otherPageSize req.pageSize db.state.pageSize)),s)
  else s.lease req newLeaseID db

def Store.slotTaken (s : Store) (owner subject : String) : Bool :=
  match s.slots.lookup owner with
  | some slot => owner != "" && slot.subject != subject
  | none => false

def Store.open (s : Store) (req : OpenRequest) (newLeaseID : Bytes) : Except Error OpenResult × Store :=
  if s.slotTaken req.owner req.key.subject then (.error .slotTaken,s)
  else match s.dbs.lookup req.key with
  | some db =>
      if db.deleted then
        if req.resume.isSome then (.error .fenced,s)
        else if !req.create then (.error .notFound,s)
        else if !validPageSize req.pageSize then (.error (.badRequest (.invalidPageSize req.pageSize)),s)
        else
          -- Created anew in place, before the checks that follow.
          let revived := db.revive req.pageSize
          (s.put req.key revived).checkedLease req newLeaseID revived
      else s.checkedLease req newLeaseID db
  | none =>
      if !req.create || req.resume.isSome then (.error .notFound,s)
      else if !validPageSize req.pageSize then (.error (.badRequest (.invalidPageSize req.pageSize)),s)
      else
        let fresh := Database.fresh req.pageSize
        (s.put req.key fresh).lease req newLeaseID fresh

def Database.content (db : Database) (index : UInt64) : Bytes :=
  (db.blocks index).getD (zeros db.state.pageSize)

def Store.fetch (s : Store) (key : Key) (version : Nat) (first count : UInt64) : Except Error (List Bytes) :=
  match s.dbs.lookup key with
  | none => .error .notFound
  | some db =>
      if db.deleted then .error .notFound
      else if version ≠ db.state.version then .error (.versionConflict db.state.version)
      else match checkRange first count db.state.pageCount with
      | some reason => .error (.badRequest reason)
      | none => .ok ((List.range count.toNat).map (fun i => db.content (first + UInt64.ofNat i)))

/- Fetch has passed its checks and makes a slice of the count, which panics if it is too long. -/
def Store.fetchPanics (s : Store) (maxSlice : Nat) (key : Key) (version : Nat) (first count : UInt64) : Bool :=
  (s.fetch key version first count).isOk && decide (maxSlice < count.toNat)

def writeBlocks (blocks : UInt64 → Option Bytes) (written : List Block) : UInt64 → Option Bytes :=
  written.foldl (fun m b => Function.update m b.index (some b.data)) blocks

def cutBlocks (blocks : UInt64 → Option Bytes) (pageCount : UInt64) : UInt64 → Option Bytes :=
  fun index => if pageCount ≤ index then none else blocks index

def lastChanges (log : List Change) : List Change :=
  if changeWindow < log.length then log.drop (log.length - changeWindow) else log

def touched (blocks : List Block) : List UInt64 := (blocks.map Block.index).insertionSort (· ≤ ·)

def Database.apply (db : Database) (req : CommitRequest) : Database :=
  {db with
    blocks := cutBlocks (writeBlocks db.blocks req.blocks) req.pageCount
    state := {db.state with
      pageCount := req.pageCount
      version := db.state.version+1
      lastCommitID := req.commitID}
    expiresAt := req.now+req.ttl
    changes := lastChanges (db.changes ++ [⟨db.state.version+1,touched req.blocks⟩])}

-- The last commit again, e.g. after a lost acknowledgement. BaseVersion+1 wraps at 2^64.
def Database.repeats (db : Database) (req : CommitRequest) : Bool :=
  db.state.version == (req.baseVersion+1).toNat && !req.commitID.isEmpty && db.state.lastCommitID == req.commitID

def Store.commit (s : Store) (req : CommitRequest) : Except Error Nat × Store :=
  match s.dbs.lookup req.key with
  | none => (.error .notFound,s)
  | some db =>
      if !db.holds req.leaseEpoch then (.error .fenced,s)
      else if db.repeats req then (.ok db.state.version,s.put req.key (db.extend (req.now+req.ttl)))
      else if db.state.version ≠ req.baseVersion.toNat then (.error (.versionConflict db.state.version),s)
      else match validateCommit db.state.pageSize req with
      | some reason => (.error (.badRequest reason),s)
      | none => (.ok (db.state.version+1),s.put req.key (db.apply req))

def changedSince (log : List Change) (fromVersion : Nat) : List UInt64 :=
  ((log.filter (fun c => fromVersion < c.version)).flatMap Change.blocks).dedup.insertionSort (· ≤ ·)

def Database.changeSet (db : Database) (fromVersion : Nat) : ChangeSet :=
  if fromVersion = db.state.version then ⟨fromVersion,db.state.version,[],true⟩
  else match db.changes with
  | [] => ⟨fromVersion,db.state.version,[],false⟩
  | oldest :: _ =>
      if fromVersion+1 < oldest.version then ⟨fromVersion,db.state.version,[],false⟩
      else ⟨fromVersion,db.state.version,changedSince db.changes fromVersion,true⟩

def Store.changes (s : Store) (key : Key) (fromVersion : Nat) : Except Error ChangeSet :=
  match s.dbs.lookup key with
  | none => .error .notFound
  | some db =>
      if db.deleted then .error .notFound
      else if db.state.version < fromVersion then .error (.badRequest (.versionAhead fromVersion db.state.version))
      else .ok (db.changeSet fromVersion)

def Store.renew (s : Store) (key : Key) (epoch : Nat) (now : Time) (ttl : Duration) : Except Error Unit × Store :=
  match s.dbs.lookup key with
  | none => (.error .notFound,s)
  | some db =>
      if !db.holds epoch then (.error .fenced,s)
      else (.ok (),s.put key (db.extend (now+ttl)))

def Database.release (db : Database) : Database := {db with holder := none}

def Store.release (s : Store) (key : Key) (epoch : Nat) : Except Error Unit × Store :=
  match s.dbs.lookup key with
  | none => (.error .notFound,s)
  | some db =>
      if !db.holds epoch then (.error .fenced,s)
      else (.ok (),s.put key db.release)

def Database.remove (db : Database) : Database :=
  {db with
    deleted := true
    blocks := fun _ => none
    changes := []
    state := ⟨db.state.pageSize,0,db.state.version+1,[]⟩
    lease := ⟨[],db.lease.epoch+1⟩
    holder := none}

def Store.delete (s : Store) (req : DeleteRequest) : Except Error DeleteResult × Store :=
  match s.dbs.lookup req.key with
  | none => (.ok ⟨0,false⟩,s)
  | some db =>
      if db.deleted then (.ok ⟨0,false⟩,s)
      else if db.active req.now && !req.takeover then (.error (.leaseHeld db.grantedAt),s)
      else (.ok ⟨db.remove.lease.epoch,db.active req.now⟩,s.put req.key db.remove)

def Store.expiry (s : Store) (key : Key) : Time := ((s.dbs.lookup key).map Database.expiresAt).getD 0

def Store.slotHolders (s : Store) : List String := s.slots.entries.map (fun e => e.2.subject)

def Store.hasDatabases (s : Store) (subject : String) : Bool :=
  anyRow s.dbs (fun k db => k.subject == subject && !db.deleted)

def Store.unused (s : Store) (cutoff : Time) (limit : Nat) (tie : Key → Nat) : List Key :=
  let expired := oldestFirst s.expiry tie
    (keysWhere s.dbs (fun _ db => !db.deleted && decide (db.expiresAt < cutoff)))
  if limit < expired.length then expired.take limit else expired

def Store.drop (holders : List String) (s : Store) (key : Key) : Store :=
  if key.subject ∈ holders then {s with dbs := s.dbs.erase key}
  else match s.dbs.lookup key with
  | some db => s.put key db.remove
  | none => s

def Store.deleteUnused (s : Store) (cutoff : Time) (limit : Nat) (tie : Key → Nat) : List Key × Store :=
  let unused := s.unused cutoff limit tie
  let swept := unused.foldl (Store.drop s.slotHolders) s
  (unused,{swept with
    slots := eraseWhere swept.slots
      (fun _ slot => decide (slot.claimedAt < cutoff) && !swept.hasDatabases slot.subject)})

def Store.purge (s : Store) (subject : String) : List Key × Store :=
  (byDBID (keysWhere s.dbs (fun k db => k.subject == subject && !db.deleted)),
    {s with dbs := eraseWhere s.dbs (fun k _ => k.subject == subject)})

def Store.claimSlot (s : Store) (req : ClaimRequest) : ClaimResult × Store :=
  match s.slots.lookup req.owner with
  | some old =>
      if old.subject = req.subject then (⟨old,none,[]⟩,s)
      else
        let slot := ⟨req.subject,"",req.now⟩
        let (deleted,purged) := s.purge old.subject
        (⟨slot,some old,deleted⟩,{purged with slots := purged.slots.insert req.owner slot})
  | none =>
      let slot := ⟨req.subject,"",req.now⟩
      (⟨slot,none,[]⟩,{s with slots := s.slots.insert req.owner slot})

def Store.setSlotLabel (s : Store) (owner subject label : String) : Except Error Slot × Store :=
  match s.slots.lookup owner with
  | none => (.error .notFound,s)
  | some slot =>
      if slot.subject ≠ subject then (.error .slotTaken,s)
      else
        let labelled := {slot with label := label}
        (.ok labelled,{s with slots := s.slots.insert owner labelled})

def Store.deleteSlot (s : Store) (owner subject : String) : Except Error (List Key) × Store :=
  match s.slots.lookup owner with
  | some slot =>
      if slot.subject ≠ subject then (.error .slotTaken,s)
      else
        let (deleted,purged) := Store.purge {s with slots := s.slots.erase owner} subject
        (.ok deleted,purged)
  | none =>
      let (deleted,purged) := s.purge subject
      (.ok deleted,purged)

def answer {α : Type} (reply : α → Reply) : Except Error α × Store → Answer × Store
  | (.ok a,s) => (.ok (reply a),s)
  | (.error e,s) => (.error e,s)

def step (s : Store) : Op → Answer × Store
  | .openDatabase req newLeaseID => answer .opened (s.open req newLeaseID)
  | .fetch key version first count => answer .blocks (s.fetch key version first count,s)
  | .commit req => answer .version (s.commit req)
  | .changes key fromVersion => answer .changeSet (s.changes key fromVersion,s)
  | .renew key epoch now ttl => answer (fun _ => .done) (s.renew key epoch now ttl)
  | .release key epoch => answer (fun _ => .done) (s.release key epoch)
  | .delete req => answer .deleted (s.delete req)
  | .deleteUnused cutoff limit tie =>
      let (keys,swept) := s.deleteUnused cutoff limit tie
      (.ok (.unused keys),swept)
  | .getSlot owner => (.ok (.slot (s.slots.lookup owner)),s)
  | .claimSlot req =>
      let (result,claimed) := s.claimSlot req
      (.ok (.claimed result),claimed)
  | .setSlotLabel owner subject label => answer .labelled (s.setSlotLabel owner subject label)
  | .deleteSlot owner subject => answer .purged (s.deleteSlot owner subject)

abbrev Event := History.Event Store Op Answer
abbrev run := History.run step
abbrev history := History.history step new

end SqliteRemote.MemoryStore
