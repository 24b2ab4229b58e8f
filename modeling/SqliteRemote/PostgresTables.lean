import SqliteRemote.Rows
import SqliteRemote.StoreContract
import SqliteRemote.RowLocking

/-! The PostgreSQL tables and the queries of queries.sql, each with its SQL meaning: what it
answers, which rows it writes and which it locks. Rows that refer to a database go with it.
A bigint column is Int64 where the code converts a client's number to it, and a natural number
where the store only counts in it. A timestamptz has microseconds. -/
namespace SqliteRemote.Postgres
open Rows StoreContract RowLocking

structure Row where
  pageSize : Int32
  pageCount : Int64
  version : Nat
  lastCommitID : Option Bytes
  leaseEpoch : Nat
  leaseID : Option Bytes
  leaseHolder : Option Bytes
  leaseGranted : Option Time
  leaseExpires : Option Time
  deleted : Bool
  deriving DecidableEq, Repr

structure PartKey where
  key : Key
  idx : Int64
  part : Nat
  deriving DecidableEq, Repr

structure Part where
  idx : Int64
  part : Nat
  data : Bytes
  deriving DecidableEq, Repr

structure ChangeKey where
  key : Key
  version : Nat
  deriving DecidableEq, Repr

inductive Lock where
  | database (key : Key)
  | slot (owner : String)
  deriving DecidableEq, Repr

/- A row that is made again after its deletion is another row, so the deletions are counted. -/
structure Tables where
  databases : Table Key Row
  blocks : Table PartKey Bytes
  changes : Table ChangeKey (List Int64)
  slots : Table String Slot
  deletions : Lock → Nat

def empty : Tables := ⟨∅,∅,∅,∅,fun _ => 0⟩

inductive Write where
  | database (key : Key) (row : Row)
  | purge (key : Key)
  | part (key : Key) (p : Part)
  | cutBlocks (key : Key) (idx : Int64)
  | change (key : Key) (version : Nat) (blocks : List Int64)
  | pruneChanges (key : Key) (version : Nat)
  | clearChanges (key : Key)
  | slot (owner : String) (slot : Slot)
  | dropSlot (owner : String)

def Tables.without (t : Tables) (row : Lock) : Lock → Nat := Function.update t.deletions row (t.deletions row+1)

def Write.apply (t : Tables) : Write → Tables
  | .database key row => {t with databases := t.databases.insert key row}
  | .purge key => {t with
      databases := t.databases.erase key
      blocks := eraseWhere t.blocks (fun p _ => p.key == key)
      changes := eraseWhere t.changes (fun c _ => c.key == key)
      deletions := t.without (.database key)}
  | .part key p => {t with blocks := t.blocks.insert ⟨key,p.idx,p.part⟩ p.data}
  | .cutBlocks key idx => {t with blocks := eraseWhere t.blocks (fun p _ => p.key == key && decide (idx ≤ p.idx))}
  | .change key version blocks => {t with changes := t.changes.insert ⟨key,version⟩ blocks}
  | .pruneChanges key version =>
      {t with changes := eraseWhere t.changes (fun c _ => c.key == key && decide (c.version ≤ version))}
  | .clearChanges key => {t with changes := eraseWhere t.changes (fun c _ => c.key == key)}
  | .slot owner held => {t with slots := t.slots.insert owner held}
  | .dropSlot owner => {t with slots := t.slots.erase owner, deletions := t.without (.slot owner)}

-- The parameter of a timestamptz, as the driver encodes it.
def timestamp (t : Time) : Time := t / 1000 * 1000

def newRow (pageSize : Int32) : Row := ⟨pageSize,0,0,none,0,none,none,none,none,false⟩

structure Chosen (α : Type) where
  id : α
  deletions : Nat
  deriving DecidableEq, Repr

/- The slots that ReleaseUnusedSlots has chosen, and its condition, whose subquery sees the databases
as they were when it started. -/
structure Unused where
  owners : List (Chosen String)
  condition : Slot → Bool

/- PurgeSubject and ReleaseUnusedSlots choose their rows when they start. Once the locks are free they
skip a row that is gone, even if it was made again, and look at one that was changed again before they
delete it. So each of them is two questions. -/
inductive Query : Type → Type where
  | lockDatabase (key : Key) : Query (Option Row)
  | getDatabase (key : Key) : Query (Option Row)
  | databaseExists (key : Key) : Query Bool
  | createDatabase (key : Key) (pageSize : Int32) : Query (Option Row)
  | grantLease (key : Key) (id : Bytes) (holder : Option Bytes) (granted expires : Time) : Query (Option Nat)
  | extendLease (key : Key) (epoch : Nat) (expires : Time) : Query Nat
  | releaseLease (key : Key) (epoch : Nat) : Query Nat
  | fetchBlocks (key : Key) (first beyond : Int64) : Query (List Part)
  | putBlocks (key : Key) (parts : List Part) : Query Unit
  | deleteBlocksFrom (key : Key) (idx : Int64) : Query Unit
  | applyCommit (key : Key) (pageCount : Int64) (lastCommitID : Bytes) (expires : Time) : Query (Option Nat)
  | recordChange (key : Key) (version : Nat) (blocks : List Int64) : Query Unit
  | pruneChanges (key : Key) (version : Nat) : Query Unit
  | changedSince (key : Key) (version : Nat) : Query (List (Nat × List Int64))
  | oldestChange (key : Key) : Query Nat
  | deleteDatabase (key : Key) : Query (Option Nat)
  | unusedDatabases (cutoff : Time) (limit : Nat) (tie : Key → Nat) : Query (List Key)
  | deleteChanges (key : Key) : Query Unit
  | reviveDatabase (key : Key) (pageSize : Int32) : Query (Option Row)
  | getSlot (owner : String) : Query (Option Slot)
  | lockSlot (owner : String) : Query (Option Slot)
  | shareSlot (owner : String) : Query (Option Slot)
  | insertSlot (owner : String) (slot : Slot) : Query (Option Slot)
  | updateSlot (owner : String) (slot : Slot) : Query (Option Slot)
  | setSlotLabel (owner subject label : String) : Query (Option Slot)
  | deleteSlotOf (owner : String) : Query Unit
  | subjectRows (subject : String) : Query (List (Chosen Key))
  | purgeRows (rows : List (Chosen Key)) : Query (List (Key × Bool))
  | purgeDatabase (key : Key) : Query Unit
  | holdsSlot (subject : String) : Query Bool
  | unusedSlots (cutoff : Time) : Query Unused
  | releaseSlots (unused : Unused) : Query Unit

def Row.granted (row : Row) (id : Bytes) (holder : Option Bytes) (granted expires : Time) : Row :=
  {row with
    leaseEpoch := row.leaseEpoch+1
    leaseID := some id
    leaseHolder := holder
    leaseGranted := some granted
    leaseExpires := some expires}

def Row.usable (row : Row) (epoch : Nat) : Bool := row.leaseEpoch == epoch && row.leaseHolder.isSome

def Row.extended (row : Row) (expires : Time) : Row := {row with leaseExpires := some expires}

def Row.released (row : Row) : Row := {row with leaseHolder := none}

def Row.applied (row : Row) (pageCount : Int64) (lastCommitID : Bytes) (expires : Time) : Row :=
  {row with
    pageCount := pageCount
    version := row.version+1
    lastCommitID := some lastCommitID
    leaseExpires := some expires}

def Row.dropped (row : Row) : Row :=
  {row with
    deleted := true
    pageCount := 0
    version := row.version+1
    lastCommitID := none
    leaseEpoch := row.leaseEpoch+1
    leaseID := none
    leaseHolder := none
    leaseGranted := none
    leaseExpires := none}

def Row.revived (row : Row) (pageSize : Int32) : Row := {row with deleted := false, pageSize := pageSize}

def Tables.row (t : Tables) (key : Key) : Option Row := t.databases.lookup key

def Tables.usable (t : Tables) (key : Key) (epoch : Nat) : Option Row :=
  (t.row key).filter (fun row => row.usable epoch)

def partOrder (a b : Part) : Prop := a.idx < b.idx ∨ a.idx = b.idx ∧ a.part ≤ b.part
instance : DecidableRel partOrder := fun a b => by unfold partOrder; infer_instance

def Tables.parts (t : Tables) (key : Key) (first beyond : Int64) : List Part :=
  ((t.blocks.entries.filter (fun e => e.1.key == key && decide (first ≤ e.1.idx) && decide (e.1.idx < beyond))).map
    (fun e => (⟨e.1.idx,e.1.part,e.2⟩ : Part))).insertionSort partOrder

def Tables.log (t : Tables) (key : Key) : List (Nat × List Int64) :=
  ((t.changes.entries.filter (fun e => e.1.key == key)).map (fun e => (e.1.version,e.2))).insertionSort
    (fun a b => a.1 ≤ b.1)

def Tables.expiry (t : Tables) (key : Key) : Time := ((t.row key).bind Row.leaseExpires).getD 0

def Tables.unused (t : Tables) (cutoff : Time) (limit : Nat) (tie : Key → Nat) : List Key :=
  (oldestFirst t.expiry tie (keysWhere t.databases (fun _ row =>
    !row.deleted && row.leaseExpires.any (fun expires => decide (expires < cutoff))))).take limit

def Tables.owner (t : Tables) (owner subject : String) : Option Slot :=
  (t.slots.lookup owner).filter (fun slot => slot.subject == subject)

def Tables.chooseRow (t : Tables) (key : Key) : Chosen Key := ⟨key,t.deletions (.database key)⟩

def Tables.chosenRow (t : Tables) (row : Chosen Key) : Option Row :=
  if t.deletions (.database row.id) = row.deletions then t.row row.id else none

def Tables.remaining (t : Tables) (rows : List (Chosen Key)) : List Key :=
  (rows.filter (fun chosen => (t.chosenRow chosen).isSome)).map Chosen.id

def Tables.chooseSlot (t : Tables) (owner : String) : Chosen String := ⟨owner,t.deletions (.slot owner)⟩

def Tables.chosenSlot (t : Tables) (owner : Chosen String) : Option Slot :=
  if t.deletions (.slot owner.id) = owner.deletions then t.slots.lookup owner.id else none

def Tables.releasable (t : Tables) (unused : Unused) : List String :=
  (unused.owners.filter (fun owner => (t.chosenSlot owner).any unused.condition)).map Chosen.id

def Tables.unusedSlot (t : Tables) (cutoff : Time) (slot : Slot) : Bool :=
  decide (slot.claimedAt < timestamp cutoff) &&
    !anyRow t.databases (fun key row => key.subject == slot.subject && !row.deleted)

def Query.answer {β : Type} : Query β → Tables → β
  | .lockDatabase key,t => t.row key
  | .getDatabase key,t => t.row key
  | .databaseExists key,t => (t.row key).isSome
  | .createDatabase key pageSize,t => if (t.row key).isSome then none else some (newRow pageSize)
  | .grantLease key _ _ _ _,t => (t.row key).map (fun row => row.leaseEpoch+1)
  | .extendLease key epoch _,t => if (t.usable key epoch).isSome then 1 else 0
  | .releaseLease key epoch,t => if (t.usable key epoch).isSome then 1 else 0
  | .fetchBlocks key first beyond,t => t.parts key first beyond
  | .putBlocks _ _,_ => ()
  | .deleteBlocksFrom _ _,_ => ()
  | .applyCommit key _ _ _,t => (t.row key).map (fun row => row.version+1)
  | .recordChange _ _ _,_ => ()
  | .pruneChanges _ _,_ => ()
  | .changedSince key version,t => (t.log key).filter (fun entry => decide (version < entry.1))
  | .oldestChange key,t => ((t.log key).head?.map (fun entry => entry.1)).getD 0
  | .deleteDatabase key,t => (t.row key).map (fun row => row.leaseEpoch+1)
  | .unusedDatabases cutoff limit tie,t => t.unused (timestamp cutoff) limit tie
  | .deleteChanges _,_ => ()
  | .reviveDatabase key pageSize,t => (t.row key).map (fun row => row.revived pageSize)
  | .getSlot owner,t => t.slots.lookup owner
  | .lockSlot owner,t => t.slots.lookup owner
  | .shareSlot owner,t => t.slots.lookup owner
  | .insertSlot owner slot,t => if (t.slots.lookup owner).isSome then none else some slot
  | .updateSlot owner slot,t => (t.slots.lookup owner).map (fun _ => slot)
  | .setSlotLabel owner subject label,t => (t.owner owner subject).map (fun slot => {slot with label := label})
  | .deleteSlotOf _,_ => ()
  | .subjectRows subject,t => (keysWhere t.databases (fun key _ => key.subject == subject)).map t.chooseRow
  | .purgeRows rows,t => rows.filterMap (fun chosen => (t.chosenRow chosen).map (fun row => (chosen.id,row.deleted)))
  | .purgeDatabase _,_ => ()
  | .holdsSlot subject,t => anyRow t.slots (fun _ slot => slot.subject == subject)
  | .unusedSlots cutoff,t =>
      ⟨(keysWhere t.slots (fun _ slot => t.unusedSlot cutoff slot)).map t.chooseSlot,t.unusedSlot cutoff⟩
  | .releaseSlots _,_ => ()

def onRow (row : Option Row) (write : Row → Write) : List Write := (row.map write).toList

def Query.writes {β : Type} : Query β → Tables → List Write
  | .createDatabase key pageSize,t => if (t.row key).isSome then [] else [.database key (newRow pageSize)]
  | .grantLease key id holder granted expires,t => onRow (t.row key)
      (fun row => .database key (row.granted id holder (timestamp granted) (timestamp expires)))
  | .extendLease key epoch expires,t => onRow (t.usable key epoch)
      (fun row => .database key (row.extended (timestamp expires)))
  | .releaseLease key epoch,t => onRow (t.usable key epoch)
      (fun row => .database key row.released)
  | .putBlocks key parts,_ => parts.map (fun p => .part key p)
  | .deleteBlocksFrom key idx,_ => [.cutBlocks key idx]
  | .applyCommit key pageCount lastCommitID expires,t => onRow (t.row key)
      (fun row => .database key (row.applied pageCount lastCommitID (timestamp expires)))
  | .recordChange key version blocks,t =>
      if (t.changes.lookup ⟨key,version⟩).isSome then [] else [.change key version blocks]
  | .pruneChanges key version,_ => [.pruneChanges key version]
  | .deleteDatabase key,t => onRow (t.row key) (fun row => .database key row.dropped)
  | .deleteChanges key,_ => [.clearChanges key]
  | .reviveDatabase key pageSize,t => onRow (t.row key) (fun row => .database key (row.revived pageSize))
  | .insertSlot owner slot,t => if (t.slots.lookup owner).isSome then [] else [.slot owner slot]
  | .updateSlot owner slot,t => ((t.slots.lookup owner).map (fun _ => Write.slot owner slot)).toList
  | .setSlotLabel owner subject label,t =>
      ((t.owner owner subject).map (fun slot => Write.slot owner {slot with label := label})).toList
  | .deleteSlotOf owner,_ => [.dropSlot owner]
  | .purgeRows rows,t => (t.remaining rows).map Write.purge
  | .purgeDatabase key,_ => [.purge key]
  | .releaseSlots unused,t => (t.releasable unused).map Write.dropSlot
  | _,_ => []

def lockRow (key : Key) (mode : Mode) (row : Option Row) : List (Lock × Mode) :=
  if row.isSome then [(.database key,mode)] else []

def insertRow (lock : Lock) (present : Bool) : List (Lock × Mode) := [(lock,if present then .watch else .exclusive)]

def lockOwner (owner : String) (mode : Mode) (slot : Option Slot) : List (Lock × Mode) :=
  if slot.isSome then [(.slot owner,mode)] else []

/- A statement that finds no row locks nothing. An INSERT waits for a concurrent INSERT of the
same key, and for one who deletes the row it would conflict with. The rows of blocks and
changes are written under the lock of their database. -/
def Query.needs {β : Type} : Query β → Tables → List (Lock × Mode)
  | .lockDatabase key,t => lockRow key .exclusive (t.row key)
  | .createDatabase key _,t => insertRow (.database key) (t.row key).isSome
  | .grantLease key _ _ _ _,t => lockRow key .exclusive (t.row key)
  | .extendLease key epoch _,t => lockRow key .exclusive (t.usable key epoch)
  | .releaseLease key epoch,t => lockRow key .exclusive (t.usable key epoch)
  | .putBlocks key _,t => lockRow key .exclusive (t.row key)
  | .deleteBlocksFrom key _,t => lockRow key .exclusive (t.row key)
  | .applyCommit key _ _ _,t => lockRow key .exclusive (t.row key)
  | .recordChange key _ _,t => lockRow key .exclusive (t.row key)
  | .pruneChanges key _,t => lockRow key .exclusive (t.row key)
  | .deleteDatabase key,t => lockRow key .exclusive (t.row key)
  | .deleteChanges key,t => lockRow key .exclusive (t.row key)
  | .reviveDatabase key _,t => lockRow key .exclusive (t.row key)
  | .lockSlot owner,t => lockOwner owner .exclusive (t.slots.lookup owner)
  | .shareSlot owner,t => lockOwner owner .share (t.slots.lookup owner)
  | .insertSlot owner _,t => insertRow (.slot owner) (t.slots.lookup owner).isSome
  | .updateSlot owner _,t => lockOwner owner .exclusive (t.slots.lookup owner)
  | .setSlotLabel owner subject _,t => lockOwner owner .exclusive (t.owner owner subject)
  | .deleteSlotOf owner,t => lockOwner owner .remove (t.slots.lookup owner)
  | .purgeRows rows,t => rows.flatMap (fun chosen => lockRow chosen.id .remove (t.chosenRow chosen))
  | .purgeDatabase key,t => lockRow key .remove (t.row key)
  | .releaseSlots unused,t => unused.owners.flatMap (fun owner => lockOwner owner.id .remove (t.chosenSlot owner))
  | _,_ => []

def engine : Engine Query Tables Write Lock :=
  ⟨Query.answer,Query.writes,fun w t => w.apply t,Query.needs⟩

end SqliteRemote.Postgres
