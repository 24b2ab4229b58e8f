import SqliteRemote.PostgresRows

/-! The scripts run without interference, each as one equation over the tables. -/
namespace SqliteRemote.Postgres
open Rows Chunks StoreContract Programs RowLocking

section
variable (t : Tables)

theorem execAsk {α β : Type} (q : Query α) (next : α → Body β) :
    execBody engine (.ask q next) t = execBody engine (next (q.answer t)) (engine.after q t) := rfl

theorem afterWrites {α : Type} (q : Query α) : engine.after q t = engine.applyAll (q.writes t) t := rfl

theorem execDone {β : Type} (b : Except Failure β) : execBody engine (.done b : Body β) t = (b,t) := rfl

theorem execMust {α β : Type} {q : Query (Option α)} {a : α} (found : q.answer t = some a) (next : α → Body β) :
    execBody engine (must q next) t = execBody engine (next a) (engine.after q t) := by
  rw [must,execAsk,found]

theorem stepTx {β : Type} {op : Op} {reply : β → Reply} {body : Body β} (is : script op = inTx reply body) :
    step t op = ((settle t (execBody engine body t)).1.map reply,(settle t (execBody engine body t)).2) := by
  rw [step,is]
  rfl

end

section
variable {t : Tables} {key : Key} {row : Row} (found : t.row key = some row)
include found

theorem afterGrant (id : Bytes) (holder : Option Bytes) (granted expires : Time) :
    engine.after (.grantLease key id holder granted expires) t =
      t.put key (row.granted id holder (timestamp granted) (timestamp expires)) := by
  simp [Engine.after,engine,Query.writes,onRow,found,Engine.applyAll,Tables.put]

theorem afterExtend {epoch : Nat} (usable : row.usable epoch = true) (expires : Time) :
    engine.after (.extendLease key epoch expires) t =
      t.put key (row.extended (timestamp expires)) := by
  simp [Engine.after,engine,Query.writes,onRow,Tables.usable,found,usable,Option.filter,Engine.applyAll,Tables.put]

theorem afterRevive (pageSize : Int32) :
    engine.after (.reviveDatabase key pageSize) t = t.put key (row.revived pageSize) := by
  simp [Engine.after,engine,Query.writes,onRow,found,Engine.applyAll,Tables.put]

end

theorem putRow (t : Tables) (key : Key) (row : Row) : (t.put key row).row key = some row := by
  rw [Tables.put,rowApply]
  simp

theorem putPut (t : Tables) (key : Key) (row other : Row) : (t.put key row).put key other = t.put key other := by
  simp [Tables.put,Write.apply,AList.insert_insert]

theorem execGrant {t : Tables} {req : OpenRequest} {row : Row} (found : t.row req.key = some row) (id : Bytes) :
    execBody engine (grantLease req id row) t =
      if row.active req.now && !req.takeover && !bytesEqual row.leaseHolder req.instanceID then
        (.error (.declared (.leaseHeld row.since)),t)
      else (.ok ⟨⟨id,row.leaseEpoch+1⟩,stateOf row,row.active req.now⟩,
        t.put req.key (row.granted id req.instanceID (timestamp req.now) (timestamp (req.now+req.ttl)))) := by
  simp only [grantLease]
  split
  · rfl
  · rw [execMust t (a := row.leaseEpoch+1) (by simp [Query.answer,found]),afterGrant found,execDone]

theorem execResumeOrGrant {t : Tables} {req : OpenRequest} {row : Row} (found : t.row req.key = some row) (id : Bytes) :
    execBody engine (resumeOrGrant req id row) t = match req.resume with
      | some resume =>
          if !holds row resume.leaseEpoch || row.leaseID.getD [] != resume.leaseID then (.error (.declared .fenced),t)
          else (.ok ⟨leaseOf row,stateOf row,false⟩,
            t.put req.key (row.extended (timestamp (req.now+req.ttl))))
      | none => execBody engine (grantLease req id row) t := by
  unfold resumeOrGrant
  cases req.resume with
  | none => rfl
  | some resume =>
    simp only
    split
    · rfl
    · rename_i usable
      have held : row.usable row.leaseEpoch = true := by
        simp only [holds,Bool.or_eq_true,Bool.not_eq_true',not_or,Bool.not_eq_false,Bool.and_eq_true] at usable
        simp [Row.usable,usable.1.1]
      rw [execAsk,afterExtend found held,execDone]

theorem grantCases {t after : Tables} {req : OpenRequest} {row : Row} {id : Bytes} {r : OpenResult}
    (found : t.row req.key = some row) (ran : execBody engine (resumeOrGrant req id row) t = (.ok r,after)) :
    req.resume = none ∧ r.lease.epoch = row.leaseEpoch+1 ∧
      after = t.put req.key (row.granted id req.instanceID (timestamp req.now) (timestamp (req.now+req.ttl))) ∨
    req.resume ≠ none ∧ after = t.put req.key (row.extended (timestamp (req.now+req.ttl))) := by
  rw [execResumeOrGrant found] at ran
  cases resume : req.resume with
  | none =>
    rw [resume] at ran
    simp only at ran
    rw [execGrant found] at ran
    split at ran <;> cases ran
    exact .inl ⟨rfl,rfl,rfl⟩
  | some old =>
    rw [resume] at ran
    simp only at ran
    split at ran <;> cases ran
    exact .inr ⟨Option.some_ne_none old,rfl⟩

theorem execOpenRow {t : Tables} {req : OpenRequest} {row : Row} (found : t.row req.key = some row) (id : Bytes) :
    execBody engine (openRow req id row) t =
      if row.deleted then
        if req.resume.isSome then (.error (.declared .fenced),t)
        else if !req.create then (.error (.declared .notFound),t)
        else if !validPageSize req.pageSize then (.error (.declared (.badRequest (.invalidPageSize req.pageSize))),t)
        else execBody engine (resumeOrGrant req id (row.revived req.pageSize.toInt32))
          (t.put req.key (row.revived req.pageSize.toInt32))
      else if req.pageSize ≠ 0 ∧ row.pageSize.toUInt32 ≠ req.pageSize then
        (.error (.declared (.badRequest (.otherPageSize req.pageSize row.pageSize.toUInt32))),t)
      else execBody engine (resumeOrGrant req id row) t := by
  unfold openRow reviveDatabase
  repeat' split
  all_goals try rfl
  rw [execMust t (a := row.revived req.pageSize.toInt32) (by simp [Query.answer,found]),afterRevive found]

theorem execCreate {t : Tables} {req : OpenRequest} (missing : t.row req.key = none) (id : Bytes) :
    execBody engine (createDatabase req (openRow req id)) t =
      if !req.create || req.resume.isSome then (.error (.declared .notFound),t)
      else if !validPageSize req.pageSize then (.error (.declared (.badRequest (.invalidPageSize req.pageSize))),t)
      else execBody engine (openRow req id (newRow req.pageSize.toInt32))
        (t.put req.key (newRow req.pageSize.toInt32)) := by
  unfold createDatabase
  repeat' split
  all_goals try rfl
  have after : engine.after (.createDatabase req.key req.pageSize.toInt32) t =
      t.put req.key (newRow req.pageSize.toInt32) := by
    simp [Engine.after,engine,Query.writes,missing,Engine.applyAll,Tables.put]
  rw [execAsk,after]
  simp [Query.answer,missing]

theorem execOpenDatabase (t : Tables) (req : OpenRequest) (id : Bytes) :
    execBody engine (openDatabase req id) t = match t.row req.key with
      | some row => execBody engine (openRow req id row) t
      | none => execBody engine (createDatabase req (openRow req id)) t := by
  rw [openDatabase,execAsk]
  have after : engine.after (.lockDatabase req.key) t = t := rfl
  have answer : (Query.lockDatabase req.key).answer t = t.row req.key := rfl
  rw [after,answer]
  cases t.row req.key <;> rfl

theorem execOpen (t : Tables) (req : OpenRequest) (id : Bytes) :
    execBody engine (openBody req id) t =
      if req.owner ≠ "" ∧ (t.slots.lookup req.owner).any (fun slot => slot.subject ≠ req.key.subject) then
        (.error (.declared .slotTaken),t)
      else execBody engine (openDatabase req id) t := by
  unfold openBody
  by_cases owned : req.owner ≠ ""
  · have after : engine.after (.shareSlot req.owner) t = t := rfl
    have answer : (Query.shareSlot req.owner).answer t = t.slots.lookup req.owner := rfl
    rw [if_pos owned,execAsk,after,answer]
    cases t.slots.lookup req.owner with
    | none => simp
    | some slot =>
      simp only [Option.any_some,decide_eq_true_eq]
      by_cases other : slot.subject ≠ req.key.subject
      · rw [if_pos other,if_pos ⟨owned,other⟩]
        rfl
      · rw [if_neg other,if_neg (fun both => other both.2)]
  · rw [if_neg owned,if_neg (fun both => owned both.1)]

def Tables.written (t : Tables) (key : Key) (blocks : List Block) : Tables :=
  engine.applyAll ((blocks.flatMap blockParts).map (fun p => Write.part key p)) t

def Tables.cut (t : Tables) (key : Key) (idx : Int64) : Tables := (Write.cutBlocks key idx).apply t

def Tables.logged (t : Tables) (key : Key) (version : Nat) (blocks : List Int64) : Tables :=
  let added := if (t.change key version).isSome then t else (Write.change key version blocks).apply t
  if version ≤ changeWindow then added else (Write.pruneChanges key (version-changeWindow)).apply added

def Row.afterCommit (row : Row) (req : CommitRequest) : Row :=
  row.applied req.pageCount.toInt64 req.commitID (timestamp (req.now+req.ttl))

def Tables.committed (t : Tables) (req : CommitRequest) (row : Row) : Tables :=
  (((t.written req.key req.blocks).cut req.key req.pageCount.toInt64).put req.key (row.afterCommit req)).logged
    req.key (row.version+1) (touchedRows req.blocks)

section
variable (t : Tables) (key k : Key) (blocks : List Block)

theorem writtenRow : (t.written key blocks).row k = t.row k := by
  refine applyAllKeeps engine (fun t => t.row k) ?_ t
  intro w member t
  obtain ⟨p,_,rfl⟩ := List.mem_map.mp member
  exact rowApply t k _

theorem writtenChange (v : Nat) : (t.written key blocks).change k v = t.change k v := by
  refine applyAllKeeps engine (fun t => t.change k v) ?_ t
  intro w member t
  obtain ⟨p,_,rfl⟩ := List.mem_map.mp member
  exact changeApply t k v _

theorem writtenOther (idx : Int64) (n : Nat) (other : k ≠ key) :
    (t.written key blocks).part k idx n = t.part k idx n := by
  refine applyAllKeeps engine (fun t => t.part k idx n) ?_ t
  intro w member t
  obtain ⟨p,_,rfl⟩ := List.mem_map.mp member
  exact (partApply t k idx n _).trans (by simp [other])

theorem writtenSlots : (t.written key blocks).slots = t.slots := by
  refine applyAllKeeps engine Tables.slots ?_ t
  intro w member t
  obtain ⟨p,_,rfl⟩ := List.mem_map.mp member
  rfl

end

theorem loggedRow (t : Tables) (key k : Key) (version : Nat) (blocks : List Int64) :
    (t.logged key version blocks).row k = t.row k := by
  unfold Tables.logged
  simp only
  repeat' split
  all_goals simp only [rowApply]

theorem loggedPart (t : Tables) (key k : Key) (version : Nat) (blocks : List Int64) (idx : Int64) (n : Nat) :
    (t.logged key version blocks).part k idx n = t.part k idx n := by
  unfold Tables.logged
  simp only
  repeat' split
  all_goals simp only [partApply]

theorem loggedSlots (t : Tables) (key : Key) (version : Nat) (blocks : List Int64) :
    (t.logged key version blocks).slots = t.slots := by
  unfold Tables.logged
  simp only
  repeat' split
  all_goals rfl

theorem loggedChange (t : Tables) (key k : Key) (version : Nat) (blocks : List Int64) (v : Nat) :
    (t.logged key version blocks).change k v =
      if k = key ∧ changeWindow < version ∧ v ≤ version-changeWindow then none
      else if k = key ∧ v = version then some ((t.change key version).getD blocks) else t.change k v := by
  have added : (if (t.change key version).isSome then t else (Write.change key version blocks).apply t).change k v =
      if k = key ∧ v = version then some ((t.change key version).getD blocks) else t.change k v := by
    split
    · rename_i present
      obtain ⟨there,found⟩ := Option.isSome_iff_exists.mp present
      by_cases here : k = key ∧ v = version
      · rw [if_pos here,here.1,here.2,found,Option.getD_some]
      · rw [if_neg here]
    · rename_i absent
      rw [changeApply,Option.not_isSome_iff_eq_none.mp absent]
      rfl
  unfold Tables.logged
  simp only
  by_cases early : version ≤ changeWindow
  · have unpruned : ¬ (k = key ∧ changeWindow < version ∧ v ≤ version-changeWindow) := by
      intro pruned
      omega
    rw [if_pos early,added,if_neg unpruned]
  · have late : changeWindow < version := by omega
    rw [if_neg early,changeApply]
    simp only [added,late,true_and]

section
variable (t : Tables) (req : CommitRequest) (row : Row) (k : Key)

theorem committedRow : (t.committed req row).row k = if k = req.key then some (row.afterCommit req) else t.row k := by
  simp only [Tables.committed,loggedRow,Tables.put,Tables.cut,rowApply,writtenRow]

theorem committedPart (idx : Int64) (n : Nat) : (t.committed req row).part k idx n =
    if k = req.key ∧ req.pageCount.toInt64 ≤ idx then none else (t.written req.key req.blocks).part k idx n := by
  simp only [Tables.committed,loggedPart,Tables.put,Tables.cut,partApply]

theorem committedChange (v : Nat) : (t.committed req row).change k v =
    if k = req.key ∧ changeWindow < row.version+1 ∧ v ≤ row.version+1-changeWindow then none
    else if k = req.key ∧ v = row.version+1 then some ((t.change req.key (row.version+1)).getD (touchedRows req.blocks))
    else t.change k v := by
  simp only [Tables.committed,loggedChange,Tables.put,Tables.cut,changeApply,writtenChange]

theorem committedSlots : (t.committed req row).slots = t.slots := by
  rw [Tables.committed,loggedSlots]
  exact writtenSlots t req.key req.blocks

end

theorem execPutBlocks (t : Tables) (key : Key) (blocks : List Block) {β : Type} (next : Body β) :
    execBody engine (putBlocks key blocks next) t = execBody engine next (t.written key blocks) := by
  unfold putBlocks
  split
  · rename_i none
    rw [List.isEmpty_iff.mp none]
    rfl
  · rfl

theorem execRecordChange (t : Tables) (key : Key) (version : Nat) (blocks : List Block) {β : Type} (next : Body β) :
    execBody engine (recordChange key version blocks next) t =
      execBody engine next (t.logged key version (touchedRows blocks)) := by
  have added : engine.after (.recordChange key version (touchedRows blocks)) t =
      if (t.change key version).isSome then t else (Write.change key version (touchedRows blocks)).apply t := by
    rw [afterWrites,Query.writes,Tables.change]
    split <;> rfl
  rw [recordChange,execAsk,added,Tables.logged]
  by_cases early : version ≤ changeWindow
  · rw [if_pos early,if_pos early]
  · rw [if_neg early,if_neg early]
    rfl

theorem execApplyCommit {t : Tables} {req : CommitRequest} {row : Row} (found : t.row req.key = some row) :
    execBody engine (applyCommit req) t = (.ok (row.version+1),t.committed req row) := by
  have still : ((t.written req.key req.blocks).cut req.key req.pageCount.toInt64).row req.key = some row := by
    rw [Tables.cut,rowApply]
    exact (writtenRow t req.key req.key req.blocks).trans found
  have after : engine.after (.deleteBlocksFrom req.key req.pageCount.toInt64) (t.written req.key req.blocks) =
      (t.written req.key req.blocks).cut req.key req.pageCount.toInt64 := rfl
  have applied : engine.after (.applyCommit req.key req.pageCount.toInt64 req.commitID (req.now+req.ttl))
      ((t.written req.key req.blocks).cut req.key req.pageCount.toInt64) =
      ((t.written req.key req.blocks).cut req.key req.pageCount.toInt64).put req.key (row.afterCommit req) := by
    simp [Engine.after,engine,Query.writes,onRow,still,Engine.applyAll,Tables.put,Row.afterCommit]
  rw [applyCommit,execPutBlocks,execAsk,after,execMust _ (a := row.version+1) (by simp [Query.answer,still]),applied,
    execRecordChange,execDone]
  rfl

theorem execCommit (t : Tables) (req : CommitRequest) :
    execBody engine (commitBody req) t = match t.row req.key with
      | none => (.error (.declared .notFound),t)
      | some row =>
          if !holds row req.leaseEpoch then (.error (.declared .fenced),t)
          else if row.repeats req then (.ok row.version,
            t.put req.key (row.extended (timestamp (req.now+req.ttl))))
          else if row.version ≠ req.baseVersion.toNat then (.error (.declared (.versionConflict row.version)),t)
          else match validateCommit row.pageSize.toUInt32 req with
          | some reason => (.error (.declared (.badRequest reason)),t)
          | none => (.ok (row.version+1),t.committed req row) := by
  have after : engine.after (.lockDatabase req.key) t = t := rfl
  have answer : (Query.lockDatabase req.key).answer t = t.row req.key := rfl
  rw [commitBody,execAsk,after,answer]
  cases found : t.row req.key with
  | none => rfl
  | some row =>
    simp only
    by_cases unheld : (!holds row req.leaseEpoch) = true
    · rw [if_pos unheld,if_pos unheld]
      rfl
    rw [if_neg unheld,if_neg unheld]
    by_cases again : row.repeats req = true
    · have held : row.usable row.leaseEpoch = true := by
        simp only [holds,Bool.not_eq_true',Bool.not_eq_false,Bool.and_eq_true] at unheld
        simp [Row.usable,unheld.1]
      rw [if_pos again,if_pos again,execAsk,afterExtend found held,execDone]
    rw [if_neg again,if_neg again]
    by_cases stale : row.version ≠ req.baseVersion.toNat
    · rw [if_pos stale,if_pos stale]
      rfl
    rw [if_neg stale,if_neg stale]
    cases validateCommit row.pageSize.toUInt32 req with
    | some reason => rfl
    | none => exact execApplyCommit found

def fetched (t : Tables) (key : Key) (version : Nat) (first count : UInt64) : Except Failure (List Bytes) :=
  match t.row key with
  | none => .error (.declared .notFound)
  | some row =>
      if row.deleted then .error (.declared .notFound)
      else if version ≠ row.version then .error (.declared (.versionConflict row.version))
      else match checkRange first count row.pageCount.toUInt64 with
      | some reason => .error (.declared (.badRequest reason))
      | none => .ok ((t.parts key first.toInt64 (first+count).toInt64).foldl (copyPart first)
          (List.replicate count.toNat (zeros row.pageSize.toUInt32)))

/- The call does not return if make([][]byte, count) panics; the deferred Rollback ends its transaction. -/
def fetchPanics (t : Tables) (maxSlice : Nat) (key : Key) (version : Nat) (first count : UInt64) : Bool :=
  (fetched t key version first count).isOk && decide (maxSlice < count.toNat)

theorem execFetch (t : Tables) (key : Key) (version : Nat) (first count : UInt64) :
    execBody engine (fetchBody key version first count) t = (fetched t key version first count,t) := by
  have after : engine.after (.getDatabase key) t = t := rfl
  have answer : (Query.getDatabase key).answer t = t.row key := rfl
  rw [fetchBody,execAsk,after,answer,fetched]
  cases t.row key with
  | none => rfl
  | some row =>
    simp only
    split
    · rfl
    split
    · rfl
    cases checkRange first count row.pageCount.toUInt64 <;> rfl

theorem stepFetch (t : Tables) (key : Key) (version : Nat) (first count : UInt64) :
    step t (.fetch key version first count) = ((fetched t key version first count).map .blocks,t) := by
  simp only [step,script,exec,execWork,execFetch]
  cases fetched t key version first count <;> rfl

def changed (t : Tables) (key : Key) (fromVersion : Nat) : Except Failure ChangeSet :=
  match t.row key with
  | none => .error (.declared .notFound)
  | some row =>
      if row.deleted then .error (.declared .notFound)
      else if row.version < fromVersion then .error (.declared (.badRequest (.versionAhead fromVersion row.version)))
      else if fromVersion = row.version then .ok ⟨fromVersion,row.version,[],true⟩
      else
        let oldest := ((t.log key).head?.map (fun entry => entry.1)).getD 0
        if oldest = 0 ∨ fromVersion+1 < oldest then .ok ⟨fromVersion,row.version,[],false⟩
        else .ok ⟨fromVersion,row.version,
          changedBlocks ((t.log key).filter (fun entry => decide (fromVersion < entry.1))),true⟩

theorem execChanges (t : Tables) (key : Key) (fromVersion : Nat) :
    execBody engine (changesBody key fromVersion) t = (changed t key fromVersion,t) := by
  have after : engine.after (.getDatabase key) t = t := rfl
  have answer : (Query.getDatabase key).answer t = t.row key := rfl
  rw [changesBody,execAsk,after,answer,changed]
  cases t.row key with
  | none => rfl
  | some row =>
    simp only
    repeat' split
    all_goals try rfl
    all_goals
      have whole : engine.after (.oldestChange key) t = t := rfl
      have oldest : (Query.oldestChange key).answer t = ((t.log key).head?.map (fun entry => entry.1)).getD 0 := rfl
      rw [execAsk,whole,oldest]
    · rename_i far
      rw [if_pos far]
      rfl
    · rename_i near
      rw [if_neg near]
      rfl

/- A lease statement outside a transaction, and what whyNoRow makes of it. -/
theorem stepLease {t : Tables} {op : Op} {key : Key} {q : Query Nat} (is : script op = .ask (.auto q) (whyNoRow key)) :
    step t op = if 0 < q.answer t then (.ok .done,engine.after q t)
      else (.error (.declared (if ((engine.after q t).row key).isSome then .fenced else .notFound)),engine.after q t) := by
  have first : step t op = exec engine (whyNoRow key (q.answer t)) (engine.after q t) := by
    rw [step,is]
    rfl
  rw [first,whyNoRow]
  split <;> rfl

def Tables.removed (t : Tables) (key : Key) (row : Row) : Tables :=
  ((Write.clearChanges key).apply (t.cut key 0)).put key row.dropped

theorem execRemove {t : Tables} {key : Key} {row : Row} (found : t.row key = some row) {β : Type}
    (next : Nat → Body β) :
    execBody engine (remove key next) t = execBody engine (next (row.leaseEpoch+1)) (t.removed key row) := by
  have still : ((Write.clearChanges key).apply (t.cut key 0)).row key = some row := by
    simpa only [rowApply,Tables.cut] using found
  have cut : engine.after (.deleteBlocksFrom key 0) t = t.cut key 0 := rfl
  have cleared : engine.after (.deleteChanges key) (t.cut key 0) = (Write.clearChanges key).apply (t.cut key 0) := rfl
  have dropped : engine.after (.deleteDatabase key) ((Write.clearChanges key).apply (t.cut key 0)) =
      t.removed key row := by
    simp [Engine.after,engine,Query.writes,onRow,still,Engine.applyAll,Tables.put,Tables.removed]
  rw [remove,execAsk,cut,execAsk,cleared,execMust _ (a := row.leaseEpoch+1) (by simp [Query.answer,still]),dropped]

section
variable (t : Tables) (key k : Key) (row : Row)

theorem removedRow : (t.removed key row).row k = if k = key then some row.dropped else t.row k := by
  simp only [Tables.removed,Tables.put,Tables.cut,rowApply]

theorem removedPart (idx : Int64) (n : Nat) :
    (t.removed key row).part k idx n = if k = key ∧ 0 ≤ idx then none else t.part k idx n := by
  simp only [Tables.removed,Tables.put,Tables.cut,partApply]

theorem removedChange (v : Nat) : (t.removed key row).change k v = if k = key then none else t.change k v := by
  simp only [Tables.removed,Tables.put,Tables.cut,changeApply]

theorem removedSlots : (t.removed key row).slots = t.slots := rfl

end

theorem execDelete (t : Tables) (req : DeleteRequest) :
    execBody engine (deleteBody req) t = match t.row req.key with
      | none => (.ok ⟨0,false⟩,t)
      | some row =>
          if row.deleted then (.ok ⟨0,false⟩,t)
          else if row.active req.now && !req.takeover then (.error (.declared (.leaseHeld row.since)),t)
          else (.ok ⟨row.leaseEpoch+1,row.active req.now⟩,t.removed req.key row) := by
  have after : engine.after (.lockDatabase req.key) t = t := rfl
  have answer : (Query.lockDatabase req.key).answer t = t.row req.key := rfl
  rw [deleteBody,execAsk,after,answer]
  cases found : t.row req.key with
  | none => rfl
  | some row =>
    simp only
    repeat' split
    all_goals try rfl
    rw [execRemove found,execDone]

def Tables.holdsSlot (t : Tables) (subject : String) : Bool := anyRow t.slots (fun _ slot => slot.subject == subject)

theorem execSweep {t : Tables} {key : Key} {row : Row} (found : t.row key = some row) (cutoff : Time) :
    execBody engine (sweepBody cutoff key) t =
      if row.deleted || !row.leaseExpires.any (fun expires => decide (expires < cutoff)) then (.ok false,t)
      else if t.holdsSlot key.subject then (.ok true,(Write.purge key).apply t)
      else (.ok true,t.removed key row) := by
  have after : engine.after (.lockDatabase key) t = t := rfl
  have answer : (Query.lockDatabase key).answer t = some row := found
  rw [sweepBody,execMust t answer,after]
  by_cases kept : (row.deleted || !row.leaseExpires.any (fun expires => decide (expires < cutoff))) = true
  · rw [if_pos kept,if_pos kept]
    rfl
  have still : engine.after (.holdsSlot key.subject) t = t := rfl
  have held : (Query.holdsSlot key.subject).answer t = t.holdsSlot key.subject := rfl
  rw [if_neg kept,if_neg kept,execAsk,still,held]
  split
  · rfl
  · rw [execRemove found,execDone]

def Tables.subjectKeys (t : Tables) (subject : String) : List Key :=
  keysWhere t.databases (fun key _ => key.subject == subject)

def Tables.subjectRows (t : Tables) (subject : String) : List (Chosen Key) := (t.subjectKeys subject).map t.chooseRow

def Tables.purged (t : Tables) (subject : String) : Tables :=
  engine.applyAll ((t.subjectKeys subject).map Write.purge) t

def Tables.purgedKeys (t : Tables) (subject : String) : List (Key × Bool) :=
  (t.subjectKeys subject).filterMap (fun key => (t.row key).map (fun row => (key,row.deleted)))

theorem memSubjectKeys (u : Tables) (subject : String) (k : Key) :
    k ∈ u.subjectKeys subject ↔ (∃ row, u.row k = some row) ∧ k.subject = subject := by
  rw [Tables.subjectKeys,memKeysWhere]
  simp only [beq_iff_eq,exists_and_right]
  rfl

theorem chosenAtOnce (t : Tables) (key : Key) : t.chosenRow (t.chooseRow key) = t.row key := if_pos rfl

theorem slotAtOnce (t : Tables) (owner : String) : t.chosenSlot (t.chooseSlot owner) = t.slots.lookup owner := if_pos rfl

theorem remainingAtOnce (t : Tables) (subject : String) : t.remaining (t.subjectRows subject) = t.subjectKeys subject := by
  have present : (t.subjectRows subject).filter (fun chosen => (t.chosenRow chosen).isSome) = t.subjectRows subject := by
    refine List.filter_eq_self.mpr (fun chosen listed => ?_)
    obtain ⟨key,among,rfl⟩ := List.mem_map.mp listed
    obtain ⟨⟨row,found⟩,_⟩ := (memSubjectKeys t subject key).mp among
    rw [chosenAtOnce,found]
    rfl
  rw [Tables.remaining,present,Tables.subjectRows,List.map_map]
  exact List.map_id _

theorem afterPurgeRows (t : Tables) (subject : String) :
    engine.after (.purgeRows (t.subjectRows subject)) t = t.purged subject := by
  rw [afterWrites,Query.writes,remainingAtOnce,Tables.purged]

theorem answerPurgeRows (t : Tables) (subject : String) :
    (Query.purgeRows (t.subjectRows subject)).answer t = t.purgedKeys subject := by
  simp only [Query.answer,Tables.subjectRows,List.filterMap_map,Function.comp_def,chosenAtOnce]
  rfl

theorem execPurge (t : Tables) (subject : String) {β : Type} (next : List (Key × Bool) → Body β) :
    execBody engine (purgeSubject subject next) t =
      execBody engine (next (t.purgedKeys subject)) (t.purged subject) := by
  have listed : execBody engine (purgeSubject subject next) t = execBody engine
      (next ((Query.purgeRows (t.subjectRows subject)).answer t)) (engine.after (.purgeRows (t.subjectRows subject)) t) := rfl
  rw [listed,afterPurgeRows,answerPurgeRows]

structure SameRows (t after : Tables) (k : Key) : Prop where
  row : after.row k = t.row k
  part : ∀ idx n, after.part k idx n = t.part k idx n
  change : ∀ v, after.change k v = t.change k v

theorem putSame (t : Tables) {key k : Key} (row : Row) (other : k ≠ key) : SameRows t (t.put key row) k :=
  ⟨by rw [Tables.put,rowApply]; simp [other],fun idx n => partApply t k idx n _,fun v => changeApply t k v _⟩

theorem committedSame (t : Tables) (req : CommitRequest) (row : Row) {k : Key} (other : k ≠ req.key) :
    SameRows t (t.committed req row) k :=
  ⟨by rw [committedRow,if_neg other],
    fun idx n => by rw [committedPart,if_neg (fun both => other both.1),writtenOther _ _ _ _ _ _ other],
    fun v => by rw [committedChange,if_neg (fun both => other both.1),if_neg (fun both => other both.1)]⟩

theorem removedSame (u : Tables) (key : Key) (row : Row) {k : Key} (other : k ≠ key) :
    SameRows u (u.removed key row) k :=
  ⟨by rw [removedRow,if_neg other],fun idx n => by rw [removedPart,if_neg (fun both => other both.1)],
    fun v => by rw [removedChange,if_neg other]⟩

theorem slotSame (u : Tables) (owner : String) (slot : Slot) (k : Key) : SameRows u ((Write.slot owner slot).apply u) k :=
  ⟨rowApply u k _,fun idx n => partApply u k idx n _,fun v => changeApply u k v _⟩

theorem dropSlotSame (t : Tables) (owner : String) (k : Key) : SameRows t ((Write.dropSlot owner).apply t) k :=
  ⟨rowApply t k _,fun idx n => partApply t k idx n _,fun v => changeApply t k v _⟩

theorem dropSlots (owners : List String) (u : Tables) :
    (∀ k, SameRows u (engine.applyAll (owners.map Write.dropSlot) u) k) ∧ ∀ owner,
      (engine.applyAll (owners.map Write.dropSlot) u).slots.lookup owner =
        if owner ∈ owners then none else u.slots.lookup owner := by
  induction owners generalizing u with
  | nil => exact ⟨fun k => ⟨rfl,fun _ _ => rfl,fun _ => rfl⟩,fun owner => by simp [Engine.applyAll]⟩
  | cons head tail ih =>
    obtain ⟨same,slots⟩ := ih ((Write.dropSlot head).apply u)
    refine ⟨fun k => ⟨(same k).row.trans (rowApply u k _),fun idx n => ((same k).part idx n).trans (partApply u k idx n _),
      fun v => ((same k).change v).trans (changeApply u k v _)⟩,fun owner => ?_⟩
    refine (slots owner).trans ?_
    rw [slotApply]
    by_cases later : owner ∈ tail
    · simp [later]
    · simp [later]

theorem dropOthers {owners : List String} {owner : String} (unlisted : owner ∉ owners) (t : Tables) :
    (engine.applyAll (owners.map Write.dropSlot) t).deletions (.slot owner) = t.deletions (.slot owner) := by
  refine applyAllKeeps engine (fun u => u.deletions (.slot owner)) ?_ t
  intro w member u
  obtain ⟨other,listed,rfl⟩ := List.mem_map.mp member
  have differ : Lock.slot owner ≠ .slot other := fun same => unlisted (Lock.slot.inj same ▸ listed)
  exact Function.update_of_ne differ _ _

theorem releasableAtOnce (t : Tables) (cutoff : Time) : t.releasable ((Query.unusedSlots cutoff).answer t) =
    keysWhere t.slots (fun _ slot => t.unusedSlot cutoff slot) := by
  have all : ((keysWhere t.slots (fun _ slot => t.unusedSlot cutoff slot)).map t.chooseSlot).filter
      (fun owner => (t.chosenSlot owner).any (t.unusedSlot cutoff)) =
      (keysWhere t.slots (fun _ slot => t.unusedSlot cutoff slot)).map t.chooseSlot := by
    refine List.filter_eq_self.mpr (fun chosen listed => ?_)
    obtain ⟨owner,among,rfl⟩ := List.mem_map.mp listed
    obtain ⟨slot,found,unused⟩ := (memKeysWhere t.slots _ owner).mp among
    rw [slotAtOnce,found]
    exact unused
  simp only [Tables.releasable,Query.answer,all,List.map_map]
  exact List.map_id _

theorem purgeAll {γ : Type} {k : Key} (f : Tables → Option γ)
    (one : ∀ u key, f ((Write.purge key).apply u) = if k = key then none else f u) (keys : List Key) (u : Tables) :
    f (engine.applyAll (keys.map Write.purge) u) = if k ∈ keys then none else f u := by
  induction keys generalizing u with
  | nil => simp [Engine.applyAll]
  | cons head tail ih =>
    refine (ih ((Write.purge head).apply u)).trans ?_
    rw [one]
    by_cases later : k ∈ tail
    · simp [later]
    · simp [later]

theorem purgeSlots (keys : List Key) (t : Tables) : (engine.applyAll (keys.map Write.purge) t).slots = t.slots := by
  refine applyAllKeeps engine Tables.slots ?_ t
  intro w member u
  obtain ⟨key,_,rfl⟩ := List.mem_map.mp member
  rfl

theorem purgeOthers {keys : List Key} {k : Key} (unlisted : k ∉ keys) (t : Tables) :
    (engine.applyAll (keys.map Write.purge) t).chooseRow k = t.chooseRow k := by
  refine applyAllKeeps engine (fun u => u.chooseRow k) ?_ t
  intro w member u
  obtain ⟨key,listed,rfl⟩ := List.mem_map.mp member
  have other : Lock.database k ≠ .database key := fun same => unlisted (Lock.database.inj same ▸ listed)
  exact congrArg (Chosen.mk k) (Function.update_of_ne other _ _)

theorem purgedSlots (t : Tables) (subject : String) : (t.purged subject).slots = t.slots := purgeSlots _ t

theorem purgedSame {t : Tables} {subject : String} {k : Key} (unlisted : k ∉ t.subjectKeys subject) :
    SameRows t (t.purged subject) k :=
  ⟨(purgeAll (fun u => u.row k) (fun u _ => rowApply u k _) _ t).trans (if_neg unlisted),
    fun idx n => (purgeAll (fun u => u.part k idx n) (fun u _ => partApply u k idx n _) _ t).trans (if_neg unlisted),
    fun v => (purgeAll (fun u => u.change k v) (fun u _ => changeApply u k v _) _ t).trans (if_neg unlisted)⟩

structure NoRows (t : Tables) (k : Key) : Prop where
  row : t.row k = none
  part : ∀ idx n, t.part k idx n = none
  change : ∀ v, t.change k v = none

theorem purgedGone {t : Tables} {subject : String} {k : Key} (listed : k ∈ t.subjectKeys subject) :
    NoRows (t.purged subject) k :=
  ⟨(purgeAll (fun u => u.row k) (fun u _ => rowApply u k _) _ t).trans (if_pos listed),
    fun idx n => (purgeAll (fun u => u.part k idx n) (fun u _ => partApply u k idx n _) _ t).trans (if_pos listed),
    fun v => (purgeAll (fun u => u.change k v) (fun u _ => changeApply u k v _) _ t).trans (if_pos listed)⟩

theorem sameTrans {t mid after : Tables} {k : Key} (first : SameRows t mid k) (second : SameRows mid after k) :
    SameRows t after k :=
  ⟨second.row.trans first.row,fun idx n => (second.part idx n).trans (first.part idx n),
    fun v => (second.change v).trans (first.change v)⟩

theorem goneSame {t after : Tables} {k : Key} (gone : NoRows t k) (same : SameRows t after k) : NoRows after k :=
  ⟨same.row.trans gone.row,fun idx n => (same.part idx n).trans (gone.part idx n),
    fun v => (same.change v).trans (gone.change v)⟩

theorem purgedCases (t : Tables) (subject : String) (k : Key) :
    NoRows (t.purged subject) k ∨ SameRows t (t.purged subject) k := by
  by_cases listed : k ∈ t.subjectKeys subject
  · exact .inl (purgedGone listed)
  · exact .inr (purgedSame listed)

theorem purgeGone (t : Tables) (k : Key) : NoRows ((Write.purge k).apply t) k :=
  ⟨by rw [rowApply]; simp,fun idx n => by rw [partApply]; simp,fun v => by rw [changeApply]; simp⟩

theorem purgeSame (t : Tables) {key k : Key} (other : k ≠ key) : SameRows t ((Write.purge key).apply t) k :=
  ⟨by rw [rowApply]; simp [other],fun idx n => by rw [partApply]; simp [other],
    fun v => by rw [changeApply]; simp [other]⟩

theorem execClaimRow {t : Tables} {req : ClaimRequest} {slot : Slot} (found : t.slots.lookup req.owner = some slot) :
    execBody engine (claimRow req slot) t =
      if slot.subject = req.subject then (.ok ⟨slot,none,[]⟩,t)
      else (.ok ⟨⟨req.subject,"",timestamp req.now⟩,some slot,keysOf (t.purgedKeys slot.subject)⟩,
        (Write.slot req.owner ⟨req.subject,"",timestamp req.now⟩).apply (t.purged slot.subject)) := by
  unfold claimRow
  split
  · rfl
  have still : (t.purged slot.subject).slots.lookup req.owner = some slot := by rw [purgedSlots,found]
  have after : engine.after (.updateSlot req.owner ⟨req.subject,"",timestamp req.now⟩) (t.purged slot.subject) =
      (Write.slot req.owner ⟨req.subject,"",timestamp req.now⟩).apply (t.purged slot.subject) := by
    simp [Engine.after,engine,Query.writes,still,Engine.applyAll]
  rw [execPurge,execMust _ (a := (⟨req.subject,"",timestamp req.now⟩ : Slot)) (by simp [Query.answer,still]),after,
    execDone]

theorem execClaim (t : Tables) (req : ClaimRequest) :
    execBody engine (claimBody req) t = match t.slots.lookup req.owner with
      | some slot => execBody engine (claimRow req slot) t
      | none => (.ok ⟨⟨req.subject,"",timestamp req.now⟩,none,[]⟩,
          (Write.slot req.owner ⟨req.subject,"",timestamp req.now⟩).apply t) := by
  have after : engine.after (.lockSlot req.owner) t = t := rfl
  have answer : (Query.lockSlot req.owner).answer t = t.slots.lookup req.owner := rfl
  rw [claimBody,execAsk,after,answer]
  cases found : t.slots.lookup req.owner with
  | some slot => rfl
  | none =>
    have inserted : engine.after (.insertSlot req.owner ⟨req.subject,"",timestamp req.now⟩) t =
        (Write.slot req.owner ⟨req.subject,"",timestamp req.now⟩).apply t := by
      simp [Engine.after,engine,Query.writes,found,Engine.applyAll]
    simp only
    rw [execAsk,inserted]
    simp only [Query.answer,found]
    rfl

theorem execDeleteSlot (t : Tables) (owner subject : String) :
    execBody engine (deleteSlotBody owner subject) t = match t.slots.lookup owner with
      | some slot =>
          if slot.subject ≠ subject then (.error (.declared .slotTaken),t)
          else (.ok (keysOf (((Write.dropSlot owner).apply t).purgedKeys subject)),
            ((Write.dropSlot owner).apply t).purged subject)
      | none => (.ok (keysOf (t.purgedKeys subject)),t.purged subject) := by
  have after : engine.after (.lockSlot owner) t = t := rfl
  have answer : (Query.lockSlot owner).answer t = t.slots.lookup owner := rfl
  rw [deleteSlotBody,execAsk,after,answer]
  cases t.slots.lookup owner with
  | none =>
    simp only
    rw [execPurge,execDone]
  | some slot =>
    have dropped : engine.after (.deleteSlotOf owner) t = (Write.dropSlot owner).apply t := rfl
    simp only
    split
    · rfl
    · rw [execAsk,dropped,execPurge,execDone]

theorem stepSetSlotLabel (t : Tables) (owner subject label : String) :
    step t (.setSlotLabel owner subject label) = match t.slots.lookup owner with
      | none => (.error (.declared .notFound),t)
      | some slot =>
          if slot.subject = subject then (.ok (.labelled {slot with label := label}),
            (Write.slot owner {slot with label := label}).apply t)
          else (.error (.declared .slotTaken),t) := by
  simp only [step,script,setSlotLabel,exec,execWork,engine,Query.answer,Engine.after,Query.writes,Tables.owner]
  cases found : t.slots.lookup owner with
  | none => simp [exec,execWork,Query.answer,Query.writes,Engine.applyAll,Engine.after,found]
  | some slot =>
    by_cases same : slot.subject = subject
    · simp [same,Option.filter,exec,Engine.applyAll]
    · simp [same,Option.filter,exec,execWork,Query.answer,Query.writes,Engine.applyAll,Engine.after,found]

end SqliteRemote.Postgres
