import SqliteRemote.MemoryStore

/-! What one operation can do to the record of one key. Each operation is inverted once;
every law about runs is derived from the resulting record steps. -/
namespace SqliteRemote.MemoryStore
open Rows StoreContract

def record (s : Store) (k : Key) : Option Database := s.dbs.lookup k

@[simp] theorem recordPut (s : Store) (key k : Key) (db : Database) :
    record (s.put key db) k = if k = key then some db else record s k := lookupInsert s.dbs key k db

@[simp] theorem putPut (s : Store) (key : Key) (db other : Database) :
    (s.put key db).put key other = s.put key other := by
  simp [Store.put,AList.insert_insert]

/- The representation invariant of a record. The log holds consecutive versions up to the
current one, so its length alone says where it starts. -/
structure Wellformed (db : Database) : Prop where
  size : validPageSize db.state.pageSize = true
  stored : ∀ i data, db.blocks i = some data → i < db.state.pageCount ∧ data.length = db.state.pageSize.toNat
  window : db.changes.length ≤ changeWindow
  reach : db.changes.length ≤ db.state.version
  log : db.changes.map Change.version = List.range' (db.state.version+1-db.changes.length) db.changes.length
  listed : ∀ c ∈ db.changes, c.blocks.Pairwise (· < ·)
  last : db.state.lastCommitID = [] ↔ db.changes = []
  epoch : 1 ≤ db.lease.epoch
  empty : db.deleted = true →
    db.holder = none ∧ db.changes = [] ∧ db.state.pageCount = 0 ∧ ∀ i, db.blocks i = none

def WellformedStore (s : Store) : Prop := ∀ k db, record s k = some db → Wellformed db

def Unheld (s : Store) : Prop := ∀ k db, record s k = some db → db.deleted = true → db.holder = none

theorem WellformedStore.unheld {s : Store} (valid : WellformedStore s) : Unheld s :=
  fun k db found dead => ((valid k db found).empty dead).1

inductive OpenStep (s : Store) (req : OpenRequest) (id : Bytes) : Except Error OpenResult × Store → Prop
  | refused (e : Error) : OpenStep s req id (.error e,s)
  | resumed {db : Database} {r : Resume} (found : record s req.key = some db) (live : db.deleted = false)
      (asked : req.resume = some r) (held : db.holds r.leaseEpoch = true) (same : db.lease.id = r.leaseID) :
      OpenStep s req id (.ok ⟨db.lease,db.state,false⟩,s.put req.key (db.extend (req.now+req.ttl)))
  | granted {db : Database} (found : record s req.key = some db) (live : db.deleted = false)
      (asked : req.resume = none) :
      OpenStep s req id (.ok ⟨(db.grant req id).lease,db.state,db.active req.now⟩,s.put req.key (db.grant req id))
  | revived {db : Database} (found : record s req.key = some db) (dead : db.deleted = true)
      (asked : req.resume = none) (size : validPageSize req.pageSize = true) :
      OpenStep s req id (.ok ⟨((db.revive req.pageSize).grant req id).lease,(db.revive req.pageSize).state,false⟩,
        s.put req.key ((db.revive req.pageSize).grant req id))
  | created (missing : record s req.key = none) (asked : req.resume = none)
      (size : validPageSize req.pageSize = true) :
      OpenStep s req id (.ok ⟨⟨id,1⟩,(Database.fresh req.pageSize).state,false⟩,
        s.put req.key ((Database.fresh req.pageSize).grant req id))

theorem unheldInactive {db : Database} (free : db.holder = none) (now : Time) : db.active now = false := by
  simp [Database.active,free]

theorem grantUnheld (s : Store) (req : OpenRequest) (id : Bytes) {db : Database} (free : db.holder = none) :
    s.grant req id db = (.ok ⟨(db.grant req id).lease,db.state,false⟩,s.put req.key (db.grant req id)) := by
  simp [Store.grant,unheldInactive free,Database.grant]

theorem liveLease {s : Store} {req : OpenRequest} {id : Bytes} {db : Database}
    (found : record s req.key = some db) (live : db.deleted = false) :
    OpenStep s req id (s.checkedLease req id db) := by
  unfold Store.checkedLease
  split
  · exact .refused _
  unfold Store.lease
  cases asked : req.resume with
  | some r =>
    simp only [Store.resume]
    split
    · exact .refused _
    · rename_i usable
      simp only [Bool.or_eq_true,Bool.not_eq_true',bne_iff_ne,ne_eq,not_or,Bool.not_eq_false,not_not] at usable
      exact .resumed found live asked usable.1 usable.2
  | none =>
    simp only [Store.grant]
    split
    · exact .refused _
    · exact .granted found live asked

theorem openStep {s : Store} (unheld : Unheld s) (req : OpenRequest) (id : Bytes) :
    OpenStep s req id (s.open req id) := by
  unfold Store.open
  split
  · exact .refused _
  cases found : s.dbs.lookup req.key with
  | some db =>
    simp only
    split
    · rename_i dead
      split
      · exact .refused _
      rename_i notResumed
      split
      · exact .refused _
      split
      · exact .refused _
      · rename_i size
        have asked : req.resume = none := by simpa using notResumed
        have free : (db.revive req.pageSize).holder = none := unheld req.key db found dead
        have asSize : ¬ (req.pageSize ≠ 0 ∧ req.pageSize ≠ (db.revive req.pageSize).state.pageSize) := by
          simp [Database.revive]
        simp only [Store.checkedLease,if_neg asSize,Store.lease,asked,grantUnheld _ _ _ free,putPut]
        exact .revived found dead asked (by simpa using size)
    · rename_i live
      exact liveLease found (by simpa using live)
  | none =>
    simp only
    split
    · exact .refused _
    rename_i wanted
    split
    · exact .refused _
    rename_i size
    have asked : req.resume = none := by
      simp only [Bool.or_eq_true,not_or,Bool.not_eq_true,Option.isSome_eq_false_iff,Option.isNone_iff_eq_none] at wanted
      exact wanted.2
    have free : (Database.fresh req.pageSize).holder = none := rfl
    simp only [Store.lease,asked,grantUnheld _ _ _ free,putPut]
    exact .created found asked (by simpa using size)

inductive CommitStep (s : Store) (req : CommitRequest) : Except Error Nat × Store → Prop
  | refused (e : Error) : CommitStep s req (.error e,s)
  | repeated {db : Database} (found : record s req.key = some db) (held : db.holds req.leaseEpoch = true)
      (again : db.repeats req = true) :
      CommitStep s req (.ok db.state.version,s.put req.key (db.extend (req.now+req.ttl)))
  | applied {db : Database} (found : record s req.key = some db) (held : db.holds req.leaseEpoch = true)
      (base : db.state.version = req.baseVersion.toNat) (valid : validateCommit db.state.pageSize req = none) :
      CommitStep s req (.ok (db.state.version+1),s.put req.key (db.apply req))

theorem commitStep (s : Store) (req : CommitRequest) : CommitStep s req (s.commit req) := by
  unfold Store.commit
  cases found : s.dbs.lookup req.key with
  | none => exact .refused _
  | some db =>
    simp only
    split
    · exact .refused _
    rename_i usable
    have held : db.holds req.leaseEpoch = true := by simpa using usable
    split
    · exact .repeated found held (by assumption)
    split
    · exact .refused _
    rename_i base
    cases valid : validateCommit db.state.pageSize req with
    | some reason => exact .refused _
    | none => exact .applied found held (not_not.mp base) valid

inductive LeaseStep (s : Store) (key : Key) (epoch : Nat) (change : Database → Database) :
    Except Error Unit × Store → Prop
  | refused (e : Error) : LeaseStep s key epoch change (.error e,s)
  | used {db : Database} (found : record s key = some db) (held : db.holds epoch = true) :
      LeaseStep s key epoch change (.ok (),s.put key (change db))

theorem renewStep (s : Store) (key : Key) (epoch : Nat) (now : Time) (ttl : Duration) :
    LeaseStep s key epoch (·.extend (now+ttl)) (s.renew key epoch now ttl) := by
  unfold Store.renew
  cases found : s.dbs.lookup key with
  | none => exact .refused _
  | some db =>
    simp only
    split
    · exact .refused _
    · exact .used found (by simpa using (by assumption : ¬ (!db.holds epoch) = true))

theorem releaseStep (s : Store) (key : Key) (epoch : Nat) :
    LeaseStep s key epoch Database.release (s.release key epoch) := by
  unfold Store.release
  cases found : s.dbs.lookup key with
  | none => exact .refused _
  | some db =>
    simp only
    split
    · exact .refused _
    · exact .used found (by simpa using (by assumption : ¬ (!db.holds epoch) = true))

inductive DeleteStep (s : Store) (req : DeleteRequest) : Except Error DeleteResult × Store → Prop
  | refused (e : Error) : DeleteStep s req (.error e,s)
  | nothing : DeleteStep s req (.ok ⟨0,false⟩,s)
  | removed {db : Database} (found : record s req.key = some db) (live : db.deleted = false) :
      DeleteStep s req (.ok ⟨db.lease.epoch+1,db.active req.now⟩,s.put req.key db.remove)

theorem deleteStep (s : Store) (req : DeleteRequest) : DeleteStep s req (s.delete req) := by
  unfold Store.delete
  cases found : s.dbs.lookup req.key with
  | none => exact .nothing
  | some db =>
    simp only
    split
    · exact .nothing
    rename_i live
    split
    · exact .refused _
    · exact .removed found (by simpa using live)

theorem dropRecord (holders : List String) (s : Store) (key k : Key) :
    record (s.drop holders key) k =
      if k = key then (if k.subject ∈ holders then none else (record s k).map Database.remove)
      else record s k := by
  unfold Store.drop
  by_cases same : k = key
  · subst same
    split
    · simp [record]
    · cases found : s.dbs.lookup k with
      | none => simp [record,found]
      | some db => simp [record,found,Store.put]
  · split
    · simp [record,same]
    · cases found : s.dbs.lookup key with
      | none => simp
      | some db => simp [same]

theorem sweepRecord (holders : List String) {keys : List Key} (once : keys.Nodup) (s : Store) (k : Key) :
    record (keys.foldl (Store.drop holders) s) k =
      if k ∈ keys then (if k.subject ∈ holders then none else (record s k).map Database.remove)
      else record s k := by
  induction keys generalizing s with
  | nil => simp
  | cons head tail ih =>
    obtain ⟨fresh,once⟩ := List.nodup_cons.mp once
    rw [List.foldl_cons,ih once,dropRecord]
    by_cases same : k = head
    · subst same; simp [fresh]
    · simp [same]

theorem dropSlots (holders : List String) (s : Store) (key : Key) : (s.drop holders key).slots = s.slots := by
  unfold Store.drop
  split
  · rfl
  · split <;> rfl

theorem sweepSlots (holders : List String) (keys : List Key) (s : Store) :
    (keys.foldl (Store.drop holders) s).slots = s.slots := by
  induction keys generalizing s with
  | nil => rfl
  | cons head tail ih => rw [List.foldl_cons,ih,dropSlots]

theorem unusedSublist (s : Store) (cutoff : Time) (limit : Nat) (tie : Key → Nat) :
    (s.unused cutoff limit tie).Sublist (oldestFirst s.expiry tie
      (keysWhere s.dbs (fun _ db => !db.deleted && decide (db.expiresAt < cutoff)))) := by
  simp only [Store.unused]
  split
  · exact List.take_sublist _ _
  · exact List.Sublist.refl _

theorem unusedNodup (s : Store) (cutoff : Time) (limit : Nat) (tie : Key → Nat) :
    (s.unused cutoff limit tie).Nodup := by
  refine List.Nodup.sublist (unusedSublist s cutoff limit tie) ?_
  exact (List.perm_insertionSort _ _).nodup_iff.mpr (keysWhereNodup _ _)

theorem unusedMember {s : Store} {cutoff : Time} {limit : Nat} {tie : Key → Nat} {k : Key}
    (member : k ∈ s.unused cutoff limit tie) :
    ∃ db, record s k = some db ∧ db.deleted = false ∧ db.expiresAt < cutoff := by
  have listed := (unusedSublist s cutoff limit tie).subset member
  have found := (List.perm_insertionSort _ _).mem_iff.mp listed
  obtain ⟨db,present,expired⟩ := (memKeysWhere _ _ _).mp found
  simp only [Bool.and_eq_true,Bool.not_eq_true',decide_eq_true_eq] at expired
  exact ⟨db,present,expired⟩

theorem memSlotHolders (s : Store) (subject : String) :
    subject ∈ s.slotHolders ↔ ∃ owner slot, s.slots.lookup owner = some slot ∧ slot.subject = subject := by
  simp only [Store.slotHolders,List.mem_map]
  refine ⟨?_,?_⟩
  · intro held
    obtain ⟨⟨owner,slot⟩,member,same⟩ := held
    exact ⟨owner,slot,(memEntries _ _ _).mp member,same⟩
  · intro held
    obtain ⟨owner,slot,found,same⟩ := held
    exact ⟨⟨owner,slot⟩,(memEntries _ _ _).mpr found,same⟩

theorem purgeRecord (s : Store) (subject : String) (k : Key) :
    record (s.purge subject).2 k = if k.subject = subject then none else record s k := by
  simp only [Store.purge,record,lookupEraseWhere]
  by_cases same : k.subject = subject
  · cases s.dbs.lookup k <;> simp [same,Option.filter]
  · cases s.dbs.lookup k <;> simp [same,Option.filter]

def Touches (k : Key) : Op → Answer → Prop
  | .openDatabase req _,.ok _ => req.key = k
  | .commit req,.ok _ => req.key = k
  | .renew key _ _ _,.ok _ => key = k
  | .release key _,.ok _ => key = k
  | .delete req,.ok (.deleted result) => req.key = k ∧ 0 < result.epoch
  | .deleteUnused _ _ _,.ok (.unused keys) => k ∈ keys
  | _,_ => False

/- The three ways in which the record of a key goes away without a trace. -/
inductive Purges (s : Store) (k : Key) : Op → Answer → Prop
  | replaced {req : ClaimRequest} {result : ClaimResult} {old : Slot}
      (was : result.replaced = some old) (subject : old.subject = k.subject) :
      Purges s k (.claimSlot req) (.ok (.claimed result))
  | slotDeleted {owner : String} {keys : List Key} :
      Purges s k (.deleteSlot owner k.subject) (.ok (.purged keys))
  | unusedOfHolder {cutoff : Time} {limit : Nat} {tie : Key → Nat} {keys : List Key}
      (listed : k ∈ keys) (holder : k.subject ∈ s.slotHolders) :
      Purges s k (.deleteUnused cutoff limit tie) (.ok (.unused keys))

inductive RecordStep (s : Store) (k : Key) : Op → Answer → Option Database → Prop
  | idle {op : Op} {reply : Answer} (quiet : ¬ Touches k op reply) : RecordStep s k op reply (record s k)
  | resumed {db : Database} {req : OpenRequest} {id : Bytes} {r : Resume} (key : req.key = k)
      (found : record s k = some db) (live : db.deleted = false) (asked : req.resume = some r)
      (held : db.holds r.leaseEpoch = true) (same : db.lease.id = r.leaseID) :
      RecordStep s k (.openDatabase req id) (.ok (.opened ⟨db.lease,db.state,false⟩))
        (some (db.extend (req.now+req.ttl)))
  | granted {db : Database} {req : OpenRequest} {id : Bytes} (key : req.key = k)
      (found : record s k = some db) (live : db.deleted = false) (asked : req.resume = none) :
      RecordStep s k (.openDatabase req id)
        (.ok (.opened ⟨(db.grant req id).lease,db.state,db.active req.now⟩)) (some (db.grant req id))
  | revived {db : Database} {req : OpenRequest} {id : Bytes} (key : req.key = k)
      (found : record s k = some db) (dead : db.deleted = true) (asked : req.resume = none)
      (size : validPageSize req.pageSize = true) :
      RecordStep s k (.openDatabase req id)
        (.ok (.opened ⟨((db.revive req.pageSize).grant req id).lease,(db.revive req.pageSize).state,false⟩))
        (some ((db.revive req.pageSize).grant req id))
  | created {req : OpenRequest} {id : Bytes} (key : req.key = k) (missing : record s k = none)
      (asked : req.resume = none) (size : validPageSize req.pageSize = true) :
      RecordStep s k (.openDatabase req id)
        (.ok (.opened ⟨⟨id,1⟩,(Database.fresh req.pageSize).state,false⟩))
        (some ((Database.fresh req.pageSize).grant req id))
  | repeated {db : Database} {req : CommitRequest} (key : req.key = k) (found : record s k = some db)
      (held : db.holds req.leaseEpoch = true) (again : db.repeats req = true) :
      RecordStep s k (.commit req) (.ok (.version db.state.version)) (some (db.extend (req.now+req.ttl)))
  | applied {db : Database} {req : CommitRequest} (key : req.key = k) (found : record s k = some db)
      (held : db.holds req.leaseEpoch = true) (base : db.state.version = req.baseVersion.toNat)
      (valid : validateCommit db.state.pageSize req = none) :
      RecordStep s k (.commit req) (.ok (.version (db.state.version+1))) (some (db.apply req))
  | renewed {db : Database} {epoch : Nat} {now : Time} {ttl : Duration} (found : record s k = some db)
      (held : db.holds epoch = true) :
      RecordStep s k (.renew k epoch now ttl) (.ok .done) (some (db.extend (now+ttl)))
  | released {db : Database} {epoch : Nat} (found : record s k = some db) (held : db.holds epoch = true) :
      RecordStep s k (.release k epoch) (.ok .done) (some db.release)
  | deleted {db : Database} {req : DeleteRequest} (key : req.key = k) (found : record s k = some db)
      (live : db.deleted = false) :
      RecordStep s k (.delete req) (.ok (.deleted ⟨db.lease.epoch+1,db.active req.now⟩)) (some db.remove)
  | swept {db : Database} {cutoff : Time} {limit : Nat} {tie : Key → Nat} {keys : List Key} (listed : k ∈ keys)
      (found : record s k = some db) (live : db.deleted = false) (free : k.subject ∉ s.slotHolders) :
      RecordStep s k (.deleteUnused cutoff limit tie) (.ok (.unused keys)) (some db.remove)
  | purged {op : Op} {reply : Answer} (present : (record s k).isSome) (cause : Purges s k op reply) :
      RecordStep s k op reply none

theorem idlePut {s : Store} {k key : Key} {op : Op} {reply : Answer} (db : Database) (other : key ≠ k)
    (quiet : ¬ Touches k op reply) : RecordStep s k op reply (record (s.put key db) k) := by
  rw [recordPut,if_neg (Ne.symm other)]
  exact .idle quiet

theorem openRecord {s : Store} (unheld : Unheld s) (k : Key) (req : OpenRequest) (id : Bytes) :
    RecordStep s k (.openDatabase req id) (step s (.openDatabase req id)).1
      (record (step s (.openDatabase req id)).2 k) := by
  simp only [step]
  have outcome := openStep unheld req id
  generalize s.open req id = out at outcome
  cases outcome with
  | refused e => exact .idle (by simp [answer,Touches])
  | resumed found live asked held same =>
    by_cases key : req.key = k
    · subst key; simpa [answer] using RecordStep.resumed rfl found live asked held same
    · exact idlePut _ key (by simpa [answer,Touches] using key)
  | granted found live asked =>
    by_cases key : req.key = k
    · subst key; simpa [answer] using RecordStep.granted rfl found live asked
    · exact idlePut _ key (by simpa [answer,Touches] using key)
  | revived found dead asked size =>
    by_cases key : req.key = k
    · subst key; simpa [answer] using RecordStep.revived rfl found dead asked size
    · exact idlePut _ key (by simpa [answer,Touches] using key)
  | created missing asked size =>
    by_cases key : req.key = k
    · subst key; simpa [answer] using RecordStep.created rfl missing asked size
    · exact idlePut _ key (by simpa [answer,Touches] using key)

theorem commitRecord (s : Store) (k : Key) (req : CommitRequest) :
    RecordStep s k (.commit req) (step s (.commit req)).1 (record (step s (.commit req)).2 k) := by
  simp only [step]
  have outcome := commitStep s req
  generalize s.commit req = out at outcome
  cases outcome with
  | refused e => exact .idle (by simp [answer,Touches])
  | repeated found held again =>
    by_cases key : req.key = k
    · subst key; simpa [answer] using RecordStep.repeated rfl found held again
    · exact idlePut _ key (by simpa [answer,Touches] using key)
  | applied found held base valid =>
    by_cases key : req.key = k
    · subst key; simpa [answer] using RecordStep.applied rfl found held base valid
    · exact idlePut _ key (by simpa [answer,Touches] using key)

theorem renewRecord (s : Store) (k key : Key) (epoch : Nat) (now : Time) (ttl : Duration) :
    RecordStep s k (.renew key epoch now ttl) (step s (.renew key epoch now ttl)).1
      (record (step s (.renew key epoch now ttl)).2 k) := by
  simp only [step]
  have outcome := renewStep s key epoch now ttl
  generalize s.renew key epoch now ttl = out at outcome
  cases outcome with
  | refused e => exact .idle (by simp [answer,Touches])
  | used found held =>
    by_cases same : key = k
    · subst same; simpa [answer] using RecordStep.renewed found held
    · exact idlePut _ same (by simpa [answer,Touches] using same)

theorem releaseRecord (s : Store) (k key : Key) (epoch : Nat) :
    RecordStep s k (.release key epoch) (step s (.release key epoch)).1
      (record (step s (.release key epoch)).2 k) := by
  simp only [step]
  have outcome := releaseStep s key epoch
  generalize s.release key epoch = out at outcome
  cases outcome with
  | refused e => exact .idle (by simp [answer,Touches])
  | used found held =>
    by_cases same : key = k
    · subst same; simpa [answer] using RecordStep.released found held
    · exact idlePut _ same (by simpa [answer,Touches] using same)

theorem deleteRecord (s : Store) (k : Key) (req : DeleteRequest) :
    RecordStep s k (.delete req) (step s (.delete req)).1 (record (step s (.delete req)).2 k) := by
  simp only [step]
  have outcome := deleteStep s req
  generalize s.delete req = out at outcome
  cases outcome with
  | refused e => exact .idle (by simp [answer,Touches])
  | nothing => exact .idle (by simp [answer,Touches])
  | removed found live =>
    by_cases key : req.key = k
    · subst key; simpa [answer] using RecordStep.deleted rfl found live
    · exact idlePut _ key (by simp [answer,Touches,key])

theorem deleteUnusedRecord (s : Store) (k : Key) (cutoff : Time) (limit : Nat) (tie : Key → Nat) :
    RecordStep s k (.deleteUnused cutoff limit tie) (step s (.deleteUnused cutoff limit tie)).1
      (record (step s (.deleteUnused cutoff limit tie)).2 k) := by
  have after : record (step s (.deleteUnused cutoff limit tie)).2 k =
      record ((s.unused cutoff limit tie).foldl (Store.drop s.slotHolders) s) k := rfl
  have reply : (step s (.deleteUnused cutoff limit tie)).1 = .ok (.unused (s.unused cutoff limit tie)) := rfl
  rw [after,reply,sweepRecord _ (unusedNodup s cutoff limit tie)]
  by_cases listed : k ∈ s.unused cutoff limit tie
  · obtain ⟨db,found,live,_⟩ := unusedMember listed
    by_cases holder : k.subject ∈ s.slotHolders
    · simpa [listed,holder] using RecordStep.purged (by simp [found]) (.unusedOfHolder listed holder)
    · simpa [listed,holder,found] using RecordStep.swept listed found live holder
  · rw [if_neg listed]
    exact .idle (by simpa [Touches] using listed)

theorem purgeStep {s : Store} {k : Key} {op : Op} {reply : Answer} {subject : String}
    (quiet : ¬ Touches k op reply) (cause : k.subject = subject → Purges s k op reply) :
    RecordStep s k op reply (if k.subject = subject then none else record s k) := by
  by_cases same : k.subject = subject
  · rw [if_pos same]
    cases found : record s k with
    | none => exact found ▸ RecordStep.idle quiet
    | some db => exact .purged (by simp [found]) (cause same)
  · rw [if_neg same]
    exact .idle quiet

theorem claimRecord (s : Store) (k : Key) (req : ClaimRequest) :
    RecordStep s k (.claimSlot req) (step s (.claimSlot req)).1 (record (step s (.claimSlot req)).2 k) := by
  simp only [step,Store.claimSlot]
  cases found : s.slots.lookup req.owner with
  | none => exact .idle (by simp [Touches])
  | some old =>
    by_cases same : old.subject = req.subject
    · simpa [same] using RecordStep.idle (s := s) (k := k) (by simp [Touches])
    · simp only [if_neg same]
      have cut := purgeRecord s old.subject k
      simp only [record] at cut ⊢
      rw [cut]
      exact purgeStep (by simp [Touches]) (fun subject => .replaced rfl subject.symm)

theorem deleteSlotRecord (s : Store) (k : Key) (owner subject : String) :
    RecordStep s k (.deleteSlot owner subject) (step s (.deleteSlot owner subject)).1
      (record (step s (.deleteSlot owner subject)).2 k) := by
  simp only [step,Store.deleteSlot]
  cases found : s.slots.lookup owner with
  | none =>
    simp only [answer,purgeRecord]
    exact purgeStep (by simp [Touches]) (fun same => by subst same; exact .slotDeleted)
  | some slot =>
    by_cases other : slot.subject ≠ subject
    · simpa [other,answer] using RecordStep.idle (s := s) (k := k) (by simp [Touches])
    · simp only [if_neg other,answer,purgeRecord]
      exact purgeStep (by simp [Touches]) (fun same => by subst same; exact .slotDeleted)

theorem fetchKeeps (s : Store) (key : Key) (version : Nat) (first count : UInt64) :
    (step s (.fetch key version first count)).2 = s := by
  simp only [step]; cases s.fetch key version first count <;> rfl

theorem fetchRead {s : Store} {key : Key} {version : Nat} {first count : UInt64} {data : List Bytes}
    (fetched : s.fetch key version first count = .ok data) :
    ∃ db, record s key = some db ∧ db.deleted = false ∧ version = db.state.version ∧
      checkRange first count db.state.pageCount = none ∧
      data = (List.range count.toNat).map (fun n => db.content (first+UInt64.ofNat n)) := by
  unfold Store.fetch at fetched
  cases found : s.dbs.lookup key with
  | none => rw [found] at fetched; contradiction
  | some db =>
    rw [found] at fetched
    simp only at fetched
    split at fetched <;> try contradiction
    rename_i live
    split at fetched <;> try contradiction
    rename_i current
    split at fetched <;> try contradiction
    rename_i inside
    exact ⟨db,found,by simpa using live,not_not.mp current,inside,(Except.ok.inj fetched).symm⟩

theorem changesKeeps (s : Store) (key : Key) (fromVersion : Nat) : (step s (.changes key fromVersion)).2 = s := by
  simp only [step]; cases s.changes key fromVersion <;> rfl

theorem recordStep {s : Store} (unheld : Unheld s) (op : Op) (k : Key) :
    RecordStep s k op (step s op).1 (record (step s op).2 k) := by
  cases op with
  | openDatabase req id => exact openRecord unheld k req id
  | commit req => exact commitRecord s k req
  | renew key epoch now ttl => exact renewRecord s k key epoch now ttl
  | release key epoch => exact releaseRecord s k key epoch
  | delete req => exact deleteRecord s k req
  | deleteUnused cutoff limit tie => exact deleteUnusedRecord s k cutoff limit tie
  | claimSlot req => exact claimRecord s k req
  | deleteSlot owner subject => exact deleteSlotRecord s k owner subject
  | fetch key version first count => rw [fetchKeeps]; exact .idle (by simp [Touches])
  | changes key fromVersion => rw [changesKeeps]; exact .idle (by simp [Touches])
  | getSlot owner => exact .idle (by simp [Touches])
  | setSlotLabel owner subject label =>
    have same : record (step s (.setSlotLabel owner subject label)).2 k = record s k := by
      simp only [step,Store.setSlotLabel]
      cases s.slots.lookup owner with
      | none => rfl
      | some slot => simp only; split <;> rfl
    rw [same]; exact .idle (by simp [Touches])

end SqliteRemote.MemoryStore
