import SqliteRemote.PostgresRepresentation

/-! The PostgreSQL store run one operation after another answers as the memory store does, as
long as the numbers fit the signed columns and the times are whole microseconds. -/
namespace SqliteRemote.Postgres
open Rows Chunks StoreContract Programs RowLocking
open MemoryStore (Database Store record)

/- A transaction begun on these tables does what the memory store does. -/
def Agrees {β : Type} (t : Tables) (memory : Except Error β × Store) (body : Except Failure β × Tables) : Prop :=
  (settle t body).1 = memory.1.mapError Failure.declared ∧ Sim memory.2 (settle t body).2

theorem agreesOk {β : Type} {t after : Tables} {s : Store} (b : β) (sim : Sim s after) :
    Agrees t (.ok b,s) (.ok b,after) := ⟨rfl,sim⟩

theorem agreesError {β : Type} {t after : Tables} {s : Store} (e : Error) (sim : Sim s t) :
    Agrees (β := β) t (.error e,s) (.error (.declared e),after) := ⟨rfl,sim⟩

def Matches (memory : Answer × Store) (postgres : Except Failure Reply × Tables) : Prop :=
  postgres.1 = memory.1.mapError Failure.declared ∧ Sim memory.2 postgres.2

theorem matchesTx {β : Type} {s : Store} {t : Tables} {op : Op} {reply : β → Reply} {body : Body β}
    {m : Except Error β × Store} (is : script op = inTx reply body)
    (answers : MemoryStore.step s op = MemoryStore.answer reply m)
    (agrees : Agrees t m (execBody engine body t)) : Matches (MemoryStore.step s op) (step t op) := by
  rw [answers,stepTx t is]
  obtain ⟨same,sim⟩ := agrees
  obtain ⟨result,after⟩ := m
  rw [same]
  cases result with
  | ok b => exact ⟨rfl,sim⟩
  | error e => exact ⟨rfl,sim⟩

section
variable {s : Store} {t : Tables} (sim : Sim s t) {req : OpenRequest} (now : 1000 ∣ req.now)
  (expiry : 1000 ∣ req.now+req.ttl) (id : Bytes)
include sim now expiry

theorem grantAgrees {db : Database} {row : Row} (known : Known t req.key db row) (live : db.deleted = false) :
    Agrees t (s.grant req id db) (execBody engine (grantLease req id row) t) := by
  have times := known.times live
  rw [execGrant known.found,activeRow known.same times,known.same.holder,stateOfRow known.same]
  simp only [Store.grant]
  split
  · have since : row.since = db.grantedAt := by rw [Row.since,times.granted,Option.getD_some]
    rw [since]
    exact agreesError _ sim
  · rw [known.same.epoch]
    exact agreesOk _ (simRow sim (rowGrant known.same req id _ _) (fun _ => timesGrant db row id now expiry)
      known.blocks known.log)

theorem leaseAgrees {db : Database} {row : Row} (known : Known t req.key db row) (live : db.deleted = false) :
    Agrees t (s.lease req id db) (execBody engine (resumeOrGrant req id row) t) := by
  rw [execResumeOrGrant known.found]
  unfold Store.lease
  cases req.resume with
  | none => exact grantAgrees sim now expiry id known live
  | some resume =>
    simp only [Store.resume]
    rw [holdsRow known.same,known.same.lease,leaseOfRow known.same,stateOfRow known.same]
    split
    · exact agreesError _ sim
    · exact agreesOk _ (simRow sim (rowExtend known.same _ _) (fun live => timesExtend (known.times live) expiry)
        known.blocks known.log)

theorem firstLeaseAgrees {db : Database} {row : Row} (same : RowOf db row) (free : db.holder = none)
    (blocks : BlocksAre t req.key db.blocks) (log : LogIs t req.key db.changes) :
    Agrees t ((s.put req.key db).grant req id db) (execBody engine (grantLease req id row) (t.put req.key row)) := by
  rw [execGrant (putRow t req.key row),freeRow same free,MemoryStore.grantUnheld _ _ _ free,MemoryStore.putPut,
    putPut,stateOfRow same,same.epoch]
  exact agreesOk _ (simRow sim (rowGrant same req id _ _) (fun _ => timesGrant db row id now expiry) blocks log)

theorem openRowAgrees {db : Database} {row : Row} (valid : MemoryStore.Wellformed db)
    (found : record s req.key = some db) (known : Known t req.key db row)
    (free : s.slotTaken req.owner req.key.subject = false) :
    Agrees t (s.open req id) (execBody engine (openRow req id row) t) := by
  have there : s.dbs.lookup req.key = some db := found
  rw [execOpenRow known.found,Store.open,known.same.deleted,known.same.pageSize,UInt32.toUInt32_toInt32]
  simp only [free,Bool.false_eq_true,if_false,there]
  cases dead : db.deleted with
  | false =>
    simp only [Bool.false_eq_true,if_false,Store.checkedLease]
    by_cases other : req.pageSize ≠ 0 ∧ db.state.pageSize ≠ req.pageSize
    · rw [if_pos other,if_pos ⟨other.1,Ne.symm other.2⟩]
      exact agreesError _ sim
    · rw [if_neg other,if_neg (fun both => other ⟨both.1,Ne.symm both.2⟩)]
      exact leaseAgrees sim now expiry id known dead
  | true =>
    simp only [if_true]
    by_cases resumed : req.resume.isSome = true
    · rw [if_pos resumed,if_pos resumed]
      exact agreesError _ sim
    rw [if_neg resumed,if_neg resumed]
    split
    · exact agreesError _ sim
    split
    · exact agreesError _ sim
    have asked : req.resume = none := by simpa using resumed
    have unheld : (db.revive req.pageSize).holder = none := (valid.empty dead).1
    have size : ¬ (req.pageSize ≠ 0 ∧ req.pageSize ≠ (db.revive req.pageSize).state.pageSize) := by
      simp [Database.revive]
    rw [execResumeOrGrant (putRow t req.key _),Store.checkedLease,if_neg size,Store.lease]
    simp only [asked]
    exact firstLeaseAgrees sim now expiry id (rowRevive known.same req.pageSize) unheld known.blocks known.log

theorem createAgrees (missing : record s req.key = none) (free : s.slotTaken req.owner req.key.subject = false) :
    Agrees t (s.open req id) (execBody engine (createDatabase req (openRow req id)) t) := by
  have absent : s.dbs.lookup req.key = none := missing
  obtain ⟨row,blocks,log⟩ := missingRow sim missing
  rw [execCreate row,Store.open]
  simp only [free,Bool.false_eq_true,if_false,absent]
  split
  · exact agreesError _ sim
  rename_i wanted
  split
  · exact agreesError _ sim
  have asked : req.resume = none := by
    simp only [Bool.or_eq_true,not_or,Bool.not_eq_true,Option.isSome_eq_false_iff,Option.isNone_iff_eq_none] at wanted
    exact wanted.2
  have size : ¬ (req.pageSize ≠ 0 ∧ (newRow req.pageSize.toInt32).pageSize.toUInt32 ≠ req.pageSize) := by
    simp [newRow]
  have live : ¬ (newRow req.pageSize.toInt32).deleted = true := Bool.false_ne_true
  rw [execOpenRow (putRow t req.key _),if_neg live,if_neg size,execResumeOrGrant (putRow t req.key _),Store.lease]
  simp only [asked]
  exact firstLeaseAgrees sim now expiry id (rowFresh req.pageSize) rfl blocks log

theorem openAgrees (valid : MemoryStore.WellformedStore s) :
    Agrees t (s.open req id) (execBody engine (openBody req id) t) := by
  have taken : (req.owner ≠ "" ∧ (t.slots.lookup req.owner).any (fun slot => slot.subject ≠ req.key.subject)) ↔
      s.slotTaken req.owner req.key.subject = true := by
    rw [sim.slots,Store.slotTaken]
    cases s.slots.lookup req.owner <;> simp
  rw [execOpen]
  by_cases held : s.slotTaken req.owner req.key.subject = true
  · rw [if_pos (taken.mpr held),Store.open,if_pos held]
    exact agreesError _ sim
  · have free : s.slotTaken req.owner req.key.subject = false := by simpa using held
    rw [if_neg (fun both => held (taken.mp both)),execOpenDatabase]
    cases found : record s req.key with
    | none =>
      rw [(missingRow sim found).1]
      exact createAgrees sim now expiry id found free
    | some db =>
      obtain ⟨row,known⟩ := knownRow sim found
      rw [known.found]
      exact openRowAgrees sim now expiry id (valid _ _ found) found known free

end

theorem removeAgrees {s : Store} {t : Tables} (sim : Sim s t) {key : Key} {db : Database} {row : Row}
    (valid : MemoryStore.Wellformed db) (known : Known t key db row) (fits : db.state.pageCount.toNat < 2^63) :
    Sim (s.put key db.remove) (t.removed key row) := by
  refine simPut sim (removedSlots t key row) (fun k other => removedSame t key row other) (.present
    ⟨by rw [removedRow,if_pos rfl],rowRemove known.same,fun live => absurd live (Bool.false_ne_true ∘ Eq.symm),?_,?_⟩)
  · have signed : ∀ i data, db.blocks i = some data → i.toNat < 2^63 := fun i data there =>
      Nat.lt_trans (UInt64.lt_iff_toNat_lt.mp (valid.stored i data there).1) fits
    exact blocksRemoved known.blocks signed row
  · intro v blocks
    rw [removedChange,if_pos rfl]
    simp [Database.remove]

theorem fetchRepresents {s : Store} {t : Tables} {key : Key} {cur : Option Database} (represents : Represents t key cur)
    (valid : ∀ db, cur = some db → MemoryStore.Wellformed db) (small : ∀ db, cur = some db → db.state.pageCount.toNat < 2^63)
    (is : s.dbs.lookup key = cur) (version : Nat) (first count : UInt64) :
    fetched t key version first count = (s.fetch key version first count).mapError Failure.declared := by
  rw [fetched,Store.fetch,is]
  cases represents with
  | absent row _ _ =>
    rw [row]
    rfl
  | @present db row known =>
    rw [known.found]
    simp only [known.same.deleted,known.same.version,known.same.pageCount,known.same.pageSize,
      UInt32.toUInt32_toInt32,UInt64.toUInt64_toInt64]
    split
    · rfl
    split
    · rfl
    cases inside : checkRange first count db.state.pageCount with
    | some reason => rfl
    | none =>
      have sizes : ∀ i data, db.blocks i = some data → data.length = db.state.pageSize.toNat :=
        fun i data there => ((valid db rfl).stored i data there).2
      simp only [zeros,Except.mapError]
      rw [copiedRange known.blocks sizes]
      refine congrArg Except.ok (List.map_congr_left ?_)
      intro n member
      rw [if_pos (signedRange inside (small db rfl) (List.mem_range.mp member)),Database.content,zeros]

section
variable {s : Store} {t : Tables} (sim : Sim s t) (valid : MemoryStore.WellformedStore s)
include sim valid

theorem applyAgrees {req : CommitRequest} {db : Database} {row : Row} (found : record s req.key = some db)
    (known : Known t req.key db row) (fits : db.state.pageCount.toNat < 2^63) (small : req.pageCount.toNat < 2^63)
    (expiry : 1000 ∣ req.now+req.ttl) (ok : validateCommit db.state.pageSize req = none) :
    Sim (s.put req.key (db.apply req)) (t.committed req row) := by
  obtain ⟨_,each,_⟩ := validCommit ok
  have wellformed := valid _ _ found
  have below {i bound : UInt64} (less : i < bound) (limit : bound.toNat < 2^63) : i.toNat < 2^63 :=
    Nat.lt_trans (UInt64.lt_iff_toNat_lt.mp less) limit
  refine simPut sim (committedSlots t req row) (fun k other => committedSame t req row other) (.present
    ⟨by rw [committedRow,if_pos rfl],rowApplied known.same req,?_,?_,?_⟩)
  · intro live
    exact ⟨(known.times live).granted,by rw [Row.afterCommit,wholeTimestamp expiry]; rfl⟩
  · exact blocksCommitted known.blocks (fun i data there => (wellformed.stored i data there).2)
      (fun i data there => below (wellformed.stored i data there).1 fits) each small row
  · exact appliedLogIs wellformed known (fun b member => below (each b member).2 small)

theorem commitAgrees {req : CommitRequest}
    (fits : ∀ db, record s req.key = some db → db.state.pageCount.toNat < 2^63) (small : req.pageCount.toNat < 2^63)
    (expiry : 1000 ∣ req.now+req.ttl) : Agrees t (s.commit req) (execBody engine (commitBody req) t) := by
  rw [execCommit,Store.commit]
  cases found : s.dbs.lookup req.key with
  | none =>
    rw [(missingRow sim found).1]
    exact agreesError _ sim
  | some db =>
    obtain ⟨row,known⟩ := knownRow sim found
    rw [known.found]
    simp only [holdsRow known.same,repeatsRow known.same,known.same.version,known.same.pageSize,
      UInt32.toUInt32_toInt32]
    split
    · exact agreesError _ sim
    split
    · exact agreesOk _ (simRow sim (rowExtend known.same _ _) (fun live => timesExtend (known.times live) expiry)
        known.blocks known.log)
    split
    · exact agreesError _ sim
    cases ok : validateCommit db.state.pageSize req with
    | some reason => exact agreesError _ sim
    | none => exact agreesOk _ (applyAgrees sim valid found known (fits db found) small expiry ok)

theorem fetchAgrees {key : Key} (fits : ∀ db, record s key = some db → db.state.pageCount.toNat < 2^63)
    (version : Nat) (first count : UInt64) :
    fetched t key version first count = (s.fetch key version first count).mapError Failure.declared :=
  fetchRepresents (sim.records key) (fun db found => valid key db found) fits rfl version first count

theorem changesAgrees (key : Key) (f : Nat) :
    changed t key f = (s.changes key f).mapError Failure.declared := by
  rw [changed,Store.changes]
  cases found : s.dbs.lookup key with
  | none =>
    rw [(missingRow sim found).1]
    rfl
  | some db =>
    obtain ⟨row,known⟩ := knownRow sim found
    rw [known.found]
    simp only [known.same.deleted,known.same.version,logOfRecord (valid _ _ found) known,changedBlocksSigned]
    split
    · rfl
    split
    · rfl
    rw [Database.changeSet]
    by_cases current : f = db.state.version
    · rw [if_pos current,if_pos current]
      rfl
    rw [if_neg current,if_neg current]
    cases log : db.changes with
    | nil => rfl
    | cons oldest rest =>
      have start := MemoryStore.oldestLogged (valid _ _ found) log
      have reach := (valid _ _ found).reach
      have nonzero : oldest.version ≠ 0 := by omega
      simp only [List.map_cons,List.head?_cons,Option.map_some,Option.getD_some,nonzero,false_or]
      split <;> rfl

omit valid in
theorem leaseStepAgrees (key : Key) (epoch : Nat) (change : Database → Database) (changeRow : Row → Row) {op : Op}
    {q : Query Nat} (is : script op = .ask (.auto q) (whyNoRow key))
    (answers : ∀ u : Tables, q.answer u = if (u.usable key epoch).isSome then 1 else 0)
    (writes : ∀ u : Tables, engine.after q u = match u.usable key epoch with
      | some row => u.put key (changeRow row)
      | none => u)
    (memory : MemoryStore.step s op = MemoryStore.answer (fun _ => .done) (match s.dbs.lookup key with
      | none => (.error .notFound,s)
      | some db => if !db.holds epoch then (.error .fenced,s) else (.ok (),s.put key (change db))))
    (keeps : ∀ db row, Known t key db row → Sim (s.put key (change db)) (t.put key (changeRow row))) :
    Matches (MemoryStore.step s op) (step t op) := by
  rw [stepLease is,memory,answers,writes]
  cases found : s.dbs.lookup key with
  | none =>
    have missing := (missingRow sim found).1
    simp only [Tables.usable,missing,Option.filter_none]
    exact ⟨by simp [MemoryStore.answer,Except.mapError],sim⟩
  | some db =>
    obtain ⟨row,known⟩ := knownRow sim found
    cases held : db.holds epoch with
    | false =>
      have unusable : t.usable key epoch = none := by
        simp [Tables.usable,known.found,Option.filter,usableRow known.same,held]
      simp only [unusable]
      exact ⟨by simp [MemoryStore.answer,Except.mapError,known.found,held],by simpa [held,MemoryStore.answer] using sim⟩
    | true =>
      have usable : t.usable key epoch = some row := by
        simp [Tables.usable,known.found,Option.filter,usableRow known.same,held]
      simp only [usable]
      exact ⟨by simp [MemoryStore.answer,Except.mapError,held],by
        simpa [held,MemoryStore.answer] using keeps db row known⟩

omit valid in
theorem renewAgrees (key : Key) (epoch : Nat) (now : Time) {ttl : Duration} (expiry : 1000 ∣ now+ttl) :
    Matches (MemoryStore.step s (.renew key epoch now ttl)) (step t (.renew key epoch now ttl)) := by
  refine leaseStepAgrees sim key epoch (·.extend (now+ttl)) (·.extended (timestamp (now+ttl))) rfl (fun u => rfl)
    ?_ rfl ?_
  · intro u
    rw [afterWrites,Query.writes]
    cases u.usable key epoch <;> rfl
  · intro db row known
    exact simRow sim (rowExtend known.same _ _) (fun live => timesExtend (known.times live) expiry) known.blocks known.log

omit valid in
theorem releaseAgrees (key : Key) (epoch : Nat) :
    Matches (MemoryStore.step s (.release key epoch)) (step t (.release key epoch)) := by
  refine leaseStepAgrees sim key epoch Database.release Row.released rfl (fun u => rfl) ?_ rfl ?_
  · intro u
    rw [afterWrites,Query.writes]
    cases u.usable key epoch <;> rfl
  · intro db row known
    exact simRow sim (rowRelease known.same) (fun live => ⟨(known.times live).granted,(known.times live).expires⟩)
      known.blocks known.log

theorem deleteAgrees {req : DeleteRequest}
    (fits : ∀ db, record s req.key = some db → db.state.pageCount.toNat < 2^63) :
    Agrees t (s.delete req) (execBody engine (deleteBody req) t) := by
  rw [execDelete,Store.delete]
  cases found : s.dbs.lookup req.key with
  | none =>
    rw [(missingRow sim found).1]
    exact agreesOk _ sim
  | some db =>
    obtain ⟨row,known⟩ := knownRow sim found
    rw [known.found]
    simp only [known.same.deleted]
    cases dead : db.deleted with
    | true => exact agreesOk _ sim
    | false =>
      have times := known.times dead
      have since : row.since = db.grantedAt := by rw [Row.since,times.granted,Option.getD_some]
      simp only [Bool.false_eq_true,if_false,activeRow known.same times,since,known.same.epoch]
      split
      · exact agreesError _ sim
      · exact agreesOk _ (removeAgrees sim (valid _ _ found) known (fits db found))

end

theorem dropAgrees {s : Store} {t : Tables} (sim : Sim s t) {key : Key} {db : Database} {row : Row}
    (found : record s key = some db) (valid : MemoryStore.Wellformed db) (known : Known t key db row)
    (fits : db.state.pageCount.toNat < 2^63) {holders : List String}
    (same : ∀ subject, subject ∈ holders ↔ t.holdsSlot subject = true) :
    Sim (s.drop holders key) (if t.holdsSlot key.subject then (Write.purge key).apply t else t.removed key row) := by
  rw [Store.drop]
  by_cases holder : key.subject ∈ holders
  · rw [if_pos holder,if_pos ((same _).mp holder)]
    refine ⟨sim.slots,fun k => ?_⟩
    have erased : record {s with dbs := s.dbs.erase key} k = if k = key then none else record s k :=
      lookupErase s.dbs key k
    rw [erased]
    by_cases here : k = key
    · subst here
      rw [if_pos rfl]
      exact representsGone (purgeGone t k)
    · rw [if_neg here]
      exact representsSame (purgeSame t here) (sim.records k)
  · have there : s.dbs.lookup key = some db := found
    rw [if_neg holder,if_neg (fun held => holder ((same _).mpr held)),there]
    exact removeAgrees sim valid known fits

theorem stepSweep (t : Tables) (cutoff : Time) (finish : List Key → Option Failure → Operation) (removed : List Key)
    (key : Key) (rest : List Key) {after : Tables} (swept : execBody engine (sweepBody cutoff key) t = (.ok true,after)) :
    exec engine (sweepAll cutoff finish removed (key :: rest)) t =
      exec engine (sweepAll cutoff finish (removed ++ [key]) rest) after := by
  have work : execWork engine (.tx false (sweepBody cutoff key) : Work Query Failure _) t = (.ok true,after) := by
    rw [execWork,swept]
    rfl
  rw [sweepAll,exec,work]

def Sweepable (s : Store) (cutoff : Time) (k : Key) : Prop :=
  ∃ db, record s k = some db ∧ db.deleted = false ∧ db.expiresAt < cutoff ∧ MemoryStore.Wellformed db ∧
    db.state.pageCount.toNat < 2^63

theorem sweptKey {s : Store} {t : Tables} (sim : Sim s t) {cutoff : Time} {key : Key} (able : Sweepable s cutoff key)
    {holders : List String} (same : ∀ subject, subject ∈ holders ↔ t.holdsSlot subject = true) :
    ∃ after, execBody engine (sweepBody cutoff key) t = (.ok true,after) ∧ Sim (s.drop holders key) after ∧
      after.slots = t.slots := by
  obtain ⟨db,found,live,expired,valid,fits⟩ := able
  obtain ⟨row,known⟩ := knownRow sim found
  have taken : ¬ (row.deleted || !row.leaseExpires.any (fun expires => decide (expires < cutoff))) = true := by
    simp [known.same.deleted,live,(known.times live).expires,expired]
  refine ⟨_,?_,dropAgrees sim found valid known fits same,?_⟩
  · rw [execSweep known.found,if_neg taken]
    split <;> rfl
  · split
    · rfl
    · exact removedSlots t key row

theorem sweepAgrees {cutoff : Time} (finish : List Key → Option Failure → Operation) {holders : List String}
    {keys : List Key} (once : keys.Nodup) (removed : List Key) {s : Store} {t : Tables} (sim : Sim s t)
    (each : ∀ k ∈ keys, Sweepable s cutoff k) (same : ∀ subject, subject ∈ holders ↔ t.holdsSlot subject = true) :
    ∃ after, Sim (keys.foldl (Store.drop holders) s) after ∧
      exec engine (sweepAll cutoff finish removed keys) t = exec engine (finish (removed ++ keys) none) after := by
  induction keys generalizing removed s t with
  | nil => exact ⟨t,sim,by rw [sweepAll,List.append_nil]⟩
  | cons key rest ih =>
    obtain ⟨fresh,once⟩ := List.nodup_cons.mp once
    obtain ⟨next,swept,related,slots⟩ := sweptKey sim (each key List.mem_cons_self) same
    have still : ∀ subject, subject ∈ holders ↔ next.holdsSlot subject = true := by
      intro subject
      rw [same,Tables.holdsSlot,Tables.holdsSlot,slots]
    have left : ∀ k ∈ rest, Sweepable (s.drop holders key) cutoff k := by
      intro k member
      obtain ⟨db,found,rest⟩ := each k (List.mem_cons_of_mem _ member)
      have other : k ≠ key := fun here => fresh (here ▸ member)
      exact ⟨db,by rw [MemoryStore.dropRecord,if_neg other,found],rest⟩
    obtain ⟨after,final,ran⟩ := ih once (removed ++ [key]) related left still
    refine ⟨after,final,?_⟩
    rw [stepSweep t cutoff finish removed key rest swept,ran,List.append_assoc]
    rfl

section
variable {s : Store} {t : Tables} (sim : Sim s t)
include sim

theorem slotHoldersAgree (subject : String) : subject ∈ s.slotHolders ↔ t.holdsSlot subject = true := by
  rw [MemoryStore.memSlotHolders,Tables.holdsSlot,anyRowIff]
  simp only [sim.slots,beq_iff_eq]

theorem liveAgree {k : Key} {p : Time → Bool} :
    (∃ row, t.databases.lookup k = some row ∧ (!row.deleted && row.leaseExpires.any p) = true) ↔
    ∃ db, s.dbs.lookup k = some db ∧ (!db.deleted && p db.expiresAt) = true := by
  constructor
  · intro there
    obtain ⟨row,found,live⟩ := there
    obtain ⟨db,stored,known⟩ := knownRecord sim found
    refine ⟨db,stored,?_⟩
    simp only [Bool.and_eq_true,Bool.not_eq_true',known.same.deleted] at live ⊢
    rw [(known.times live.1).expires] at live
    exact live
  · intro there
    obtain ⟨db,stored,live⟩ := there
    obtain ⟨row,known⟩ := knownRow sim stored
    refine ⟨row,known.found,?_⟩
    simp only [Bool.and_eq_true,Bool.not_eq_true',known.same.deleted] at live ⊢
    rw [(known.times live.1).expires]
    exact live

theorem unusedAgree (cutoff : Time) (limit : Nat) (tie : Key → Nat) :
    t.unused cutoff limit tie = s.unused cutoff limit tie := by
  have memory : s.unused cutoff limit tie = (oldestFirst s.expiry tie
      (keysWhere s.dbs (fun _ db => !db.deleted && decide (db.expiresAt < cutoff)))).take limit := by
    simp only [Store.unused]
    split
    · rfl
    · rename_i short
      rw [List.take_of_length_le (Nat.le_of_not_lt short)]
  rw [memory,Tables.unused]
  congr 1
  refine oldestFirstUnique ?_ ?_
  · refine (List.perm_ext_iff_of_nodup (keysWhereNodup _ _) (keysWhereNodup _ _)).mpr (fun k => ?_)
    rw [memKeysWhere,memKeysWhere]
    exact liveAgree sim (p := fun expires => decide (expires < cutoff))
  · intro k member
    obtain ⟨row,found,live⟩ := (memKeysWhere _ _ _).mp member
    simp only [Bool.and_eq_true,Bool.not_eq_true'] at live
    obtain ⟨db,stored,known⟩ := knownRecord sim found
    have expires := (known.times (known.same.deleted ▸ live.1)).expires
    have there : s.dbs.lookup k = some db := stored
    rw [Tables.expiry,Store.expiry,known.found,there]
    simp [expires]

theorem hasDatabasesAgree (subject : String) :
    anyRow t.databases (fun key row => key.subject == subject && !row.deleted) = s.hasDatabases subject := by
  rw [Store.hasDatabases,Bool.eq_iff_iff,anyRowIff,anyRowIff]
  refine exists_congr (fun k => ?_)
  constructor
  · intro there
    obtain ⟨row,found,live⟩ := there
    obtain ⟨db,stored,known⟩ := knownRecord sim found
    exact ⟨db,stored,by rwa [known.same.deleted] at live⟩
  · intro there
    obtain ⟨db,stored,live⟩ := there
    obtain ⟨row,known⟩ := knownRow sim stored
    exact ⟨row,known.found,by rwa [known.same.deleted]⟩

theorem simSlots {after : Tables} {slots : Table String Slot} (same : ∀ k, SameRows t after k)
    (agree : ∀ owner, after.slots.lookup owner = slots.lookup owner) : Sim {s with slots := slots} after :=
  ⟨agree,fun k => representsSame (same k) (sim.records k)⟩

theorem releaseSlotsAgrees {cutoff : Time} (whole : 1000 ∣ cutoff) :
    Sim {s with
        slots := eraseWhere s.slots
          (fun _ slot => decide (slot.claimedAt < cutoff) && !s.hasDatabases slot.subject)}
      (engine.after (.releaseSlots ((Query.unusedSlots cutoff).answer t)) t) := by
  obtain ⟨same,slots⟩ := dropSlots (t.releasable ((Query.unusedSlots cutoff).answer t)) t
  refine simSlots sim same (fun owner => (slots owner).trans ?_)
  have member : owner ∈ t.releasable ((Query.unusedSlots cutoff).answer t) ↔ ∃ slot, s.slots.lookup owner = some slot ∧
      (decide (slot.claimedAt < cutoff) && !s.hasDatabases slot.subject) = true := by
    simp only [releasableAtOnce,memKeysWhere,Tables.unusedSlot,sim.slots,wholeTimestamp whole,hasDatabasesAgree sim]
  rw [lookupEraseWhere,sim.slots]
  cases found : s.slots.lookup owner with
  | none => simp
  | some slot =>
    by_cases unused : (decide (slot.claimedAt < cutoff) && !s.hasDatabases slot.subject) = true
    · rw [if_pos (member.mpr ⟨slot,found,unused⟩)]
      simp [Option.filter,unused]
    · have kept : owner ∉ t.releasable ((Query.unusedSlots cutoff).answer t) := by
        intro listed
        obtain ⟨other,there,expired⟩ := member.mp listed
        cases found.symm.trans there
        exact unused expired
      rw [if_neg kept]
      simp [Option.filter,unused]

theorem deleteUnusedAgrees (valid : MemoryStore.WellformedStore s)
    (fits : ∀ k db, record s k = some db → db.state.pageCount.toNat < 2^63) {cutoff : Time} (whole : 1000 ∣ cutoff)
    {limit : Nat} (short : limit ≤ 2^30) (tie : Key → Nat) :
    Matches (MemoryStore.step s (.deleteUnused cutoff limit tie)) (step t (.deleteUnused cutoff limit tie)) := by
  have candidates : (Query.unusedDatabases cutoff (min limit (2^30)) tie).answer t = s.unused cutoff limit tie := by
    simp only [Query.answer,Nat.min_eq_left short,wholeTimestamp whole]
    exact unusedAgree sim cutoff limit tie
  have able : ∀ k ∈ s.unused cutoff limit tie, Sweepable s cutoff k := by
    intro k member
    obtain ⟨db,found,live,expired⟩ := MemoryStore.unusedMember member
    exact ⟨db,found,live,expired,valid _ _ found,fits _ _ found⟩
  have asked : ∃ finish : List Key → Option Failure → Operation,
      step t (.deleteUnused cutoff limit tie) =
        exec engine (sweepAll cutoff finish [] ((Query.unusedDatabases cutoff (min limit (2^30)) tie).answer t)) t ∧
      ∀ removed, finish removed none = .ask (.auto (.unusedSlots cutoff)) fun unused =>
        .ask (.auto (.releaseSlots unused)) fun _ => .done (.ok (.unused removed)) :=
    ⟨_,rfl,fun _ => rfl⟩
  obtain ⟨finish,sweeps,finished⟩ := asked
  obtain ⟨after,related,ran⟩ := sweepAgrees finish (MemoryStore.unusedNodup s cutoff limit tie) [] sim able
    (slotHoldersAgree sim)
  rw [sweeps,candidates,ran,finished]
  exact ⟨rfl,releaseSlotsAgrees related whole⟩

theorem purgeAgrees (subject : String) : Sim (s.purge subject).2 (t.purged subject) := by
  refine ⟨fun owner => by rw [purgedSlots]; exact sim.slots owner,fun k => ?_⟩
  rw [MemoryStore.purgeRecord]
  by_cases listed : k ∈ t.subjectKeys subject
  · rw [if_pos ((memSubjectKeys t subject k).mp listed).2]
    exact representsGone (purgedGone listed)
  · have kept := representsSame (purgedSame listed) (sim.records k)
    by_cases mine : k.subject = subject
    · rw [if_pos mine]
      cases stored : record s k with
      | none => rwa [stored] at kept
      | some db =>
        obtain ⟨row,known⟩ := knownRow sim stored
        exact absurd ((memSubjectKeys t subject k).mpr ⟨⟨row,known.found⟩,mine⟩) listed
    · rwa [if_neg mine]

theorem purgedKeysAgree (subject : String) : keysOf (t.purgedKeys subject) = (s.purge subject).1 := by
  have member (entry : Key × Bool) : entry ∈ t.purgedKeys subject ↔
      ∃ row, t.row entry.1 = some row ∧ row.deleted = entry.2 ∧ entry.1.subject = subject := by
    obtain ⟨k,dead⟩ := entry
    simp only [Tables.purgedKeys,List.mem_filterMap,memSubjectKeys,Option.map_eq_some_iff,Prod.mk.injEq]
    constructor
    · intro listed
      obtain ⟨key,⟨_,mine⟩,row,found,rfl,same⟩ := listed
      exact ⟨row,found,same,mine⟩
    · intro there
      obtain ⟨row,found,same,mine⟩ := there
      exact ⟨k,⟨⟨row,found⟩,mine⟩,row,found,rfl,same⟩
  have live (k : Key) : k ∈ ((t.purgedKeys subject).filter (fun entry => !entry.2)).map (fun entry => entry.1) ↔
      ∃ db, s.dbs.lookup k = some db ∧ (k.subject == subject && !db.deleted) = true := by
    simp only [List.mem_map,List.mem_filter,member,Bool.not_eq_true',Bool.and_eq_true,beq_iff_eq]
    constructor
    · intro listed
      obtain ⟨entry,⟨⟨row,found,dead,mine⟩,alive⟩,rfl⟩ := listed
      obtain ⟨db,stored,known⟩ := knownRecord sim found
      exact ⟨db,stored,mine,by rw [← known.same.deleted,dead,alive]⟩
    · intro there
      obtain ⟨db,stored,mine,alive⟩ := there
      obtain ⟨row,known⟩ := knownRow sim stored
      exact ⟨(k,false),⟨⟨row,known.found,by rw [known.same.deleted,alive],mine⟩,rfl⟩,rfl⟩
  have distinct : ((t.purgedKeys subject).filter (fun entry => !entry.2)).map (fun entry => entry.1) |>.Nodup := by
    have keys : (t.purgedKeys subject).Nodup := by
      refine (keysWhereNodup t.databases _).filterMap ?_
      intro a b entry left right
      simp only [Option.mem_def,Option.map_eq_some_iff] at left right
      obtain ⟨_,_,rfl⟩ := left
      obtain ⟨_,_,same⟩ := right
      exact (Prod.mk.inj same).1.symm
    refine (keys.filter _).map_on ?_
    intro a first b second same
    have left : a.2 = false := by simpa using (List.mem_filter.mp first).2
    have right : b.2 = false := by simpa using (List.mem_filter.mp second).2
    exact Prod.ext same (left.trans right.symm)
  have mine : ∀ k ∈ ((t.purgedKeys subject).filter (fun entry => !entry.2)).map (fun entry => entry.1),
      k.subject = subject := by
    intro k listed
    obtain ⟨db,_,mine⟩ := (live k).mp listed
    simp only [Bool.and_eq_true,beq_iff_eq] at mine
    exact mine.1
  rw [keysOf,Store.purge]
  refine byDBIDUnique ?_ mine
  refine (List.perm_ext_iff_of_nodup distinct (keysWhereNodup _ _)).mpr (fun k => ?_)
  rw [live,memKeysWhere]

theorem simSlot (owner : String) (slot : Slot) :
    Sim {s with slots := s.slots.insert owner slot} ((Write.slot owner slot).apply t) := by
  refine simSlots sim (slotSame t owner slot) (fun o => ?_)
  rw [slotApply,lookupInsert]
  simp only [sim.slots]

theorem claimAgrees {req : ClaimRequest} (now : 1000 ∣ req.now) :
    Agrees t (.ok (s.claimSlot req).1,(s.claimSlot req).2) (execBody engine (claimBody req) t) := by
  rw [execClaim,sim.slots,Store.claimSlot]
  cases found : s.slots.lookup req.owner with
  | none =>
    simp only [wholeTimestamp now]
    exact agreesOk _ (simSlot sim req.owner _)
  | some slot =>
    simp only
    rw [execClaimRow ((sim.slots req.owner).trans found)]
    by_cases mine : slot.subject = req.subject
    · rw [if_pos mine,if_pos mine]
      exact agreesOk _ sim
    · rw [if_neg mine,if_neg mine,purgedKeysAgree sim,wholeTimestamp now]
      exact agreesOk _ (simSlot (purgeAgrees sim slot.subject) req.owner _)

theorem deleteSlotAgrees (owner subject : String) :
    Agrees t (s.deleteSlot owner subject) (execBody engine (deleteSlotBody owner subject) t) := by
  rw [execDeleteSlot,sim.slots,Store.deleteSlot]
  cases s.slots.lookup owner with
  | none =>
    simp only
    rw [purgedKeysAgree sim]
    exact agreesOk _ (purgeAgrees sim subject)
  | some slot =>
    simp only
    by_cases other : slot.subject ≠ subject
    · rw [if_pos other,if_pos other]
      exact agreesError _ sim
    · have dropped : Sim {s with slots := s.slots.erase owner} ((Write.dropSlot owner).apply t) := by
        refine simSlots sim (dropSlotSame t owner) (fun o => ?_)
        rw [slotApply,lookupErase]
        simp only [sim.slots]
      rw [if_neg other,if_neg other,purgedKeysAgree dropped]
      exact agreesOk _ (purgeAgrees dropped subject)

theorem setSlotLabelAgrees (owner subject label : String) :
    Matches (MemoryStore.step s (.setSlotLabel owner subject label)) (step t (.setSlotLabel owner subject label)) := by
  rw [stepSetSlotLabel,sim.slots,MemoryStore.step,Store.setSlotLabel]
  cases s.slots.lookup owner with
  | none => exact ⟨rfl,sim⟩
  | some slot =>
    simp only
    by_cases mine : slot.subject = subject
    · rw [if_pos mine,if_neg (not_not.mpr mine)]
      exact ⟨rfl,simSlot sim owner _⟩
    · rw [if_neg mine,if_pos mine]
      exact ⟨rfl,sim⟩

end

/- The inputs for which the two stores hold the same: page counts fit the signed column, times
are whole microseconds, and the limit of a sweep fits its parameter. -/
def Representable : Op → Prop
  | .openDatabase req _ => 1000 ∣ req.now ∧ 1000 ∣ req.now+req.ttl
  | .commit req => req.pageCount.toNat < 2^63 ∧ 1000 ∣ req.now+req.ttl
  | .renew _ _ now ttl => 1000 ∣ now+ttl
  | .deleteUnused cutoff limit _ => 1000 ∣ cutoff ∧ limit ≤ 2^30
  | .claimSlot req => 1000 ∣ req.now
  | _ => True

instance : DecidablePred Representable := fun op => by
  cases op <;> (unfold Representable; infer_instance)

def Small (s : Store) : Prop := ∀ k db, record s k = some db → db.state.pageCount.toNat < 2^63

theorem smallStep {s : Store} {op : Op} (valid : MemoryStore.WellformedStore s) (small : Small s)
    (fits : Representable op) : Small (MemoryStore.step s op).2 := by
  intro k db found
  have did := MemoryStore.recordStep valid.unheld op k
  rw [found] at did
  generalize (MemoryStore.step s op).1 = reply at did
  generalize after : (some db : Option Database) = out at did
  cases did with
  | idle quiet => exact small k db after.symm
  | resumed key there live asked held same => have fit := small k _ there; cases after; exact fit
  | granted key there live asked => have fit := small k _ there; cases after; exact fit
  | revived key there dead asked size => have fit := small k _ there; cases after; exact fit
  | created key missing asked size => cases after; exact (by decide : (0 : UInt64).toNat < 2^63)
  | repeated key there held again => have fit := small k _ there; cases after; exact fit
  | applied key there held base ok => cases after; exact fits.1
  | renewed there held => have fit := small k _ there; cases after; exact fit
  | released there held => have fit := small k _ there; cases after; exact fit
  | deleted key there live => cases after; exact (by decide : (0 : UInt64).toNat < 2^63)
  | swept listed there live free => cases after; exact (by decide : (0 : UInt64).toNat < 2^63)
  | purged present cause => contradiction

theorem stepAgrees {s : Store} {t : Tables} (sim : Sim s t) (valid : MemoryStore.WellformedStore s) (small : Small s)
    {op : Op} (fits : Representable op) : Matches (MemoryStore.step s op) (step t op) := by
  cases op with
  | openDatabase req id => exact matchesTx rfl rfl (openAgrees sim fits.1 fits.2 id valid)
  | fetch key version first count =>
    rw [stepFetch,fetchAgrees sim valid (small key)]
    simp only [MemoryStore.step]
    cases s.fetch key version first count <;> exact ⟨rfl,sim⟩
  | commit req => exact matchesTx rfl rfl (commitAgrees sim valid (small req.key) fits.1 fits.2)
  | changes key fromVersion =>
    refine matchesTx (m := (s.changes key fromVersion,s)) rfl rfl ?_
    rw [execChanges,changesAgrees sim valid]
    cases s.changes key fromVersion <;> exact ⟨rfl,sim⟩
  | renew key epoch now ttl => exact renewAgrees sim key epoch now fits
  | release key epoch => exact releaseAgrees sim key epoch
  | delete req => exact matchesTx rfl rfl (deleteAgrees sim valid (small req.key))
  | deleteUnused cutoff limit tie => exact deleteUnusedAgrees sim valid small fits.1 fits.2 tie
  | getSlot owner => exact ⟨congrArg (fun slot => Except.ok (Reply.slot slot)) (sim.slots owner),sim⟩
  | claimSlot req => exact matchesTx rfl rfl (claimAgrees sim fits)
  | setSlotLabel owner subject label => exact setSlotLabelAgrees sim owner subject label
  | deleteSlot owner subject => exact matchesTx rfl rfl (deleteSlotAgrees sim owner subject)

theorem simEmpty : Sim MemoryStore.new empty :=
  ⟨fun _ => rfl,fun _ => .absent rfl (fun _ _ => rfl) (fun _ _ => by simp [Tables.change,empty])⟩

theorem simRun {ops : List Op} (fits : ∀ op ∈ ops, Representable op) :
    (History.history step empty ops).map History.Event.reply =
      (MemoryStore.history ops).map (fun e => e.reply.mapError Failure.declared) ∧
    Sim (MemoryStore.run MemoryStore.new ops) (History.run step empty ops) := by
  have keeps : ∀ s t op, Representable op → (Sim s t ∧ MemoryStore.WellformedStore s ∧ Small s) →
      (step t op).1 = (MemoryStore.step s op).1.mapError Failure.declared ∧ Sim (MemoryStore.step s op).2 (step t op).2 ∧
        MemoryStore.WellformedStore (MemoryStore.step s op).2 ∧ Small (MemoryStore.step s op).2 := by
    intro s t op fits related
    obtain ⟨sim,valid,small⟩ := related
    obtain ⟨same,next⟩ := stepAgrees sim valid small fits
    exact ⟨same,next,MemoryStore.wellformedStep s op valid,smallStep valid small fits⟩
  have none : Small MemoryStore.new := fun k db found => by simp [record,MemoryStore.new] at found
  obtain ⟨replies,sim,_⟩ := History.simulatedReplies MemoryStore.step step
    (fun reply => reply.mapError Failure.declared) keeps ⟨simEmpty,MemoryStore.wellformedNew,none⟩ fits
  exact ⟨replies,sim⟩

theorem refinesMemory {ops : List Op} (fits : ∀ op ∈ ops, Representable op) :
    (History.history step empty ops).map History.Event.reply =
      (MemoryStore.history ops).map (fun e => e.reply.mapError Failure.declared) := (simRun fits).1

def claimedRun : List Op :=
  [.openDatabase (anOpen false [1] 0) [9],.openDatabase (anOpen true [1] 0) [9],.commit (aCommit [1] 0 2 [aBlock 1]),
   .fetch aKey 1 0 2,.changes aKey 0,.claimSlot ⟨"owner","bob",1000⟩,.openDatabase (anOpen true [1] 20000) [8],
   .deleteUnused 30000 5 (fun _ => 0),.fetch aKey 1 0 2]

theorem refinesMemoryOfClaimed : (∀ op ∈ claimedRun, Representable op) ∧
    (History.history step empty claimedRun).map History.Event.reply =
      [.error (.declared .notFound),.ok (.opened ⟨⟨[9],1⟩,⟨512,0,0,[]⟩,false⟩),.ok (.version 1),
       .ok (.blocks [List.replicate 512 0,List.replicate 512 7]),.ok (.changeSet ⟨0,1,[1],true⟩),
       .ok (.claimed ⟨⟨"bob","",1000⟩,none,[]⟩),.error (.declared .slotTaken),.ok (.unused [aKey]),
       .error (.declared .notFound)] := by
  have fits : ∀ op ∈ claimedRun, Representable op := by decide
  refine ⟨fits,(refinesMemory fits).trans ?_⟩
  decide +kernel

end SqliteRemote.Postgres
