import SqliteRemote.PostgresRowwise
import SqliteRemote.PostgresSerial
import SqliteRemote.PostgresTimes
import SqliteRemote.RowAnswers

/-! The PostgreSQL store under calls whose statements interleave, database by database. Whatever the
calls are, the rows of a database go through the states of a record of the memory store: each step of
the run leaves them alone or does to them what the caller's operation does to the record, with times cut
to microseconds, and a call that succeeds returns what the operation returns there. -/
namespace SqliteRemote.Postgres
open Rows StoreContract Programs RowLocking LockedRows RowAnswers
open MemoryStore (Database Store record)

structure Entry where
  row : Option Row
  part : Int64 → Nat → Option Bytes
  change : Nat → Option (List Int64)

def Tables.entry (t : Tables) (k : Key) : Entry := ⟨t.row k,t.part k,t.change k⟩

theorem entrySame {t after : Tables} {k : Key} (same : SameRows t after k) : after.entry k = t.entry k := by
  rw [Tables.entry,Tables.entry,same.row,funext fun idx => funext (same.part idx),funext same.change]

theorem sameEntry {t after : Tables} {k : Key} (same : after.entry k = t.entry k) : SameRows t after k := by
  obtain ⟨row,parts,changes⟩ := Entry.mk.inj same
  exact ⟨row,fun idx n => congrFun (congrFun parts idx) n,fun v => congrFun changes v⟩

theorem entryAlone (k : Key) (w : Write) {s t : Tables} (same : s.entry k = t.entry k) :
    (w.apply s).entry k = (w.apply t).entry k := by
  have rows := sameEntry same
  refine entrySame ⟨?_,fun idx n => ?_,fun v => ?_⟩
  · rw [rowApply,rowApply,rows.row]
  · rw [partApply,partApply,rows.part]
  · rw [changeApply,changeApply,rows.change]

def entire (k : Key) : Portion engine Entry := ⟨fun t => t.entry k,.database k,fun w => entryAlone k w⟩

def Write.about : Write → Option Key
  | .database key _ => some key
  | .purge key => some key
  | .part key _ => some key
  | .cutBlocks key _ => some key
  | .change key _ _ => some key
  | .pruneChanges key _ => some key
  | .clearChanges key => some key
  | .slot _ _ => none
  | .dropSlot _ => none

theorem aboutOther {k : Key} {w : Write} (other : w.about ≠ some k) (t : Tables) : (w.apply t).entry k = t.entry k := by
  have differs {key : Key} (is : w.about = some key) : k ≠ key := fun here => other (is.trans (congrArg some here.symm))
  refine entrySame ⟨?_,fun idx n => ?_,fun v => ?_⟩
  · rw [rowApply]
    cases w with
    | database key row => exact if_neg (differs rfl)
    | purge key => exact if_neg (differs rfl)
    | _ => rfl
  · rw [partApply]
    cases w with
    | part key p => exact if_neg fun here => differs rfl here.1
    | cutBlocks key idx => exact if_neg fun here => differs rfl here.1
    | purge key => exact if_neg (differs rfl)
    | _ => rfl
  · rw [changeApply]
    cases w with
    | change key version blocks => exact if_neg fun here => differs rfl here.1
    | pruneChanges key version => exact if_neg fun here => differs rfl here.1
    | clearChanges key => exact if_neg (differs rfl)
    | purge key => exact if_neg (differs rfl)
    | _ => rfl

theorem sparesEntry {k : Key} {writes : List Write} (others : ∀ w ∈ writes, w.about ≠ some k) :
    Spares (entire k) writes := fun w member s => aboutOther (others w member) s

theorem onRowAbout {row : Option Row} {write : Row → Write} {key : Key} (about : ∀ r, (write r).about = some key)
    {w : Write} (member : w ∈ onRow row write) : w.about = some key := by
  rw [onRow,Option.mem_toList] at member
  obtain ⟨r,_,rfl⟩ := Option.map_eq_some_iff.mp member
  exact about r

theorem worksAbout {α : Type} {q : Query α} (one : q.many = false) {t : Tables} {w : Write} (member : w ∈ q.writes t)
    {k : Key} (about : w.about = some k) : q.works = some k := by
  cases q with
  | createDatabase key pageSize =>
    rw [Query.writes] at member
    split at member
    · contradiction
    · rw [List.mem_singleton.mp member] at about
      exact about
  | grantLease key | extendLease key | releaseLease key | applyCommit key | deleteDatabase key | reviveDatabase key =>
    exact (onRowAbout (fun _ => rfl) member).symm.trans about
  | putBlocks key parts =>
    obtain ⟨p,_,rfl⟩ := List.mem_map.mp member
    exact about
  | deleteBlocksFrom key idx | purgeDatabase key | pruneChanges key version | deleteChanges key =>
    rw [List.mem_singleton.mp member] at about
    exact about
  | deleteSlotOf owner =>
    rw [List.mem_singleton.mp member] at about
    contradiction
  | recordChange key version blocks =>
    rw [Query.writes] at member
    split at member
    · contradiction
    · rw [List.mem_singleton.mp member] at about
      exact about
  | insertSlot owner slot =>
    rw [Query.writes] at member
    split at member
    · contradiction
    · rw [List.mem_singleton.mp member] at about
      contradiction
  | updateSlot owner slot | setSlotLabel owner subject label =>
    rw [Query.writes,Option.mem_toList] at member
    obtain ⟨_,_,rfl⟩ := Option.map_eq_some_iff.mp member
    contradiction
  | purgeRows keys | releaseSlots owners => contradiction
  | _ => exact absurd member List.not_mem_nil

theorem sparesElsewhere {α : Type} {q : Query α} (one : q.many = false) {k : Key} (other : q.works ≠ some k) (t : Tables) :
    Spares (entire k) (q.writes t) :=
  sparesEntry fun _ member about => other (worksAbout one member about)

def lockable (k : Key) (epoch : Nat) : Tables :=
  empty.put k {newRow 512 with leaseEpoch := epoch, leaseHolder := some []}

theorem worksNeeds {α : Type} {q : Query α} {k : Key} (works : q.works = some k) :
    ∃ t mode, (Lock.database k,mode) ∈ q.needs t := by
  have found (epoch : Nat) : (lockable k epoch).row k = some {newRow 512 with leaseEpoch := epoch, leaseHolder := some []} :=
    putRow _ _ _
  have usable (epoch : Nat) : ((lockable k epoch).usable k epoch).isSome := by
    rw [Tables.usable,found]
    simp [Option.filter,Row.usable]
  cases q
  all_goals try contradiction
  all_goals cases works
  case createDatabase => exact ⟨empty,_,List.mem_cons_self⟩
  case extendLease epoch _ | releaseLease epoch =>
    refine ⟨lockable k epoch,.exclusive,?_⟩
    simp [Query.needs,lockRow,usable]
  case purgeDatabase =>
    refine ⟨lockable k 0,.remove,?_⟩
    simp [Query.needs,lockRow,found]
  all_goals
    refine ⟨lockable k 0,.exclusive,?_⟩
    simp [Query.needs,lockRow,found]

theorem singleWorks {α : Type} {q : Query α} {k : Key} {row : Lock} (single : ∀ t, Single row (q.needs t))
    (works : q.works = some k) : row = .database k := by
  obtain ⟨t,mode,needed⟩ := worksNeeds works
  rcases single t with none_ | ⟨_,_,one⟩
  · rw [none_] at needed
    contradiction
  · rw [one] at needed
    exact (Prod.mk.inj (List.mem_singleton.mp needed)).1.symm

theorem confinedElsewhere {α : Type} {row : Lock} {body : Program Query α} (confined : Confined row body) {k : Key}
    (other : row ≠ .database k) : Quiet (entire k) body := by
  induction body with
  | done a => trivial
  | ask q next ih =>
    obtain ⟨one,single,rest⟩ := confined
    exact fun s => ⟨sparesElsewhere one (fun works => other (singleWorks single works)) s,ih _ (rest _)⟩

theorem worksAnswer {α : Type} {q : Query α} {k : Key} {s t : Tables} (works : q.works = some k) (same : s.row k = t.row k) :
    q.answer s = q.answer t := by
  have usable (epoch : Nat) : s.usable k epoch = t.usable k epoch := by rw [Tables.usable,Tables.usable,same]
  cases q
  all_goals try contradiction
  all_goals
    cases works
    simp only [Query.answer,usable,same]

theorem worksSame {α : Type} {q : Query α} {k : Key} {s t : Tables} (works : q.works = some k)
    (same : s.entry k = t.entry k) : q.writes s = q.writes t := by
  have rows := sameEntry same
  have logged (version : Nat) : s.changes.lookup ⟨k,version⟩ = t.changes.lookup ⟨k,version⟩ := rows.change version
  cases q
  all_goals try contradiction
  all_goals
    cases works
    simp only [Query.writes,Tables.usable,rows.row,logged]

theorem worksEntire {α : Type} {k : Key} {body : Program Query α} (works : Works k body) : Alone (entire k) body := by
  induction body with
  | done a => trivial
  | ask q next ih =>
    refine ⟨fun s t same => ?_,fun a => ih a (works.2 a)⟩
    refine ⟨worksAnswer works.1 (sameEntry same).row,?_⟩
    have wrote : engine.writes q s = engine.writes q t := worksSame works.1 same
    rw [Engine.after,Engine.after,wrote]
    exact aloneAll same

def Tables.only (t : Tables) (k : Key) : Tables :=
  ⟨eraseWhere t.databases (fun key _ => key != k),eraseWhere t.blocks (fun p _ => p.key != k),
    eraseWhere t.changes (fun c _ => c.key != k),∅,t.deletions⟩

theorem onlySame (t : Tables) (k : Key) : SameRows t (t.only k) k := by
  refine ⟨?_,fun idx n => ?_,fun v => ?_⟩
  · simp [Tables.only,Tables.row,lookupEraseKeys]
  · simp [Tables.only,Tables.part,lookupEraseKeys]
  · simp [Tables.only,Tables.change,lookupEraseKeys]

theorem onlyOther (t : Tables) {k j : Key} (other : j ≠ k) : NoRows (t.only k) j := by
  refine ⟨?_,fun idx n => ?_,fun v => ?_⟩
  · simp [Tables.only,Tables.row,lookupEraseKeys,other]
  · simp [Tables.only,Tables.part,lookupEraseKeys,other]
  · simp [Tables.only,Tables.change,lookupEraseKeys,other]

/- The rows of a database are those of a record that the memory store could hold. -/
structure Recorded (t : Tables) (k : Key) (cur : Option Database) : Prop where
  represents : Represents t k cur
  valid : ∀ db, cur = some db → MemoryStore.Wellformed db
  small : ∀ db, cur = some db → db.state.pageCount.toNat < 2^63
  whole : ∀ db, cur = some db → 1000 ∣ db.expiresAt

theorem recordedSame {t after : Tables} {k : Key} {cur : Option Database} (same : SameRows t after k)
    (recorded : Recorded t k cur) : Recorded after k cur :=
  ⟨representsSame same recorded.represents,recorded.valid,recorded.small,recorded.whole⟩

theorem recordedGone {t : Tables} {k : Key} (gone : NoRows t k) : Recorded t k none :=
  ⟨representsGone gone,fun _ is => by contradiction,fun _ is => by contradiction,fun _ is => by contradiction⟩

def storeOf (k : Key) (cur : Option Database) (slots : Table String Slot) : Store :=
  ⟨cur.elim ∅ (fun db => AList.insert k db ∅),slots⟩

theorem recordOf (k j : Key) (cur : Option Database) (slots : Table String Slot) :
    record (storeOf k cur slots) j = if j = k then cur else none := by
  cases cur with
  | none => simp [storeOf,record]
  | some db => exact lookupInsert ∅ k j db

theorem validOf {t : Tables} {k : Key} {cur : Option Database} (recorded : Recorded t k cur) (slots : Table String Slot) :
    MemoryStore.WellformedStore (storeOf k cur slots) ∧ Small (storeOf k cur slots) ∧ Exact (storeOf k cur slots) := by
  have here {j : Key} {db : Database} (found : record (storeOf k cur slots) j = some db) : cur = some db := by
    rw [recordOf] at found
    split at found
    · exact found
    · contradiction
  exact ⟨fun j db found => recorded.valid db (here found),fun j db found => recorded.small db (here found),
    fun j db found => recorded.whole db (here found)⟩

theorem simOf {t : Tables} {k : Key} {cur : Option Database} (recorded : Recorded t k cur) :
    Sim (storeOf k cur ∅) (t.only k) := by
  refine ⟨fun _ => rfl,fun j => ?_⟩
  rw [recordOf]
  split
  · rename_i here
    subst here
    exact representsSame (onlySame t j) recorded.represents
  · rename_i other
    exact representsGone (onlyOther t other)

theorem onlyWhole {t : Tables} {k : Key} {cur : Option Database} (recorded : Recorded t k cur) (j : Key) (row : Row)
    (found : (t.only k).row j = some row) : row.Whole := by
  by_cases here : j = k
  case neg => cases (onlyOther t here).row.symm.trans found
  subst here
  rw [(onlySame t j).row] at found
  intro held expires is
  cases recorded.represents with
  | absent none_ _ _ => cases none_.symm.trans found
  | @present db _ known =>
    cases found.symm.trans known.found
    have live : db.deleted = false := by
      cases deleted : db.deleted with
      | false => rfl
      | true =>
        rw [known.same.holder,((recorded.valid db rfl).empty deleted).1] at held
        contradiction
    cases is.symm.trans (known.times live).expires
    exact recorded.whole db rfl

/- What the operation does to a record that the tables hold, as the memory store does it, and what it
returns there. -/
def Acted (k : Key) (op : Op) (before after : Tables) (reply : Option Result) : Prop :=
  ∀ cur, Recorded before k cur → ∃ s, MemoryStore.WellformedStore s ∧ record s k = cur ∧
    Recorded after k (record (MemoryStore.step s (truncated op)).2 k) ∧
    ∀ r, reply = some r → r = (MemoryStore.step s (truncated op)).1.mapError Failure.declared

theorem actedSame {k : Key} {op : Op} {before after s t : Tables} {reply : Option Result}
    (acted : Acted k op before after reply) (first : s.entry k = before.entry k) (second : t.entry k = after.entry k) :
    Acted k op s t reply := by
  intro cur recorded
  obtain ⟨m,valid,is,later,replies⟩ := acted cur (recordedSame (sameEntry first.symm) recorded)
  exact ⟨m,valid,is,recordedSame (sameEntry second) later,replies⟩

theorem actedStep {k : Key} {op : Op} {t after : Tables} {r : Result} (fits : Representable (truncated op))
    (ran : step (t.only k) op = (r,after)) : Acted k op t after (some r) := by
  intro cur recorded
  obtain ⟨valid,small,whole⟩ := validOf recorded ∅
  obtain ⟨same,sim⟩ := stepAgrees (simOf recorded) valid small fits
  rw [stepTruncated (onlyWhole recorded),ran] at same sim
  refine ⟨storeOf k cur ∅,valid,by rw [recordOf,if_pos rfl],⟨sim.records k,?_,?_,?_⟩,fun _ is => Option.some.inj is ▸ same⟩
  · exact fun db found => MemoryStore.wellformedStep _ _ valid k db found
  · exact fun db found => smallStep valid small fits k db found
  · exact fun db found => exactStep valid whole op k db found

theorem actedGone {k : Key} {op : Op} {t after : Tables} (gone : NoRows after k)
    (takes : ∀ db, Recorded t k (some db) →
      ∃ slots, record (MemoryStore.step (storeOf k (some db) slots) (truncated op)).2 k = none)
    (present : (t.row k).isSome) : Acted k op t after none := by
  intro cur recorded
  cases cur with
  | none =>
    cases recorded.represents with
    | absent row _ _ =>
      rw [row] at present
      contradiction
  | some db =>
    obtain ⟨slots,none_⟩ := takes db recorded
    refine ⟨storeOf k (some db) slots,(validOf recorded slots).1,by rw [recordOf,if_pos rfl],?_,fun _ is => by contradiction⟩
    rw [none_]
    exact recordedGone gone

section
variable {k : Key} {db : Database} {slots : Table String Slot} {cutoff : Time} {limit : Nat} (tie : Key → Nat)

theorem unusedOf (live : db.deleted = false) (expired : db.expiresAt < cutoff) (some_ : 0 < limit) :
    (storeOf k (some db) slots).unused cutoff limit tie = [k] := by
  have among : keysWhere (storeOf k (some db) slots).dbs
      (fun _ db => !db.deleted && decide (db.expiresAt < cutoff)) = [k] := by
    have entries : (storeOf k (some db) slots).dbs.entries = [⟨k,db⟩] := rfl
    simp [keysWhere,entries,live,expired]
  have sorted : oldestFirst (storeOf k (some db) slots).expiry tie [k] = [k] := rfl
  have short : ¬limit < [k].length := by
    simp only [List.length_singleton]
    omega
  rw [Store.unused]
  simp only [among,sorted,if_neg short]

theorem sweptOf (live : db.deleted = false) (expired : db.expiresAt < cutoff) (some_ : 0 < limit) :
    record (MemoryStore.step (storeOf k (some db) slots) (truncated (.deleteUnused cutoff limit tie))).2 k =
      if k.subject ∈ (storeOf k (some db) slots).slotHolders then none else some db.remove := by
  have swept := MemoryStore.sweepRecord (storeOf k (some db) slots).slotHolders
    (MemoryStore.unusedNodup (storeOf k (some db) slots) cutoff limit tie) (storeOf k (some db) slots) k
  have after : record (MemoryStore.step (storeOf k (some db) slots) (truncated (.deleteUnused cutoff limit tie))).2 k =
      record (((storeOf k (some db) slots).unused cutoff limit tie).foldl
        (Store.drop (storeOf k (some db) slots).slotHolders) (storeOf k (some db) slots)) k := rfl
  rw [after,swept,unusedOf tie live expired some_,if_pos List.mem_cons_self,recordOf,if_pos rfl]
  rfl

end

theorem sweptRow {t : Tables} {k : Key} {db : Database} {row : Row} {cutoff : Time} (recorded : Recorded t k (some db))
    (found : t.row k = some row)
    (taken : ¬ (row.deleted || !row.leaseExpires.any (fun expires => decide (expires < cutoff))) = true) :
    Known t k db row ∧ db.deleted = false ∧ db.expiresAt < cutoff := by
  cases recorded.represents with
  | present known =>
    cases found.symm.trans known.found
    simp only [Bool.or_eq_true,Bool.not_eq_true',not_or,Bool.not_eq_true,Bool.not_eq_false] at taken
    have live : db.deleted = false := known.same.deleted.symm.trans taken.1
    have expired := taken.2
    rw [(known.times live).expires,Option.any_some,decide_eq_true_eq] at expired
    exact ⟨known,live,expired⟩

section
variable {k : Key} {t : Tables} {row : Row} {cutoff : Time} {limit : Nat} (tie : Key → Nat) (found : t.row k = some row)
  (taken : ¬ (row.deleted || !row.leaseExpires.any (fun expires => decide (expires < cutoff))) = true) (some_ : 0 < limit)
include found taken some_

theorem actedPurge {after : Tables} (gone : NoRows after k) : Acted k (.deleteUnused cutoff limit tie) t after none := by
  refine actedGone gone (fun db recorded => ?_) (by rw [found]; rfl)
  obtain ⟨_,live,expired⟩ := sweptRow recorded found taken
  refine ⟨AList.insert "" ⟨k.subject,"",0⟩ ∅,?_⟩
  rw [sweptOf tie live expired some_,if_pos]
  exact List.mem_cons_self

theorem actedRemove : Acted k (.deleteUnused cutoff limit tie) t ((t.only k).removed k row) none := by
  intro cur recorded
  cases cur with
  | none =>
    cases recorded.represents with
    | absent row _ _ =>
      cases row.symm.trans found
  | some db =>
    obtain ⟨_,live,expired⟩ := sweptRow recorded found taken
    have valid := (validOf recorded ∅).1
    have alone : Known (t.only k) k db row := by
      obtain ⟨other,again⟩ := knownRow (simOf recorded) (recordOf k k (some db) ∅ |>.trans (if_pos rfl))
      cases ((onlySame t k).row.trans found).symm.trans again.found
      exact again
    have removed := removeAgrees (simOf recorded) (recorded.valid db rfl) alone (recorded.small db rfl)
    have after : record (MemoryStore.step (storeOf k (some db) ∅) (truncated (.deleteUnused cutoff limit tie))).2 k =
        some db.remove := by
      rw [sweptOf tie live expired some_,if_neg]
      exact List.not_mem_nil
    have represents := removed.records k
    rw [MemoryStore.recordPut,if_pos rfl] at represents
    refine ⟨storeOf k (some db) ∅,valid,(recordOf k k (some db) ∅).trans (if_pos rfl),?_,fun _ is => by contradiction⟩
    rw [after]
    refine ⟨represents,fun new is => ?_,fun new is => ?_,fun new is => ?_⟩
    · exact MemoryStore.wellformedStep _ _ valid k new (after.trans is)
    · cases is
      exact (by decide : (0 : UInt64).toNat < 2^63)
    · cases is
      exact recorded.whole db rfl

end

theorem actedClaim {k : Key} {t after : Tables} (req : ClaimRequest) (other : k.subject ≠ req.subject) (gone : NoRows after k)
    (present : (t.row k).isSome) : Acted k (.claimSlot req) t after none := by
  refine actedGone gone (fun db _ => ⟨AList.insert req.owner ⟨k.subject,"",0⟩ ∅,?_⟩) present
  have held : (storeOf k (some db) (AList.insert req.owner ⟨k.subject,"",0⟩ ∅)).slots.lookup req.owner =
      some ⟨k.subject,"",0⟩ := AList.lookup_insert _
  have purged := MemoryStore.purgeRecord (storeOf k (some db) (AList.insert req.owner ⟨k.subject,"",0⟩ ∅)) k.subject k
  have same : truncated (.claimSlot req) = .claimSlot req := rfl
  rw [if_pos rfl] at purged
  simp only [same,MemoryStore.step,Store.claimSlot,held,if_neg other]
  exact purged

theorem actedDeleteSlot {k : Key} {t after : Tables} (owner : String) (gone : NoRows after k) (present : (t.row k).isSome) :
    Acted k (.deleteSlot owner k.subject) t after none := by
  refine actedGone gone (fun db _ => ⟨∅,?_⟩) present
  have purged := MemoryStore.purgeRecord (storeOf k (some db) ∅) k.subject k
  rw [if_pos rfl] at purged
  exact purged

/- The calls whose success is a change of the record, with what they return. A sweep goes on after it. -/
def Acknowledges (k : Key) (op : Op) (reply : Reply) : Prop :=
  MemoryStore.Touches k op (.ok reply) ∧ ∀ cutoff limit tie, op ≠ .deleteUnused cutoff limit tie

def conduct (k : Key) (op : Op) : Conduct Entry Result where
  moves x reply y := x = y ∧ reply = none ∨ ∀ s t : Tables, s.entry k = x → t.entry k = y → Acted k op s t reply
  idle r := ∀ reply, r = .ok reply → ¬Acknowledges k op reply

section
variable {k : Key} {op : Op}

theorem movesActed {t after : Tables} {reply : Option Result} (acted : Acted k op t after reply) :
    (conduct k op).moves (t.entry k) reply (after.entry k) :=
  .inr fun _ _ first second => actedSame acted first second

theorem movesStill (x : Entry) : (conduct k op).moves x none x := .inl ⟨rfl,rfl⟩

theorem idleError (f : Failure) : (conduct k op).idle (.error f) := fun _ is => by contradiction

def commits {β : Type} (k : Key) (op : Op) (reply : β → Reply) (x : Entry) (b : β) (y : Entry) : Prop :=
  Lands (conduct k op) x y (.done (.ok (reply b)) : Operation) ((conduct k op).idle (.ok (reply b)))

def unmoved {β : Type} (k : Key) (op : Op) (reply : β → Reply) (b : β) : Prop := (conduct k op).idle (.ok (reply b))

theorem answersTx {β : Type} {reply : β → Reply} {body : Body β}
    (reaches : Reaches (entire k) (unmoved k op reply) (commits k op reply) body) :
    Answers (entire k) (conduct k op) (inTx reply body) := ⟨reaches,fun f => idleError f⟩

theorem commitsActed {β : Type} {reply : β → Reply} {t after : Tables} {b : β}
    (acted : Acted k op t after (some (.ok (reply b)))) : commits k op reply (t.entry k) b (after.entry k) :=
  .inl ⟨_,rfl,movesActed acted⟩

theorem reachesLock {β : Type} {idle : β → Prop} {moves : Entry → β → Entry → Prop} {next : Option Row → Body β}
    (missing : Reaches (entire k) idle moves (next none))
    (locked : ∀ (s : Tables) row, s.row k = some row → Yields (entire k) (moves (s.entry k)) (s.entry k) (next (some row))) :
    Reaches (entire k) idle moves (.ask (.lockDatabase k) next) := by
  intro s
  have answer : engine.answer (.lockDatabase k) s = s.row k := rfl
  have needs : engine.needs (.lockDatabase k) s = lockRow k .exclusive (s.row k) := rfl
  rw [answer,needs]
  cases found : s.row k with
  | none => exact .inl ⟨sparesNone,missing⟩
  | some row => exact .inr ⟨⟨.exclusive,rfl,List.mem_cons_self⟩,locked s row found⟩

theorem reachesWorks {β : Type} {reply : β → Reply} {next : Option Row → Body β} (fits : Representable (truncated op))
    (is : script op = inTx reply (.ask (.lockDatabase k) next)) (works : Works k (.ask (.lockDatabase k) next))
    (missing : Reaches (entire k) (unmoved k op reply) (commits k op reply) (next none)) :
    Reaches (entire k) (unmoved k op reply) (commits k op reply) (.ask (.lockDatabase k) next) := by
  refine reachesLock missing (fun s row found => ?_)
  refine aloneYields (worksEntire (works.2 _)) (entrySame (onlySame s k)) (fun b after ran => ?_)
  have answer : (Query.lockDatabase k).answer (s.only k) = some row := (onlySame s k).row.trans found
  have whole : execBody engine (.ask (.lockDatabase k) next) (s.only k) = (.ok b,after) := by
    rw [execAsk,answer]
    exact ran
  refine commitsActed (actedStep fits ?_)
  rw [stepTx _ is,whole]
  rfl

theorem reachesSlot {α β : Type} {idle : β → Prop} {moves : Entry → β → Entry → Prop} {q : Query α} {next : α → Body β}
    (one : q.many = false) (other : q.works = none) (rest : ∀ a, Reaches (entire k) idle moves (next a)) :
    Reaches (entire k) idle moves (.ask q next) :=
  reachesAsk (sparesElsewhere one (other ▸ (Option.some_ne_none k).symm)) rest

theorem reachesOthers {β : Type} {idle : β → Prop} {moves : Entry → β → Entry → Prop} {key : Key} {body : Body β}
    (works : Works key body) (other : key ≠ k) (any : ∀ b, idle b) : Reaches (entire k) idle moves body :=
  quietReaches (confinedElsewhere (worksConfined works) (fun same => other (Lock.database.inj same))) any

end

section
variable {k : Key}

theorem fitsOpen (req : OpenRequest) (id : Bytes) : Representable (truncated (.openDatabase req id)) := by
  refine ⟨timestampWhole req.now,?_⟩
  have ends : (truncatedOpen req).now+(truncatedOpen req).ttl = timestamp (req.now+req.ttl) := truncatedEnd req.now req.ttl
  rw [ends]
  exact timestampWhole _

-- The tables with the rows of the database have no slots, so an Open there goes on to the database.
theorem openCommits {req : OpenRequest} {id : Bytes} {s after : Tables} {b : OpenResult}
    (ran : execBody engine (openDatabase req id) (s.only req.key) = (.ok b,after)) :
    commits req.key (.openDatabase req id) .opened (s.entry req.key) b (after.entry req.key) := by
  refine commitsActed (actedStep (fitsOpen req id) ?_)
  have none_ : ¬(req.owner ≠ "" ∧ ((s.only req.key).slots.lookup req.owner).any
      (fun slot => slot.subject ≠ req.key.subject) = true) := fun both => Bool.noConfusion both.2
  rw [stepTx _ (show script (.openDatabase req id) = inTx .opened (openBody req id) from rfl),execOpen,if_neg none_,ran]
  rfl

theorem openRowYields (req : OpenRequest) (id : Bytes) (s : Tables) (row : Row) (found : s.row req.key = some row) :
    Yields (entire req.key) (commits req.key (.openDatabase req id) .opened (s.entry req.key)) (s.entry req.key)
      (openRow req id row) := by
  refine aloneYields (worksEntire (worksOpenRow req id row)) (entrySame (onlySame s req.key))
    (fun b after ran => openCommits ?_)
  have there : (s.only req.key).row req.key = some row := (onlySame s req.key).row.trans found
  rw [execOpenDatabase,there]
  exact ran

theorem createdYields {req : OpenRequest} {id : Bytes} {s : Tables} (asked : ¬(!req.create || req.resume.isSome) = true)
    (valid : ¬(!validPageSize req.pageSize) = true) (found : s.row req.key = none) :
    Yields (entire req.key) (commits req.key (.openDatabase req id) .opened (s.entry req.key))
      ((entire req.key).of (s.put req.key (newRow req.pageSize.toInt32))) (openRow req id (newRow req.pageSize.toInt32)) := by
  have missing : (s.only req.key).row req.key = none := (onlySame s req.key).row.trans found
  have entry : (entire req.key).of ((s.only req.key).put req.key (newRow req.pageSize.toInt32)) =
      (entire req.key).of (s.put req.key (newRow req.pageSize.toInt32)) :=
    (entire req.key).alone _ (entrySame (onlySame s req.key))
  refine aloneYields (worksEntire (worksOpenRow req id _)) entry (fun b last ran => openCommits ?_)
  rw [execOpenDatabase,missing]
  simp only [execCreate missing,if_neg asked,if_neg valid]
  exact ran

theorem reachesCreate (req : OpenRequest) (id : Bytes) :
    Reaches (entire req.key) (unmoved req.key (.openDatabase req id) .opened)
      (commits req.key (.openDatabase req id) .opened) (createDatabase req (openRow req id)) := by
  simp only [createDatabase]
  split
  · trivial
  rename_i asked
  split
  · trivial
  rename_i valid
  intro s
  cases found : s.row req.key with
  | some row =>
    have writes : engine.writes (.createDatabase req.key req.pageSize.toInt32) s = [] := by
      simp [engine,Query.writes,found]
    have answer : engine.answer (.createDatabase req.key req.pageSize.toInt32) s = none := by
      simp [engine,Query.answer,found]
    rw [writes,answer]
    exact .inl ⟨sparesNone,reachesLock trivial (openRowYields req id)⟩
  | none =>
    have needs : engine.needs (.createDatabase req.key req.pageSize.toInt32) s = [(.database req.key,.exclusive)] := by
      simp [engine,Query.needs,insertRow,found]
    have answer : engine.answer (.createDatabase req.key req.pageSize.toInt32) s =
        some (newRow req.pageSize.toInt32) := by
      simp [engine,Query.answer,found]
    have after : engine.after (.createDatabase req.key req.pageSize.toInt32) s =
        s.put req.key (newRow req.pageSize.toInt32) := by
      simp [Engine.after,engine,Query.writes,found,Engine.applyAll,Tables.put]
    rw [needs,answer,after]
    exact .inr ⟨⟨.exclusive,rfl,List.mem_cons_self⟩,createdYields asked valid found⟩

theorem reachesOpen (req : OpenRequest) (id : Bytes) :
    Reaches (entire k) (unmoved k (.openDatabase req id) .opened) (commits k (.openDatabase req id) .opened)
      (openDatabase req id) := by
  by_cases here : req.key = k
  · subst here
    exact reachesLock (reachesCreate req id) (openRowYields req id)
  · refine reachesOthers (worksOpen req id) here (fun b reply is touches => here ?_)
    cases is
    exact touches.1

theorem reachesOpenBody (req : OpenRequest) (id : Bytes) :
    Reaches (entire k) (unmoved k (.openDatabase req id) .opened) (commits k (.openDatabase req id) .opened)
      (openBody req id) := by
  unfold openBody
  split
  · refine reachesSlot rfl rfl (fun slot => ?_)
    cases slot with
    | none => exact reachesOpen req id
    | some slot =>
      simp only
      split
      · trivial
      · exact reachesOpen req id
  · exact reachesOpen req id

theorem fitsCommit {req : CommitRequest} (small : req.pageCount.toNat < 2^63) : Representable (truncated (.commit req)) := by
  refine ⟨small,?_⟩
  have ends : (truncatedCommit req).now+(truncatedCommit req).ttl = timestamp (req.now+req.ttl) :=
    truncatedEnd req.now req.ttl
  rw [ends]
  exact timestampWhole _

theorem reachesCommit {req : CommitRequest} (small : req.pageCount.toNat < 2^63) :
    Reaches (entire k) (unmoved k (.commit req) .version) (commits k (.commit req) .version) (commitBody req) := by
  by_cases here : req.key = k
  · subst here
    exact reachesWorks (fitsCommit small) rfl (worksCommit req) trivial
  · refine reachesOthers (worksCommit req) here (fun b reply is touches => here ?_)
    cases is
    exact touches.1

theorem reachesDelete (req : DeleteRequest) :
    Reaches (entire k) (unmoved k (.delete req) .deleted) (commits k (.delete req) .deleted) (deleteBody req) := by
  by_cases here : req.key = k
  · subst here
    have fits : Representable (truncated (.delete req)) := trivial
    refine reachesWorks fits rfl (worksDelete req) (fun reply is touches => ?_)
    cases is
    exact Nat.lt_irrefl 0 touches.1.2
  · refine reachesOthers (worksDelete req) here (fun b reply is touches => here ?_)
    cases is
    exact touches.1.1

end

section
variable {k : Key} {op : Op} {β : Type} {idle : β → Prop} {moves : Entry → β → Entry → Prop}

theorem reachesPurge (subject : String) {next : List (Key × Bool) → Body β} (rest : ∀ gone, Quiet (entire k) (next gone))
    (any : ∀ b, idle b) (takes : ∀ (t after : Tables) b, k.subject = subject → (t.row k).isSome → NoRows after k →
      moves (t.entry k) b (after.entry k)) : Reaches (entire k) idle moves (purgeSubject subject next) := by
  refine fun start => .inl ⟨sparesNone,fun s => ?_⟩
  have listed : engine.answer (.subjectRows subject) start = start.subjectRows subject := rfl
  rw [listed]
  by_cases there : k ∈ s.remaining (start.subjectRows subject)
  · obtain ⟨chosen,among,rfl⟩ := List.mem_map.mp there
    obtain ⟨named,found⟩ := List.mem_filter.mp among
    obtain ⟨key,subjects,rfl⟩ := List.mem_map.mp named
    have present : (s.row key).isSome := by
      rw [Tables.chosenRow] at found
      split at found
      · exact found
      · contradiction
    have gone : NoRows (engine.after (.purgeRows (start.subjectRows subject)) s) key := by
      refine ⟨?_,fun idx n => ?_,fun v => ?_⟩
      · exact (purgeAll (fun u => u.row key) (fun u _ => rowApply u key _) _ s).trans (if_pos there)
      · exact (purgeAll (fun u => u.part key idx n) (fun u _ => partApply u key idx n _) _ s).trans (if_pos there)
      · exact (purgeAll (fun u => u.change key v) (fun u _ => changeApply u key v _) _ s).trans (if_pos there)
    refine .inr ⟨⟨.remove,rfl,?_⟩,quietYields (rest _) (fun b => takes s _ b ((memSubjectKeys start subject key).mp subjects).2
      present gone)⟩
    refine List.mem_flatMap.mpr ⟨start.chooseRow key,named,?_⟩
    rw [lockRow,if_pos found]
    exact List.mem_cons_self
  · refine .inl ⟨sparesEntry (fun w member about => ?_),quietReaches (rest _) any⟩
    obtain ⟨key,among,rfl⟩ := List.mem_map.mp member
    cases about
    exact there among

end

section
variable {k : Key}

theorem idleClaim (req : ClaimRequest) (b : ClaimResult) : unmoved k (.claimSlot req) .claimed b := by
  intro reply is touches
  cases is
  exact touches.1

theorem idleDeleteSlot (owner subject : String) (b : List Key) : unmoved k (.deleteSlot owner subject) .purged b := by
  intro reply is touches
  cases is
  exact touches.1

theorem reachesClaimRow (req : ClaimRequest) (slot : Slot) :
    Reaches (entire k) (unmoved k (.claimSlot req) .claimed) (commits k (.claimSlot req) .claimed) (claimRow req slot) := by
  unfold claimRow
  split
  · exact idleClaim req _
  rename_i other
  refine reachesPurge _ (fun gone => confinedElsewhere (confinedUpdate req slot gone) Lock.noConfusion) (idleClaim req) ?_
  intro t after b subjects found gone
  exact .inr ⟨movesActed (actedClaim req (subjects ▸ other) gone found),idleClaim req b⟩

theorem reachesClaim (req : ClaimRequest) :
    Reaches (entire k) (unmoved k (.claimSlot req) .claimed) (commits k (.claimSlot req) .claimed) (claimBody req) := by
  refine reachesSlot rfl rfl (fun found => ?_)
  cases found with
  | some slot => exact reachesClaimRow req slot
  | none =>
    refine reachesSlot rfl rfl (fun made => ?_)
    cases made with
    | some slot => exact idleClaim req _
    | none =>
      refine reachesSlot rfl rfl (fun other => ?_)
      cases other with
      | none => trivial
      | some slot => exact reachesClaimRow req slot

theorem reachesDeleteSlot (owner subject : String) :
    Reaches (entire k) (unmoved k (.deleteSlot owner subject) .purged) (commits k (.deleteSlot owner subject) .purged)
      (deleteSlotBody owner subject) := by
  have purge : Reaches (entire k) (unmoved k (.deleteSlot owner subject) .purged)
      (commits k (.deleteSlot owner subject) .purged)
      (purgeSubject subject fun purged => .done (.ok (keysOf purged)) : Body (List Key)) := by
    refine reachesPurge subject (fun _ => trivial) (idleDeleteSlot owner subject) ?_
    intro t after b subjects found gone
    subst subjects
    exact .inr ⟨movesActed (actedDeleteSlot owner gone found),idleDeleteSlot owner _ b⟩
  refine reachesSlot rfl rfl (fun found => ?_)
  cases found with
  | none => exact purge
  | some slot =>
    simp only
    split
    · trivial
    · exact reachesSlot rfl rfl (fun _ => purge)

end

section
variable {k : Key} {op : Op}

theorem answersElsewhere {β : Type} {q : Query β} {next : β → Operation} (one : q.many = false) (other : q.works ≠ some k)
    (rest : ∀ a, Answers (entire k) (conduct k op) (next a)) : Answers (entire k) (conduct k op) (.ask (.auto q) next) :=
  fun s => .inl ⟨sparesElsewhere one other s,rest _⟩

theorem answersLease {key : Key} {epoch : Nat} {q : Query Nat} {change : Row → Row} (fits : Representable (truncated op))
    (is : script op = .ask (.auto q) (whyNoRow key)) (names : ∀ reply, Acknowledges k op reply → key = k)
    (one : q.many = false) (works : q.works = some key)
    (answers : ∀ t : Tables, q.answer t = if (t.usable key epoch).isSome then 1 else 0)
    (writes : ∀ t, q.writes t = onRow (t.usable key epoch) (fun row => .database key (change row)))
    (needs : ∀ t, q.needs t = lockRow key .exclusive (t.usable key epoch)) :
    Answers (entire k) (conduct k op) (script op) := by
  rw [is]
  have missed : Answers (entire k) (conduct k op) (whyNoRow key 0) :=
    answersElsewhere rfl (Option.some_ne_none k).symm (fun _ => idleError _)
  by_cases here : key = k
  case neg =>
    refine answersElsewhere one (fun mine => here (Option.some.inj (works.symm.trans mine))) (fun rows => ?_)
    unfold whyNoRow
    split
    · exact fun reply _ touches => here (names reply touches)
    · exact answersElsewhere rfl (Option.some_ne_none k).symm (fun _ => idleError _)
  subst here
  intro s
  have answered : engine.answer q s = _ := answers s
  have wrote : engine.writes q s = _ := writes s
  have needed : engine.needs q s = _ := needs s
  rw [answered,wrote,needed]
  cases usable : s.usable key epoch with
  | none => exact .inl ⟨sparesNone,missed⟩
  | some row =>
    refine .inr ⟨⟨.exclusive,rfl,List.mem_cons_self⟩,.inl ⟨.ok .done,rfl,?_⟩⟩
    have alone : (s.only key).usable key epoch = some row := by
      rw [Tables.usable,(onlySame s key).row]
      exact usable
    have ran : step (s.only key) op = (.ok .done,engine.after q (s.only key)) := by
      rw [stepLease is,answers,alone]
      rfl
    have same : (engine.after q s).entry key = (engine.after q (s.only key)).entry key := by
      have wrote' : engine.writes q (s.only key) = engine.writes q s := worksSame works (entrySame (onlySame s key))
      rw [Engine.after,Engine.after,wrote']
      exact (aloneAll (P := entire key) (entrySame (onlySame s key))).symm
    exact movesActed (actedSame (actedStep fits ran) rfl same)

theorem answersSweepOne {cutoff : Time} {limit : Nat} {tie : Key → Nat} (some_ : 0 < limit) (key : Key)
    {next : Except Failure Bool → Operation}
    (rest : ∀ r, Answers (entire k) (conduct k (.deleteUnused cutoff limit tie)) (next r)) :
    Answers (entire k) (conduct k (.deleteUnused cutoff limit tie)) (.ask (.tx false (sweepBody cutoff key)) next) := by
  refine ⟨?_,fun f => rest _⟩
  by_cases here : key = k
  case neg =>
    exact quietReaches (confinedElsewhere (confinedSweep cutoff key) (fun same => here (Lock.database.inj same)))
      (fun _ => rest _)
  subst here
  refine reachesLock trivial (fun s row found => ?_)
  simp only
  split
  · exact .inr ⟨movesStill _,rest _⟩
  rename_i taken
  -- Another slot of the subject may come and go while the row is locked.
  intro u same
  have still : u.entry key = s.entry key := same
  have there : u.row key = some row := (sameEntry still).row.trans found
  have unchanged : engine.after (.holdsSlot key.subject) u = u := rfl
  rw [unchanged,← still]
  simp only
  split
  · have works : Works key (.ask (.purgeDatabase key) fun _ => .done (.ok true) : Body Bool) := ⟨rfl,fun _ => trivial⟩
    refine aloneYields (worksEntire works) rfl (fun b after ran => .inr ⟨?_,rest _⟩)
    cases ran
    exact movesActed (actedPurge tie there taken some_ (purgeGone u key))
  · have works : Works key (remove key fun _ => .done (.ok true) : Body Bool) := worksRemove key (fun _ => trivial)
    refine aloneYields (worksEntire works) (entrySame (onlySame u key)) (fun b after ran => .inr ⟨?_,rest _⟩)
    rw [execRemove ((onlySame u key).row.trans there),execDone] at ran
    cases ran
    exact movesActed (actedRemove tie there taken some_)

theorem answersSweep {cutoff : Time} {limit : Nat} {tie : Key → Nat} {keys : List Key} (some_ : keys = [] ∨ 0 < limit)
    (removed : List Key) : Answers (entire k) (conduct k (.deleteUnused cutoff limit tie))
      (sweepAll cutoff (sweepEnd cutoff) removed keys) := by
  induction keys generalizing removed with
  | nil =>
    refine answersElsewhere rfl (Option.some_ne_none k).symm (fun owners s => .inl ⟨sparesEntry (fun w member about => ?_),?_⟩)
    · obtain ⟨owner,_,rfl⟩ := List.mem_map.mp member
      contradiction
    · exact fun _ _ touches => touches.2 cutoff limit tie rfl
  | cons key rest ih =>
    have positive : 0 < limit := some_.resolve_left (List.cons_ne_nil key rest)
    rw [sweepCons]
    refine answersSweepOne positive key (fun r => ?_)
    rcases r with f | _ | _
    · exact idleError f
    · exact ih (.inr positive) removed
    · exact ih (.inr positive) (removed ++ [key])

theorem answersScript (k : Key) {op : Op} (small : ∀ req, op = .commit req → req.pageCount.toNat < 2^63) :
    Answers (entire k) (conduct k op) (script op) := by
  have silent {op : Op} (reads : ∀ reply, ¬MemoryStore.Touches k op (.ok reply)) (r : Result) : (conduct k op).idle r :=
    fun reply _ touches => reads reply touches.1
  cases op with
  | openDatabase req id => exact answersTx (reachesOpenBody req id)
  | fetch key version first count => exact ⟨fetchReads key version first count,fun _ => silent (fun _ => id) _⟩
  | commit req => exact answersTx (reachesCommit (small req rfl))
  | changes key fromVersion =>
    refine answersTx (quietReaches (confinedElsewhere (confinedChanges (.slot "") key fromVersion) Lock.noConfusion) ?_)
    exact fun _ => silent (fun _ => id) _
  | renew key epoch now ttl =>
    have ends : 1000 ∣ timestamp now+(timestamp (now+ttl)-timestamp now) := by
      rw [truncatedEnd]
      exact timestampWhole _
    exact answersLease ends rfl (fun _ touches => touches.1) rfl rfl (fun _ => rfl) (fun _ => rfl) (fun _ => rfl)
  | release key epoch =>
    exact answersLease trivial rfl (fun _ touches => touches.1) rfl rfl (fun _ => rfl) (fun _ => rfl) (fun _ => rfl)
  | delete req => exact answersTx (reachesDelete req)
  | deleteUnused cutoff limit tie =>
    rw [sweepScript]
    refine fun s => .inl ⟨sparesNone,answersSweep ?_ []⟩
    rcases Nat.eq_zero_or_pos limit with zero | positive
    · left
      subst zero
      have answer : engine.answer (.unusedDatabases cutoff (min 0 (2^30)) tie) s =
        s.unused (timestamp cutoff) (min 0 (2^30)) tie := rfl
      rw [answer,Tables.unused,Nat.zero_min,List.take_zero]
    · exact .inr positive
  | getSlot owner =>
    exact answersElsewhere rfl (Option.some_ne_none k).symm (fun _ => silent (fun _ => id) _)
  | claimSlot req => exact answersTx (reachesClaim req)
  | setSlotLabel owner subject label =>
    refine answersElsewhere rfl (Option.some_ne_none k).symm (fun found => ?_)
    cases found with
    | some slot => exact silent (fun _ => id) _
    | none => exact answersElsewhere rfl (Option.some_ne_none k).symm (fun _ => idleError _)
  | deleteSlot owner subject => exact answersTx (reachesDeleteSlot owner subject)

end

theorem actedForget {k : Key} {op : Op} {t after : Tables} {reply : Option Result} (acted : Acted k op t after reply) :
    Acted k op t after none := by
  intro cur recorded
  obtain ⟨s,valid,is,later,_⟩ := acted cur recorded
  exact ⟨s,valid,is,later,fun _ none_ => by contradiction⟩

theorem fetchRecorded {t : Tables} {k : Key} {cur : Option Database} (recorded : Recorded t k cur) (version : Nat)
    (first count : UInt64) (slots : Table String Slot) :
    fetched t k version first count = ((storeOf k cur slots).fetch k version first count).mapError Failure.declared :=
  fetchRepresents recorded.represents recorded.valid recorded.small ((recordOf k k cur slots).trans (if_pos rfl)) version first
    count

section
variable {ops : Nat → Op} {events : List (Event Result)} {w after : Calls} {e : Event Result}
  (small : ∀ i req, ops i = .commit req → req.pageCount.toNat < 2^63)
include small

theorem actedEach (run : Run engine (fun i => script (ops i)) empty events w)
    (step : Step engine (fun i => script (ops i)) w e after) (k : Key) :
    SameRows w.committed after.committed k ∨ Acted k (ops e.caller) w.committed after.committed none := by
  have answers (i : Nat) : Answers (entire k) (conduct k (ops i)) (script (ops i)) := answersScript k (small i)
  rcases eachMoves answers run step with same | ⟨reply,⟨same,_⟩ | moved⟩
  · exact .inl (sameEntry same)
  · exact .inl (sameEntry same.symm)
  · exact .inr (actedForget (moved _ _ rfl rfl))

theorem recordedRun (run : Run engine (fun i => script (ops i)) empty events w) (k : Key) :
    ∃ cur, Recorded w.committed k cur := by
  induction run with
  | start => exact ⟨none,recordedGone ⟨rfl,fun _ _ => rfl,fun _ => rfl⟩⟩
  | next earlier step ih =>
    obtain ⟨cur,recorded⟩ := ih
    rcases actedEach small earlier step k with same | acted
    · exact ⟨cur,recordedSame same recorded⟩
    · obtain ⟨s,_,_,later,_⟩ := acted cur recorded
      exact ⟨_,later⟩

theorem landedActed (run : Run engine (fun i => script (ops i)) empty events w) (k : Key) {i : Nat} {reply : Reply}
    (returned : Event.returned i (.ok reply) ∈ events) (known : Acknowledges k (ops i) reply) :
    ∃ earlier later before after, events = earlier ++ Event.moved i :: later ∧ Event.invoked i ∈ earlier ∧
      Event.returned i (.ok reply) ∈ later ∧ Run engine (fun i => script (ops i)) empty earlier before ∧
      Step engine (fun i => script (ops i)) before (.moved i) after ∧
      Acted k (ops i) before.committed after.committed (some (.ok reply)) := by
  have answers (i : Nat) : Answers (entire k) (conduct k (ops i)) (script (ops i)) := answersScript k (small i)
  rcases returnedLanded answers run returned with idle | ⟨earlier,later,before,after,landing,there⟩
  · exact absurd known (idle reply rfl)
  · rcases landing.moves with ⟨_,none_⟩ | acted
    · contradiction
    · exact ⟨earlier,later,before,after,landing.split,landing.invoked,there,landing.run,landing.step,acted _ _ rfl rfl⟩

end

def replacedWhileCommitting : Nat → Op
  | 0 => .claimSlot ⟨"owner","alice",1001⟩
  | 1 => .openDatabase (anOpen true [1] 1234) [9]
  | 2 => .commit {aCommit [1] 0 2 [aBlock 1] with now := 5678}
  | 3 => .claimSlot ⟨"owner","bob",7654⟩
  | _ => .getSlot "owner"

theorem replacedSmall (i : Nat) (req : CommitRequest) (is : replacedWhileCommitting i = .commit req) :
    req.pageCount.toNat < 2^63 := by
  rcases i with _ | _ | _ | _ | i
  all_goals cases is
  decide

end SqliteRemote.Postgres
