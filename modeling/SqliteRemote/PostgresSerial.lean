import SqliteRemote.History
import SqliteRemote.PostgresSteps
import SqliteRemote.Serializing

/-! Calls on one database whose statements interleave. Each call locks the row before it writes,
creates the row with a statement that lets only one creator through, changes the lease with one
guarded statement, or reads from a snapshot, so the calls have a serial order. -/
namespace SqliteRemote.Postgres
open Rows Chunks StoreContract Programs RowLocking Serializing

def OnKey (k : Key) : Op → Prop
  | .openDatabase req _ => req.key = k ∧ req.owner = ""
  | .fetch key _ _ _ => key = k
  | .commit req => req.key = k
  | .renew key _ _ _ => key = k
  | .release key _ => key = k
  | .delete req => req.key = k
  | _ => False

def Persists (k : Key) (t later : Tables) : Prop := (t.row k).isSome → (later.row k).isSome

section
variable {k : Key}

theorem decidesLock {β : Type} {whole : Body β} {now : Tables} {next : Option Row → Body β}
    (missing : ∀ u, Persists k now u → u.row k = none → (∃ v, next none = .done v) ∨
      (∀ x, Persists k u x → execBody engine (next none) x = execBody engine whole x) ∧
        Decides engine (.database k) (Persists k) whole u (next none)) :
    Decides engine (.database k) (Persists k) whole now (.ask (.lockDatabase k) next) := by
  intro u later
  have answer : engine.answer (.lockDatabase k) u = u.row k := rfl
  rw [answer]
  cases found : u.row k with
  | some row =>
    refine .inl ?_
    have needs : engine.needs (.lockDatabase k) u = lockRow k .exclusive (u.row k) := rfl
    rw [needs,found]
    exact List.mem_cons_self
  | none => exact .inr ⟨rfl,missing u later found⟩

theorem orderlyTx {β : Type} {now : Tables} {reply : β → Reply} {body : Body β}
    (decides : Decides engine (.database k) (Persists k) body now body) :
    Orderly engine (.database k) (Persists k) now (inTx reply body) :=
  ⟨decides,fun v _ => ⟨v.map reply,rfl⟩⟩

theorem orderlyCommit (now : Tables) (req : CommitRequest) (here : req.key = k) :
    Orderly engine (.database k) (Persists k) now (script (.commit req)) := by
  subst here
  exact orderlyTx (decidesLock (fun _ _ _ => .inl ⟨_,rfl⟩))

theorem orderlyDelete (now : Tables) (req : DeleteRequest) (here : req.key = k) :
    Orderly engine (.database k) (Persists k) now (script (.delete req)) := by
  subst here
  exact orderlyTx (decidesLock (fun _ _ _ => .inl ⟨_,rfl⟩))

theorem lockExisting {β : Type} {t : Tables} {key : Key} {row : Row} (found : t.row key = some row)
    (next : Row → Body β) : execBody engine (must (.lockDatabase key) next) t = execBody engine (next row) t := by
  have answer : (Query.lockDatabase key).answer t = some row := found
  exact execMust t answer next

theorem createExisting {β : Type} {t : Tables} {req : OpenRequest} {row : Row} (found : t.row req.key = some row)
    (next : Row → Body β) :
    execBody engine (.ask (.createDatabase req.key req.pageSize.toInt32) fun
      | some row => next row
      | none => must (.lockDatabase req.key) next) t = execBody engine (next row) t := by
  have answer : (Query.createDatabase req.key req.pageSize.toInt32).answer t = none := by simp [Query.answer,found]
  have after : engine.after (.createDatabase req.key req.pageSize.toInt32) t = t := by
    simp [Engine.after,engine,Query.writes,found,Engine.applyAll]
  rw [execAsk,answer,after]
  exact lockExisting found next

theorem decidesCreate {req : OpenRequest} (id : Bytes) (u : Tables)
    (allowed : ¬(!req.create || req.resume.isSome) = true) (valid : ¬(!validPageSize req.pageSize) = true) :
    (∀ x, execBody engine (createDatabase req (openRow req id)) x = execBody engine (openDatabase req id) x) ∧
    Decides engine (.database req.key) (Persists req.key) (openDatabase req id) u
      (createDatabase req (openRow req id)) := by
  have whole {x : Tables} {row : Row} (found : x.row req.key = some row) :
      execBody engine (openDatabase req id) x = execBody engine (openRow req id row) x := by
    rw [execOpenDatabase,found]
  constructor
  · intro x
    cases found : x.row req.key with
    | none => rw [execOpenDatabase,found]
    | some row =>
      rw [whole found,createDatabase,if_neg allowed,if_neg valid]
      exact createExisting found _
  · rw [createDatabase,if_neg allowed,if_neg valid]
    intro x _
    have answer : engine.answer (.createDatabase req.key req.pageSize.toInt32) x =
        if (x.row req.key).isSome then none else some (newRow req.pageSize.toInt32) := rfl
    have needs : engine.needs (.createDatabase req.key req.pageSize.toInt32) x =
        insertRow (.database req.key) (x.row req.key).isSome := rfl
    have writes : engine.writes (.createDatabase req.key req.pageSize.toInt32) x =
        if (x.row req.key).isSome then [] else [.database req.key (newRow req.pageSize.toInt32)] := rfl
    rw [answer,needs,writes]
    cases found : x.row req.key with
    | none => exact .inl List.mem_cons_self
    | some row =>
      refine .inr ⟨rfl,.inr ⟨?_,?_⟩⟩
      · intro y later
        obtain ⟨now,there⟩ := Option.isSome_iff_exists.mp (later (by simp [found]))
        rw [whole there]
        exact lockExisting there _
      · refine decidesLock (fun y later gone => ?_)
        have there := later (by simp [found])
        simp [gone] at there

theorem orderlyOpen (now : Tables) (req : OpenRequest) (id : Bytes) (here : req.key = k) (unowned : req.owner = "") :
    Orderly engine (.database k) (Persists k) now (script (.openDatabase req id)) := by
  subst here
  have is : openBody req id = openDatabase req id := by simp [openBody,unowned]
  rw [script,is]
  refine orderlyTx (decidesLock (fun u _ _ => ?_))
  by_cases refused : (!req.create || req.resume.isSome) = true
  · exact .inl ⟨_,by rw [createDatabase,if_pos refused]; rfl⟩
  by_cases invalid : (!validPageSize req.pageSize) = true
  · exact .inl ⟨_,by rw [createDatabase,if_neg refused,if_pos invalid]; rfl⟩
  obtain ⟨agrees,decides⟩ := decidesCreate id u refused invalid
  exact .inr ⟨fun x _ => agrees x,decides⟩

theorem fetchReads (key : Key) (version : Nat) (first count : UInt64) :
    ReadOnly engine (fetchBody key version first count) := by
  intro u
  refine ⟨rfl,?_⟩
  have answer : engine.answer (.getDatabase key) u = u.row key := rfl
  rw [answer]
  cases u.row key with
  | none => trivial
  | some row =>
    simp only
    split
    · trivial
    split
    · trivial
    cases checkRange first count row.pageCount.toUInt64 with
    | some reason => trivial
    | none => exact fun _ => ⟨rfl,trivial⟩

theorem orderlyFetch (now : Tables) (version : Nat) (first count : UInt64) :
    Orderly engine (.database k) (Persists k) now (script (.fetch k version first count)) := by
  have asks : ∀ v, fetchBody k version first count ≠ .done v := fun v same => nomatch same
  exact ⟨asks,fetchReads k version first count,fun v _ => ⟨v.map .blocks,rfl⟩⟩

/- A lease statement that changes no row has decided the call, since the row is there and stays. -/
theorem orderlyLease {now : Tables} {q : Query Nat} (epoch : Nat) (present : (now.row k).isSome)
    (answers : ∀ u, q.answer u = if (u.usable k epoch).isSome then 1 else 0)
    (unwritten : ∀ u, u.usable k epoch = none → q.writes u = [])
    (locked : ∀ u, q.needs u = lockRow k .exclusive (u.usable k epoch)) :
    Orderly engine (.database k) (Persists k) now (.ask (.auto q) (whyNoRow k)) := by
  intro u later
  have answer : engine.answer q u = q.answer u := rfl
  rw [answer,answers]
  cases usable : u.usable k epoch with
  | some row =>
    refine ⟨.inr ?_,.ok .done,rfl⟩
    have needs : engine.needs q u = lockRow k .exclusive (u.usable k epoch) := locked u
    rw [needs,usable]
    exact List.mem_cons_self
  | none =>
    have pure_ : engine.writes q u = [] := unwritten u usable
    refine ⟨.inl pure_,.error (.declared .fenced),?_⟩
    rw [afterUnwritten pure_]
    intro x after
    have there : engine.answer (.databaseExists k) x = true := after (later present)
    refine ⟨rfl,?_⟩
    rw [there]
    rfl

theorem orderlyRenew {now : Tables} (present : (now.row k).isSome) (epoch : Nat) (at_ : Time) (ttl : Duration) :
    Orderly engine (.database k) (Persists k) now (script (.renew k epoch at_ ttl)) := by
  refine orderlyLease epoch present (fun _ => rfl) (fun u idle => ?_) (fun _ => rfl)
  rw [Query.writes,idle]
  rfl

theorem orderlyRelease {now : Tables} (present : (now.row k).isSome) (epoch : Nat) :
    Orderly engine (.database k) (Persists k) now (script (.release k epoch)) := by
  refine orderlyLease epoch present (fun _ => rfl) (fun u idle => ?_) (fun _ => rfl)
  rw [Query.writes,idle]
  rfl

end

def epochOf (k : Key) (t : Tables) : Nat := ((t.row k).map Row.leaseEpoch).getD 0

def versionOf (k : Key) (t : Tables) : Nat := ((t.row k).map Row.version).getD 0

def newEpoch : Op → Except Failure Reply → Option Nat
  | .openDatabase req _,.ok (.opened r) => if req.resume.isNone then some r.lease.epoch else none
  | _,_ => none

def OnBase (t : Tables) (req : CommitRequest) (v : Nat) (after : Tables) : Prop :=
  ∃ row, t.row req.key = some row ∧
    (row.repeats req = true ∧ v = row.version ∧ after = t.put req.key (row.extended (timestamp (req.now+req.ttl))) ∨
      row.repeats req = false ∧ row.version = req.baseVersion.toNat ∧ v = row.version+1 ∧ after = t.committed req row)

structure CallStep (k : Key) (t : Tables) (op : Op) (reply : Except Failure Reply) (after : Tables) : Prop where
  stays : Persists k t after
  opened : ∀ r, reply = .ok (.opened r) → (after.row k).isSome
  epochs : epochOf k t ≤ epochOf k after
  versions : versionOf k t ≤ versionOf k after
  granted : ∀ e, newEpoch op reply = some e → e = epochOf k t+1 ∧ epochOf k after = e
  onBase : ∀ req v, op = .commit req → reply = .ok (.version v) → OnBase t req v after

section
variable {k : Key} {t after : Tables} {op : Op} {reply : Except Failure Reply}

theorem callIdle (unopened : ∀ r, reply ≠ .ok (.opened r)) (uncommitted : ∀ v, reply ≠ .ok (.version v)) :
    CallStep k t op reply t where
  stays := fun there => there
  opened := fun r same => absurd same (unopened r)
  epochs := Nat.le_refl _
  versions := Nat.le_refl _
  granted := by
    intro e new
    unfold newEpoch at new
    split at new <;> try contradiction
    exact absurd rfl (unopened _)
  onBase := fun _ v _ same => absurd same (uncommitted v)

theorem callFailed (f : Failure) : CallStep k t op (.error f) t :=
  callIdle (fun _ same => nomatch same) (fun _ same => nomatch same)

theorem countersOf {row : Row} (found : t.row k = some row) : epochOf k t = row.leaseEpoch ∧ versionOf k t = row.version := by
  simp [epochOf,versionOf,found]

theorem callMoved {new : Row} (there : after.row k = some new) (epochs : epochOf k t ≤ new.leaseEpoch)
    (versions : versionOf k t ≤ new.version)
    (granted : ∀ e, newEpoch op reply = some e → e = epochOf k t+1 ∧ new.leaseEpoch = e)
    (onBase : ∀ req v, op = .commit req → reply = .ok (.version v) → OnBase t req v after) :
    CallStep k t op reply after := by
  obtain ⟨epoch,version⟩ := countersOf there
  have present : (after.row k).isSome := by simp [there]
  refine ⟨fun _ => present,fun _ _ => present,?_,?_,?_,onBase⟩
  · rwa [epoch]
  · rwa [version]
  · rwa [epoch]

end

structure OpenedRow (req : OpenRequest) (epoch version : Nat) (r : OpenResult) (new : Row) : Prop where
  epochs : epoch ≤ new.leaseEpoch
  versions : version ≤ new.version
  granted : req.resume = none → r.lease.epoch = epoch+1 ∧ new.leaseEpoch = epoch+1

section
variable {t after : Tables} {req : OpenRequest} {row : Row} {id : Bytes} {r : OpenResult}

theorem openedGrant (found : t.row req.key = some row)
    (ran : execBody engine (resumeOrGrant req id row) t = (.ok r,after)) :
    ∃ new, after.row req.key = some new ∧ OpenedRow req row.leaseEpoch row.version r new := by
  rcases grantCases found ran with ⟨_,epoch,rfl⟩ | ⟨resumed,rfl⟩
  · exact ⟨_,putRow _ _ _,Nat.le_succ _,Nat.le_refl _,fun _ => ⟨epoch,rfl⟩⟩
  · exact ⟨_,putRow _ _ _,Nat.le_refl _,Nat.le_refl _,fun none => absurd none resumed⟩

theorem openedRow (found : t.row req.key = some row) (ran : execBody engine (openRow req id row) t = (.ok r,after)) :
    ∃ new, after.row req.key = some new ∧ OpenedRow req row.leaseEpoch row.version r new := by
  rw [execOpenRow found] at ran
  repeat' split at ran
  all_goals try cases ran
  · have revived := putRow t req.key (row.revived req.pageSize.toInt32)
    have opened := openedGrant revived ran
    exact opened
  · exact openedGrant found ran

theorem openedDatabase (ran : execBody engine (openDatabase req id) t = (.ok r,after)) :
    ∃ new, after.row req.key = some new ∧ OpenedRow req (epochOf req.key t) (versionOf req.key t) r new := by
  rw [execOpenDatabase] at ran
  cases found : t.row req.key with
  | some row =>
    rw [found] at ran
    obtain ⟨epoch,version⟩ := countersOf found
    rw [epoch,version]
    exact openedRow found ran
  | none =>
    rw [found] at ran
    simp only at ran
    rw [execCreate found] at ran
    split at ran
    · cases ran
    split at ran
    · cases ran
    have counters : epochOf req.key t = 0 ∧ versionOf req.key t = 0 := by simp [epochOf,versionOf,found]
    rw [counters.1,counters.2]
    exact openedRow (putRow t req.key (newRow req.pageSize.toInt32)) ran

end

section
variable {k : Key}

theorem callOpen (t : Tables) {req : OpenRequest} (id : Bytes) (here : req.key = k) (unowned : req.owner = "") :
    CallStep k t (.openDatabase req id) (step t (.openDatabase req id)).1 (step t (.openDatabase req id)).2 := by
  subst here
  have is : openBody req id = openDatabase req id := by simp [openBody,unowned]
  have ran : step t (.openDatabase req id) = _ := stepTx t rfl
  rw [ran,is]
  cases out : execBody engine (openDatabase req id) t with
  | mk result after =>
    cases result with
    | error f => exact callFailed f
    | ok r =>
      obtain ⟨new,there,opened⟩ := openedDatabase out
      refine callMoved there opened.epochs opened.versions ?_ (fun _ _ same => nomatch same)
      intro e granted
      simp only [newEpoch,settle,Except.map] at granted
      split at granted <;> try contradiction
      rename_i fresh
      cases granted
      obtain ⟨epoch,is⟩ := opened.granted (Option.isNone_iff_eq_none.mp fresh)
      exact ⟨epoch,is.trans epoch.symm⟩

theorem callCommit (t : Tables) {req : CommitRequest} (here : req.key = k) :
    CallStep k t (.commit req) (step t (.commit req)).1 (step t (.commit req)).2 := by
  subst here
  have ran : step t (.commit req) = _ := stepTx t rfl
  rw [ran,execCommit]
  cases found : t.row req.key with
  | none => exact callFailed _
  | some row =>
    obtain ⟨epoch,version⟩ := countersOf found
    have moved {new : Row} {after : Tables} {v : Nat} (there : after.row req.key = some new)
        (epochs : row.leaseEpoch ≤ new.leaseEpoch) (versions : row.version ≤ new.version) (base : OnBase t req v after) :
        CallStep req.key t (.commit req) (.ok (.version v)) after := by
      refine callMoved there (by rwa [epoch]) (by rwa [version]) (fun _ same => nomatch same) ?_
      intro other answered same is
      cases same
      cases is
      exact base
    simp only
    split
    · exact callFailed _
    split
    · rename_i again
      exact moved (putRow _ _ _) (Nat.le_refl _) (Nat.le_refl _) ⟨row,found,.inl ⟨again,rfl,rfl⟩⟩
    rename_i first
    split
    · exact callFailed _
    rename_i base
    cases validateCommit row.pageSize.toUInt32 req with
    | some reason => exact callFailed _
    | none =>
      have there : (t.committed req row).row req.key = some (row.afterCommit req) := by rw [committedRow,if_pos rfl]
      exact moved there (Nat.le_refl _) (Nat.le_succ _)
        ⟨row,found,.inr ⟨Bool.eq_false_iff.mpr first,not_not.mp base,rfl,rfl⟩⟩

theorem callDelete (t : Tables) {req : DeleteRequest} (here : req.key = k) :
    CallStep k t (.delete req) (step t (.delete req)).1 (step t (.delete req)).2 := by
  subst here
  have ran : step t (.delete req) = _ := stepTx t rfl
  rw [ran,execDelete]
  have idle (r : DeleteResult) : CallStep req.key t (.delete req) (.ok (.deleted r)) t :=
    callIdle (fun _ same => nomatch same) (fun _ same => nomatch same)
  cases found : t.row req.key with
  | none => exact idle _
  | some row =>
    obtain ⟨epoch,version⟩ := countersOf found
    simp only
    split
    · exact idle _
    split
    · exact callFailed _
    have there : (t.removed req.key row).row req.key = some row.dropped := by rw [removedRow,if_pos rfl]
    refine callMoved there ?_ ?_ (fun _ same => nomatch same) (fun _ _ same => nomatch same)
    · rw [epoch]
      exact Nat.le_succ _
    · rw [version]
      exact Nat.le_succ _

theorem callFetch (t : Tables) (version : Nat) (first count : UInt64) : CallStep k t (.fetch k version first count)
    (step t (.fetch k version first count)).1 (step t (.fetch k version first count)).2 := by
  rw [stepFetch]
  cases fetched t k version first count with
  | ok data => exact callIdle (fun _ same => nomatch same) (fun _ same => nomatch same)
  | error f => exact callFailed f

theorem callLease (t : Tables) (epoch : Nat) (change : Row → Row) {op : Op} {q : Query Nat}
    (is : script op = .ask (.auto q) (whyNoRow k)) (lease : newEpoch op (.ok .done) = none)
    (counters : ∀ row : Row, (change row).leaseEpoch = row.leaseEpoch ∧ (change row).version = row.version)
    (answers : q.answer t = if (t.usable k epoch).isSome then 1 else 0)
    (writes : q.writes t = onRow (t.usable k epoch) (fun row => .database k (change row))) :
    CallStep k t op (step t op).1 (step t op).2 := by
  rw [stepLease is,answers,afterWrites,writes]
  cases usable : t.usable k epoch with
  | none => exact callFailed _
  | some row =>
    have found : t.row k = some row := (Option.filter_eq_some_iff.mp usable).1
    obtain ⟨old,version⟩ := countersOf found
    obtain ⟨sameEpoch,sameVersion⟩ := counters row
    have there : (engine.applyAll (onRow (some row) fun row => .database k (change row)) t).row k = some (change row) :=
      putRow t k (change row)
    refine callMoved there (by rw [old,sameEpoch]) (by rw [version,sameVersion]) ?_ (fun _ _ _ same => nomatch same)
    intro e new
    exact absurd (lease.symm.trans new) (by simp)

theorem callStep (t : Tables) {op : Op} (onKey : OnKey k op) : CallStep k t op (step t op).1 (step t op).2 := by
  cases op with
  | openDatabase req id => exact callOpen t id onKey.1 onKey.2
  | fetch key version first count =>
    cases onKey
    exact callFetch t version first count
  | commit req => exact callCommit t onKey
  | renew key epoch now ttl =>
    cases onKey
    exact callLease t epoch (·.extended (timestamp (now+ttl))) rfl rfl (fun row => ⟨rfl,rfl⟩) rfl rfl
  | release key epoch =>
    cases onKey
    exact callLease t epoch Row.released rfl rfl (fun row => ⟨rfl,rfl⟩) rfl rfl
  | delete req => exact callDelete t onKey
  | _ => exact False.elim onKey

end

def leaseStatement : Op → Option Nat
  | .renew _ epoch _ _ => some epoch
  | .release _ epoch => some epoch
  | _ => none

/- Renew and Release are called with an epoch that Open returned earlier, in this run or, if the
row of k was there at its start, before it. -/
def Carried (k : Key) (calls : Nat → Op) (start : Tables) (events : List (Event Result)) : Prop :=
  ∀ earlier i later, events = earlier ++ .invoked i :: later → ∀ epoch, leaseStatement (calls i) = some epoch →
    (start.row k).isSome ∨ ∃ j r, Event.returned j (.ok (.opened r)) ∈ earlier ∧ r.lease.epoch = epoch

structure Serializes (calls : Nat → Op) (start : Tables) (events : List (Event Result)) (final : Tables)
    (order : List (Nat × Result)) : Prop where
  once : (order.map Prod.fst).Nodup
  invoked : ∀ e ∈ order, Event.invoked e.1 ∈ events
  returned : ∀ i r, Event.returned i r ∈ events → (i,r) ∈ order
  realTime : ∀ before j r after, order = before ++ (j,r) :: after → ∀ i, Precedes events i j → i ∈ before.map Prod.fst
  replies : (History.history step start (order.map (fun e => calls e.1))).map History.Event.reply = order.map Prod.snd
  ends : History.run step start (order.map (fun e => calls e.1)) = final

structure Lawful (k : Key) (record : List (History.Event Tables Op Result)) : Prop where
  onBase : ∀ e ∈ record, ∀ req v, e.op = .commit req → e.reply = .ok (.version v) → OnBase e.before req v e.after
  noneLost : ∀ i j : Nat, i < j → ∀ a b, record[i]? = some a → record[j]? = some b →
    ∀ first second v later, a.op = .commit first → a.reply = .ok (.version v) →
      b.op = .commit second → b.reply = .ok (.version later) →
      v < later ∨ v = later ∧ (b.before.row k).any (fun row => row.repeats second)
  epochs : ∀ i j : Nat, i < j → ∀ a b, record[i]? = some a → record[j]? = some b →
    ∀ e later, newEpoch a.op a.reply = some e → newEpoch b.op b.reply = some later → e < later
  reads : ∀ e ∈ record, ∀ version first count data, e.op = .fetch k version first count →
    e.reply = .ok (.blocks data) → versionOf k e.before = version ∧ fetched e.before k version first count = .ok data

section
variable {k : Key} {calls : Nat → Op} {start : Tables}

theorem orderlyCall {now : Tables} {op : Op} (onKey : OnKey k op)
    (present : (leaseStatement op).isSome → (now.row k).isSome) :
    Orderly engine (.database k) (Persists k) now (script op) := by
  cases op with
  | openDatabase req id => exact orderlyOpen now req id onKey.1 onKey.2
  | fetch key version first count =>
    cases onKey
    exact orderlyFetch now version first count
  | commit req => exact orderlyCommit now req onKey
  | renew key epoch at_ ttl =>
    cases onKey
    exact orderlyRenew (present rfl) epoch at_ ttl
  | release key epoch =>
    cases onKey
    exact orderlyRelease (present rfl) epoch
  | delete req => exact orderlyDelete now req onKey
  | _ => exact False.elim onKey

theorem carriedEarlier {events : List (Event Result)} {e : Event Result} (carried : Carried k calls start (events ++ [e])) :
    Carried k calls start events := by
  intro earlier i later split
  refine carried earlier i (later ++ [e]) ?_
  rw [split]
  simp

theorem linearRun {events : List (Event Result)} {w : Calls} (run : Run engine (fun i => script (calls i)) start events w)
    (onKey : ∀ i, OnKey k (calls i)) (carried : Carried k calls start events) :
    ∃ order, Linearized engine (.database k) (Persists k) (fun i => script (calls i)) start events w order := by
  induction run with
  | start => exact ⟨[],linearStart⟩
  | @next events w after e earlier moved ih =>
    obtain ⟨order,linear⟩ := ih (carriedEarlier carried)
    have grows : ∀ i u, Persists k u (exec engine (script (calls i)) u).2 := fun i u => (callStep u (onKey i)).stays
    have stays : ∀ i u, (u.row k).isSome → ((exec engine (script (calls i)) u).2.row k).isSome := grows
    refine linearStep (fun _ there => there) (fun _ _ _ first second there => second (first there)) linear grows
      (compatibleRun earlier) moved ?_
    intro i is
    refine orderlyCall (onKey i) (fun lease => ?_)
    obtain ⟨epoch,named⟩ := Option.isSome_iff_exists.mp lease
    -- The row is there since the start, or since the Open that returned the epoch took its place.
    rcases carried events i [] (by rw [is]) epoch named with there | ⟨j,r,returned,_⟩
    · exact serialKeeps (P := fun u => (u.row k).isSome) linear.serial stays there
    · refine serialAfter (P := fun u => (u.row k).isSome) linear.serial (linear.returned j _ returned) ?_ stays
      intro u same
      exact (callStep u (onKey j)).opened r same

theorem serialHistory {order : List (Nat × Result)} {final : Tables}
    (serial : Serial engine (fun i => script (calls i)) start order final) :
    (History.history step start (order.map (fun e => calls e.1))).map History.Event.reply = order.map Prod.snd ∧
    History.run step start (order.map (fun e => calls e.1)) = final := by
  induction serial with
  | start => exact ⟨rfl,rfl⟩
  | @next order s after r earlier i ran ih =>
    obtain ⟨replies,ends⟩ := ih
    have one : step s (calls i) = (r,after) := ran
    simp only [List.map_append,List.map_cons,List.map_nil,History.historyAppend,History.runAppend,replies,ends,
      History.history,History.run,one,and_self]

theorem onBaseVersion {t after : Tables} {req : CommitRequest} {v : Nat} (base : OnBase t req v after) :
    versionOf req.key after = v ∧
      (versionOf req.key t < v ∨ v = versionOf req.key t ∧ (t.row req.key).any (fun row => row.repeats req)) := by
  obtain ⟨row,found,⟨again,rfl,rfl⟩ | ⟨_,_,rfl,rfl⟩⟩ := base
  · refine ⟨(countersOf (putRow t req.key _)).2,.inr ⟨(countersOf found).2.symm,?_⟩⟩
    rw [found]
    exact again
  · have there : (t.committed req row).row req.key = some (row.afterCommit req) := by rw [committedRow,if_pos rfl]
    refine ⟨(countersOf there).2,.inl ?_⟩
    rw [(countersOf found).2]
    exact Nat.lt_succ_self _

theorem fetchedVersion {t : Tables} {version : Nat} {first count : UInt64} {data : List Bytes}
    (ok : fetched t k version first count = .ok data) : versionOf k t = version := by
  unfold fetched at ok
  cases found : t.row k with
  | none =>
    rw [found] at ok
    cases ok
  | some row =>
    rw [found] at ok
    simp only at ok
    split at ok <;> try contradiction
    split at ok <;> try contradiction
    rename_i same
    rw [(countersOf found).2]
    exact (not_not.mp same).symm

theorem lawfulHistory {ops : List Op} (onKey : ∀ op ∈ ops, OnKey k op) : Lawful k (History.history step start ops) := by
  have on {e : History.Event Tables Op Result} (member : e ∈ History.history step start ops) : OnKey k e.op := by
    obtain ⟨i,found⟩ := List.mem_iff_getElem?.mp member
    exact onKey e.op (History.eventOp step (List.mem_of_getElem? found))
  have called {e : History.Event Tables Op Result} (member : e ∈ History.history step start ops) :
      CallStep k e.before e.op e.reply e.after := by
    have did := callStep e.before (on member)
    rw [History.eventStep step member] at did
    exact did
  have versions {e : History.Event Tables Op Result} {req : CommitRequest} {v : Nat}
      (member : e ∈ History.history step start ops) (op : e.op = .commit req) (reply : e.reply = .ok (.version v)) :
      versionOf k e.after = v ∧
        (versionOf k e.before < v ∨ v = versionOf k e.before ∧ (e.before.row k).any (fun row => row.repeats req)) := by
    have here : req.key = k := by
      have on := on member
      rw [op] at on
      exact on
    rw [← here]
    exact onBaseVersion ((called member).onBase req v op reply)
  refine ⟨fun e member => (called member).onBase,?_,?_,?_⟩
  · intro i j order a b first later one two v w commit answered again answeredAgain
    have left := (versions (List.mem_of_getElem? first) commit answered).1
    have right := (versions (List.mem_of_getElem? later) again answeredAgain).2
    have grown : versionOf k a.after ≤ versionOf k b.before :=
      History.carried step (P := fun t => versionOf k a.after ≤ versionOf k t)
        (fun e member low => Nat.le_trans low (called member).versions) first later order (Nat.le_refl _)
    rcases right with newer | ⟨same,repeats⟩
    · exact .inl (by omega)
    · rcases Nat.lt_or_eq_of_le grown with less | equal
      · exact .inl (by omega)
      · exact .inr ⟨by omega,repeats⟩
  · intro i j order a b first later e f new newer
    have left := ((called (List.mem_of_getElem? first)).granted e new).2
    have right := ((called (List.mem_of_getElem? later)).granted f newer).1
    have grown : epochOf k a.after ≤ epochOf k b.before :=
      History.carried step (P := fun t => epochOf k a.after ≤ epochOf k t)
        (fun e member low => Nat.le_trans low (called member).epochs) first later order (Nat.le_refl _)
    omega
  · intro e member version first count data op reply
    have ran := History.eventStep step member
    rw [op,stepFetch,reply] at ran
    cases result : fetched e.before k version first count with
    | error f =>
      rw [result] at ran
      cases ran
    | ok blocks =>
      rw [result] at ran
      have same : Except.ok (Reply.blocks blocks) = Except.ok (Reply.blocks data) := congrArg Prod.fst ran
      cases same
      exact ⟨fetchedVersion result,rfl⟩

theorem rowLockSerializes {events : List (Event Result)} {w : Calls}
    (run : Run engine (fun i => script (calls i)) start events w) (onKey : ∀ i, OnKey k (calls i))
    (carried : Carried k calls start events) :
    ∃ order, Serializes calls start events w.committed order ∧
      Lawful k (History.history step start (order.map (fun e => calls e.1))) := by
  obtain ⟨order,linear⟩ := linearRun run onKey carried
  obtain ⟨replies,ends⟩ := serialHistory linear.serial
  have invoked : ∀ e ∈ order, Event.invoked e.1 ∈ events := by
    intro e member
    cases at_ : w.calls e.1 with
    | none => exact absurd (List.mem_map_of_mem member) (linear.called e.1 at_)
    | some residual => exact runInvoked run at_
  have each : ∀ op ∈ order.map (fun e => calls e.1), OnKey k op := by
    intro op member
    obtain ⟨e,_,rfl⟩ := List.mem_map.mp member
    exact onKey e.1
  exact ⟨order,⟨linear.once,invoked,linear.returned,linear.realTime,replies,ends⟩,lawfulHistory each⟩

end

/- Two clients create one database at the same time; the one that comes second takes the lease
over, and the renewal of the first is fenced. -/
def creators : Nat → Op
  | 0 => .openDatabase ⟨aKey,"",some [1],512,true,false,none,0,10000⟩ [8]
  | 1 => .openDatabase ⟨aKey,"",some [2],512,true,true,none,0,10000⟩ [9]
  | 2 => .renew aKey 1 0 10000
  | _ => .fetch aKey 0 0 0

def creation : List (Event Result) :=
  [.invoked 0,.invoked 1,.moved 0,.moved 1,.moved 0,.moved 1,.moved 0,.moved 0,.moved 0,
   .returned 0 (.ok (.opened ⟨⟨[8],1⟩,⟨512,0,0,[]⟩,false⟩)),.moved 1,.moved 1,.moved 1,.invoked 2,.moved 1,.moved 2,
   .moved 2,.returned 2 (.error (.declared .fenced)),.returned 1 (.ok (.opened ⟨⟨[9],2⟩,⟨512,0,0,[]⟩,true⟩))]

theorem creationRun : ∃ w : Calls, Run engine (fun i => script (creators i)) empty creation w := by
  have ran : (schedule engine (fun i => script (creators i)) [0,1,2] [0,1,0,1,0,1,0,0,0,0,1,1,1,2,1,2,2,2,1]
      ⟨empty,fun _ => none⟩).map Prod.fst = some creation := by decide +kernel
  obtain ⟨w,_,run⟩ := scheduled (by decide) ran
  exact ⟨w,run⟩

theorem creationCarried : Carried aKey creators empty creation := by
  intro earlier i later split epoch named
  have is : i = 2 ∧ epoch = 1 := by
    rcases i with _ | _ | _ | i <;> simp only [creators,leaseStatement,Option.some.injEq,reduceCtorEq] at named
    exact ⟨rfl,named.symm⟩
  obtain ⟨rfl,rfl⟩ := is
  have at_ : creation[earlier.length]? = some (.invoked 2) := by
    rw [split]
    simp
  have only : ∀ n < 19, creation[n]? = some (.invoked 2) → n = 13 := by decide
  have place : earlier.length = 13 := only _ (List.getElem?_eq_some_iff.mp at_).1 at_
  have first : earlier = creation.take 13 := by
    rw [split,← place]
    simp
  refine .inr ⟨0,⟨⟨[8],1⟩,⟨512,0,0,[]⟩,false⟩,?_,rfl⟩
  rw [first]
  decide

theorem creationSerializes : ∃ w : Calls, Run engine (fun i => script (creators i)) empty creation w ∧
    ∃ order, Serializes creators empty creation w.committed order ∧
      Lawful aKey (History.history step empty (order.map (fun e => creators e.1))) := by
  obtain ⟨w,run⟩ := creationRun
  have onKey : ∀ i, OnKey aKey (creators i) := by
    intro i
    rcases i with _ | _ | _ | i <;> simp [creators,OnKey]
  exact ⟨w,run,rowLockSerializes run onKey creationCarried⟩

end SqliteRemote.Postgres
