import SqliteRemote.PostgresSteps

/-! Changes reads the row, the oldest log entry and the log in three statements, and other
transactions commit between them. A deletion or a commit at the window's edge between the
second and the third takes away entries the second one counted on. -/
namespace SqliteRemote.Postgres
open Rows Chunks StoreContract Programs RowLocking

/- One transaction of another call. DeleteUnused reads its candidates and then runs one
transaction for each and one for the slots. -/
inductive Transaction where
  | op (op : Op)
  | sweep (cutoff : Time) (key : Key)
  | releaseSlots (cutoff : Time)

def commitTransaction (t : Tables) : Transaction → Tables
  | .op (.deleteUnused _ _ _) => t
  | .op op => (step t op).2
  | .sweep cutoff key => (settle t (execBody engine (sweepBody cutoff key) t)).2
  | .releaseSlots cutoff => engine.after (.releaseSlots ((Query.unusedSlots cutoff).answer t)) t

abbrev Written := Nat × List UInt64

-- The version and the blocks of a commit of k that was applied; a repeated one is not.
def commitOf (t : Tables) (k : Key) : Transaction → Option Written
  | .op (.commit req) =>
      match (step t (.commit req)).1 with
      | .ok (.version v) =>
          if req.key = k ∧ (t.row k).any (fun row => decide (row.version < v)) then some (v,req.blocks.map Block.index)
          else none
      | _ => none
  | _ => none

structure Trace where
  tables : Tables
  commits : List Written

def Trace.next (k : Key) (tr : Trace) (tx : Transaction) : Trace :=
  let after := commitTransaction tr.tables tx
  ⟨after,if (after.row k).isNone then [] else tr.commits ++ (commitOf tr.tables k tx).toList⟩

def trace (k : Key) (tr : Trace) (txs : List Transaction) : Trace := txs.foldl (Trace.next k) tr

theorem traceTables (k : Key) (tr : Trace) (txs : List Transaction) :
    (trace k tr txs).tables = txs.foldl commitTransaction tr.tables := by
  induction txs generalizing tr with
  | nil => rfl
  | cons tx rest ih => exact ih (tr.next k tx)

inductive LogStep (k : Key) (t after : Tables) : Option Written → Prop where
  | same (row : (after.row k).map Row.version = (t.row k).map Row.version) (log : ∀ v, after.change k v = t.change k v) :
      LogStep k t after none
  | created {row : Row} (before : t.row k = none) (fresh : after.row k = some row) (version : row.version = 0)
      (log : ∀ v, after.change k v = t.change k v) : LogStep k t after none
  | gone (row : after.row k = none) (log : ∀ v, after.change k v = none) : LogStep k t after none
  | dropped {row : Row} (before : t.row k = some row) (row_ : after.row k = some row.dropped)
      (log : ∀ v, after.change k v = none) : LogStep k t after none
  | committed {row : Row} {req : CommitRequest} (before : t.row k = some row) (key : req.key = k)
      (is : after = t.committed req row) : LogStep k t after (some (row.version+1,req.blocks.map Block.index))

theorem logStepPut {t : Tables} {k key : Key} {row new : Row} (found : t.row key = some row)
    (version : new.version = row.version) : LogStep k t (t.put key new) none := by
  refine .same ?_ (fun v => changeApply t k v _)
  rw [Tables.put,rowApply]
  by_cases here : k = key
  · subst here
    simp [found,version]
  · simp [here]

theorem logStepCreate {t : Tables} {k key : Key} {new : Row} (missing : t.row key = none)
    (version : new.version = 0) : LogStep k t (t.put key new) none := by
  by_cases here : k = key
  · subst here
    exact .created missing (putRow t k new) version (fun v => changeApply t k v _)
  · refine .same ?_ (fun v => changeApply t k v _)
    rw [Tables.put,rowApply]
    simp [here]

theorem logStepIdle (k : Key) (t : Tables) : LogStep k t t none := .same rfl (fun _ => rfl)

theorem logStepRemoved {t : Tables} {k key : Key} {row : Row} (found : t.row key = some row) :
    LogStep k t (t.removed key row) none := by
  by_cases here : k = key
  · subst here
    exact .dropped found (by rw [removedRow,if_pos rfl]) (fun v => by rw [removedChange,if_pos rfl])
  · exact .same (by rw [removedRow,if_neg here]) (fun v => by rw [removedChange,if_neg here])

theorem logStepSettle {β : Type} {t : Tables} {k : Key} {out : Except Failure β × Tables}
    (did : LogStep k t out.2 none) : LogStep k t (settle t out).2 none := by
  obtain ⟨result,after⟩ := out
  cases result with
  | ok b => exact did
  | error e => exact logStepIdle k t

theorem logStepGrant {t : Tables} {k : Key} {req : OpenRequest} {row : Row} (found : t.row req.key = some row)
    (id : Bytes) {start : Tables} (idle : LogStep k start t none)
    (put : ∀ new : Row, new.version = row.version → LogStep k start (t.put req.key new) none) :
    LogStep k start (execBody engine (resumeOrGrant req id row) t).2 none := by
  rw [execResumeOrGrant found]
  cases req.resume with
  | none =>
    simp only
    rw [execGrant found]
    split
    · exact idle
    · exact put _ rfl
  | some resume =>
    simp only
    split
    · exact idle
    · exact put _ rfl

theorem logStepOpen (t : Tables) (k : Key) (req : OpenRequest) (id : Bytes) :
    LogStep k t (execBody engine (openBody req id) t).2 none := by
  have idle := logStepIdle k t
  rw [execOpen]
  split
  · exact idle
  rw [execOpenDatabase]
  cases found : t.row req.key with
  | some row =>
    simp only
    rw [execOpenRow found]
    repeat' split
    all_goals try exact idle
    · refine logStepGrant (putRow t req.key _) id (logStepPut found rfl) (fun new version => ?_)
      rw [putPut]
      exact logStepPut found version
    · exact logStepGrant found id idle (fun new version => logStepPut found version)
  | none =>
    simp only
    rw [execCreate found]
    split
    · exact idle
    split
    · exact idle
    have made : LogStep k t (t.put req.key (newRow req.pageSize.toInt32)) none := logStepCreate found rfl
    rw [execOpenRow (putRow t req.key _)]
    repeat' split
    all_goals try exact made
    · contradiction
    · refine logStepGrant (putRow t req.key _) id made (fun new version => ?_)
      rw [putPut]
      exact logStepCreate found version

theorem logStepSame {t after : Tables} {k : Key} (same : SameRows t after k) : LogStep k t after none :=
  .same (by rw [same.row]) same.change

theorem logStepGone {t after : Tables} {k : Key} (gone : NoRows after k) : LogStep k t after none :=
  .gone gone.row gone.change

theorem logStepPurged {t before after : Tables} {subject : String} {k : Key} (earlier : SameRows t before k)
    (later : SameRows (before.purged subject) after k) : LogStep k t after none := by
  rcases purgedCases before subject k with gone | same
  · exact logStepGone (goneSame gone later)
  · exact logStepSame (sameTrans (sameTrans earlier same) later)

theorem logStepCommit (t : Tables) (k : Key) (req : CommitRequest) :
    LogStep k t (step t (.commit req)).2 (commitOf t k (.op (.commit req))) := by
  have ran : step t (.commit req) = ((settle t (execBody engine (commitBody req) t)).1.map .version,
      (settle t (execBody engine (commitBody req) t)).2) := stepTx t rfl
  rw [commitOf,ran,execCommit]
  cases found : t.row req.key with
  | none => exact logStepIdle k t
  | some row =>
    simp only
    split
    · exact logStepIdle k t
    split
    · have old : ¬ (req.key = k ∧ (t.row k).any (fun other => decide (other.version < row.version)) = true) := by
        intro both
        obtain ⟨rfl,newer⟩ := both
        simp [found] at newer
      simp only [settle,Except.map,if_neg old]
      exact logStepPut found rfl
    split
    · exact logStepIdle k t
    cases validateCommit row.pageSize.toUInt32 req with
    | some reason => exact logStepIdle k t
    | none =>
      simp only [settle,Except.map]
      by_cases here : req.key = k
      · have newer : req.key = k ∧ (t.row k).any (fun other => decide (other.version < row.version+1)) = true := by
          refine ⟨here,?_⟩
          simp [← here,found]
        rw [if_pos newer]
        exact .committed (here ▸ found) here rfl
      · rw [if_neg (fun both => here both.1)]
        exact logStepSame (committedSame t req row (fun same => here same.symm))

theorem logStepLease {t : Tables} {k key : Key} (epoch : Nat) (change : Row → Row) {op : Op} {q : Query Nat}
    (is : script op = .ask (.auto q) (whyNoRow key)) (version : ∀ row : Row, (change row).version = row.version)
    (writes : engine.after q t = match t.usable key epoch with
      | some row => t.put key (change row)
      | none => t) : LogStep k t (step t op).2 none := by
  have after : LogStep k t (engine.after q t) none := by
    rw [writes]
    cases usable : t.usable key epoch with
    | none => exact logStepIdle k t
    | some row =>
      have found : t.row key = some row := (Option.filter_eq_some_iff.mp usable).1
      exact logStepPut found (version row)
  rw [stepLease is]
  split
  · exact after
  · exact after

theorem logStepSweep (t : Tables) (k key : Key) (cutoff : Time) :
    LogStep k t (execBody engine (sweepBody cutoff key) t).2 none := by
  cases found : t.row key with
  | none =>
    have answer : (Query.lockDatabase key).answer t = none := found
    have after : engine.after (.lockDatabase key) t = t := rfl
    rw [sweepBody,must,execAsk,answer,after]
    exact logStepIdle k t
  | some row =>
    rw [execSweep found]
    split
    · exact logStepIdle k t
    split
    · by_cases here : k = key
      · subst here
        exact logStepGone (purgeGone t k)
      · exact logStepSame (purgeSame t here)
    · exact logStepRemoved found

theorem logStepDelete (t : Tables) (k : Key) (req : DeleteRequest) :
    LogStep k t (execBody engine (deleteBody req) t).2 none := by
  rw [execDelete]
  cases found : t.row req.key with
  | none => exact logStepIdle k t
  | some row =>
    simp only
    repeat' split
    all_goals try exact logStepIdle k t
    exact logStepRemoved found

theorem sameSelf (t : Tables) (k : Key) : SameRows t t k := ⟨rfl,fun _ _ => rfl,fun _ => rfl⟩

theorem logStepClaim (t : Tables) (k : Key) (req : ClaimRequest) :
    LogStep k t (execBody engine (claimBody req) t).2 none := by
  rw [execClaim]
  cases found : t.slots.lookup req.owner with
  | none => exact logStepSame (slotSame t _ _ k)
  | some slot =>
    simp only
    rw [execClaimRow found]
    split
    · exact logStepIdle k t
    · exact logStepPurged (sameSelf t k) (slotSame _ _ _ k)

theorem logStepDeleteSlot (t : Tables) (k : Key) (owner subject : String) :
    LogStep k t (execBody engine (deleteSlotBody owner subject) t).2 none := by
  rw [execDeleteSlot]
  cases t.slots.lookup owner with
  | none => exact logStepPurged (sameSelf t k) (sameSelf _ k)
  | some slot =>
    simp only
    split
    · exact logStepIdle k t
    · exact logStepPurged (dropSlotSame t owner k) (sameSelf _ k)

theorem logStep (t : Tables) (k : Key) (tx : Transaction) :
    LogStep k t (commitTransaction t tx) (commitOf t k tx) := by
  have idle := logStepIdle k t
  have inTx_ {β : Type} {op : Op} {reply : β → Reply} {body : Body β} (is : script op = inTx reply body)
      (did : LogStep k t (execBody engine body t).2 none) : LogStep k t (step t op).2 none := by
    rw [stepTx t is]
    exact logStepSettle did
  cases tx with
  | sweep cutoff key => exact logStepSettle (logStepSweep t k key cutoff)
  | releaseSlots cutoff => exact logStepSame ((dropSlots _ t).1 k)
  | op op =>
    cases op with
    | openDatabase req id => exact inTx_ rfl (logStepOpen t k req id)
    | fetch key version first count =>
      simp only [commitTransaction,stepFetch]
      exact idle
    | commit req => exact logStepCommit t k req
    | changes key fromVersion =>
      refine inTx_ rfl ?_
      rw [execChanges]
      exact idle
    | renew key epoch now ttl =>
      refine logStepLease epoch (·.extended (timestamp (now+ttl))) rfl (fun row => rfl) ?_
      rw [afterWrites,Query.writes]
      cases t.usable key epoch <;> rfl
    | release key epoch =>
      refine logStepLease epoch Row.released rfl (fun row => rfl) ?_
      rw [afterWrites,Query.writes]
      cases t.usable key epoch <;> rfl
    | delete req => exact inTx_ rfl (logStepDelete t k req)
    | deleteUnused cutoff limit tie => exact idle
    | getSlot owner => exact idle
    | claimSlot req => exact inTx_ rfl (logStepClaim t k req)
    | setSlotLabel owner subject label =>
      simp only [commitTransaction,stepSetSlotLabel,commitOf]
      cases t.slots.lookup owner with
      | none => exact idle
      | some slot =>
        simp only
        split
        · exact logStepSame (slotSame t _ _ k)
        · exact idle
    | deleteSlot owner subject => exact inTx_ rfl (logStepDeleteSlot t k owner subject)

/- The log holds one entry for each version of a stretch that ends at the current one, and the
entry of a commit lists its blocks. -/
structure Logged (t : Tables) (k : Key) (commits : List Written) : Prop where
  absent : t.row k = none → commits = [] ∧ ∀ v, t.change k v = none
  known : ∀ row, t.row k = some row → ∀ e ∈ commits, e.1 ≤ row.version
  window : ∀ row, t.row k = some row → ∃ low, low ≤ row.version ∧
    (∀ v, (t.change k v).isSome → low < v) ∧
    ∀ e ∈ commits, low < e.1 → ∃ listed, t.change k e.1 = some listed ∧ ∀ i ∈ e.2, i.toInt64 ∈ listed
  current : ∀ row, t.row k = some row → ∀ v, (t.change k v).isSome → v ≤ row.version

theorem loggedSame {t after : Tables} {k : Key} {commits : List Written} (logged : Logged t k commits)
    (version : (after.row k).map Row.version = (t.row k).map Row.version)
    (log : ∀ v, after.change k v = t.change k v) : Logged after k commits := by
  have before {row : Row} (found : after.row k = some row) : ∃ old, t.row k = some old ∧ old.version = row.version := by
    rw [found] at version
    exact Option.map_eq_some_iff.mp version.symm
  refine ⟨?_,?_,?_,?_⟩
  · intro gone
    rw [gone] at version
    obtain ⟨none,empty⟩ := logged.absent (Option.map_eq_none_iff.mp version.symm)
    exact ⟨none,fun v => (log v).trans (empty v)⟩
  · intro row found e member
    obtain ⟨old,there,same⟩ := before found
    exact same ▸ logged.known old there e member
  · intro row found
    obtain ⟨old,there,same⟩ := before found
    simp only [log]
    exact same ▸ logged.window old there
  · intro row found v
    obtain ⟨old,there,same⟩ := before found
    rw [log,← same]
    exact logged.current old there v

theorem touchedLists {blocks : List Block} {i : UInt64} (member : i ∈ blocks.map Block.index) :
    i.toInt64 ∈ touchedRows blocks := by
  obtain ⟨b,listed,rfl⟩ := List.mem_map.mp member
  exact (List.perm_insertionSort _ _).mem_iff.mpr (List.mem_map.mpr ⟨b,listed,rfl⟩)

section
variable {t : Tables} {commits : List Written} {row : Row} {req : CommitRequest}
  (logged : Logged t req.key commits) (before : t.row req.key = some row)
include logged before

theorem committedLog (v : Nat) : (t.committed req row).change req.key v =
    if changeWindow < row.version+1 ∧ v ≤ row.version+1-changeWindow then none
    else if v = row.version+1 then some (touchedRows req.blocks) else t.change req.key v := by
  have unlogged : t.change req.key (row.version+1) = none := by
    refine Option.eq_none_iff_forall_ne_some.mpr (fun listed found => ?_)
    have := logged.current row before (row.version+1) (by rw [found]; rfl)
    omega
  rw [committedChange,unlogged]
  simp only [true_and,Option.getD_none]

theorem committedPresent {v : Nat} (present : ((t.committed req row).change req.key v).isSome) :
    row.version+1-changeWindow < v ∧ (v = row.version+1 ∨ (t.change req.key v).isSome) := by
  rw [committedLog logged before] at present
  split at present
  · contradiction
  rename_i unpruned
  split at present
  · rename_i latest
    refine ⟨?_,.inl latest⟩
    simp only [changeWindow]
    omega
  · obtain ⟨low,_,above,_⟩ := logged.window row before
    have := above v present
    refine ⟨?_,.inr present⟩
    simp only [changeWindow] at unpruned ⊢
    omega

theorem committedWindow : ∃ low, low ≤ row.version+1 ∧
    (∀ v, ((t.committed req row).change req.key v).isSome → low < v) ∧
    ∀ e ∈ commits ++ [(row.version+1,req.blocks.map Block.index)], low < e.1 →
      ∃ listed, (t.committed req row).change req.key e.1 = some listed ∧ ∀ i ∈ e.2, i.toInt64 ∈ listed := by
  obtain ⟨low,bound,above,kept⟩ := logged.window row before
  refine ⟨max low (row.version+1-changeWindow),?_,?_,?_⟩
  · simp only [changeWindow]
    omega
  · intro v present
    obtain ⟨unpruned,latest | old⟩ := committedPresent logged before present
    · omega
    · have := above v old
      omega
  · intro e member late
    have unpruned : ¬ (changeWindow < row.version+1 ∧ e.1 ≤ row.version+1-changeWindow) := by omega
    rw [committedLog logged before,if_neg unpruned]
    rcases List.mem_append.mp member with old | added
    · have earlier := logged.known row before e old
      rw [if_neg (by omega)]
      exact kept e old (by omega)
    · rw [List.mem_singleton.mp added,if_pos rfl]
      exact ⟨_,rfl,fun i listed => touchedLists listed⟩

theorem loggedCommitted : Logged (t.committed req row) req.key
    (commits ++ [(row.version+1,req.blocks.map Block.index)]) := by
  have after : (t.committed req row).row req.key = some (row.afterCommit req) := by rw [committedRow,if_pos rfl]
  refine ⟨?_,?_,?_,?_⟩
  · intro gone
    rw [after] at gone
    contradiction
  · intro new found e member
    cases after.symm.trans found
    show e.1 ≤ row.version+1
    rcases List.mem_append.mp member with old | added
    · have := logged.known row before e old
      omega
    · rw [List.mem_singleton.mp added]
  · intro new found
    cases after.symm.trans found
    exact committedWindow logged before
  · intro new found v present
    cases after.symm.trans found
    show v ≤ row.version+1
    rcases (committedPresent logged before present).2 with latest | old
    · omega
    · have := logged.current row before v old
      omega

end

theorem loggedStep {tr : Trace} {k : Key} (logged : Logged tr.tables k tr.commits) (tx : Transaction) :
    Logged (tr.next k tx).tables k (tr.next k tx).commits := by
  have did := logStep tr.tables k tx
  simp only [Trace.next]
  generalize commitTransaction tr.tables tx = after at did
  generalize commitOf tr.tables k tx = made at did
  cases did with
  | same row log =>
    have next := loggedSame logged row log
    cases found : after.row k with
    | none =>
      obtain ⟨none,_⟩ := next.absent found
      simpa [found,none] using next
    | some new => simpa using next
  | created before fresh version log =>
    obtain ⟨none,empty⟩ := logged.absent before
    rw [fresh,none]
    have nothing (v : Nat) : after.change k v = Option.none := (log v).trans (empty v)
    refine ⟨fun gone => ?_,fun _ _ e member => ?_,fun row found => ⟨0,Nat.zero_le _,?_,?_⟩,fun _ _ v present => ?_⟩
    · rw [fresh] at gone; contradiction
    · simp at member
    · intro v present; rw [nothing] at present; contradiction
    · intro e member; simp at member
    · rw [nothing] at present; contradiction
  | gone row log =>
    rw [row]
    refine ⟨fun _ => ⟨rfl,log⟩,fun new found => ?_,fun new found => ?_,fun new found => ?_⟩
    all_goals rw [row] at found; contradiction
  | @dropped old before new log =>
    rw [new]
    have kept : ∀ e ∈ tr.commits, e.1 ≤ old.version := logged.known old before
    refine ⟨fun gone => ?_,fun row found e member => ?_,fun row found => ⟨row.version,Nat.le_refl _,?_,?_⟩,
      fun row found v present => ?_⟩
    · rw [new] at gone; contradiction
    · cases new.symm.trans found
      simp only [Option.isNone_some,Bool.false_eq_true,if_false,Option.toList_none,List.append_nil] at member
      exact Nat.le_succ_of_le (kept e member)
    · intro v present; rw [log] at present; contradiction
    · intro e member late
      cases new.symm.trans found
      simp only [Option.isNone_some,Bool.false_eq_true,if_false,Option.toList_none,List.append_nil] at member
      have := kept e member
      have bumped : old.dropped.version = old.version+1 := rfl
      omega
    · rw [log] at present; contradiction
  | @committed row req before key is =>
    subst is key
    have present : (tr.tables.committed req row).row req.key = some (row.afterCommit req) := by
      rw [committedRow,if_pos rfl]
    rw [present]
    exact loggedCommitted logged before

theorem loggedTrace {tr : Trace} {k : Key} (logged : Logged tr.tables k tr.commits) (txs : List Transaction) :
    Logged (trace k tr txs).tables k (trace k tr txs).commits := by
  induction txs generalizing tr with
  | nil => exact logged
  | cons tx rest ih => exact ih (loggedStep logged tx)

theorem loggedEmpty (k : Key) : Logged empty k [] :=
  ⟨fun _ => ⟨rfl,fun _ => rfl⟩,fun _ found => absurd found (Option.some_ne_none _).symm,
    fun _ found => absurd found (Option.some_ne_none _).symm,fun _ found => absurd found (Option.some_ne_none _).symm⟩

def states (t : Tables) : List Transaction → List Tables
  | [] => []
  | tx :: rest => commitTransaction t tx :: states (commitTransaction t tx) rest

theorem commitsKept {tr : Trace} {k : Key} {txs : List Transaction}
    (present : ∀ u ∈ states tr.tables txs, (u.row k).isSome) {e : Written} (member : e ∈ tr.commits) :
    e ∈ (trace k tr txs).commits := by
  induction txs generalizing tr with
  | nil => exact member
  | cons tx rest ih =>
    have here := present _ List.mem_cons_self
    refine ih (fun u later => present u (List.mem_cons_of_mem _ later)) ?_
    have some_ : ((commitTransaction tr.tables tx).row k).isNone = false := by
      rw [← Option.not_isSome,here]
      rfl
    simp only [Trace.next,some_,Bool.false_eq_true,if_false]
    exact List.mem_append_left _ member

/- Nothing removes an entry after version f while k is live and within the window of f. -/
def Within (k : Key) (f : Nat) (t : Tables) : Prop :=
  ∃ row, t.row k = some row ∧ row.deleted = false ∧ row.version ≤ f+changeWindow

instance (k : Key) (f : Nat) : DecidablePred (Within k f) := fun t =>
  match found : t.row k with
  | none => isFalse (fun within => by
      obtain ⟨row,there,_⟩ := within
      rw [found] at there
      contradiction)
  | some row =>
      if inside : row.deleted = false ∧ row.version ≤ f+changeWindow then isTrue ⟨row,found,inside⟩
      else isFalse (fun within => by
        obtain ⟨other,there,rest⟩ := within
        cases found.symm.trans there
        exact inside rest)

theorem entryKept {t : Tables} {k : Key} {f v : Nat} {listed : List Int64} (late : f < v)
    (entry : t.change k v = some listed) {made : Option Written} {after : Tables} (did : LogStep k t after made)
    (within : Within k f after) (logged : ∀ row, t.row k = some row → v ≤ row.version) (present : (t.row k).isSome) :
    after.change k v = some listed := by
  obtain ⟨new,there,live,bound⟩ := within
  cases did with
  | same row log => exact (log v).trans entry
  | created before fresh version log =>
    rw [before] at present
    contradiction
  | gone row log =>
    rw [row] at there
    contradiction
  | dropped before row log =>
    cases row.symm.trans there
    contradiction
  | @committed row req before key is =>
    subst is
    have version : new.version = row.version+1 := by
      rw [committedRow,if_pos key.symm] at there
      cases there
      rfl
    have old := logged row before
    rw [committedChange,if_neg (by omega),if_neg (by omega),entry]

theorem entriesKept {tr : Trace} {k : Key} {f v : Nat} {listed : List Int64} (late : f < v)
    (entry : tr.tables.change k v = some listed) (logged : Logged tr.tables k tr.commits)
    (present : (tr.tables.row k).isSome) {txs : List Transaction}
    (within : ∀ u ∈ states tr.tables txs, Within k f u) : (trace k tr txs).tables.change k v = some listed := by
  induction txs generalizing tr with
  | nil => exact entry
  | cons tx rest ih =>
    have here := within _ List.mem_cons_self
    have current : ∀ row, tr.tables.row k = some row → v ≤ row.version :=
      fun row found => logged.current row found v (by rw [entry]; rfl)
    have next := entryKept late entry (logStep tr.tables k tx) here current present
    obtain ⟨row,there,_⟩ := here
    exact ih next (loggedStep logged tx) (by rw [show (tr.next k tx).tables.row k = some row from there]; rfl)
      (fun u later => within u (List.mem_cons_of_mem _ later))

theorem changesRan {k : Key} {f : Nat} {start : Tables} {first second third : List Transaction} {set : ChangeSet}
    (ran : readCommitted engine commitTransaction (changesBody k f) [first,second,third] start = .ok set)
    (complete : set.complete = true) (behind : f < set.toVersion) :
    ∃ t1 t2 t3, t1 = first.foldl commitTransaction start ∧ t2 = second.foldl commitTransaction t1 ∧
      t3 = third.foldl commitTransaction t2 ∧
      (∃ row, t1.row k = some row ∧ row.version = set.toVersion) ∧
      (∃ oldest listed, t2.change k oldest = some listed ∧ oldest ≤ f+1) ∧
      set.blocks = changedBlocks ((t3.log k).filter (fun entry => decide (f < entry.1))) := by
  refine ⟨_,_,_,rfl,rfl,rfl,?_⟩
  generalize is1 : first.foldl commitTransaction start = t1
  generalize is2 : second.foldl commitTransaction t1 = t2
  rw [changesBody,readCommittedAsk,is1] at ran
  have answer : engine.answer (.getDatabase k) t1 = t1.row k := rfl
  rw [answer] at ran
  cases found : t1.row k with
  | none => rw [found] at ran; contradiction
  | some row =>
    rw [found] at ran
    simp only at ran
    split at ran
    · contradiction
    split at ran
    · contradiction
    split at ran
    · cases ran
      rename_i current
      exact absurd current (Nat.ne_of_lt behind)
    rw [readCommittedAsk,is2] at ran
    have oldest : engine.answer (.oldestChange k) t2 = ((t2.log k).head?.map (fun entry => entry.1)).getD 0 := rfl
    rw [oldest] at ran
    split at ran
    · cases ran
      contradiction
    rename_i near
    cases ran
    refine ⟨⟨row,rfl,rfl⟩,?_,rfl⟩
    cases log : t2.log k with
    | nil =>
      rw [log] at near
      exact absurd (.inl rfl) near
    | cons entry rest =>
      rw [log] at near
      simp only [List.head?_cons,Option.map_some,Option.getD_some,not_or] at near
      refine ⟨entry.1,entry.2,(memLog t2 k _ _).mp ?_,Nat.le_of_not_lt near.2⟩
      rw [log]
      exact List.mem_cons_self

theorem listedBlock {t : Tables} {k : Key} {f v : Nat} {listed : List Int64} (late : f < v)
    (entry : t.change k v = some listed) {i : UInt64} (member : i.toInt64 ∈ listed) :
    i ∈ changedBlocks ((t.log k).filter (fun entry => decide (f < entry.1))) := by
  rw [changedBlocks,(List.perm_insertionSort _ _).mem_iff,List.mem_dedup,List.mem_flatMap]
  refine ⟨(v,listed),List.mem_filter.mpr ⟨(memLog t k v listed).mpr entry,by simpa using late⟩,?_⟩
  exact List.mem_map.mpr ⟨i.toInt64,member,UInt64.toUInt64_toInt64 i⟩

theorem changesCompleteWithin {k : Key} {f : Nat} {first second third : List Transaction} {set : ChangeSet}
    (ran : readCommitted engine commitTransaction (changesBody k f) [first,second,third] empty = .ok set)
    (complete : set.complete = true)
    (present : ∀ u ∈ states (first.foldl commitTransaction empty) second, (u.row k).isSome)
    (within : ∀ u ∈ states (second.foldl commitTransaction (first.foldl commitTransaction empty)) third, Within k f u) :
    ∀ e ∈ (trace k ⟨empty,[]⟩ first).commits, f < e.1 → e.1 ≤ set.toVersion → ∀ i ∈ e.2, i ∈ set.blocks := by
  intro e member late bound i written
  obtain ⟨t1,t2,t3,is1,is2,is3,⟨row,found,_⟩,⟨oldest,listed,logged,near⟩,blocks⟩ :=
    changesRan ran complete (Nat.lt_of_lt_of_le late bound)
  let tr1 := trace k ⟨empty,[]⟩ first
  let tr2 := trace k tr1 second
  have at1 : tr1.tables = t1 := (traceTables k _ first).trans is1.symm
  have at2 : tr2.tables = t2 := by rw [is2,← at1]; exact traceTables k tr1 second
  have at3 : (trace k tr2 third).tables = t3 := by rw [is3,← at2]; exact traceTables k tr2 third
  have log1 : Logged tr1.tables k tr1.commits := loggedTrace (loggedEmpty k) first
  have log2 : Logged tr2.tables k tr2.commits := loggedTrace log1 second
  have kept : e ∈ tr2.commits := by
    refine commitsKept ?_ member
    rw [show (trace k ⟨empty,[]⟩ first).tables = _ from at1,is1]
    exact present
  have some2 : ∃ row, tr2.tables.row k = some row := by
    cases there : tr2.tables.row k with
    | some row => exact ⟨row,rfl⟩
    | none =>
      have none_ := (log2.absent there).2 oldest
      rw [at2,logged] at none_
      contradiction
  obtain ⟨row2,there⟩ := some2
  obtain ⟨low,_,above,entries⟩ := log2.window row2 there
  have low2 : low < oldest := above oldest (by rw [at2,logged]; rfl)
  obtain ⟨line,entry,lists⟩ := entries e kept (by omega)
  have last := entriesKept late entry log2 (by rw [there]; rfl) (by rw [at2,is2,is1]; exact within)
  rw [at3] at last
  rw [blocks]
  exact listedBlock late last (lists i written)

def oneCommit : List Transaction :=
  [.op (.openDatabase (anOpen true [1] 0) [9]),.op (.commit (aCommit [1] 0 1 [aBlock 0]))]

theorem changesMissDeleted :
    readCommitted engine commitTransaction (changesBody aKey 0) [oneCommit,[],[.op (.delete ⟨aKey,true,0⟩)]] empty =
      .ok ⟨0,1,[],true⟩ ∧
    (trace aKey ⟨empty,[]⟩ oneCommit).commits = [(1,[0])] := by
  decide +kernel

def nextCommit (id : UInt8) (base : UInt64) : List Transaction := [.op (.commit (aCommit [id] base 2 [aBlock 1]))]

theorem changesCompleteOfCommits :
    readCommitted engine commitTransaction (changesBody aKey 0) [oneCommit,nextCommit 2 1,nextCommit 3 2] empty =
      .ok ⟨0,1,[0,1],true⟩ ∧
    ∀ e ∈ (trace aKey ⟨empty,[]⟩ oneCommit).commits, 0 < e.1 → e.1 ≤ 1 → ∀ i ∈ e.2, i ∈ [(0 : UInt64),1] := by
  have ran : readCommitted engine commitTransaction (changesBody aKey 0) [oneCommit,nextCommit 2 1,nextCommit 3 2]
      empty = .ok ⟨0,1,[0,1],true⟩ := by decide +kernel
  exact ⟨ran,changesCompleteWithin ran rfl (by decide +kernel) (by decide +kernel)⟩

end SqliteRemote.Postgres
