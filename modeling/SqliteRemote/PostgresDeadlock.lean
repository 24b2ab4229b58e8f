import SqliteRemote.Finishing
import SqliteRemote.LockOrder
import SqliteRemote.PostgresRowwise

/-! The row locks of the operations. All of them lock the slot before any database, and several rows of a
table in the order in which a statement comes to them. -/
namespace SqliteRemote.Postgres
open Rows StoreContract Programs RowLocking LockOrder
open Finishing (Goes runEnds goesRun)

def RowOrder.Before (order : RowOrder) : Lock → Lock → Prop
  | .slot a,.slot b => order.owners.lt a b
  | .slot _,.database _ => True
  | .database _,.slot _ => False
  | .database a,.database b => order.keys.lt a b

section
variable (order : RowOrder)

theorem beforeIrrefl (row : Lock) : ¬order.Before row row := by
  cases row with
  | database key => exact @lt_irrefl Key order.keys.toPreorder key
  | slot owner => exact @lt_irrefl String order.owners.toPreorder owner

theorem beforeTrans (a b c : Lock) (first : order.Before a b) (second : order.Before b c) : order.Before a c := by
  cases a <;> cases b <;> cases c <;> try contradiction
  · exact @lt_trans Key order.keys.toPreorder _ _ _ first second
  · trivial
  · trivial
  · exact @lt_trans String order.owners.toPreorder _ _ _ first second

end

section
variable {order : RowOrder} {α : Type} {locks : List (Lock × Mode)} {row : Lock}

theorem singleStays {needs : List (Lock × Mode)} (single : Single row needs)
    (before : Owned locks row ∨ Below order.Before locks row) :
    Owned (needs ++ locks) row ∨ Below order.Before (needs ++ locks) row := by
  rcases single with rfl | ⟨mode,alone,rfl⟩
  · exact before
  · cases mode with
    | share => exact absurd rfl alone
    | exclusive => exact .inl (.inl List.mem_cons_self)
    | remove => exact .inl (.inr List.mem_cons_self)
    | watch =>
      refine before.imp (fun owned => ?_) (fun below => List.forall_mem_cons.mpr ⟨.inl rfl,below⟩)
      exact owned.imp (List.mem_cons_of_mem _) (List.mem_cons_of_mem _)

theorem climbsSingle {β : Type} {q : Query β} {next : β → Program Query α} (single : ∀ t, Single row (q.needs t))
    (before : Owned locks row ∨ Below order.Before locks row)
    (rest : ∀ t, Climbs engine order.Before (q.needs t ++ locks) (next (q.answer t))) :
    Climbs engine order.Before locks (.ask q next) := by
  intro t
  refine ⟨?_,fun need member => ?_,rest t⟩
  · have length : (q.needs t).length ≤ 1 := by
      rcases single t with is | ⟨mode,_,is⟩ <;> simp [is]
    exact length
  · rcases single t with is | ⟨mode,_,is⟩
    · have needs : engine.needs q t = [] := is
      rw [needs] at member
      exact absurd member List.not_mem_nil
    · have needs : engine.needs q t = [(row,mode)] := is
      rw [needs] at member
      rw [List.mem_singleton.mp member]
      exact before

theorem climbsRead {β : Type} {q : Query β} {next : β → Program Query α} (reads : ∀ t, q.needs t = [])
    (rest : ∀ t, Climbs engine order.Before locks (next (q.answer t))) : Climbs engine order.Before locks (.ask q next) := by
  intro t
  have needs : engine.needs q t = [] := reads t
  rw [needs]
  exact ⟨Nat.zero_le 1,fun _ member => absurd member List.not_mem_nil,rest t⟩

theorem climbsConfined {body : Program Query α} (confined : Confined row body)
    (before : Owned locks row ∨ Below order.Before locks row) : Climbs engine order.Before locks body := by
  induction body generalizing locks with
  | done a => trivial
  | ask q next ih =>
    obtain ⟨_,single,rest⟩ := confined
    exact climbsSingle single before (fun t => ih _ (rest _) (singleStays (single t) before))

end

section
variable {order : RowOrder} {locks : List (Lock × Mode)}

theorem belowNone (row : Lock) : Below order.Before [] row := fun _ member => absurd member List.not_mem_nil

theorem climbsOpen (req : OpenRequest) (id : Bytes) : Climbs engine order.Before [] (rowwise order (openBody req id)) := by
  have database {locks : List (Lock × Mode)} (below : Below order.Before locks (.database req.key)) :
      Climbs engine order.Before locks (rowwise order (openDatabase req id)) := by
    have confined := worksConfined (worksOpen req id)
    rw [rowwiseConfined order confined]
    exact climbsConfined confined (.inr below)
  unfold openBody
  split
  · rw [rowwiseAsk order rfl]
    intro t
    have needs : engine.needs (.shareSlot req.owner) t = lockOwner req.owner .share (t.slots.lookup req.owner) := rfl
    have shared : ∀ need ∈ lockOwner req.owner .share (t.slots.lookup req.owner), need.1 = .slot req.owner := by
      unfold lockOwner
      split <;> simp
    rw [needs]
    refine ⟨?_,fun need _ => .inr (belowNone _),?_⟩
    · unfold lockOwner
      split <;> simp
    · have below : Below order.Before (lockOwner req.owner .share (t.slots.lookup req.owner) ++ []) (.database req.key) := by
        intro held member
        rw [List.append_nil] at member
        rw [shared held member]
        exact .inr trivial
      cases engine.answer (.shareSlot req.owner) t with
      | none => exact database below
      | some slot =>
        simp only
        split
        · trivial
        · exact database below
  · exact database (belowNone _)

theorem climbsEach {α β γ : Type} {statement : γ → Query β} {next : List β → Program Query α} {rows : List γ} (lock : γ → Lock)
    (single : ∀ row t, Single (lock row) ((statement row).needs t))
    (sorted : rows.Pairwise (fun a b => order.Before (lock a) (lock b)))
    (below : ∀ row ∈ rows, Below order.Before locks (lock row))
    (rest : ∀ seen more, (∀ held ∈ locks, held ∈ more) → Climbs engine order.Before more (next seen)) (seen : List β) :
    Climbs engine order.Before locks (eachRow statement next seen rows) := by
  induction rows generalizing locks seen with
  | nil => exact rest seen locks (fun _ mine => mine)
  | cons row rows ih =>
    obtain ⟨first,sorted⟩ := List.pairwise_cons.mp sorted
    refine climbsSingle (single row) (.inr (below row List.mem_cons_self)) (fun t => ih sorted (fun later member => ?_) ?_ _)
    · intro held locked
      rcases List.mem_append.mp locked with new | old
      · rcases single row t with is | ⟨mode,_,is⟩
        · rw [is] at new
          exact absurd new List.not_mem_nil
        · rw [is] at new
          rw [List.mem_singleton.mp new]
          exact .inr (first later member)
      · exact below later (List.mem_cons_of_mem _ member) held old
    · exact fun seen more within => rest seen more (fun held mine => within held (List.mem_append_right _ mine))

theorem sortedStrictly {α : Type} (order : LinearOrder α) {rows : List (Chosen α)} (once : (rows.map Chosen.id).Nodup) :
    (sortChosen order rows).Pairwise (fun a b => order.lt a.id b.id) := by
  have perm := permSortChosen order rows
  have total : Std.Total (fun a b : Chosen α => order.le a.id b.id) := ⟨fun a b => order.le_total a.id b.id⟩
  have trans : IsTrans (Chosen α) (fun a b => order.le a.id b.id) := ⟨fun a b c => order.le_trans a.id b.id c.id⟩
  have sorted := @List.pairwise_insertionSort (Chosen α) (fun a b => order.le a.id b.id)
    (fun a b => order.toDecidableLE a.id b.id) total trans rows
  refine (sorted.and (List.pairwise_map.mp ((perm.map Chosen.id).nodup_iff.mpr once))).imp ?_
  rintro a b ⟨le,differ⟩
  exact lt_of_le_of_ne le differ

theorem climbsPurge {α : Type} (subject : String) {next : List (Key × Bool) → Body α}
    (slots : ∀ held ∈ locks, ∃ owner, held.1 = .slot owner)
    (rest : ∀ gone more, (∀ held ∈ locks, held ∈ more) → Climbs engine order.Before more (rowwise order (next gone))) :
    Climbs engine order.Before locks (rowwise order (purgeSubject subject next)) := by
  have is : rowwise order (purgeSubject subject next) = .ask (.subjectRows subject) fun rows =>
    purgeEach (fun gone => rowwise order (next gone)) (sortChosen order.keys rows) := rfl
  rw [is]
  refine climbsRead (fun _ => rfl) (fun t => ?_)
  have once : (((Query.subjectRows subject).answer t).map Chosen.id).Nodup := subjectRowsOnce t subject
  refine climbsEach (fun row => .database row.id) (fun row u => ?_) (sortedStrictly order.keys once)
    (fun row _ held member => ?_) (fun seen more within => rest _ more within) []
  · rw [Query.needs,List.flatMap_singleton]
    exact singleRow row.id (by decide) _
  · obtain ⟨owner,is⟩ := slots held member
    rw [is]
    exact .inr trivial

def OnSlot (owner : String) (locks : List (Lock × Mode)) : Prop := ∀ held ∈ locks, held.1 = .slot owner

theorem onSlotMore {owner : String} {needs : List (Lock × Mode)} (single : Single (.slot owner) needs)
    (slots : OnSlot owner locks) : OnSlot owner (needs ++ locks) := by
  intro held member
  rcases List.mem_append.mp member with new | old
  · rcases single with rfl | ⟨mode,_,rfl⟩
    · exact absurd new List.not_mem_nil
    · rw [List.mem_singleton.mp new]
  · exact slots held old

theorem lockedOwner {owner : String} {t : Tables} {slot : Slot} (found : (Query.lockSlot owner).answer t = some slot) :
    Owned ((Query.lockSlot owner).needs t ++ locks) (.slot owner) := by
  have there : t.slots.lookup owner = some slot := found
  rw [Query.needs,there]
  exact .inl List.mem_cons_self

theorem climbsClaimRow (req : ClaimRequest) (slot : Slot) (owned : Owned locks (.slot req.owner))
    (slots : OnSlot req.owner locks) : Climbs engine order.Before locks (rowwise order (claimRow req slot)) := by
  unfold claimRow
  split
  · trivial
  · refine climbsPurge _ (fun held member => ⟨_,slots held member⟩) (fun gone more within => ?_)
    have still : Owned more (.slot req.owner) := owned.imp (within _) (within _)
    have confined := confinedUpdate req slot gone
    rw [rowwiseConfined order confined]
    exact climbsConfined confined (.inl still)

theorem climbsClaim (req : ClaimRequest) : Climbs engine order.Before [] (rowwise order (claimBody req)) := by
  have locks (t : Tables) : Single (.slot req.owner) ((Query.lockSlot req.owner).needs t) := singleOwner _ (by decide) _
  have inserts (t : Tables) : Single (.slot req.owner)
      ((Query.insertSlot req.owner ⟨req.subject,"",timestamp req.now⟩).needs t) := singleInsert _ _
  have start : Owned [] (Lock.slot req.owner) ∨ Below order.Before [] (Lock.slot req.owner) := .inr (belowNone _)
  have onStart : OnSlot req.owner [] := fun _ member => absurd member List.not_mem_nil
  refine climbsSingle locks start (fun t => ?_)
  have locked := singleStays (locks t) start
  have onLocked := onSlotMore (locks t) onStart
  cases found : (Query.lockSlot req.owner).answer t with
  | some slot => exact climbsClaimRow req slot (lockedOwner found) onLocked
  | none =>
    refine climbsSingle inserts locked (fun u => ?_)
    have inserted := singleStays (inserts u) locked
    have onInserted := onSlotMore (inserts u) onLocked
    cases (Query.insertSlot req.owner ⟨req.subject,"",timestamp req.now⟩).answer u with
    | some slot => trivial
    | none =>
      refine climbsSingle locks inserted (fun v => ?_)
      cases again : (Query.lockSlot req.owner).answer v with
      | none => trivial
      | some slot => exact climbsClaimRow req slot (lockedOwner again) (onSlotMore (locks v) onInserted)

theorem climbsDeleteSlot (owner subject : String) :
    Climbs engine order.Before [] (rowwise order (deleteSlotBody owner subject)) := by
  have locks (t : Tables) : Single (.slot owner) ((Query.lockSlot owner).needs t) := singleOwner _ (by decide) _
  have drops (t : Tables) : Single (.slot owner) ((Query.deleteSlotOf owner).needs t) := singleOwner _ (by decide) _
  have purge {locks : List (Lock × Mode)} (slots : OnSlot owner locks) : Climbs engine order.Before locks
      (rowwise order (purgeSubject subject fun purged => (.done (.ok (keysOf purged)) : Body (List Key)))) :=
    climbsPurge subject (fun held member => ⟨_,slots held member⟩) (fun _ _ _ => trivial)
  have onStart : OnSlot owner [] := fun _ member => absurd member List.not_mem_nil
  refine climbsSingle locks (.inr (belowNone _)) (fun t => ?_)
  have onLocked := onSlotMore (locks t) onStart
  cases found : (Query.lockSlot owner).answer t with
  | none => exact purge onLocked
  | some slot =>
    simp only
    split
    · trivial
    · exact climbsSingle drops (.inl (lockedOwner found)) (fun u => purge (onSlotMore (drops u) onLocked))

end

section
variable {order : RowOrder}

theorem climbsTx {β : Type} (reply : β → Reply) {body : Body β} (climbs : Climbs engine order.Before [] (rowwise order body)) :
    ClimbsAll engine order.Before (rowwiseScript order (inTx reply body)) := ⟨climbs,fun _ => trivial⟩

theorem climbsAlone {β : Type} {row : Lock} {body : Body β} (confined : Confined row body) :
    Climbs engine order.Before [] (rowwise order body) := by
  rw [rowwiseConfined order confined]
  exact climbsConfined confined (.inr (belowNone _))

theorem climbsAuto {β : Type} (row : Lock) {q : Query β} {next : β → Operation} (one : q.many = false)
    (single : ∀ t, Single row (q.needs t))
    (rest : ∀ t, ClimbsAll engine order.Before (rowwiseScript order (next (q.answer t)))) :
    ClimbsAll engine order.Before (rowwiseScript order (.ask (.auto q) next)) := by
  rw [rowwiseAuto order one]
  intro t
  refine ⟨?_,rest t⟩
  have length : (q.needs t).length ≤ 1 := by
    rcases single t with is | ⟨mode,_,is⟩ <;> simp [is]
  exact length

theorem climbsWhyNoRow (key : Key) (rows : Nat) : ClimbsAll engine order.Before (rowwiseScript order (whyNoRow key rows)) := by
  unfold whyNoRow
  split
  · trivial
  · exact climbsAuto (.database key) rfl (fun _ => .inl rfl) (fun _ => trivial)

theorem climbsRelease (cutoff : Time) (removed : List Key) :
    ClimbsAll engine order.Before (rowwiseScript order (sweepEnd cutoff removed none)) := by
  refine climbsAuto (.slot "") rfl (fun _ => .inl rfl) (fun t => ?_)
  rw [releaseChosen,rowwiseRelease]
  refine ⟨?_,fun r => ?_⟩
  · rw [releaseEach]
    refine climbsEach (fun owner => .slot owner.id) (fun owner u => ?_) (sortedStrictly order.owners (unusedOnce t cutoff))
      (fun _ _ => belowNone _) (fun _ _ _ => ?_) []
    · rw [Query.needs,List.flatMap_singleton]
      exact singleOwner owner.id (by decide) _
    · trivial
  · cases r <;> trivial

theorem climbsSweep (cutoff : Time) (keys removed : List Key) :
    ClimbsAll engine order.Before (rowwiseScript order (sweepAll cutoff (sweepEnd cutoff) removed keys)) := by
  induction keys generalizing removed with
  | nil => exact climbsRelease cutoff removed
  | cons key rest ih =>
    rw [sweepCons]
    refine ⟨climbsAlone (confinedSweep cutoff key),fun r => ?_⟩
    rcases r with f | _ | _
    · trivial
    · exact ih removed
    · exact ih (removed ++ [key])

theorem climbsScript (op : Op) : ClimbsAll engine order.Before (rowwiseScript order (script op)) := by
  cases op with
  | openDatabase req id => exact climbsTx .opened (climbsOpen req id)
  | fetch key version first count =>
    exact ⟨climbsAlone (confinedFetch (.database key) key version first count),fun _ => trivial⟩
  | commit req => exact climbsTx .version (climbsAlone (worksConfined (worksCommit req)))
  | changes key fromVersion => exact climbsTx .changeSet (climbsAlone (confinedChanges (.database key) key fromVersion))
  | renew key epoch now ttl =>
    exact climbsAuto (.database key) rfl (fun _ => singleRow key (by decide) _) (fun _ => climbsWhyNoRow key _)
  | release key epoch =>
    exact climbsAuto (.database key) rfl (fun _ => singleRow key (by decide) _) (fun _ => climbsWhyNoRow key _)
  | delete req => exact climbsTx .deleted (climbsAlone (worksConfined (worksDelete req)))
  | deleteUnused cutoff limit tie =>
    rw [sweepScript]
    exact climbsAuto (.slot "") rfl (fun _ => .inl rfl) (fun t => climbsSweep cutoff _ [])
  | getSlot owner => exact climbsAuto (.slot owner) rfl (fun _ => .inl rfl) (fun _ => trivial)
  | claimSlot req => exact climbsTx .claimed (climbsClaim req)
  | setSlotLabel owner subject label =>
    refine climbsAuto (.slot owner) rfl (fun _ => singleOwner owner (by decide) _) (fun t => ?_)
    cases (Query.setSlotLabel owner subject label).answer t with
    | some slot => trivial
    | none => exact climbsAuto (.slot owner) rfl (fun _ => .inl rfl) (fun _ => trivial)
  | deleteSlot owner subject => exact climbsTx .purged (climbsDeleteSlot owner subject)

end

theorem climbingCalls (order : RowOrder) {calls : Nat → Op} {start : Tables} {events : List (Event Result)} {w : Calls}
    (run : Run engine (fun i => rowwiseScript order (script (calls i))) start events w) {i : Nat} {call : Call}
    (at_ : w.calls i = some call) : Climbing engine order.Before call :=
  climbingRun (fun i => climbsScript (calls i)) run i call at_

theorem neverDeadlocked (order : RowOrder) {calls : Nat → Op} {start : Tables} {events : List (Event Result)} {w : Calls}
    (run : Run engine (fun i => rowwiseScript order (script (calls i))) start events w) : ¬Deadlocked engine w :=
  undeadlocked (beforeIrrefl order) (beforeTrans order) (compatibleRun run) (fun _ _ => climbingCalls order run)

/- A commit has locked alice's database, a claim that replaces alice has locked the slot and comes to
the database, and an Open comes to the slot. -/
def queueing : Nat → Op
  | 0 => .commit (aCommit [1] 0 0 [])
  | 1 => .claimSlot ⟨"owner","bob",2000⟩
  | _ => .openDatabase (anOpen true [1] 20000) [8]

def byName : RowOrder where
  keys := LinearOrder.lift' (fun key : Key => toLex (key.subject,key.dbID)) (by
    rintro ⟨subject,dbID⟩ ⟨other,name⟩ same
    cases same
    rfl)
  owners := inferInstance

structure Locking where
  held : List (Lock × Mode)
  needed : List (Lock × Mode)
  deriving DecidableEq

def locking (w : Calls) (calls : List Nat) : List (Option Locking) :=
  calls.map (fun i => (w.calls i).map (fun call => ⟨call.locks,wants engine w.committed call⟩))

theorem neverDeadlockedQueue : ∃ events w,
    Run engine (fun i => rowwiseScript byName (script (queueing i))) aliceHolds events w ∧
    Waits engine w 2 1 ∧ Waits engine w 1 0 ∧ ¬Deadlocked engine w := by
  have ran : (schedule engine (fun i => rowwiseScript byName (script (queueing i))) [0,1,2] [0,0,0,1,1,1,1,2,2]
      ⟨aliceHolds,fun _ => none⟩).map (fun out => locking out.2 [0,1,2]) =
      some [some ⟨[(.database aKey,.exclusive)],[(.database aKey,.exclusive)]⟩,
        some ⟨[(.slot "owner",.exclusive)],[(.database aKey,.remove)]⟩,some ⟨[],[(.slot "owner",.share)]⟩] := by
    decide +kernel
  obtain ⟨events,w,run,shown⟩ := scheduledShown (fun _ w => locking w [0,1,2]) (by decide) ran
  simp only [locking,List.map_cons,List.map_nil,List.cons.injEq,Option.map_eq_some_iff,Locking.mk.injEq,and_true] at shown
  obtain ⟨⟨first,at0,locks0,_⟩,⟨second,at1,locks1,wants1⟩,third,at2,_,wants2⟩ := shown
  refine ⟨events,w,run,⟨.slot "owner",by decide,third,.share,at2,?_,second,.exclusive,at1,?_,rfl⟩,
    ⟨.database aKey,by decide,second,.remove,at1,?_,first,.exclusive,at0,?_,rfl⟩,neverDeadlocked byName run⟩
  · rw [wants2]
    exact List.mem_cons_self
  · rw [locks1]
    exact List.mem_cons_self
  · rw [wants1]
    exact List.mem_cons_self
  · rw [locks0]
    exact List.mem_cons_self

theorem neverStuck (order : RowOrder) {calls : Nat → Op} {start : Tables} {events : List (Event Result)} {w : Calls}
    (run : Run engine (fun i => rowwiseScript order (script (calls i))) start events w) {i : Nat} {call : Call}
    (at_ : w.calls i = some call) (unfinished : ∀ r, call ≠ .finished r) :
    ∃ e after, Step engine (fun i => rowwiseScript order (script (calls i))) w e after ∧ (w.calls e.caller).isSome :=
  someGoesOn run (undeadlocked (beforeIrrefl order) (beforeTrans order) (compatibleRun run)
    (fun _ _ => climbingCalls order run)) at_ unfinished

/- Whatever calls are running, and however they are scheduled, they have only finitely many steps left
between them, and when none of them can take a step they have all returned. -/
theorem everyCallReturns (order : RowOrder) {calls : Nat → Op} {start : Tables} {events : List (Event Result)} {w : Calls}
    (run : Run engine (fun i => rowwiseScript order (script (calls i))) start events w) :
    (¬∃ worlds : Nat → Calls, worlds 0 = w ∧
      ∀ n, Goes engine (fun i => rowwiseScript order (script (calls i))) (worlds n) (worlds (n+1))) ∧
    ∀ last, Relation.ReflTransGen (Goes engine fun i => rowwiseScript order (script (calls i))) w last →
      (∀ more, ¬Goes engine (fun i => rowwiseScript order (script (calls i))) last more) →
      ∀ i call, last.calls i = some call → ∃ r, call = .finished r := by
  refine ⟨runEnds run,fun last goes stopped i call at_ => ?_⟩
  obtain ⟨more,reached⟩ := goesRun run goes
  by_contra unfinished
  obtain ⟨e,after,step,made⟩ := neverStuck order reached at_ (fun r is => unfinished ⟨r,is⟩)
  exact stopped after ⟨e,step,made⟩

theorem everyCallReturnsQueue : ∃ events w,
    Run engine (fun i => rowwiseScript byName (script (queueing i))) aliceHolds events w ∧
    locking w [2] = [some ⟨[],[(.slot "owner",.share)]⟩] ∧
    ∀ last, Relation.ReflTransGen (Goes engine fun i => rowwiseScript byName (script (queueing i))) w last →
      (∀ more, ¬Goes engine (fun i => rowwiseScript byName (script (queueing i))) last more) →
      ∀ i call, last.calls i = some call → ∃ r, call = .finished r := by
  have ran : (schedule engine (fun i => rowwiseScript byName (script (queueing i))) [0,1,2] [0,0,0,1,1,1,1,2,2]
      ⟨aliceHolds,fun _ => none⟩).map (fun out => locking out.2 [2]) = some [some ⟨[],[(.slot "owner",.share)]⟩] := by
    decide +kernel
  obtain ⟨events,w,run,shown⟩ := scheduledShown (fun _ w => locking w [2]) (by decide) ran
  exact ⟨events,w,run,shown,(everyCallReturns byName run).2⟩

end SqliteRemote.Postgres
