import SqliteRemote.ExpectedRows
import SqliteRemote.PostgresSerial
import SqliteRemote.PostgresRelease

/-! Calls of any kind whose statements interleave, and pgx.ErrNoRows. Three statements pass it on for a
row that the call has seen and not locked: the LockDatabase of an Open and the LockSlot of a claim that
lost the race to insert the row, and the LockDatabase for a candidate of DeleteUnused. As long as nobody
deletes such a row in between, no call returns it. -/
namespace SqliteRemote.Postgres
open Rows StoreContract Programs RowLocking Serializing ExpectedRows

def Tables.Has (t : Tables) : Lock → Prop
  | .database key => (t.row key).isSome
  | .slot owner => (t.slots.lookup owner).isSome

def Write.Deletes : Write → Lock → Prop
  | .purge key,row => row = .database key
  | .dropSlot owner,row => row = .slot owner
  | _,_ => False

def Write.Makes : Write → Lock → Prop
  | .database key _,row => row = .database key
  | .slot owner _,row => row = .slot owner
  | _,_ => False

theorem hasApply (x : Write) (row : Lock) (t : Tables) :
    (x.apply t).Has row ↔ x.Makes row ∨ ¬x.Deletes row ∧ t.Has row := by
  cases row with
  | database key =>
    have is := rowApply t key x
    rw [Tables.Has,is]
    cases x with
    | database other new => by_cases same : key = other <;> simp [Write.Makes,Write.Deletes,Tables.Has,same]
    | purge other => by_cases same : key = other <;> simp [Write.Makes,Write.Deletes,Tables.Has,same]
    | _ => simp [Write.Makes,Write.Deletes,Tables.Has]
  | slot owner =>
    have is := slotApply t owner x
    rw [Tables.Has,is]
    cases x with
    | slot other new => by_cases same : owner = other <;> simp [Write.Makes,Write.Deletes,Tables.Has,same]
    | dropSlot other => by_cases same : owner = other <;> simp [Write.Makes,Write.Deletes,Tables.Has,same]
    | _ => simp [Write.Makes,Write.Deletes,Tables.Has]

theorem keepsRow {x : Write} {row : Lock} {t : Tables} (spared : ¬x.Deletes row) (there : t.Has row) :
    (x.apply t).Has row := (hasApply x row t).mpr (.inr ⟨spared,there⟩)

theorem madeRow {x : Write} {row : Lock} {t : Tables} (makes : x.Makes row) : (engine.applyAll [x] t).Has row :=
  (hasApply x row t).mpr (.inl makes)

theorem growsRow {x : Write} {row : Lock} {t u : Tables} (more : t.Has row → u.Has row) (there : (x.apply t).Has row) :
    (x.apply u).Has row :=
  (hasApply x row u).mpr (((hasApply x row t).mp there).imp_right (fun kept => ⟨kept.1,more kept.2⟩))

def presence : Presence engine := ⟨Tables.Has,Write.Deletes,keepsRow,growsRow⟩

-- The row without which the statement, one that locks it, ends the transaction with pgx.ErrNoRows.
def Awaits {β : Type} : Body β → Lock → Prop
  | .ask (.lockDatabase key) next,row => row = .database key ∧ next none = .done (.error .noRows)
  | .ask (.lockSlot owner) next,row => row = .slot owner ∧ next none = .done (.error .noRows)
  | _,_ => False

def Query.deleting {α : Type} : Query α → Bool
  | .deleteSlotOf _ => true
  | .purgeRows _ => true
  | .purgeDatabase _ => true
  | .releaseSlots _ => true
  | _ => false

theorem sparesRows {α : Type} {q : Query α} (quiet : q.deleting = false) (t : Tables) :
    ∀ x ∈ q.writes t, ∀ row, ¬x.Deletes row := by
  have unwritten (x : Write) (isDelete : (∃ key, x = .purge key) ∨ ∃ owner, x = .dropSlot owner) : x ∉ q.writes t := by
    rcases isDelete with ⟨key,rfl⟩ | ⟨owner,rfl⟩
    all_goals
      cases q
      all_goals try contradiction
      all_goals simp only [Query.writes,onRow]
      all_goals try split
      all_goals simp
  intro x member row deletes
  cases x with
  | purge key => exact unwritten _ (.inl ⟨key,rfl⟩) member
  | dropSlot owner => exact unwritten _ (.inr ⟨owner,rfl⟩) member
  | _ => exact deletes

theorem keepsAfter {α : Type} {q : Query α} (quiet : q.deleting = false) {t : Tables} {row : Lock} (there : t.Has row) :
    (engine.after q t).Has row :=
  keepsAll presence (fun x member => sparesRows quiet t x member row) there

section
variable {β : Type} (ok : Except Failure β → Prop) (needed : Lock → Prop)

/- The rest of a transaction, which holds some rows and does not depend on others. -/
def Fine (held : Lock → Prop) (body : Body β) : Prop :=
  Sure presence Awaits ok needed held body ∧ ∀ row, ¬Awaits body row

variable {ok needed} {held : Lock → Prop}

theorem fineDone {r : Except Failure β} (good : ok r) : Fine ok needed held (.done r) := ⟨good,fun _ waits => waits⟩

theorem fineAsk {α : Type} {q : Query α} {next : α → Body β} (quiet : q.deleting = false)
    (unlocking : ∀ row, ¬Awaits (.ask q next) row)
    (rest : ∀ t, (∀ row, held row → t.Has row) → Fine ok needed held (next (q.answer t))) :
    Fine ok needed held (.ask q next) := by
  refine ⟨fun t there _ => ?_,unlocking⟩
  obtain ⟨sure,unawaited⟩ := rest t there
  refine ⟨fun x member row deletes => absurd deletes (sparesRows quiet t x member row),
    fun row waits => absurd waits (unawaited row),sureMore (fun row mine => ⟨.inl mine,?_⟩) sure⟩
  exact keepsAfter quiet (there row mine)

/- A statement that deletes rows locks them; the call need not hold them any longer. -/
theorem fineDelete {α : Type} {q : Query α} {next : α → Body β} {kept : Lock → Prop}
    (unlocking : ∀ row, ¬Awaits (.ask q next) row) (within : ∀ row, kept row → held row)
    (locks : ∀ t, (∀ row, held row → t.Has row) → ∀ x ∈ q.writes t, ∀ row, x.Deletes row →
      (row,Mode.remove) ∈ q.needs t ∧ ¬needed row ∧ ¬kept row)
    (rest : ∀ a, Fine ok needed kept (next a)) : Fine ok needed held (.ask q next) := by
  refine ⟨fun t there _ => ⟨fun x member row deletes => ?_,fun row waits => absurd waits ((rest _).2 row),
    sureMore (fun row mine => ⟨.inl (within row mine),?_⟩) (rest _).1⟩,unlocking⟩
  · obtain ⟨locked,spared,_⟩ := locks t there x member row deletes
    exact ⟨locked,spared⟩
  · have spares := fun x member deletes => (locks t there x member row deletes).2.2 mine
    exact keepsAll presence spares (there row (within row mine))

theorem fineMust {α : Type} {q : Query (Option α)} {next : α → Body β} {mine : Lock} (quiet : q.deleting = false)
    (unlocking : ∀ row, ¬Awaits (must q next) row) (found : ∀ t, t.Has mine → (q.answer t).isSome)
    (rest : ∀ a, Fine ok needed (· = mine) (next a)) : Fine ok needed (· = mine) (must q next) := by
  refine fineAsk quiet unlocking (fun t there => ?_)
  obtain ⟨a,is⟩ := Option.isSome_iff_exists.mp (found t (there mine rfl))
  rw [is]
  exact rest a

def passOn {α : Type} (rest : α → Body β) : Option α → Body β
  | none => .done (.error .noRows)
  | some a => rest a

theorem fineMustRow {α : Type} {q : Query (Option α)} {next : α → Body β} {key : Key} {f : Row → α}
    (quiet : q.deleting = false) (unlocking : ∀ row, ¬Awaits (must q next) row) (answers : ∀ t, q.answer t = (t.row key).map f)
    (rest : ∀ a, Fine ok needed (· = .database key) (next a)) : Fine ok needed (· = .database key) (must q next) := by
  refine fineMust quiet unlocking (fun t there => ?_) rest
  rw [answers,Option.isSome_map]
  exact there

structure Locks {α : Type} (q : Query (Option α)) (mine : Lock) : Prop where
  quiet : q.deleting = false
  found : ∀ t, t.Has mine ↔ (q.answer t).isSome
  locks : ∀ t, t.Has mine → (mine,Mode.exclusive) ∈ q.needs t
  awaits : ∀ {β : Type} (next : Option α → Body β) row,
    Awaits (.ask q next) row ↔ row = mine ∧ next none = .done (.error .noRows)

theorem locksDatabase (key : Key) : Locks (.lockDatabase key) (.database key) := by
  refine ⟨rfl,fun t => Iff.rfl,fun t there => ?_,fun _ _ => Iff.rfl⟩
  have present : (t.row key).isSome = true := there
  rw [Query.needs,lockRow,if_pos present]
  exact List.mem_cons_self

theorem locksSlot (owner : String) : Locks (.lockSlot owner) (.slot owner) := by
  refine ⟨rfl,fun t => Iff.rfl,fun t there => ?_,fun _ _ => Iff.rfl⟩
  have present : (t.slots.lookup owner).isSome = true := there
  rw [Query.needs,lockOwner,if_pos present]
  exact List.mem_cons_self

structure Inserts {α : Type} (q : Query (Option α)) (mine : Lock) (made : α) : Prop where
  quiet : q.deleting = false
  lost : ∀ t, t.Has mine → q.answer t = none
  makes : ∀ t, ¬t.Has mine → q.answer t = some made ∧ (mine,Mode.exclusive) ∈ q.needs t ∧
    ∃ x, q.writes t = [x] ∧ x.Makes mine

theorem insertsDatabase (key : Key) (pageSize : Int32) :
    Inserts (.createDatabase key pageSize) (.database key) (newRow pageSize) := by
  refine ⟨rfl,fun t there => if_pos there,fun t absent => ⟨if_neg absent,?_,_,if_neg absent,rfl⟩⟩
  have none_ : (t.row key).isSome = false := Bool.eq_false_iff.mpr absent
  rw [Query.needs,none_]
  exact List.mem_cons_self

theorem insertsSlot (owner : String) (slot : Slot) : Inserts (.insertSlot owner slot) (.slot owner) slot := by
  refine ⟨rfl,fun t there => if_pos there,fun t absent => ⟨if_neg absent,?_,_,if_neg absent,rfl⟩⟩
  have none_ : (t.slots.lookup owner).isSome = false := Bool.eq_false_iff.mpr absent
  rw [Query.needs,none_]
  exact List.mem_cons_self

section
variable {α : Type} {q : Query (Option α)} {mine : Lock} (locks : Locks q mine)
include locks

theorem sureLocked (next : Option α → Body β) {t : Tables} (there : t.Has mine)
    (found : ∀ a, Fine ok needed (· = mine) (next (some a))) :
    (∀ row, Awaits (next (q.answer t)) row → (engine.after q t).Has row) ∧
    Sure presence Awaits ok needed (fun row => (held row ∨ (row,Mode.exclusive) ∈ engine.needs q t) ∧
      presence.has (engine.after q t) row) (next (q.answer t)) := by
  obtain ⟨a,is⟩ := Option.isSome_iff_exists.mp ((locks.found t).mp there)
  rw [is]
  refine ⟨fun row waits => absurd waits ((found a).2 row),sureMore (fun row same => ?_) (found a).1⟩
  subst same
  exact ⟨.inr (locks.locks t there),keepsAfter locks.quiet there⟩

theorem fineLock {next : Option α → Body β} (found : ∀ a, Fine ok needed (· = mine) (next (some a)))
    (missing : Fine ok needed held (next none)) (goesOn : next none ≠ .done (.error .noRows)) :
    Fine ok needed held (.ask q next) := by
  refine ⟨fun t there _ => ⟨fun x member row deletes => absurd deletes (sparesRows locks.quiet t x member row),?_⟩,
    fun row waits => goesOn ((locks.awaits next row).mp waits).2⟩
  by_cases present : t.Has mine
  · exact sureLocked locks next present found
  · have none_ : q.answer t = none := by
      cases is : q.answer t with
      | none => rfl
      | some a => exact absurd ((locks.found t).mpr (by rw [is]; rfl)) present
    have is : engine.answer q t = none := none_
    rw [is]
    refine ⟨fun row waits => absurd waits (missing.2 row),sureMore (fun row mine => ⟨.inl mine,?_⟩) missing.1⟩
    exact keepsAfter locks.quiet (there row mine)

omit locks in
theorem mustAsk (rest : α → Body β) : must q rest = .ask q (passOn rest) := by
  refine congrArg (Program.ask q) (funext fun found => ?_)
  cases found <;> rfl

theorem sureRelock {rest : α → Body β} (found : ∀ a, Fine ok needed (· = mine) (rest a)) :
    Sure presence Awaits ok needed held (must q rest) := by
  rw [mustAsk]
  intro t there awaited
  have present : t.Has mine := awaited mine ((locks.awaits _ _).mpr ⟨rfl,rfl⟩)
  exact ⟨fun x member row deletes => absurd deletes (sparesRows locks.quiet t x member row),
    sureLocked locks (passOn rest) present found⟩

theorem fineInsert {insert : Query (Option α)} {made : α} {next : Option α → Body β} {rest : α → Body β}
    (inserts : Inserts insert mine made) (unlocking : ∀ row, ¬Awaits (.ask insert next) row)
    (first : Fine ok needed (· = mine) (next (some made))) (second : next none = must q rest)
    (found : ∀ a, Fine ok needed (· = mine) (rest a)) : Fine ok needed held (.ask insert next) := by
  refine ⟨fun t there _ => ⟨fun x member row deletes => absurd deletes (sparesRows inserts.quiet t x member row),?_⟩,unlocking⟩
  by_cases present : t.Has mine
  · have lost : engine.answer insert t = none := inserts.lost t present
    rw [lost,second]
    refine ⟨fun row waits => ?_,sureRelock locks found⟩
    obtain ⟨same,_⟩ := (locks.awaits _ row).mp waits
    rw [same]
    exact keepsAfter inserts.quiet present
  · obtain ⟨answer,needs,x,writes,makes⟩ := inserts.makes t present
    have is : engine.answer insert t = some made := answer
    rw [is]
    refine ⟨fun row waits => absurd waits (first.2 row),sureMore (fun row same => ?_) first.1⟩
    subst same
    refine ⟨.inr needs,?_⟩
    rw [afterWrites,writes]
    exact madeRow makes

end
end

section
variable {needed held : Lock → Prop}

def Named {β : Type} (r : Except Failure β) : Prop := r ≠ .error .noRows

theorem namedOk {β : Type} (b : β) : Named (.ok b) := by
  intro same
  contradiction

theorem namedFail {β : Type} (e : Error) : Fine Named needed held (fail e : Body β) :=
  fineDone (by intro same; cases same)

section
variable (req : OpenRequest) (id : Bytes)

theorem fineResumeOrGrant (row : Row) : Fine Named needed (· = .database req.key) (resumeOrGrant req id row) := by
  unfold resumeOrGrant
  split
  · split
    · exact namedFail _
    · exact fineAsk rfl (fun _ waits => waits) (fun _ _ => fineDone (namedOk _))
  · simp only [grantLease]
    split
    · exact namedFail _
    · exact fineMustRow rfl (fun _ waits => waits) (fun _ => rfl) (fun epoch => fineDone (namedOk _))

theorem fineOpenRow (row : Row) : Fine Named needed (· = .database req.key) (openRow req id row) := by
  unfold openRow reviveDatabase
  repeat' split
  all_goals try exact namedFail _
  · exact fineMustRow rfl (fun _ waits => waits) (fun _ => rfl) (fineResumeOrGrant req id)
  · exact fineResumeOrGrant req id row

theorem fineCreate (held : Lock → Prop) : Fine Named needed held (createDatabase req (openRow req id)) := by
  unfold createDatabase
  split
  · exact namedFail _
  split
  · exact namedFail _
  exact fineInsert (locksDatabase req.key) (insertsDatabase req.key req.pageSize.toInt32) (fun _ waits => waits)
    (fineOpenRow req id _) rfl (fineOpenRow req id)

theorem fineOpen : Fine Named needed held (openBody req id) := by
  have goesOn : createDatabase req (openRow req id) ≠ .done (.error .noRows) := by
    unfold createDatabase fail
    repeat' split
    all_goals
      intro same
      cases same
  have database : Fine Named needed held (openDatabase req id) :=
    fineLock (locksDatabase req.key) (fineOpenRow req id) (fineCreate req id held) goesOn
  unfold openBody
  split
  · refine fineAsk rfl (fun _ waits => waits) (fun t _ => ?_)
    cases found : (Query.shareSlot req.owner).answer t with
    | none => exact database
    | some slot =>
      simp only
      split
      · exact namedFail _
      · exact database
  · exact database

end

theorem purgeLocked {rows : List (Chosen Key)} {t : Tables} {x : Write} {row : Lock}
    (member : x ∈ (Query.purgeRows rows).writes t) (deletes : x.Deletes row) :
    (row,Mode.remove) ∈ (Query.purgeRows rows).needs t ∧ ∃ key, row = .database key := by
  obtain ⟨_,listed,rfl⟩ := List.mem_map.mp member
  obtain ⟨chosen,among,rfl⟩ := List.mem_map.mp listed
  obtain ⟨named,there⟩ := List.mem_filter.mp among
  cases deletes
  refine ⟨List.mem_flatMap.mpr ⟨chosen,named,?_⟩,chosen.id,rfl⟩
  rw [lockRow,if_pos there]
  exact List.mem_cons_self

theorem finePurge {β : Type} {ok : Except Failure β → Prop} (subject : String) (spare : ∀ row, ¬needed row)
    (elsewhere : ∀ key, ¬held (.database key)) {next : List (Key × Bool) → Body β}
    (rest : ∀ purged, Fine ok needed held (next purged)) : Fine ok needed held (purgeSubject subject next) := by
  refine fineAsk rfl (fun _ waits => waits) (fun _ _ => fineDelete (fun _ waits => waits) (fun row mine => mine)
    (fun t _ x member row deletes => ?_) rest)
  obtain ⟨locked,key,rfl⟩ := purgeLocked member deletes
  exact ⟨locked,spare _,elsewhere key⟩

theorem fineClaimRow (req : ClaimRequest) (spare : ∀ row, ¬needed row) (slot : Slot) :
    Fine Named needed (· = .slot req.owner) (claimRow req slot) := by
  unfold claimRow
  split
  · exact fineDone (namedOk _)
  · refine finePurge _ spare (fun _ same => by cases same) (fun purged => ?_)
    refine fineMust rfl (fun _ waits => waits) (fun t there => ?_) (fun _ => fineDone (namedOk _))
    rw [Query.answer,Option.isSome_map]
    exact there

theorem fineClaim (req : ClaimRequest) (spare : ∀ row, ¬needed row) : Fine Named needed held (claimBody req) := by
  refine fineLock (locksSlot req.owner) (fineClaimRow req spare) ?_ (by intro same; cases same)
  exact fineInsert (locksSlot req.owner) (insertsSlot req.owner _) (fun _ waits => waits) (fineDone (namedOk _)) rfl
    (fineClaimRow req spare)

theorem fineDeleteSlot (owner subject : String) (spare : ∀ row, ¬needed row) (nothing : ∀ row, ¬held row) :
    Fine Named needed held (deleteSlotBody owner subject) := by
  have purge : Fine Named needed held (purgeSubject subject fun purged => .done (.ok (keysOf purged))) :=
    finePurge subject spare (fun key => nothing _) (fun _ => fineDone (namedOk _))
  refine fineLock (locksSlot owner) (fun slot => ?_) purge (by intro same; cases same)
  simp only
  split
  · exact namedFail _
  · refine fineDelete (fun _ waits => waits) (fun row mine => absurd mine (nothing row))
      (fun t there x member row deletes => ?_) (fun _ => purge)
    have is : x = .dropSlot owner := List.mem_singleton.mp member
    subst is
    cases deletes
    have present : (t.slots.lookup owner).isSome = true := there _ rfl
    refine ⟨?_,spare _,nothing _⟩
    rw [Query.needs,lockOwner,if_pos present]
    exact List.mem_cons_self

theorem fineCommit (req : CommitRequest) : Fine Named needed held (commitBody req) := by
  have recorded (version : Nat) : Fine Named needed (· = .database req.key)
      (recordChange req.key version req.blocks (.done (.ok version))) := by
    refine fineAsk rfl (fun _ waits => waits) (fun _ _ => ?_)
    split
    · exact fineDone (namedOk _)
    · exact fineAsk rfl (fun _ waits => waits) (fun _ _ => fineDone (namedOk _))
  have applied : Fine Named needed (· = .database req.key) (applyCommit req) := by
    have rest : Fine Named needed (· = .database req.key)
        (.ask (.deleteBlocksFrom req.key req.pageCount.toInt64) fun _ =>
          must (.applyCommit req.key req.pageCount.toInt64 req.commitID (req.now+req.ttl)) fun version =>
            recordChange req.key version req.blocks (.done (.ok version))) := by
      refine fineAsk rfl (fun _ waits => waits) (fun _ _ => ?_)
      exact fineMustRow rfl (fun _ waits => waits) (fun _ => rfl) recorded
    unfold applyCommit putBlocks
    split
    · exact rest
    · exact fineAsk rfl (fun _ waits => waits) (fun _ _ => rest)
  refine fineLock (locksDatabase req.key) (fun row => ?_) (namedFail _) (by intro same; cases same)
  simp only
  split
  · exact namedFail _
  split
  · exact fineAsk rfl (fun _ waits => waits) (fun _ _ => fineDone (namedOk _))
  split
  · exact namedFail _
  split
  · exact namedFail _
  · exact applied

theorem fineRemove {β : Type} {ok : Except Failure β → Prop} (key : Key) {next : Nat → Body β}
    (rest : ∀ epoch, Fine ok needed (· = .database key) (next epoch)) :
    Fine ok needed (· = .database key) (remove key next) := by
  refine fineAsk rfl (fun _ waits => waits) (fun _ _ => fineAsk rfl (fun _ waits => waits) (fun _ _ => ?_))
  exact fineMustRow rfl (fun _ waits => waits) (fun _ => rfl) rest

theorem fineDeleteDatabase (req : DeleteRequest) : Fine Named needed held (deleteBody req) := by
  refine fineLock (locksDatabase req.key) (fun row => ?_) (fineDone (namedOk _)) (by intro same; cases same)
  simp only
  split
  · exact fineDone (namedOk _)
  split
  · exact namedFail _
  · exact fineRemove req.key (fun _ => fineDone (namedOk _))

theorem fineReads {α β : Type} {q : Query α} {next : α → Body β} {ok : Except Failure β → Prop} (quiet : q.deleting = false)
    (unlocking : ∀ row, ¬Awaits (.ask q next) row) (rest : ∀ a, Fine ok needed held (next a)) :
    Fine ok needed held (.ask q next) := fineAsk quiet unlocking (fun _ _ => rest _)

theorem fineFetch (key : Key) (version : Nat) (first count : UInt64) :
    Fine Named needed held (fetchBody key version first count) := by
  refine fineReads rfl (fun _ waits => waits) (fun found => ?_)
  cases found with
  | none => exact namedFail _
  | some row =>
    simp only
    split
    · exact namedFail _
    split
    · exact namedFail _
    split
    · exact namedFail _
    · exact fineReads rfl (fun _ waits => waits) (fun _ => fineDone (namedOk _))

theorem fineChanges (key : Key) (fromVersion : Nat) : Fine Named needed held (changesBody key fromVersion) := by
  refine fineReads rfl (fun _ waits => waits) (fun found => ?_)
  cases found with
  | none => exact namedFail _
  | some row =>
    simp only
    split
    · exact namedFail _
    split
    · exact namedFail _
    split
    · exact fineDone (namedOk _)
    refine fineReads rfl (fun _ waits => waits) (fun oldest => ?_)
    split
    · exact fineDone (namedOk _)
    · exact fineReads rfl (fun _ waits => waits) (fun _ => fineDone (namedOk _))

theorem sureSweep (cutoff : Time) (key : Key) (spare : ¬needed (.database key)) :
    Sure presence Awaits (fun r => ∃ removed, r = .ok removed) needed held (sweepBody cutoff key) := by
  refine sureRelock (locksDatabase key) (fun row => ?_)
  split
  · exact fineDone ⟨_,rfl⟩
  refine fineAsk rfl (fun _ waits => waits) (fun _ _ => ?_)
  split
  · refine fineDelete (fun _ waits => waits) (fun _ mine => False.elim mine) (fun t there x member row deletes => ?_)
      (fun _ => fineDone ⟨_,rfl⟩)
    have is : x = .purge key := List.mem_singleton.mp member
    subst is
    cases deletes
    have present : (t.row key).isSome = true := there _ rfl
    refine ⟨?_,spare,fun mine => mine⟩
    rw [Query.needs,lockRow,if_pos present]
    exact List.mem_cons_self
  · exact fineRemove key (fun _ => fineDone ⟨_,rfl⟩)

end

def Ends (op : Op) (r : Result) : Prop :=
  r ≠ .error .noRows ∧ ∀ cutoff limit tie, op = .deleteUnused cutoff limit tie → ∃ removed, r = .ok (.unused removed)

def sweeps : Op → Bool
  | .deleteUnused _ _ _ => true
  | _ => false

theorem endsNamed {op : Op} (other : sweeps op = false) {r : Result} (named : Named r) : Ends op r := by
  refine ⟨named,fun cutoff limit tie is => ?_⟩
  rw [is] at other
  contradiction

/- A script that keeps to the rows it counts on, and counts on none when it is called. -/
def Keeps (op : Op) (p : Operation) : Prop :=
  Steadfast presence Awaits (Ends op) p ∧ ∀ row, ¬Counts Awaits row p

theorem keepsTx {op : Op} (other : sweeps op = false) {β : Type} {snapshot : Bool} {reply : β → Reply} {body : Body β}
    (reads : snapshot = true → ReadOnly engine body)
    (fine : Fine Named (fun _ => ∃ _ : β, False) (fun _ => False) body) :
    Keeps op (.ask (.tx snapshot body) fun r => .done (r.map reply)) := by
  refine ⟨⟨reads,Named,fine.1,fun r named => endsNamed other (fun same => ?_),fun _ _ _ counts => counts⟩,fun row counts => ?_⟩
  · cases r with
    | ok b => contradiction
    | error f =>
      cases f with
      | noRows => exact named rfl
      | declared e => cases same
  · rcases counts with waits | ⟨_,never⟩
    · exact fine.2 row waits
    · exact never

theorem keepsAuto {op : Op} {β : Type} {q : Query β} {next : β → Operation} (quiet : q.deleting = false)
    (rest : ∀ a, Keeps op (next a)) : Keeps op (.ask (.auto q) next) := by
  refine ⟨fun t => ⟨fun x member row deletes => absurd deletes (sparesRows quiet t x member row),fun row counts => ?_,
    (rest _).1⟩,fun row counts => counts⟩
  exact absurd counts ((rest _).2 row)

theorem keepsDone {op : Op} {r : Result} (ends : Ends op r) : Keeps op (.done r) := ⟨ends,fun _ counts => counts⟩

section
variable (cutoff : Time)

theorem countsSweep {removed keys : List Key} {row : Lock}
    (counts : Counts Awaits row (sweepAll cutoff (sweepEnd cutoff) removed keys)) : ∃ key ∈ keys, row = .database key := by
  induction keys generalizing removed with
  | nil => exact False.elim counts
  | cons key rest ih =>
    rw [sweepCons] at counts
    rcases counts with waits | ⟨b,later⟩
    · obtain ⟨same,_⟩ := ((locksDatabase key).awaits _ row).mp waits
      exact ⟨key,List.mem_cons_self,same⟩
    · cases b <;>
        obtain ⟨other,member,same⟩ := ih later
      all_goals exact ⟨other,List.mem_cons_of_mem _ member,same⟩

theorem steadfastRelease (limit : Nat) (tie : Key → Nat) (removed : List Key) :
    Keeps (.deleteUnused cutoff limit tie) (sweepEnd cutoff removed none) := by
  refine keepsAuto rfl (fun unused => ⟨fun t => ⟨fun x member row deletes _ => ?_,fun _ counts => False.elim counts,?_⟩,
    fun _ counts => counts⟩)
  · obtain ⟨_,listed,rfl⟩ := List.mem_map.mp member
    obtain ⟨owner,among,rfl⟩ := List.mem_map.mp listed
    obtain ⟨named,there⟩ := List.mem_filter.mp among
    cases deletes
    refine List.mem_flatMap.mpr ⟨owner,named,?_⟩
    have present : (t.chosenSlot owner).isSome = true := by
      cases found : t.chosenSlot owner with
      | none =>
        rw [found] at there
        contradiction
      | some slot => rfl
    rw [lockOwner,if_pos present]
    exact List.mem_cons_self
  · exact ⟨by intro same; contradiction,fun _ _ _ _ => ⟨removed,rfl⟩⟩

theorem steadfastSweep (limit : Nat) (tie : Key → Nat) {keys : List Key} (once : keys.Nodup) (removed : List Key) :
    Steadfast presence Awaits (Ends (.deleteUnused cutoff limit tie)) (sweepAll cutoff (sweepEnd cutoff) removed keys) := by
  induction keys generalizing removed with
  | nil => exact (steadfastRelease cutoff limit tie removed).1
  | cons key rest ih =>
    obtain ⟨fresh,once⟩ := List.nodup_cons.mp once
    rw [sweepCons]
    refine ⟨fun is => by contradiction,fun r => ∃ removed, r = .ok removed,sureSweep cutoff key ?_,?_,?_⟩
    · intro later
      obtain ⟨b,counts⟩ := later
      cases b <;>
        obtain ⟨other,member,same⟩ := countsSweep cutoff counts
      all_goals
        cases same
        exact fresh member
    · rintro r ⟨b,rfl⟩
      cases b <;> exact ih once _
    · rintro f row ⟨b,same⟩
      contradiction

theorem keepsSweep (limit : Nat) (tie : Key → Nat) :
    Keeps (.deleteUnused cutoff limit tie) (script (.deleteUnused cutoff limit tie)) := by
  rw [sweepScript]
  refine ⟨fun t => ⟨fun x member => absurd member List.not_mem_nil,fun row counts => ?_,steadfastSweep cutoff limit tie ?_ []⟩,
    fun row counts => counts⟩
  · obtain ⟨key,listed,rfl⟩ := countsSweep cutoff counts
    have among := (List.perm_insertionSort _ _).mem_iff.mp (List.mem_of_mem_take listed)
    obtain ⟨row,found,_⟩ := (memKeysWhere _ _ _).mp among
    have there : t.row key = some row := found
    have present : (t.row key).isSome := by rw [there]; rfl
    exact present
  · exact ((List.perm_insertionSort _ _).nodup_iff.mpr (keysWhereNodup _ _)).sublist (List.take_sublist _ _)

end

theorem keepsWhyNoRow {op : Op} (other : sweeps op = false) (key : Key) (rows : Nat) : Keeps op (whyNoRow key rows) := by
  unfold whyNoRow
  split
  · exact keepsDone (endsNamed other (namedOk _))
  · refine keepsAuto rfl (fun present => keepsDone (endsNamed other ?_))
    intro same
    cases same

theorem keepsScript (op : Op) : Keeps op (script op) := by
  have never {β : Type} : ∀ row : Lock, ¬∃ _ : β, False := fun _ none_ => none_.elim fun _ no => no
  have nothing : ∀ row : Lock, ¬False := fun _ no => no
  cases op with
  | openDatabase req id => exact keepsTx rfl (fun is => by contradiction) (fineOpen req id)
  | fetch key version first count =>
    exact keepsTx rfl (fun _ => fetchReads key version first count) (fineFetch key version first count)
  | commit req => exact keepsTx rfl (fun is => by contradiction) (fineCommit req)
  | changes key fromVersion => exact keepsTx rfl (fun is => by contradiction) (fineChanges key fromVersion)
  | renew key epoch now ttl => exact keepsAuto rfl (keepsWhyNoRow rfl key)
  | release key epoch => exact keepsAuto rfl (keepsWhyNoRow rfl key)
  | delete req => exact keepsTx rfl (fun is => by contradiction) (fineDeleteDatabase req)
  | deleteUnused cutoff limit tie => exact keepsSweep cutoff limit tie
  | getSlot owner => exact keepsAuto rfl (fun _ => keepsDone (endsNamed rfl (namedOk _)))
  | claimSlot req => exact keepsTx rfl (fun is => by contradiction) (fineClaim req never)
  | setSlotLabel owner subject label =>
    refine keepsAuto rfl (fun found => ?_)
    cases found with
    | some slot => exact keepsDone (endsNamed rfl (namedOk _))
    | none =>
      refine keepsAuto rfl (fun slot => keepsDone (endsNamed rfl ?_))
      intro same
      cases same
  | deleteSlot owner subject =>
    exact keepsTx rfl (fun is => by contradiction) (fineDeleteSlot owner subject never nothing)

theorem endsDeclared {calls : Nat → Op} {start : Tables} {events : List (Event Result)} {w : Calls}
    (run : RunWhile engine (Undisturbed presence Awaits) (fun i => script (calls i)) start events w) {i : Nat} {r : Result}
    (returned : Event.returned i r ∈ events) :
    ((∃ reply, r = .ok reply) ∨ ∃ e, r = .error (.declared e)) ∧
    ∀ cutoff limit tie, calls i = .deleteUnused cutoff limit tie → ∃ removed, r = .ok (.unused removed) := by
  have held := holdsRun (fun i => (keepsScript (calls i)).1) (fun i => (keepsScript (calls i)).2) run
  obtain ⟨named,whole⟩ := held.2 i r returned
  refine ⟨?_,whole⟩
  rcases r with (e | _) | reply
  · exact .inr ⟨e,rfl⟩
  · exact absurd rfl named
  · exact .inl ⟨reply,rfl⟩

def bobsKey : Key := ⟨"bob","other"⟩

def twoUnused : Tables :=
  (step (step empty (.openDatabase {anOpen true [1] 0 with owner := ""} [9])).2
    (.openDatabase {anOpen true [2] 5000 with owner := "",key := bobsKey} [8])).2

def sweptAway : Nat → Op
  | 0 => .deleteUnused 100000 10 (fun _ => 0)
  | _ => .deleteSlot "owner" "alice"

/- Two Opens of one new database, and two claims of one new slot, each with a call that deletes what
the faster one made. -/
def opensRace : Nat → Op
  | 0 => .openDatabase (anOpen true [1] 0) [9]
  | 1 => .openDatabase (anOpen true [2] 1000) [8]
  | _ => .deleteSlot "owner" "alice"

def claimsRace : Nat → Op
  | 0 => .claimSlot ⟨"owner","alice",1000⟩
  | 1 => .claimSlot ⟨"owner","bob",2000⟩
  | _ => .deleteSlot "owner" "alice"

theorem noRowsReturned :
    (∃ events w, Run engine (fun i => script (sweptAway i)) twoUnused events w ∧
      Event.returned 0 (.error .noRows) ∈ events ∧ (w.committed.row bobsKey).map Row.deleted = some false) ∧
    (∃ events w, Run engine (fun i => script (opensRace i)) empty events w ∧ Event.returned 1 (.error .noRows) ∈ events) ∧
    ∃ events w, Run engine (fun i => script (claimsRace i)) empty events w ∧ Event.returned 1 (.error .noRows) ∈ events := by
  have swept : (schedule engine (fun i => script (sweptAway i)) [0,1] [0,0,1,1,1,1,1,1,1,0,0,0,0]
      ⟨twoUnused,fun _ => none⟩).map (fun out => (decide (Event.returned 0 (.error .noRows) ∈ out.1),
        (out.2.committed.row bobsKey).map Row.deleted)) = some (true,some false) := by
    decide +kernel
  have opened : (schedule engine (fun i => script (opensRace i)) [0,1,2]
      [0,0,0,0,1,1,1,1,0,0,0,0,1,2,2,2,2,2,2,2,1,1,1] ⟨empty,fun _ => none⟩).map (fun out =>
        decide (Event.returned 1 (.error .noRows) ∈ out.1)) = some true := by
    decide +kernel
  have claimed : (schedule engine (fun i => script (claimsRace i)) [0,1,2]
      [0,0,0,1,1,1,0,0,0,1,2,2,2,2,2,2,2,2,1,1,1] ⟨empty,fun _ => none⟩).map (fun out =>
        decide (Event.returned 1 (.error .noRows) ∈ out.1)) = some true := by
    decide +kernel
  refine ⟨?_,?_,?_⟩
  · obtain ⟨events,w,run,shown⟩ := scheduledShown (fun events (w : Calls) =>
      (decide (Event.returned 0 (.error .noRows) ∈ events),(w.committed.row bobsKey).map Row.deleted)) (by decide) swept
    obtain ⟨returned,kept⟩ := Prod.mk.inj shown
    exact ⟨events,w,run,of_decide_eq_true returned,kept⟩
  · obtain ⟨events,w,run,shown⟩ := scheduledShown (fun events (_ : Calls) =>
      decide (Event.returned 1 (.error .noRows) ∈ events)) (by decide) opened
    exact ⟨events,w,run,of_decide_eq_true shown⟩
  · obtain ⟨events,w,run,shown⟩ := scheduledShown (fun events (_ : Calls) =>
      decide (Event.returned 1 (.error .noRows) ∈ events)) (by decide) claimed
    exact ⟨events,w,run,of_decide_eq_true shown⟩

def deletesNone (w : Calls) (i : Nat) : Bool :=
  (w.calls i).all (fun call =>
    w.committed.databases.keys.all (fun key => ((call.lands engine w.committed).row key).isSome) &&
    w.committed.slots.keys.all (fun owner => ((call.lands engine w.committed).slots.lookup owner).isSome))

theorem deletesNoneUndisturbed (w : Calls) (e : Event Result) (none_ : deletesNone w e.caller = true) :
    Undisturbed presence Awaits w e := by
  intro call row at_ has gone
  rw [deletesNone,at_,Option.all_some,Bool.and_eq_true,List.all_eq_true,List.all_eq_true] at none_
  refine absurd ?_ gone
  cases row with
  | database key => exact none_.1 key (AList.lookup_isSome.mp has)
  | slot owner => exact none_.2 owner (AList.lookup_isSome.mp has)

def racing : List (Event Result) :=
  [.invoked 0,.moved 0,.moved 0,.moved 0,.invoked 1,.moved 1,.moved 1,.moved 1,.moved 0,.moved 0,.moved 0,
   .returned 0 (.ok (.opened ⟨⟨[9],1⟩,⟨512,0,0,[]⟩,false⟩)),.moved 1,.moved 1,.moved 1,
   .returned 1 (.error (.declared (.leaseHeld 0)))]

theorem endsDeclaredRace : ∃ w,
    RunWhile engine (Undisturbed presence Awaits) (fun i => script (opensRace i)) empty racing w ∧
    ∃ r, Event.returned 1 r ∈ racing ∧ ((∃ reply, r = .ok reply) ∨ ∃ e, r = .error (.declared e)) := by
  have ran : (scheduleWhile engine (fun i => script (opensRace i)) [0,1] deletesNone
      [0,0,0,0,1,1,1,1,0,0,0,0,1,1,1,1] ⟨empty,fun _ => none⟩).map Prod.fst = some racing := by
    decide +kernel
  obtain ⟨w,run⟩ := scheduledWhile deletesNoneUndisturbed (by decide) ran
  have returned : Event.returned 1 (.error (.declared (.leaseHeld 0))) ∈ racing := by decide
  exact ⟨w,run,_,returned,(endsDeclared run returned).1⟩

end SqliteRemote.Postgres
