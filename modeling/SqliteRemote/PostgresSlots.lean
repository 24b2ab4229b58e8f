import SqliteRemote.PostgresSteps

/-! Opens and claims of one owner whose statements interleave. An Open that finds the owner's
slot keeps a claim away until it ends; one that finds no slot holds nothing, and a slot that is
claimed and passed on meanwhile does not stop it. -/
namespace SqliteRemote.Postgres
open Rows StoreContract Programs RowLocking

def OfOwner (o : String) : Op → Prop
  | .openDatabase req _ => req.owner = o
  | .claimSlot req => req.owner = o
  | _ => False

def AsksSlot {α : Type} : Program Query α → Prop
  | .ask (.shareSlot _) _ => True
  | _ => False

/- An Open that has asked for the slot and holds no lock on it, because there was none. -/
inductive Unguarded (o : String) : Call → Prop where
  | opening {β : Type} {tx : Tx Tables Write Lock} {body : Body β} {next : Except Failure β → Operation}
      (asked : ¬AsksSlot body) (unlocked : (Lock.slot o,Mode.share) ∉ tx.locks) : Unguarded o (.inside false tx body next)

def purges : Call → Option String
  | .inside _ _ (.ask (.subjectRows subject) _) _ => some subject
  | _ => none

/- A claim does not delete the databases of a key while an Open of that key that found no slot is
in progress. -/
def Calm (o : String) (calls : Nat → Op) (w : Calls) (e : Event Result) : Prop :=
  ∀ claim subject, w.calls e.caller = some claim → purges claim = some subject →
    ∀ j req id opening, calls j = .openDatabase req id → req.key.subject = subject → w.calls j = some opening →
      ¬Unguarded o opening

def HeldBy (o subject : String) (t : Tables) : Prop := ∃ slot, t.slots.lookup o = some slot ∧ slot.subject = subject

/- The worlds from one on, as long as the slot does not come back to the key. -/
inductive Since (o subject : String) (calls : Nat → Op) (first : Calls) : Calls → Prop where
  | now : Since o subject calls first first
  | later {w after : Calls} {e : Event Result} (earlier : Since o subject calls first w)
      (step : Step engine (fun i => script (calls i)) w e after) (passed : ¬HeldBy o subject after.committed) :
      Since o subject calls first after

def Own (key : Key) {β : Type} : Body β → Prop
  | .done _ => True
  | .ask q next => (∀ t, ∀ x ∈ q.writes t, ∃ row, x = .database key row) ∧ ¬AsksSlot (.ask q next) ∧ ∀ a, Own key (next a)

theorem onRowWrites {key : Key} {row : Option Row} {change : Row → Row} :
    ∀ x ∈ onRow row (fun row => .database key (change row)), ∃ row, x = Write.database key row := by
  intro x member
  cases row with
  | none => exact absurd member List.not_mem_nil
  | some row => exact ⟨change row,List.mem_singleton.mp member⟩

section
variable (req : OpenRequest) (id : Bytes)

theorem ownResumeOrGrant (row : Row) : Own req.key (resumeOrGrant req id row) := by
  unfold resumeOrGrant
  split
  · split
    · trivial
    · exact ⟨fun _ => onRowWrites,fun asks => asks,fun _ => trivial⟩
  · unfold grantLease
    simp only
    split
    · trivial
    · refine ⟨fun _ => onRowWrites,fun asks => asks,fun epoch => ?_⟩
      cases epoch <;> trivial

theorem ownOpenRow (row : Row) : Own req.key (openRow req id row) := by
  unfold openRow reviveDatabase
  repeat' split
  all_goals try trivial
  · refine ⟨fun _ => onRowWrites,fun asks => asks,fun revived => ?_⟩
    cases revived with
    | none => trivial
    | some row => exact ownResumeOrGrant req id row
  · exact ownResumeOrGrant req id row

theorem ownOpen : Own req.key (openDatabase req id) := by
  have locks (next : Option Row → Body OpenResult) (rest : ∀ a, Own req.key (next a)) :
      Own req.key (.ask (.lockDatabase req.key) next) :=
    ⟨fun _ _ member => absurd member List.not_mem_nil,fun asks => asks,rest⟩
  refine locks _ (fun found => ?_)
  cases found with
  | some row => exact ownOpenRow req id row
  | none =>
    simp only [createDatabase]
    split
    · trivial
    split
    · trivial
    refine ⟨fun t x member => ?_,fun asks => asks,fun created => ?_⟩
    · simp only [Query.writes] at member
      split at member
      · exact absurd member List.not_mem_nil
      · exact ⟨_,List.mem_singleton.mp member⟩
    · cases created with
      | some row => exact ownOpenRow req id row
      | none =>
        refine locks _ (fun found => ?_)
        cases found with
        | none => trivial
        | some row => exact ownOpenRow req id row

def slotChecked : Option Slot → Body OpenResult
  | some slot => if slot.subject ≠ req.key.subject then fail .slotTaken else openDatabase req id
  | none => openDatabase req id

theorem openScript (owned : req.owner ≠ "") :
    script (.openDatabase req id) = inTx .opened (.ask (.shareSlot req.owner) (slotChecked req id)) := by
  rw [script,openBody,if_pos owned]
  rfl

theorem ownSlotChecked (found : Option Slot) : Own req.key (slotChecked req id found) := by
  cases found with
  | none => exact ownOpen req id
  | some slot =>
    simp only [slotChecked]
    split
    · trivial
    · exact ownOpen req id

end

theorem ownAsked {key : Key} {β : Type} {body : Body β} (own : Own key body) : ¬AsksSlot body := by
  cases body with
  | done v => exact fun asks => asks
  | ask q next => exact own.2.1

section
variable (req : OpenRequest) (id : Bytes)

def openNext (r : Except Failure OpenResult) : Operation := .done (r.map .opened)

inductive OpenAt : Call → Prop where
  | called : OpenAt (.outside (inTx .opened (.ask (.shareSlot req.owner) (slotChecked req id))))
  | begun {tx : Tx Tables Write Lock} (unwritten : tx.writes = []) :
      OpenAt (.inside false tx (.ask (.shareSlot req.owner) (slotChecked req id)) openNext)
  | past {tx : Tx Tables Write Lock} {body : Body OpenResult} (writes : ∀ x ∈ tx.writes, ∃ row, x = .database req.key row)
      (own : Own req.key body) : OpenAt (.inside false tx body openNext)
  | returning {r : Result} : OpenAt (.outside (.done r))
  | finished {r : Result} : OpenAt (.finished r)

inductive Idle : Call → Prop where
  | called : Idle (.outside (inTx .opened (.ask (.shareSlot req.owner) (slotChecked req id))))
  | begun {tx : Tx Tables Write Lock} :
      Idle (.inside false tx (.ask (.shareSlot req.owner) (slotChecked req id)) openNext)
  | stopped {tx : Tx Tables Write Lock} {f : Failure} : Idle (.inside false tx (.done (.error f)) openNext)
  | returning {r : Result} : Idle (.outside (.done r))
  | finished {r : Result} : Idle (.finished r)

end

def Barred (o : String) (w : Calls) (i : Nat) (subject : String) : Prop :=
  ∃ slot, w.committed.slots.lookup o = some slot ∧ (slot.subject ≠ subject ∨
    ∃ j call, j ≠ i ∧ w.calls j = some call ∧ (Lock.slot o,Mode.exclusive) ∈ call.locks)

structure OpenMove (w : Calls) (i : Nat) (req : OpenRequest) (id : Bytes) (c : Tables) (new : Call) : Prop where
  shape : OpenAt req id new
  slots : c.slots = w.committed.slots
  rows : ∀ key, key ≠ req.key → c.row key = w.committed.row key
  kept : ∀ key, c.chooseRow key = w.committed.chooseRow key
  idle : (∀ old, w.calls i = some old → Idle req id old) → Barred req.owner w i req.key.subject →
    Idle req id new ∧ c = w.committed

theorem ownRows {key : Key} {writes : List Write} (own : ∀ x ∈ writes, ∃ row, x = .database key row) (t : Tables) :
    (engine.applyAll writes t).slots = t.slots ∧
    (∀ k, k ≠ key → (engine.applyAll writes t).row k = t.row k) ∧
    ∀ k, (engine.applyAll writes t).chooseRow k = t.chooseRow k := by
  refine ⟨applyAllKeeps engine Tables.slots ?_ t,fun k other => applyAllKeeps engine (fun t => t.row k) ?_ t,
    fun k => applyAllKeeps engine (fun t => t.chooseRow k) ?_ t⟩
  · intro x member u
    obtain ⟨row,rfl⟩ := own x member
    rfl
  · intro x member u
    obtain ⟨row,rfl⟩ := own x member
    exact (rowApply u k _).trans (if_neg other)
  · intro x member u
    obtain ⟨row,rfl⟩ := own x member
    rfl

section
variable {w : Calls} {i : Nat} {req : OpenRequest} {id : Bytes}

theorem openStays {new : Call} (shape : OpenAt req id new)
    (idle : (∀ old, w.calls i = some old → Idle req id old) → Barred req.owner w i req.key.subject → Idle req id new) :
    OpenMove w i req id w.committed new :=
  ⟨shape,rfl,fun _ _ => rfl,fun _ => rfl,fun earlier barred => ⟨idle earlier barred,rfl⟩⟩

theorem openQuery {γ : Type} {tx : Tx Tables Write Lock} {q : Query γ} {body : γ → Body OpenResult}
    (at_ : w.calls i = some (.inside false tx (.ask q body) openNext))
    (free : w.free i (engine.needs q (tx.seen engine false w.committed)))
    (shape : OpenAt req id (.inside false tx (.ask q body) openNext)) :
    OpenMove w i req id w.committed (.inside false (tx.extend engine false w.committed q)
      (body (engine.answer q (tx.seen engine false w.committed))) openNext) := by
  cases shape with
  | begun unwritten =>
    have seen : tx.seen engine false w.committed = w.committed := by
      rw [Tx.seen,unwritten]
      rfl
    have answer : engine.answer (.shareSlot req.owner) w.committed = w.committed.slots.lookup req.owner := rfl
    rw [seen] at free ⊢
    rw [answer]
    refine openStays (.past ?_ (ownSlotChecked req id _)) (fun _ barred => ?_)
    · intro x member
      simp only [Tx.extend,unwritten,seen] at member
      exact absurd member List.not_mem_nil
    · obtain ⟨slot,found,other | ⟨j,call,differ,there,locked⟩⟩ := barred
      · rw [found]
        simp only [slotChecked,if_pos other]
        exact .stopped
      · have needs : engine.needs (.shareSlot req.owner) w.committed = [(.slot req.owner,.share)] := by
          have is : engine.needs (.shareSlot req.owner) w.committed =
            lockOwner req.owner .share (w.committed.slots.lookup req.owner) := rfl
          rw [is,found]
          rfl
        rw [needs] at free
        have conflict := free j call differ there _ locked _ List.mem_cons_self rfl
        contradiction
  | past writes own =>
    refine openStays (.past ?_ (own.2.2 _)) (fun earlier _ => ?_)
    · intro x member
      rcases List.mem_append.mp member with old | new
      · exact writes x old
      · exact own.1 _ x new
    · cases earlier _ at_ with
      | begun => exact absurd trivial own.2.1

theorem openOutside {p : Operation} (shape : OpenAt req id (.outside p)) :
    p = inTx .opened (.ask (.shareSlot req.owner) (slotChecked req id)) ∨ ∃ r, p = .done r := by
  generalize is : Residual.outside p = call at shape
  cases shape with
  | called => exact .inl (Residual.outside.inj is)
  | returning => exact .inr ⟨_,Residual.outside.inj is⟩
  | _ => contradiction

theorem openMoves {calls : Nat → Op} {e : Event Result} {after : Calls} (owned : req.owner ≠ "")
    (is : calls i = .openDatabase req id) (shapes : ∀ old, w.calls i = some old → OpenAt req id old)
    (step : Step engine (fun i => script (calls i)) w e after) (mover : e.caller = i) :
    ∃ c new, after = {w with committed := c}.put i new ∧ OpenMove w i req id c new := by
  cases step with
  | invoke j fresh =>
    obtain rfl : j = i := mover
    refine ⟨_,_,rfl,?_⟩
    rw [is,openScript req id owned]
    exact openStays .called (fun _ _ => .called)
  | auto j at_ free =>
    obtain rfl : j = i := mover
    rcases openOutside (shapes _ at_) with same | ⟨r,same⟩
    · have none_ := congrArg (entered (L := Lock) (W := Write) (σ := Tables)) same
      contradiction
    · contradiction
  | begin j at_ =>
    obtain rfl : j = i := mover
    rcases openOutside (shapes _ at_) with same | ⟨r,same⟩
    · have begun := congrArg (entered (L := Lock) (W := Write) (σ := Tables)) same
      refine ⟨_,_,rfl,?_⟩
      rw [Option.some.inj begun]
      exact openStays (.begun rfl) (fun _ _ => .begun)
    · contradiction
  | query j at_ free =>
    obtain rfl : j = i := mover
    have shape := shapes _ at_
    cases shape with
    | begun unwritten => exact ⟨_,_,rfl,openQuery at_ free (.begun unwritten)⟩
    | past writes own => exact ⟨_,_,rfl,openQuery at_ free (.past writes own)⟩
  | commit j at_ =>
    obtain rfl : j = i := mover
    cases shapes _ at_ with
    | past writes own =>
      obtain ⟨slots,rows,kept⟩ := ownRows writes w.committed
      refine ⟨_,_,rfl,.returning,slots,rows,kept,fun earlier _ => ?_⟩
      cases earlier _ at_
  | rollback j at_ =>
    obtain rfl : j = i := mover
    cases shapes _ at_ with
    | past writes own => exact ⟨_,_,rfl,openStays .returning (fun _ _ => .returning)⟩
  | finish j at_ =>
    obtain rfl : j = i := mover
    exact ⟨_,_,rfl,openStays .finished (fun _ _ => .finished)⟩

end

def claimNext (r : Except Failure ClaimResult) : Operation := .done (r.map .claimed)

section
variable (req : ClaimRequest)

def replaced (slot : Slot) (purged : List (Key × Bool)) : Option Slot → Body ClaimResult
  | none => .done (.error .noRows)
  | some updated => .done (.ok ⟨updated,some slot,keysOf purged⟩)

def replace (slot : Slot) (purged : List (Key × Bool)) : Body ClaimResult :=
  .ask (.updateSlot req.owner ⟨req.subject,"",timestamp req.now⟩) (replaced slot purged)

def relock : Option Slot → Body ClaimResult
  | none => .done (.error .noRows)
  | some slot => claimRow req slot

def insertFirst : Option Slot → Body ClaimResult
  | some slot => .done (.ok ⟨slot,none,[]⟩)
  | none => .ask (.lockSlot req.owner) (relock req)

def lockFirst : Option Slot → Body ClaimResult
  | some slot => claimRow req slot
  | none => .ask (.insertSlot req.owner ⟨req.subject,"",timestamp req.now⟩) (insertFirst req)

theorem claimScript : script (.claimSlot req) = inTx .claimed (.ask (.lockSlot req.owner) (lockFirst req)) := by
  have relocks : must (.lockSlot req.owner) (claimRow req) = .ask (.lockSlot req.owner) (relock req) := by
    refine congrArg (Program.ask _) (funext fun found => ?_)
    cases found <;> rfl
  refine congrArg (inTx .claimed) (congrArg (Program.ask _) (funext fun found => ?_))
  cases found with
  | some slot => rfl
  | none =>
    refine congrArg (Program.ask _) (funext fun made => ?_)
    cases made with
    | some slot => rfl
    | none => exact relocks

theorem claimOther {slot : Slot} (other : slot.subject ≠ req.subject) : claimRow req slot =
    .ask (.subjectRows slot.subject) fun rows => .ask (.purgeRows rows) (replace req slot) := by
  rw [claimRow,if_neg other]
  refine congrArg (Program.ask _) (funext fun rows => congrArg (Program.ask _) (funext fun purged => ?_))
  refine congrArg (Program.ask _) (funext fun found => ?_)
  cases found <;> rfl

/- A claim that has locked the slot it replaces. What it knows of the databases it deletes is P. -/
structure Takes (t : Tables) (P : String → List (Chosen Key) → Prop) (tx : Tx Tables Write Lock) (slot : Slot)
    (rows : List (Chosen Key)) : Prop where
  locked : (Lock.slot req.owner,Mode.exclusive) ∈ tx.locks
  held : t.slots.lookup req.owner = some slot
  known : P slot.subject rows

def purgeWrites (rows : List (Chosen Key)) : List Write := (rows.map Chosen.id).map .purge

inductive ClaimAt (t : Tables) (P : String → List (Chosen Key) → Prop) : Call → Prop where
  | called : ClaimAt t P (.outside (inTx .claimed (.ask (.lockSlot req.owner) (lockFirst req))))
  | locking {tx : Tx Tables Write Lock} (unwritten : tx.writes = []) :
      ClaimAt t P (.inside false tx (.ask (.lockSlot req.owner) (lockFirst req)) claimNext)
  | inserting {tx : Tx Tables Write Lock} {slot : Slot} (unwritten : tx.writes = []) :
      ClaimAt t P (.inside false tx (.ask (.insertSlot req.owner slot) (insertFirst req)) claimNext)
  | relocking {tx : Tx Tables Write Lock} (unwritten : tx.writes = []) :
      ClaimAt t P (.inside false tx (.ask (.lockSlot req.owner) (relock req)) claimNext)
  | inserted {tx : Tx Tables Write Lock} {slot : Slot} {r : Except Failure ClaimResult}
      (locked : (Lock.slot req.owner,Mode.exclusive) ∈ tx.locks) (none_ : t.slots.lookup req.owner = none)
      (writes : tx.writes = [.slot req.owner slot]) : ClaimAt t P (.inside false tx (.done r) claimNext)
  | kept {tx : Tx Tables Write Lock} {r : Except Failure ClaimResult} (unwritten : tx.writes = []) :
      ClaimAt t P (.inside false tx (.done r) claimNext)
  | purging {tx : Tx Tables Write Lock} {slot : Slot} (locked : (Lock.slot req.owner,Mode.exclusive) ∈ tx.locks)
      (held : t.slots.lookup req.owner = some slot) (unwritten : tx.writes = []) :
      ClaimAt t P (.inside false tx
        (.ask (.subjectRows slot.subject) fun rows => .ask (.purgeRows rows) (replace req slot)) claimNext)
  | listed {tx : Tx Tables Write Lock} {slot : Slot} {rows : List (Chosen Key)} (takes : Takes req t P tx slot rows)
      (unwritten : tx.writes = []) : ClaimAt t P (.inside false tx (.ask (.purgeRows rows) (replace req slot)) claimNext)
  | purged {tx : Tx Tables Write Lock} {slot new : Slot} {rows : List (Chosen Key)} {gone : List (Key × Bool)}
      (takes : Takes req t P tx slot rows) (writes : tx.writes = purgeWrites rows) :
      ClaimAt t P (.inside false tx (.ask (.updateSlot req.owner new) (replaced slot gone)) claimNext)
  | updated {tx : Tx Tables Write Lock} {slot new : Slot} {rows : List (Chosen Key)} {r : Except Failure ClaimResult}
      (takes : Takes req t P tx slot rows) (writes : tx.writes = purgeWrites rows ++ [.slot req.owner new]) :
      ClaimAt t P (.inside false tx (.done r) claimNext)
  | returning {r : Result} : ClaimAt t P (.outside (.done r))
  | finished {r : Result} : ClaimAt t P (.finished r)

end

structure ClaimMove (w : Calls) (P : String → List (Chosen Key) → Prop) (i : Nat) (req : ClaimRequest) (c : Tables)
    (new : Call) : Prop where
  shape : ∀ P' : String → List (Chosen Key) → Prop, (∀ subject rows, P subject rows → P' subject rows) →
    (∀ subject old, w.calls i = some old → purges old = some subject → P' subject (w.committed.subjectRows subject)) →
    ClaimAt req c P' new
  rows : ∀ key, c.row key = none ∨ c.row key = w.committed.row key ∧ c.chooseRow key = w.committed.chooseRow key
  slots : c.slots = w.committed.slots ∨ (c.slots.lookup req.owner).isSome ∧
    ∃ old, w.calls i = some old ∧ (Lock.slot req.owner,Mode.exclusive) ∈ old.locks
  ends : c.slots = w.committed.slots ∨ w.committed.slots.lookup req.owner = none ∨
    ∃ slot rows, w.committed.slots.lookup req.owner = some slot ∧ P slot.subject rows ∧ ∀ row ∈ rows, c.row row.id = none

section
variable {w : Calls} {P : String → List (Chosen Key) → Prop} {i : Nat} {req : ClaimRequest}

theorem claimStays {new : Call} (shape : ∀ P' : String → List (Chosen Key) → Prop,
    (∀ subject rows, P subject rows → P' subject rows) →
    (∀ subject old, w.calls i = some old → purges old = some subject → P' subject (w.committed.subjectRows subject)) →
    ClaimAt req w.committed P' new) : ClaimMove w P i req w.committed new :=
  ⟨shape,fun _ => .inr ⟨rfl,rfl⟩,.inl rfl,.inl rfl⟩

theorem claimLocked {t : Tables} {tx : Tx Tables Write Lock} {slot : Slot}
    (locked : (Lock.slot req.owner,Mode.exclusive) ∈ tx.locks) (held : t.slots.lookup req.owner = some slot)
    (unwritten : tx.writes = []) : ClaimAt req t P (.inside false tx (claimRow req slot) claimNext) := by
  by_cases other : slot.subject = req.subject
  · rw [claimRow,if_pos other]
    exact .kept unwritten
  · rw [claimOther req other]
    exact .purging locked held unwritten

theorem unwrittenSeen {tx : Tx Tables Write Lock} (unwritten : tx.writes = []) (t : Tables) :
    tx.seen engine false t = t := by
  rw [Tx.seen,unwritten]
  rfl

theorem unwrittenExtend {γ : Type} {tx : Tx Tables Write Lock} {q : Query γ} (unwritten : tx.writes = []) (t : Tables) :
    (tx.extend engine false t q).writes = q.writes t ∧ (tx.extend engine false t q).locks = q.needs t ++ tx.locks := by
  simp only [Tx.extend,unwrittenSeen unwritten,unwritten,List.nil_append]
  exact ⟨rfl,rfl⟩

theorem claimLock {tx : Tx Tables Write Lock} {next : Option Slot → Body ClaimResult} (unwritten : tx.writes = [])
    (missing : ∀ (P' : String → List (Chosen Key) → Prop) (tx : Tx Tables Write Lock), tx.writes = [] →
      ClaimAt req w.committed P' (.inside false tx (next none) claimNext))
    (found : ∀ slot, next (some slot) = claimRow req slot) :
    ClaimMove w P i req w.committed (.inside false (tx.extend engine false w.committed (.lockSlot req.owner))
      (next (engine.answer (.lockSlot req.owner) (tx.seen engine false w.committed))) claimNext) := by
  obtain ⟨writes,locks⟩ := unwrittenExtend (q := .lockSlot req.owner) unwritten w.committed
  have answer : engine.answer (.lockSlot req.owner) w.committed = w.committed.slots.lookup req.owner := rfl
  rw [unwrittenSeen unwritten,answer]
  refine claimStays (fun P' _ _ => ?_)
  cases held : w.committed.slots.lookup req.owner with
  | none => exact missing P' _ writes
  | some slot =>
    rw [found slot]
    refine claimLocked ?_ held writes
    rw [locks,Query.needs,held]
    exact List.mem_cons_self

theorem claimInsert {tx : Tx Tables Write Lock} {slot : Slot} (unwritten : tx.writes = []) :
    ClaimMove w P i req w.committed (.inside false (tx.extend engine false w.committed (.insertSlot req.owner slot))
      (insertFirst req (engine.answer (.insertSlot req.owner slot) (tx.seen engine false w.committed))) claimNext) := by
  obtain ⟨writes,locks⟩ := unwrittenExtend (q := .insertSlot req.owner slot) unwritten w.committed
  have answer : engine.answer (.insertSlot req.owner slot) w.committed =
    if (w.committed.slots.lookup req.owner).isSome then none else some slot := rfl
  rw [Query.writes] at writes
  rw [Query.needs] at locks
  rw [unwrittenSeen unwritten,answer]
  refine claimStays (fun P' _ _ => ?_)
  cases held : w.committed.slots.lookup req.owner with
  | none =>
    rw [held] at writes locks
    refine .inserted ?_ held writes
    rw [locks]
    exact List.mem_cons_self
  | some other =>
    rw [held] at writes
    exact .relocking writes

theorem claimList {tx : Tx Tables Write Lock} {slot : Slot} (unwritten : tx.writes = [])
    (at_ : w.calls i = some (.inside false tx
      (.ask (.subjectRows slot.subject) fun rows => .ask (.purgeRows rows) (replace req slot)) claimNext))
    (locked : (Lock.slot req.owner,Mode.exclusive) ∈ tx.locks) (held : w.committed.slots.lookup req.owner = some slot) :
    ClaimMove w P i req w.committed (.inside false (tx.extend engine false w.committed (.subjectRows slot.subject))
      (.ask (.purgeRows (engine.answer (.subjectRows slot.subject) (tx.seen engine false w.committed)))
        (replace req slot)) claimNext) := by
  obtain ⟨writes,locks⟩ := unwrittenExtend (q := .subjectRows slot.subject) unwritten w.committed
  have answer : engine.answer (.subjectRows slot.subject) w.committed = w.committed.subjectRows slot.subject := rfl
  rw [unwrittenSeen unwritten,answer]
  refine claimStays (fun P' _ lists => .listed ⟨?_,held,lists _ _ at_ rfl⟩ writes)
  rw [locks]
  exact List.mem_append_right _ locked

theorem claimPurge {tx : Tx Tables Write Lock} {slot : Slot} {rows : List (Chosen Key)} (unwritten : tx.writes = [])
    (takes : Takes req w.committed P tx slot rows)
    (narrow : ∀ subject rows, P subject rows → P subject (rows.filter (fun row => (w.committed.chosenRow row).isSome))) :
    ClaimMove w P i req w.committed (.inside false (tx.extend engine false w.committed (.purgeRows rows))
      (replace req slot (engine.answer (.purgeRows rows) (tx.seen engine false w.committed))) claimNext) := by
  obtain ⟨writes,locks⟩ := unwrittenExtend (q := .purgeRows rows) unwritten w.committed
  refine claimStays (fun P' keeps _ => .purged ⟨?_,takes.held,keeps _ _ (narrow _ _ takes.known)⟩ writes)
  rw [locks]
  exact List.mem_append_right _ takes.locked

theorem claimUpdate {tx : Tx Tables Write Lock} {slot new : Slot} {rows : List (Chosen Key)} {gone : List (Key × Bool)}
    (writes : tx.writes = purgeWrites rows) (takes : Takes req w.committed P tx slot rows) :
    ClaimMove w P i req w.committed (.inside false (tx.extend engine false w.committed (.updateSlot req.owner new))
      (replaced slot gone (engine.answer (.updateSlot req.owner new) (tx.seen engine false w.committed))) claimNext) := by
  have held : (tx.seen engine false w.committed).slots.lookup req.owner = some slot := by
    have seen : tx.seen engine false w.committed = engine.applyAll tx.writes w.committed := rfl
    rw [seen,writes,purgeWrites,purgeSlots]
    exact takes.held
  have answer : engine.answer (.updateSlot req.owner new) (tx.seen engine false w.committed) = some new := by
    have is : engine.answer (.updateSlot req.owner new) (tx.seen engine false w.committed) =
      ((tx.seen engine false w.committed).slots.lookup req.owner).map (fun _ => new) := rfl
    rw [is,held]
    rfl
  have added : engine.writes (.updateSlot req.owner new) (tx.seen engine false w.committed) = [.slot req.owner new] := by
    have is : engine.writes (.updateSlot req.owner new) (tx.seen engine false w.committed) =
      (((tx.seen engine false w.committed).slots.lookup req.owner).map (fun _ => Write.slot req.owner new)).toList := rfl
    rw [is,held]
    rfl
  rw [answer]
  have whole : (tx.extend engine false w.committed (.updateSlot req.owner new)).writes =
      purgeWrites rows ++ [.slot req.owner new] := by
    rw [Tx.extend,added,writes]
  exact claimStays (fun P' keeps _ =>
    .updated ⟨List.mem_append_right _ takes.locked,takes.held,keeps _ _ takes.known⟩ whole)

theorem claimedSome (t : Tables) (o : String) (slot : Slot) : (((Write.slot o slot).apply t).slots.lookup o).isSome := by
  simp [Write.apply]

theorem claimCommit {tx : Tx Tables Write Lock} {b : ClaimResult}
    (at_ : w.calls i = some (.inside false tx (.done (.ok b)) claimNext))
    (shape : ClaimAt req w.committed P (.inside false tx (.done (.ok b)) claimNext)) :
    ClaimMove w P i req (engine.applyAll tx.writes w.committed) (.outside (claimNext (.ok b))) := by
  cases shape with
  | kept unwritten =>
    rw [unwritten]
    exact claimStays (fun _ _ _ => .returning)
  | @inserted _ slot _ locked none_ writes =>
    have rows (key : Key) : (engine.applyAll tx.writes w.committed).row key = w.committed.row key := by
      rw [writes]
      exact rowApply w.committed key (.slot req.owner slot)
    have slots : ((engine.applyAll tx.writes w.committed).slots.lookup req.owner).isSome := by
      rw [writes]
      exact claimedSome _ _ _
    have kept (key : Key) : (engine.applyAll tx.writes w.committed).chooseRow key = w.committed.chooseRow key := by
      rw [writes]
      rfl
    exact ⟨fun _ _ _ => .returning,fun key => .inr ⟨rows key,kept key⟩,.inr ⟨slots,_,at_,locked⟩,.inr (.inl none_)⟩
  | @updated _ slot new chosen _ takes writes =>
    have rows (key : Key) : (engine.applyAll tx.writes w.committed).row key =
        if key ∈ chosen.map Chosen.id then none else w.committed.row key := by
      rw [writes,applyAllAppend]
      refine (rowApply _ key (.slot req.owner new)).trans ?_
      exact purgeAll (fun t => t.row key) (fun t _ => rowApply t key _) (chosen.map Chosen.id) w.committed
    have kept {key : Key} (unlisted : key ∉ chosen.map Chosen.id) :
        (engine.applyAll tx.writes w.committed).chooseRow key = w.committed.chooseRow key := by
      rw [writes,applyAllAppend]
      exact purgeOthers unlisted w.committed
    have slots : ((engine.applyAll tx.writes w.committed).slots.lookup req.owner).isSome := by
      rw [writes,applyAllAppend]
      exact claimedSome _ _ _
    refine ⟨fun _ _ _ => .returning,fun key => ?_,.inr ⟨slots,_,at_,takes.locked⟩,
      .inr (.inr ⟨slot,chosen,takes.held,takes.known,fun row listed => ?_⟩)⟩
    · by_cases listed : key ∈ chosen.map Chosen.id
      · exact .inl ((rows key).trans (if_pos listed))
      · exact .inr ⟨(rows key).trans (if_neg listed),kept listed⟩
    · exact (rows row.id).trans (if_pos (List.mem_map_of_mem listed))

theorem claimOutside {t : Tables} {p : Operation} (shape : ClaimAt req t P (.outside p)) :
    p = inTx .claimed (.ask (.lockSlot req.owner) (lockFirst req)) ∨ ∃ r, p = .done r := by
  generalize is : Residual.outside p = call at shape
  cases shape with
  | called => exact .inl (Residual.outside.inj is)
  | returning => exact .inr ⟨_,Residual.outside.inj is⟩
  | _ => contradiction

theorem claimMoves {calls : Nat → Op} {e : Event Result} {after : Calls} (is : calls i = .claimSlot req)
    (shapes : ∀ old, w.calls i = some old → ClaimAt req w.committed P old)
    (narrow : ∀ subject rows, P subject rows → P subject (rows.filter (fun row => (w.committed.chosenRow row).isSome)))
    (step : Step engine (fun i => script (calls i)) w e after) (mover : e.caller = i) :
    ∃ c new, after = {w with committed := c}.put i new ∧ ClaimMove w P i req c new := by
  cases step with
  | invoke j fresh =>
    obtain rfl : j = i := mover
    refine ⟨_,_,rfl,?_⟩
    rw [is,claimScript req]
    exact claimStays (fun _ _ _ => .called)
  | auto j at_ free =>
    obtain rfl : j = i := mover
    rcases claimOutside (shapes _ at_) with same | ⟨r,same⟩
    · have none_ := congrArg (entered (L := Lock) (W := Write) (σ := Tables)) same
      contradiction
    · contradiction
  | begin j at_ =>
    obtain rfl : j = i := mover
    rcases claimOutside (shapes _ at_) with same | ⟨r,same⟩
    · have begun := congrArg (entered (L := Lock) (W := Write) (σ := Tables)) same
      refine ⟨_,_,rfl,?_⟩
      rw [Option.some.inj begun]
      exact claimStays (fun _ _ _ => .locking rfl)
    · contradiction
  | query j at_ _ =>
    obtain rfl : j = i := mover
    cases shapes _ at_ with
    | locking unwritten => exact ⟨_,_,rfl,claimLock unwritten (fun _ _ pure_ => .inserting pure_) (fun _ => rfl)⟩
    | inserting unwritten => exact ⟨_,_,rfl,claimInsert unwritten⟩
    | relocking unwritten => exact ⟨_,_,rfl,claimLock unwritten (fun _ _ pure_ => .kept pure_) (fun _ => rfl)⟩
    | purging locked held unwritten => exact ⟨_,_,rfl,claimList unwritten at_ locked held⟩
    | listed takes unwritten => exact ⟨_,_,rfl,claimPurge unwritten takes narrow⟩
    | purged takes writes => exact ⟨_,_,rfl,claimUpdate writes takes⟩
  | commit j at_ =>
    obtain rfl : j = i := mover
    have shape := shapes _ at_
    cases shape with
    | inserted locked none_ writes => exact ⟨_,_,rfl,claimCommit at_ (.inserted locked none_ writes)⟩
    | kept unwritten => exact ⟨_,_,rfl,claimCommit at_ (.kept unwritten)⟩
    | updated takes writes => exact ⟨_,_,rfl,claimCommit at_ (.updated takes writes)⟩
  | rollback j at_ =>
    obtain rfl : j = i := mover
    refine ⟨_,_,rfl,claimStays (fun _ _ _ => ?_)⟩
    cases shapes _ at_ <;> exact .returning
  | finish j at_ =>
    obtain rfl : j = i := mover
    exact ⟨_,_,rfl,claimStays (fun _ _ _ => .finished)⟩

theorem claimLater {t c : Tables} {P' : String → List (Chosen Key) → Prop} {call : Call} (shape : ClaimAt req t P call)
    (slots : (Lock.slot req.owner,Mode.exclusive) ∈ call.locks → c.slots.lookup req.owner = t.slots.lookup req.owner)
    (keeps : ∀ slot rows, (Lock.slot req.owner,Mode.exclusive) ∈ call.locks → t.slots.lookup req.owner = some slot →
      P slot.subject rows → P' slot.subject rows) : ClaimAt req c P' call := by
  cases shape with
  | called => exact .called
  | locking unwritten => exact .locking unwritten
  | inserting unwritten => exact .inserting unwritten
  | relocking unwritten => exact .relocking unwritten
  | inserted locked none_ writes => exact .inserted locked ((slots locked).trans none_) writes
  | kept unwritten => exact .kept unwritten
  | purging locked held unwritten => exact .purging locked ((slots locked).trans held) unwritten
  | listed takes unwritten =>
    exact .listed ⟨takes.locked,(slots takes.locked).trans takes.held,keeps _ _ takes.locked takes.held takes.known⟩ unwritten
  | purged takes writes =>
    exact .purged ⟨takes.locked,(slots takes.locked).trans takes.held,keeps _ _ takes.locked takes.held takes.known⟩ writes
  | updated takes writes =>
    exact .updated ⟨takes.locked,(slots takes.locked).trans takes.held,keeps _ _ takes.locked takes.held takes.known⟩ writes
  | returning => exact .returning
  | finished => exact .finished

end

structure Guarded (calls : Nat → Op) (P : String → List (Chosen Key) → Prop) (w : Calls) : Prop where
  opens : ∀ i req id call, calls i = .openDatabase req id → w.calls i = some call → OpenAt req id call
  claims : ∀ i req call, calls i = .claimSlot req → w.calls i = some call → ClaimAt req w.committed P call

inductive SlotMove (calls : Nat → Op) (P : String → List (Chosen Key) → Prop) (w : Calls) (e : Event Result) :
    Calls → Prop where
  | opens {req : OpenRequest} {id : Bytes} {c : Tables} {new : Call} (is : calls e.caller = .openDatabase req id)
      (move : OpenMove w e.caller req id c new) : SlotMove calls P w e ({w with committed := c}.put e.caller new)
  | claims {req : ClaimRequest} {c : Tables} {new : Call} (is : calls e.caller = .claimSlot req)
      (move : ClaimMove w P e.caller req c new) : SlotMove calls P w e ({w with committed := c}.put e.caller new)

section
variable {o : String} {calls : Nat → Op} {P P' : String → List (Chosen Key) → Prop} {w after : Calls} {e : Event Result}

theorem slotMoves (owned : o ≠ "") (ofOwner : ∀ i, OfOwner o (calls i)) (guarded : Guarded calls P w)
    (narrow : ∀ subject rows, P subject rows → P subject (rows.filter (fun row => (w.committed.chosenRow row).isSome)))
    (step : Step engine (fun i => script (calls i)) w e after) : SlotMove calls P w e after := by
  have owner := ofOwner e.caller
  cases is : calls e.caller with
  | openDatabase req id =>
    rw [is] at owner
    have named : req.owner ≠ "" := fun empty => owned (owner.symm.trans empty)
    obtain ⟨c,new,rfl,move⟩ := openMoves named is (fun old => guarded.opens _ req id old is) step rfl
    exact .opens is move
  | claimSlot req =>
    obtain ⟨c,new,rfl,move⟩ := claimMoves is (fun old => guarded.claims _ req old is) narrow step rfl
    exact .claims is move
  | _ =>
    rw [is] at owner
    exact False.elim owner

theorem guardedOpen {i : Nat} {req : OpenRequest} {id : Bytes} {c : Tables} {new : Call} (guarded : Guarded calls P w)
    (is : calls i = .openDatabase req id) (move : OpenMove w i req id c new)
    (keeps : ∀ j claim call slot rows, calls j = .claimSlot claim → w.calls j = some call →
      (Lock.slot claim.owner,Mode.exclusive) ∈ call.locks → w.committed.slots.lookup claim.owner = some slot →
      P slot.subject rows → P' slot.subject rows) : Guarded calls P' ({w with committed := c}.put i new) := by
  refine ⟨fun j other otherID call isOpen there => ?_,fun j claim call isClaim there => ?_⟩
  · rcases putCalls there with ⟨rfl,rfl⟩ | ⟨_,old⟩
    · cases is.symm.trans isOpen
      exact move.shape
    · exact guarded.opens j other otherID call isOpen old
  · rcases putCalls there with ⟨rfl,_⟩ | ⟨_,old⟩
    · cases is.symm.trans isClaim
    · exact claimLater (guarded.claims j claim call isClaim old) (fun _ => congrArg (AList.lookup claim.owner) move.slots)
        (fun slot rows => keeps j claim call slot rows isClaim old)

theorem guardedClaim {i : Nat} {req : ClaimRequest} {c : Tables} {new : Call} (ofOwner : ∀ i, OfOwner o (calls i))
    (compatible : w.Compatible) (guarded : Guarded calls P w) (is : calls i = .claimSlot req)
    (move : ClaimMove w P i req c new) (keeps : ∀ subject rows, P subject rows → P' subject rows)
    (lists : ∀ subject old, w.calls i = some old → purges old = some subject → P' subject (w.committed.subjectRows subject)) :
    Guarded calls P' ({w with committed := c}.put i new) := by
  refine ⟨fun j other otherID call isOpen there => ?_,fun j claim call isClaim there => ?_⟩
  · rcases putCalls there with ⟨rfl,_⟩ | ⟨_,old⟩
    · cases is.symm.trans isOpen
    · exact guarded.opens j other otherID call isOpen old
  · rcases putCalls there with ⟨rfl,rfl⟩ | ⟨differ,old⟩
    · cases is.symm.trans isClaim
      exact move.shape P' keeps lists
    · have same : claim.owner = req.owner := by
        have mine := ofOwner i
        have theirs := ofOwner j
        rw [is] at mine
        rw [isClaim] at theirs
        exact Eq.trans theirs (Eq.symm mine)
      refine claimLater (guarded.claims j claim call isClaim old) (fun locked => ?_) (fun _ _ _ _ => keeps _ _)
      rcases move.slots with unchanged | ⟨_,mine,at_,held⟩
      · exact congrArg (AList.lookup claim.owner) unchanged
      · have conflict := compatible j i call mine differ old at_ _ locked _ held (by rw [same])
        simp [Mode.conflicts] at conflict

/- What is known of the databases of a subject: they are among these rows, and no Open of the
subject is past the check and may still write. -/
structure Enclosed (calls : Nat → Op) (w : Calls) (subject : String) (rows : List (Chosen Key)) : Prop where
  listed : ∀ key, key.subject = subject → (w.committed.row key).isSome → w.committed.chooseRow key ∈ rows
  shut : ∀ i req id call, calls i = .openDatabase req id → req.key.subject = subject → w.calls i = some call →
    Idle req id call

theorem enclosedNarrow (subject : String) (rows : List (Chosen Key)) (known : Enclosed calls w subject rows) :
    Enclosed calls w subject (rows.filter (fun row => (w.committed.chosenRow row).isSome)) := by
  refine ⟨fun key there present => List.mem_filter.mpr ⟨known.listed key there present,?_⟩,known.shut⟩
  rw [chosenAtOnce]
  exact present

theorem enclosedOpen {i : Nat} {req : OpenRequest} {id : Bytes} {c : Tables} {new : Call} {subject : String}
    {rows : List (Chosen Key)} (is : calls i = .openDatabase req id) (move : OpenMove w i req id c new)
    (known : Enclosed calls w subject rows) (barred : Barred req.owner w i subject) :
    Enclosed calls ({w with committed := c}.put i new) subject rows := by
  have stays : req.key.subject = subject → Idle req id new ∧ c = w.committed := by
    intro here
    refine move.idle (fun old at_ => known.shut i req id old is here at_) ?_
    rw [here]
    exact barred
  refine ⟨fun key there present => ?_,fun j other otherID call isOpen here at_ => ?_⟩
  · by_cases own : key = req.key
    · obtain ⟨_,same⟩ := stays (own ▸ there)
      subst same
      exact known.listed key there present
    · have row : c.row key = w.committed.row key := move.rows key own
      have kept : c.chooseRow key = w.committed.chooseRow key := move.kept key
      have before : (w.committed.row key).isSome := row ▸ present
      exact kept.symm ▸ known.listed key there before
  · rcases putCalls at_ with ⟨rfl,rfl⟩ | ⟨_,old⟩
    · cases is.symm.trans isOpen
      exact (stays here).1
    · exact known.shut j other otherID call isOpen here old

theorem enclosedClaim {i : Nat} {req : ClaimRequest} {c : Tables} {new : Call} {subject : String} {rows : List (Chosen Key)}
    (is : calls i = .claimSlot req) (move : ClaimMove w P i req c new) (known : Enclosed calls w subject rows) :
    Enclosed calls ({w with committed := c}.put i new) subject (rows.filter (fun row => (c.row row.id).isSome)) := by
  refine ⟨fun key there present => ?_,fun j other otherID call isOpen here at_ => ?_⟩
  · rcases move.rows key with gone | ⟨same,kept⟩
    · have none_ : (c.row key).isSome := present
      rw [gone] at none_
      contradiction
    · have before : (w.committed.row key).isSome := same ▸ present
      exact List.mem_filter.mpr ⟨kept.symm ▸ known.listed key there before,present⟩
  · rcases putCalls at_ with ⟨rfl,_⟩ | ⟨_,old⟩
    · cases is.symm.trans isOpen
    · exact known.shut j other otherID call isOpen here old

theorem enclosedMore {subject : String} {rows more : List (Chosen Key)} (known : Enclosed calls w subject rows)
    (within : ∀ row ∈ rows, row ∈ more) : Enclosed calls w subject more :=
  ⟨fun key there present => within _ (known.listed key there present),known.shut⟩

theorem purgeLocks {t : Tables} {req : ClaimRequest} {call : Call} {subject : String} (shape : ClaimAt req t P call)
    (lists : purges call = some subject) : (Lock.slot req.owner,Mode.exclusive) ∈ call.locks := by
  cases shape with
  | purging locked => exact locked
  | _ => contradiction

theorem enclosedPurge {i : Nat} {req : ClaimRequest} {call : Call} {subject : String} (ofOwner : ∀ i, OfOwner o (calls i))
    (compatible : w.Compatible) (guarded : Guarded calls P w) (calm : Calm o calls w e) (mover : e.caller = i)
    (is : calls i = .claimSlot req) (at_ : w.calls i = some call) (lists : purges call = some subject) :
    Enclosed calls w subject (w.committed.subjectRows subject) := by
  refine ⟨fun key there present => List.mem_map_of_mem ?_,fun j other id opening isOpen here there => ?_⟩
  · exact (memSubjectKeys _ _ _).mpr ⟨Option.isSome_iff_exists.mp present,there⟩
  have differ : j ≠ i := by
    intro same
    subst same
    cases is.symm.trans isOpen
  have owner : req.owner = o := by
    have mine := ofOwner i
    rw [is] at mine
    exact mine
  have locked := purgeLocks (guarded.claims i req call is at_) lists
  subst mover
  have guardless := calm call subject at_ lists j other id opening isOpen here there
  cases guarded.opens j other id opening isOpen there with
  | called => exact .called
  | begun unwritten => exact .begun
  | returning => exact .returning
  | finished => exact .finished
  | @past tx body writes own =>
    by_cases shared : (Lock.slot o,Mode.share) ∈ tx.locks
    · have conflict := compatible j _ _ call differ there at_ _ shared _ locked (by rw [owner])
      simp [Mode.conflicts] at conflict
    · exact absurd (.opening (ownAsked own) shared) guardless

theorem barredBy {j : Nat} {claim : ClaimRequest} {call : Call} {slot : Slot} (i : Nat) (differ : j ≠ i)
    (there : w.calls j = some call) (locked : (Lock.slot claim.owner,Mode.exclusive) ∈ call.locks)
    (held : w.committed.slots.lookup claim.owner = some slot) : Barred claim.owner w i slot.subject :=
  ⟨slot,held,.inr ⟨j,call,differ,there,locked⟩⟩

theorem ownersSame {i j : Nat} {req : OpenRequest} {id : Bytes} {claim : ClaimRequest} (ofOwner : ∀ i, OfOwner o (calls i))
    (isOpen : calls i = .openDatabase req id) (isClaim : calls j = .claimSlot claim) : claim.owner = req.owner := by
  have mine := ofOwner i
  have theirs := ofOwner j
  rw [isOpen] at mine
  rw [isClaim] at theirs
  exact Eq.trans theirs (Eq.symm mine)

theorem calmStep (owned : o ≠ "") (ofOwner : ∀ i, OfOwner o (calls i)) (compatible : w.Compatible)
    (guarded : Guarded calls (Enclosed calls w) w) (calm : Calm o calls w e)
    (step : Step engine (fun i => script (calls i)) w e after) : Guarded calls (Enclosed calls after) after := by
  cases slotMoves owned ofOwner guarded enclosedNarrow step with
  | opens is move =>
    refine guardedOpen guarded is move ?_
    intro j claim call slot rows isClaim there locked held known
    refine enclosedOpen is move known ?_
    have differ : j ≠ e.caller := by
      intro same
      subst same
      cases is.symm.trans isClaim
    rw [← ownersSame ofOwner is isClaim]
    exact barredBy _ differ there locked held
  | claims is move =>
    have keeps {subject : String} {rows : List (Chosen Key)} (known : Enclosed calls w subject rows) :=
      enclosedMore (enclosedClaim is move known) (fun row member => (List.mem_filter.mp member).1)
    refine guardedClaim ofOwner compatible guarded is move (fun _ _ => keeps) ?_
    intro subject old at_ lists
    exact keeps (enclosedPurge ofOwner compatible guarded calm rfl is at_ lists)

theorem shapeStep (owned : o ≠ "") (ofOwner : ∀ i, OfOwner o (calls i)) (compatible : w.Compatible)
    (guarded : Guarded calls (fun _ _ => True) w) (step : Step engine (fun i => script (calls i)) w e after) :
    Guarded calls (fun _ _ => True) after := by
  cases slotMoves owned ofOwner guarded (fun _ _ known => known) step with
  | opens is move => exact guardedOpen guarded is move (fun _ _ _ _ _ _ _ _ _ known => known)
  | claims is move => exact guardedClaim ofOwner compatible guarded is move (fun _ _ known => known) (fun _ _ _ _ => trivial)

structure Excluded (o subject : String) (calls : Nat → Op) (w : Calls) : Prop where
  passed : ∃ slot, w.committed.slots.lookup o = some slot ∧ slot.subject ≠ subject
  known : Enclosed calls w subject []

theorem claimPasses {i : Nat} {req : ClaimRequest} {c : Tables} {new : Call} {subject : String}
    (ofOwner : ∀ i, OfOwner o (calls i)) (is : calls i = .claimSlot req) (move : ClaimMove w P i req c new)
    (some_ : (w.committed.slots.lookup o).isSome) (passed : ¬HeldBy o subject c) :
    ∃ slot, c.slots.lookup o = some slot ∧ slot.subject ≠ subject := by
  have owner : req.owner = o := by
    have mine := ofOwner i
    rw [is] at mine
    exact mine
  have there : (c.slots.lookup o).isSome := by
    rcases move.slots with same | ⟨there,_⟩
    · rw [same]
      exact some_
    · rw [← owner]
      exact there
  obtain ⟨slot,found⟩ := Option.isSome_iff_exists.mp there
  exact ⟨slot,found,fun same => passed ⟨slot,found,same⟩⟩

theorem excludedStep {subject : String} (owned : o ≠ "") (ofOwner : ∀ i, OfOwner o (calls i))
    (guarded : Guarded calls (fun _ _ => True) w) (excluded : Excluded o subject calls w)
    (step : Step engine (fun i => script (calls i)) w e after) (passed : ¬HeldBy o subject after.committed) :
    Excluded o subject calls after := by
  obtain ⟨slot,held,other⟩ := excluded.passed
  cases slotMoves owned ofOwner guarded (fun _ _ known => known) step with
  | @opens req id c new is move =>
    have owner : req.owner = o := by
      have mine := ofOwner e.caller
      rw [is] at mine
      exact mine
    refine ⟨⟨slot,(congrArg (AList.lookup o) move.slots).trans held,other⟩,enclosedOpen is move excluded.known ?_⟩
    rw [owner]
    exact ⟨slot,held,.inl other⟩
  | claims is move =>
    refine ⟨claimPasses ofOwner is move (by rw [held]; rfl) passed,?_⟩
    exact enclosedMore (enclosedClaim is move excluded.known) (fun row member => (List.mem_filter.mp member).1)

theorem replacedExcluded {subject : String} (owned : o ≠ "") (ofOwner : ∀ i, OfOwner o (calls i))
    (guarded : Guarded calls (Enclosed calls w) w) (step : Step engine (fun i => script (calls i)) w e after)
    (held : HeldBy o subject w.committed) (passed : ¬HeldBy o subject after.committed) :
    Excluded o subject calls after := by
  obtain ⟨slot,found,named⟩ := held
  cases slotMoves owned ofOwner guarded enclosedNarrow step with
  | opens is move =>
    exact absurd ⟨slot,(congrArg (AList.lookup o) move.slots).trans found,named⟩ passed
  | @claims req c new is move =>
    have owner : req.owner = o := by
      have mine := ofOwner e.caller
      rw [is] at mine
      exact mine
    refine ⟨claimPasses ofOwner is move (by rw [found]; rfl) passed,?_⟩
    rcases move.ends with same | none_ | ⟨taken,rows,there,known,gone⟩
    · exact absurd ⟨slot,(congrArg (AList.lookup o) same).trans found,named⟩ passed
    · rw [owner,found] at none_
      contradiction
    · rw [owner,found] at there
      cases there
      rw [named] at known
      refine enclosedMore (enclosedClaim is move known) (fun row member => ?_)
      obtain ⟨listed,present⟩ := List.mem_filter.mp member
      rw [gone row listed] at present
      contradiction

end

theorem calmGuarded {o : String} {calls : Nat → Op} {start : Tables} {events : List (Event Result)} {w : Calls}
    (owned : o ≠ "") (ofOwner : ∀ i, OfOwner o (calls i))
    (run : RunWhile engine (Calm o calls) (fun i => script (calls i)) start events w) :
    Guarded calls (Enclosed calls w) w := by
  induction run with
  | start => exact ⟨fun _ _ _ _ _ at_ => (nomatch at_),fun _ _ _ _ at_ => (nomatch at_)⟩
  | next earlier calm step ih => exact calmStep owned ofOwner (compatibleRun earlier.run) ih calm step

theorem sinceExcluded {o subject : String} {calls : Nat → Op} {first w : Calls} (owned : o ≠ "")
    (ofOwner : ∀ i, OfOwner o (calls i)) (compatible : first.Compatible) (guarded : Guarded calls (fun _ _ => True) first)
    (excluded : Excluded o subject calls first) (since : Since o subject calls first w) :
    w.Compatible ∧ Guarded calls (fun _ _ => True) w ∧ Excluded o subject calls w := by
  induction since with
  | now => exact ⟨compatible,guarded,excluded⟩
  | later _ step passed ih =>
    obtain ⟨compatible,guarded,excluded⟩ := ih
    exact ⟨compatibleStep step compatible,shapeStep owned ofOwner compatible guarded step,
      excludedStep owned ofOwner guarded excluded step passed⟩

theorem replacedKeyExcluded {o k1 k2 : String} {calls : Nat → Op} {start : Tables} {events : List (Event Result)}
    {w after final : Calls} {e : Event Result} (owned : o ≠ "") (ofOwner : ∀ i, OfOwner o (calls i))
    (run : RunWhile engine (Calm o calls) (fun i => script (calls i)) start events w) (calm : Calm o calls w e)
    (step : Step engine (fun i => script (calls i)) w e after) (differ : k1 ≠ k2)
    (held : HeldBy o k1 w.committed) (replaced : HeldBy o k2 after.committed) (since : Since o k1 calls after final) :
    ∀ key, key.subject = k1 → final.committed.row key = none := by
  have guarded := calmGuarded owned ofOwner run
  have compatible := compatibleRun run.run
  have passed : ¬HeldBy o k1 after.committed := by
    intro again
    obtain ⟨slot,found,named⟩ := replaced
    obtain ⟨other,foundAgain,old⟩ := again
    cases found.symm.trans foundAgain
    exact differ (old.symm.trans named)
  have excluded := replacedExcluded owned ofOwner guarded step held passed
  have next := calmStep owned ofOwner compatible guarded calm step
  have shapes : Guarded calls (fun _ _ => True) after :=
    ⟨next.opens,fun i req call is at_ => claimLater (next.claims i req call is at_) (fun _ => rfl) (fun _ _ _ _ _ => trivial)⟩
  intro key there
  have known := (sinceExcluded owned ofOwner (compatibleStep step compatible) shapes excluded since).2.2.known
  cases row : final.committed.row key with
  | none => rfl
  | some found => exact absurd (known.listed key there (by rw [row]; rfl)) List.not_mem_nil

/- The slot is claimed by the key of an Open that found no slot, and then passed on to another
key, before the Open goes on. -/
def overtaken : Nat → Op
  | 0 => .openDatabase (anOpen true [1] 0) [9]
  | 1 => .claimSlot ⟨"owner","alice",1000⟩
  | _ => .claimSlot ⟨"owner","bob",2000⟩

def overtaking : List (Event Result) :=
  [.invoked 0,.moved 0,.moved 0,.invoked 1,.moved 1,.moved 1,.moved 1,.moved 1,
   .returned 1 (.ok (.claimed ⟨⟨"alice","",1000⟩,none,[]⟩)),.invoked 2,.moved 2,.moved 2,.moved 2,.moved 2,.moved 2,.moved 2,
   .returned 2 (.ok (.claimed ⟨⟨"bob","",2000⟩,some ⟨"alice","",1000⟩,[]⟩)),.moved 0,.moved 0,.moved 0,.moved 0,
   .returned 0 (.ok (.opened ⟨⟨[9],1⟩,⟨512,0,0,[]⟩,false⟩))]

theorem replacedKeyOpens : ∃ w : Calls, Run engine (fun i => script (overtaken i)) empty overtaking w ∧
    HeldBy "owner" "bob" w.committed ∧ ((w.committed.row aKey).map Row.leaseEpoch) = some 1 := by
  have ran : (schedule engine (fun i => script (overtaken i)) [0,1,2]
      [0,0,0,1,1,1,1,1,1,2,2,2,2,2,2,2,2,0,0,0,0,0] ⟨empty,fun _ => none⟩).map Prod.fst = some overtaking := by
    decide +kernel
  have rows : (schedule engine (fun i => script (overtaken i)) [0,1,2]
      [0,0,0,1,1,1,1,1,1,2,2,2,2,2,2,2,2,0,0,0,0,0] ⟨empty,fun _ => none⟩).map (fun out =>
        (out.2.committed.slots.lookup "owner",(out.2.committed.row aKey).map Row.leaseEpoch)) =
      some (some ⟨"bob","",2000⟩,some 1) := by
    decide +kernel
  obtain ⟨w,did,run⟩ := scheduled (by decide) ran
  rw [did] at rows
  obtain ⟨slot,lease⟩ := Prod.mk.inj (Option.some.inj rows)
  exact ⟨w,run,⟨_,slot,rfl⟩,lease⟩

/- Alice's key holds the slot and has a database. It opens the database while bob's key claims the
slot, and waits for the slot until the claim has committed. -/
def passing : Nat → Op
  | 1 => .openDatabase (anOpen true [1] 20000) [8]
  | _ => .claimSlot ⟨"owner","bob",2000⟩

def aliceHolds : Tables :=
  (step (step empty (.claimSlot ⟨"owner","alice",1000⟩)).2 (.openDatabase (anOpen true [1] 0) [9])).2

def waitsForSlot : Call → Bool
  | .inside _ _ (.ask (.shareSlot _) _) _ => true
  | _ => false

def purgesCalmly (w : Calls) (i : Nat) : Bool :=
  (w.calls i).all (fun call => (purges call).isNone) || (w.calls 1).all waitsForSlot

def ownerKey (w : Calls) : Option String := (w.committed.slots.lookup "owner").map Slot.subject

def slotTakenInside : Call → Bool
  | .inside _ _ (.done (.error (.declared .slotTaken))) _ => true
  | _ => false

def handedOver (w after : Calls) : Bool :=
  ownerKey w == some "alice" && ownerKey after == some "bob" && purgesCalmly w 0

def turnedAway (last : Event Result × Calls) : Bool :=
  last.1 == .moved 1 && ownerKey last.2 == some "bob" && (last.2.calls 1).any slotTakenInside

theorem waitsGuarded {o : String} {call : Call} (waits : waitsForSlot call = true) : ¬Unguarded o call := by
  intro unguarded
  cases unguarded with
  | opening asked unlocked =>
    unfold waitsForSlot at waits
    split at waits <;> try contradiction
    rename_i is
    cases is
    exact asked trivial

theorem purgesCalm (w : Calls) (e : Event Result) (check : purgesCalmly w e.caller = true) : Calm "owner" passing w e := by
  intro claim subject there lists j req id opening is _ at_
  have only : j = 1 := by
    unfold passing at is
    split at is <;> first | rfl | contradiction
  rw [purgesCalmly,there,Option.all_some,lists,← only,at_,Option.all_some] at check
  exact waitsGuarded (by simpa using check)

theorem replacedKeyExcludedOnce : (aliceHolds.row aKey).isSome ∧ ∃ final : Calls,
    Run engine (fun i => script (passing i)) aliceHolds
      [.invoked 1,.moved 1,.invoked 0,.moved 0,.moved 0,.moved 0,.moved 0,.moved 0,.moved 0,.moved 1] final ∧
    HeldBy "owner" "bob" final.committed ∧ (final.calls 1).any slotTakenInside ∧
    ∀ key, key.subject = "alice" → final.committed.row key = none := by
  have ran : (scheduleWhile engine (fun i => script (passing i)) [0,1] purgesCalmly [1,1,0,0,0,0,0,0]
      ⟨aliceHolds,fun _ => none⟩).bind (fun out => (advance engine (fun i => script (passing i)) [0,1] out.2 0).map
        (fun moved => (out.1,moved.1,handedOver out.2 moved.2,
          (advance engine (fun i => script (passing i)) [0,1] moved.2 1).map turnedAway))) =
      some ([.invoked 1,.moved 1,.invoked 0,.moved 0,.moved 0,.moved 0,.moved 0,.moved 0],.moved 0,
        true,some true) := by
    decide +kernel
  obtain ⟨w,after,run,commits,listed,facts⟩ := scheduledWhileStep (fun (w after : Calls) =>
    (handedOver w after,(advance engine (fun i => script (passing i)) [0,1] after 1).map turnedAway))
    purgesCalm (by decide) (by decide) ran
  simp only [Prod.mk.injEq,handedOver,Bool.and_eq_true,beq_iff_eq] at facts
  obtain ⟨⟨⟨held,replaced⟩,calm⟩,rest⟩ := facts
  obtain ⟨⟨e,final⟩,moved,rest⟩ := Option.map_eq_some_iff.mp rest
  simp only [turnedAway,Bool.and_eq_true,beq_iff_eq] at rest
  obtain ⟨⟨rfl,still⟩,refused⟩ := rest
  have ofOwner (i : Nat) : OfOwner "owner" (passing i) := by
    unfold passing
    split <;> rfl
  have refuses := advanceStep listed moved
  have passed : ¬HeldBy "owner" "alice" final.committed := by
    intro again
    exact absurd (still.symm.trans (Option.map_eq_some_iff.mpr again)) (by decide)
  exact ⟨by decide +kernel,final,.next (.next run.run commits) refuses,Option.map_eq_some_iff.mp still,refused,
    replacedKeyExcluded (by decide) ofOwner run (purgesCalm w (.moved 0) calm) commits (by decide)
      (Option.map_eq_some_iff.mp held) (Option.map_eq_some_iff.mp replaced) (.later .now refuses passed)⟩

end SqliteRemote.Postgres
