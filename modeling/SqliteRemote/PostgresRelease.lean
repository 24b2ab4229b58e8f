import SqliteRemote.PostgresSlots

/-! DeleteUnused next to Opens. ReleaseUnusedSlots chooses the slots whose key has no database, waits
for the Opens that share them, and deletes them without looking at the databases again. It deletes the
slot of a key without databases as long as no Open of the key commits in between. -/
namespace SqliteRemote.Postgres
open Rows StoreContract Programs RowLocking

def Live (t : Tables) (subject : String) : Prop :=
  ∃ key row, key.subject = subject ∧ t.row key = some row ∧ row.deleted = false

def Unoccupied (t : Tables) (owners : List String) : Prop :=
  ∀ o ∈ owners, ∀ slot, t.slots.lookup o = some slot → ¬ Live t slot.subject

def chosen : Call → List String
  | .outside (.ask (.auto (.releaseSlots unused)) _) => unused.owners.map Chosen.id
  | _ => []

/- No Open commits while a call has chosen the slot of its key and not yet deleted it. -/
def Settled (calls : Nat → Op) (w : Calls) (e : Event Result) : Prop :=
  ∀ req id opening, calls e.caller = .openDatabase req id → w.calls e.caller = some opening → opening.commits = true →
    ∀ d call o slot, w.calls d = some call → o ∈ chosen call → w.committed.slots.lookup o = some slot →
      slot.subject ≠ req.key.subject

def OpensOrSweeps : Op → Prop
  | .openDatabase req _ => req.owner ≠ ""
  | .deleteUnused _ _ _ => True
  | _ => False

def releaseChosen (removed : List Key) (unused : Unused) : Operation :=
  .ask (.auto (.releaseSlots unused)) fun _ => .done (.ok (.unused removed))

def sweepEnd (cutoff : Time) (removed : List Key) : Option Failure → Operation
  | some e => .done (.error e)
  | none => .ask (.auto (.unusedSlots cutoff)) (releaseChosen removed)

def sweepNext (cutoff : Time) (removed : List Key) (key : Key) (rest : List Key) : Except Failure Bool → Operation
  | .error e => sweepEnd cutoff removed (some e)
  | .ok true => sweepAll cutoff (sweepEnd cutoff) (removed ++ [key]) rest
  | .ok false => sweepAll cutoff (sweepEnd cutoff) removed rest

theorem sweepScript (cutoff : Time) (limit : Nat) (tie : Key → Nat) :
    script (.deleteUnused cutoff limit tie) =
      .ask (.auto (.unusedDatabases cutoff (min limit (2^30)) tie)) (sweepAll cutoff (sweepEnd cutoff) []) := by
  have finish : (fun removed failed => match failed with
      | some e => .done (.error e)
      | none => .ask (.auto (.unusedSlots cutoff)) fun unused =>
          .ask (.auto (.releaseSlots unused)) fun _ => .done (.ok (.unused removed))) = sweepEnd cutoff := by
    funext removed failed
    cases failed <;> rfl
  rw [← finish]
  rfl

theorem sweepCons (cutoff : Time) (removed : List Key) (key : Key) (rest : List Key) :
    sweepAll cutoff (sweepEnd cutoff) removed (key :: rest) =
      .ask (.tx false (sweepBody cutoff key)) (sweepNext cutoff removed key rest) := by
  refine congrArg (Program.ask _) (funext fun r => ?_)
  rcases r with e | _ | _ <;> rfl

def drops : Write → Bool
  | .database _ row => row.deleted
  | .slot _ _ => false
  | .dropSlot _ => false
  | _ => true

def Dropping {β : Type} : Body β → Prop
  | .done _ => True
  | .ask q next => (∀ t, ∀ x ∈ q.writes t, drops x = true) ∧ ∀ a, Dropping (next a)

theorem droppingReads {α β : Type} {q : Query α} {next : α → Body β} (reads : ∀ t, q.writes t = [])
    (rest : ∀ a, Dropping (next a)) : Dropping (.ask q next) :=
  ⟨fun t _ member => absurd (reads t ▸ member) List.not_mem_nil,rest⟩

theorem droppingRemove (key : Key) {next : Nat → Body Bool} (rest : ∀ epoch, Dropping (next epoch)) :
    Dropping (remove key next) := by
  refine ⟨fun t x member => ?_,fun _ => ⟨fun t x member => ?_,fun _ => ⟨fun t x member => ?_,fun found => ?_⟩⟩⟩
  · rw [List.mem_singleton.mp member]
    rfl
  · rw [List.mem_singleton.mp member]
    rfl
  · obtain ⟨row,rfl⟩ := onRowWrites x member
    cases there : t.row key with
    | none => simp [Query.writes,onRow,there] at member
    | some old =>
      simp only [Query.writes,onRow,there,Option.map_some,Option.toList_some,List.mem_singleton,Write.database.injEq] at member
      rw [member.2]
      rfl
  · cases found with
    | none => trivial
    | some epoch => exact rest epoch

theorem droppingSweep (cutoff : Time) (key : Key) : Dropping (sweepBody cutoff key) := by
  refine droppingReads (fun _ => rfl) (fun found => ?_)
  cases found with
  | none => trivial
  | some row =>
    simp only
    split
    · trivial
    refine droppingReads (fun _ => rfl) (fun held => ?_)
    split
    · refine ⟨fun t x member => ?_,fun _ => trivial⟩
      rw [List.mem_singleton.mp member]
      rfl
    · exact droppingRemove key (fun _ => trivial)

inductive SweepAt (cutoff : Time) (limit : Nat) (tie : Key → Nat) (t : Tables) : Call → Prop where
  | called : SweepAt cutoff limit tie t (.outside
      (.ask (.auto (.unusedDatabases cutoff (min limit (2^30)) tie)) (sweepAll cutoff (sweepEnd cutoff) [])))
  | sweeping (removed : List Key) (key : Key) (rest : List Key) : SweepAt cutoff limit tie t (.outside
      (.ask (.tx false (sweepBody cutoff key)) (sweepNext cutoff removed key rest)))
  | inside {tx : Tx Tables Write Lock} {body : Body Bool} (removed : List Key) (key : Key) (rest : List Key)
      (writes : ∀ x ∈ tx.writes, drops x = true) (dropping : Dropping body) :
      SweepAt cutoff limit tie t (.inside false tx body (sweepNext cutoff removed key rest))
  | choosing (removed : List Key) : SweepAt cutoff limit tie t (.outside
      (.ask (.auto (.unusedSlots cutoff)) (releaseChosen removed)))
  | releasing (removed : List Key) {unused : Unused} (unoccupied : Unoccupied t (unused.owners.map Chosen.id)) :
      SweepAt cutoff limit tie t (.outside
        (.ask (.auto (.releaseSlots unused)) fun _ => .done (.ok (.unused removed))))
  | returning {r : Result} : SweepAt cutoff limit tie t (.outside (.done r))
  | finished {r : Result} : SweepAt cutoff limit tie t (.finished r)

section
variable {cutoff : Time} {limit : Nat} {tie : Key → Nat} {t : Tables}

theorem sweepLoop (removed keys : List Key) :
    SweepAt cutoff limit tie t (.outside (sweepAll cutoff (sweepEnd cutoff) removed keys)) := by
  cases keys with
  | nil => exact .choosing removed
  | cons key rest =>
    rw [sweepCons]
    exact .sweeping removed key rest

theorem sweepGoes (removed : List Key) (key : Key) (rest : List Key) (r : Except Failure Bool) :
    SweepAt cutoff limit tie t (.outside (sweepNext cutoff removed key rest r)) := by
  rcases r with e | _ | _
  · exact .returning
  · exact sweepLoop _ _
  · exact sweepLoop _ _

theorem sweepOutside {p : Operation} (shape : SweepAt cutoff limit tie t (.outside p)) {begun : Call}
    (enters : entered p = some begun) :
    ∃ removed key rest, begun = .inside false .fresh (sweepBody cutoff key) (sweepNext cutoff removed key rest) := by
  cases shape with
  | sweeping removed key rest => exact ⟨removed,key,rest,(Option.some.inj enters).symm⟩
  | _ => contradiction

theorem sweepLater {c : Tables} {call : Call}
    (keeps : ∀ owners, chosen call = owners → Unoccupied t owners → Unoccupied c owners)
    (shape : SweepAt cutoff limit tie t call) : SweepAt cutoff limit tie c call := by
  cases shape with
  | called => exact .called
  | sweeping removed key rest => exact .sweeping removed key rest
  | inside removed key rest writes dropping => exact .inside removed key rest writes dropping
  | choosing removed => exact .choosing removed
  | releasing removed unoccupied => exact .releasing removed (keeps _ rfl unoccupied)
  | returning => exact .returning
  | finished => exact .finished

end

structure Shrinks (t c : Tables) : Prop where
  slots : ∀ o slot, c.slots.lookup o = some slot → t.slots.lookup o = some slot
  live : ∀ subject, Live c subject → Live t subject

theorem shrinksSelf (t : Tables) : Shrinks t t := ⟨fun _ _ found => found,fun _ live => live⟩

theorem unoccupiedShrinks {t c : Tables} {owners : List String} (shrinks : Shrinks t c) (unoccupied : Unoccupied t owners) :
    Unoccupied c owners :=
  fun o member slot found live => unoccupied o member slot (shrinks.slots o slot found) (shrinks.live _ live)

theorem dropsSlots {writes : List Write} (each : ∀ x ∈ writes, drops x = true) (t : Tables) :
    (engine.applyAll writes t).slots = t.slots := by
  refine applyAllKeeps engine Tables.slots ?_ t
  intro x member u
  have drop := each x member
  cases x with
  | slot owner held => contradiction
  | dropSlot owner => contradiction
  | _ => rfl

theorem dropsLive {x : Write} (drop : drops x = true) {t : Tables} {subject : String} (live : Live (x.apply t) subject) :
    Live t subject := by
  obtain ⟨key,row,named,found,alive⟩ := live
  rw [rowApply] at found
  cases x with
  | database other written =>
    simp only at found
    split at found
    · cases found
      exact absurd (drop.symm.trans alive) Bool.true_eq_false_eq_False
    · exact ⟨key,row,named,found,alive⟩
  | purge other =>
    simp only at found
    split at found
    · contradiction
    · exact ⟨key,row,named,found,alive⟩
  | _ => exact ⟨key,row,named,found,alive⟩

theorem dropsAllLive {writes : List Write} (each : ∀ x ∈ writes, drops x = true) {t : Tables} {subject : String}
    (live : Live (engine.applyAll writes t) subject) : Live t subject := by
  induction writes generalizing t with
  | nil => exact live
  | cons x rest ih =>
    have before : Live (x.apply t) subject := ih (fun y member => each y (List.mem_cons_of_mem _ member)) live
    exact dropsLive (each x List.mem_cons_self) before

theorem dropsShrinks {writes : List Write} (each : ∀ x ∈ writes, drops x = true) (t : Tables) :
    Shrinks t (engine.applyAll writes t) :=
  ⟨fun o slot found => by rw [← dropsSlots each t]; exact found,fun _ live => dropsAllLive each live⟩

theorem releaseShrinks (owners : List String) (t : Tables) :
    Shrinks t (engine.applyAll (owners.map Write.dropSlot) t) := by
  obtain ⟨same,slots⟩ := dropSlots owners t
  refine ⟨fun o slot found => ?_,fun subject live => ?_⟩
  · rw [slots] at found
    split at found
    · contradiction
    · exact found
  · obtain ⟨key,row,named,found,alive⟩ := live
    exact ⟨key,row,named,(same key).row.symm.trans found,alive⟩

theorem unusedUnoccupied (cutoff : Time) (t : Tables) :
    Unoccupied t ((engine.answer (.unusedSlots cutoff) t).owners.map Chosen.id) := by
  intro o member slot found live
  obtain ⟨_,listed,rfl⟩ := List.mem_map.mp member
  obtain ⟨owner,picked,rfl⟩ := List.mem_map.mp listed
  obtain ⟨held,there,empty⟩ := (memKeysWhere t.slots _ owner).mp picked
  cases found.symm.trans there
  obtain ⟨key,row,named,present,alive⟩ := live
  have some_ : anyRow t.databases (fun key row => key.subject == slot.subject && !row.deleted) = true :=
    (anyRowIff _ _).mpr ⟨key,row,present,by simp [named,alive]⟩
  rw [Tables.unusedSlot,some_] at empty
  simp at empty

theorem releasableChosen {t : Tables} {unused : Unused} {o : String} (member : o ∈ t.releasable unused) :
    o ∈ unused.owners.map Chosen.id := by
  obtain ⟨owner,listed,rfl⟩ := List.mem_map.mp member
  exact List.mem_map_of_mem (List.mem_filter.mp listed).1

structure SweepMove (w : Calls) (cutoff : Time) (limit : Nat) (tie : Key → Nat) (c : Tables) (new : Call) : Prop where
  shape : SweepAt cutoff limit tie c new
  shrinks : Shrinks w.committed c
  released : ∀ o slot, w.committed.slots.lookup o = some slot → c.slots.lookup o = none → ¬ Live c slot.subject

section
variable {w : Calls} {i : Nat} {cutoff : Time} {limit : Nat} {tie : Key → Nat}

theorem sweepStays {new : Call} (shape : SweepAt cutoff limit tie w.committed new) :
    SweepMove w cutoff limit tie w.committed new :=
  ⟨shape,shrinksSelf _,fun _ _ had gone => absurd (had.symm.trans gone) (Option.some_ne_none _)⟩

theorem sweepReleases {unused : Unused} (unoccupied : Unoccupied w.committed (unused.owners.map Chosen.id)) {r : Result} :
    SweepMove w cutoff limit tie (engine.after (.releaseSlots unused) w.committed) (.outside (.done r)) := by
  have shrinks := releaseShrinks (w.committed.releasable unused) w.committed
  refine ⟨.returning,shrinks,fun o slot had gone live => ?_⟩
  rw [afterWrites,Query.writes,(dropSlots (w.committed.releasable unused) w.committed).2] at gone
  split at gone
  · rename_i member
    exact unoccupied o (releasableChosen member) slot had (shrinks.live _ live)
  · rw [had] at gone
    contradiction

theorem sweepMoves {calls : Nat → Op} {e : Event Result} {after : Calls} (is : calls i = .deleteUnused cutoff limit tie)
    (shapes : ∀ old, w.calls i = some old → SweepAt cutoff limit tie w.committed old)
    (step : Step engine (fun i => script (calls i)) w e after) (mover : e.caller = i) :
    ∃ c new, after = {w with committed := c}.put i new ∧ SweepMove w cutoff limit tie c new := by
  cases step with
  | invoke j fresh =>
    obtain rfl : j = i := mover
    refine ⟨_,_,rfl,?_⟩
    rw [is,sweepScript]
    exact sweepStays .called
  | auto j at_ free =>
    obtain rfl : j = i := mover
    cases shapes _ at_ with
    | called => exact ⟨_,_,rfl,sweepStays (sweepLoop _ _)⟩
    | choosing removed => exact ⟨_,_,rfl,sweepStays (.releasing removed (unusedUnoccupied cutoff w.committed))⟩
    | releasing removed unoccupied => exact ⟨_,_,rfl,sweepReleases unoccupied⟩
  | begin j at_ =>
    obtain rfl : j = i := mover
    obtain ⟨removed,key,rest,begun⟩ := sweepOutside (shapes _ at_) rfl
    refine ⟨_,_,rfl,?_⟩
    rw [begun]
    exact sweepStays (.inside removed key rest (fun _ member => absurd member List.not_mem_nil) (droppingSweep cutoff key))
  | query j at_ free =>
    obtain rfl : j = i := mover
    cases shapes _ at_ with
    | inside removed key rest writes dropping =>
      refine ⟨_,_,rfl,sweepStays (.inside removed key rest ?_ (dropping.2 _))⟩
      intro x member
      rcases List.mem_append.mp member with old | new
      · exact writes x old
      · exact dropping.1 _ x new
  | commit j at_ =>
    obtain rfl : j = i := mover
    cases shapes _ at_ with
    | @inside tx _ removed key rest writes dropping =>
      have slots := dropsSlots writes w.committed
      refine ⟨_,_,rfl,sweepGoes removed key rest _,dropsShrinks writes w.committed,fun o slot had gone => ?_⟩
      rw [slots,had] at gone
      contradiction
  | rollback j at_ =>
    obtain rfl : j = i := mover
    cases shapes _ at_ with
    | inside removed key rest writes dropping => exact ⟨_,_,rfl,sweepStays (sweepGoes removed key rest _)⟩
  | finish j at_ =>
    obtain rfl : j = i := mover
    exact ⟨_,_,rfl,sweepStays .finished⟩

end

structure Sweeping (calls : Nat → Op) (w : Calls) : Prop where
  opens : ∀ i req id call, calls i = .openDatabase req id → w.calls i = some call → OpenAt req id call
  sweeps : ∀ i cutoff limit tie call, calls i = .deleteUnused cutoff limit tie → w.calls i = some call →
    SweepAt cutoff limit tie w.committed call

section
variable {calls : Nat → Op} {w after : Calls} {e : Event Result}

inductive SweepStep (calls : Nat → Op) (w : Calls) (e : Event Result) : Calls → Prop where
  | opens {req : OpenRequest} {id : Bytes} {c : Tables} {new : Call} (is : calls e.caller = .openDatabase req id)
      (move : OpenMove w e.caller req id c new) : SweepStep calls w e ({w with committed := c}.put e.caller new)
  | sweeps {cutoff : Time} {limit : Nat} {tie : Key → Nat} {c : Tables} {new : Call}
      (is : calls e.caller = .deleteUnused cutoff limit tie) (move : SweepMove w cutoff limit tie c new) :
      SweepStep calls w e ({w with committed := c}.put e.caller new)

theorem sweepSteps (domain : ∀ i, OpensOrSweeps (calls i)) (sweeping : Sweeping calls w)
    (step : Step engine (fun i => script (calls i)) w e after) : SweepStep calls w e after := by
  have mine := domain e.caller
  cases is : calls e.caller with
  | openDatabase req id =>
    rw [is] at mine
    obtain ⟨c,new,rfl,move⟩ := openMoves mine is (fun old => sweeping.opens _ req id old is) step rfl
    exact .opens is move
  | deleteUnused cutoff limit tie =>
    obtain ⟨c,new,rfl,move⟩ := sweepMoves is (fun old => sweeping.sweeps _ cutoff limit tie old is) step rfl
    exact .sweeps is move
  | _ =>
    rw [is] at mine
    exact False.elim mine

theorem unoccupiedOpen {req : OpenRequest} {id : Bytes} {c : Tables} {new : Call} (move : OpenMove w e.caller req id c new)
    {owners : List String} (other : ∀ o ∈ owners, ∀ slot, w.committed.slots.lookup o = some slot →
      slot.subject ≠ req.key.subject) (unoccupied : Unoccupied w.committed owners) : Unoccupied c owners := by
  intro o member slot found live
  rw [move.slots] at found
  obtain ⟨key,row,named,there,alive⟩ := live
  have elsewhere : key ≠ req.key := fun same => other o member slot found (by rw [← named,same])
  exact unoccupied o member slot found ⟨key,row,named,(move.rows key elsewhere).symm.trans there,alive⟩

theorem settledStep (domain : ∀ i, OpensOrSweeps (calls i)) (sweeping : Sweeping calls w) (settled : Settled calls w e)
    (step : Step engine (fun i => script (calls i)) w e after) : Sweeping calls after := by
  have still := uncommitted engine step
  cases sweepSteps domain sweeping step with
  | @opens req id c new is move =>
    refine ⟨fun j other otherID call isOpen there => ?_,fun j cutoff limit tie call isSweep there => ?_⟩
    · rcases putCalls there with ⟨rfl,rfl⟩ | ⟨_,old⟩
      · cases is.symm.trans isOpen
        exact move.shape
      · exact sweeping.opens j other otherID call isOpen old
    · rcases putCalls there with ⟨rfl,_⟩ | ⟨_,old⟩
      · cases is.symm.trans isSweep
      · refine sweepLater (fun owners choice unoccupied => ?_) (sweeping.sweeps j cutoff limit tie call isSweep old)
        by_cases commits : ∃ opening, w.calls e.caller = some opening ∧ opening.commits = true
        · obtain ⟨opening,at_,now⟩ := commits
          refine unoccupiedOpen move (fun o member slot found => ?_) unoccupied
          exact settled req id opening is at_ now j call o slot old (choice ▸ member) found
        · have same : c = w.committed := still (fun call at_ => by
            cases now : call.commits with
            | false => rfl
            | true => exact absurd ⟨call,at_,now⟩ commits)
          rw [same]
          exact unoccupied
  | @sweeps cutoff limit tie c new is move =>
    refine ⟨fun j other otherID call isOpen there => ?_,fun j cutoff limit tie call isSweep there => ?_⟩
    · rcases putCalls there with ⟨rfl,_⟩ | ⟨_,old⟩
      · cases is.symm.trans isOpen
      · exact sweeping.opens j other otherID call isOpen old
    · rcases putCalls there with ⟨rfl,rfl⟩ | ⟨_,old⟩
      · cases is.symm.trans isSweep
        exact move.shape
      · exact sweepLater (fun _ _ => unoccupiedShrinks move.shrinks) (sweeping.sweeps j cutoff limit tie call isSweep old)

end

theorem settledSweeping {calls : Nat → Op} {start : Tables} {events : List (Event Result)} {w : Calls}
    (domain : ∀ i, OpensOrSweeps (calls i))
    (run : RunWhile engine (Settled calls) (fun i => script (calls i)) start events w) : Sweeping calls w := by
  induction run with
  | start => exact ⟨fun _ _ _ _ _ at_ => (nomatch at_),fun _ _ _ _ _ _ at_ => (nomatch at_)⟩
  | next earlier settled step ih => exact settledStep domain ih settled step

theorem releasedUnoccupied {calls : Nat → Op} {start : Tables} {events : List (Event Result)} {w after : Calls}
    {e : Event Result} {o : String} {slot : Slot} (domain : ∀ i, OpensOrSweeps (calls i))
    (run : RunWhile engine (Settled calls) (fun i => script (calls i)) start events w)
    (step : Step engine (fun i => script (calls i)) w e after) (had : w.committed.slots.lookup o = some slot)
    (gone : after.committed.slots.lookup o = none) : ¬ Live after.committed slot.subject := by
  cases sweepSteps domain (settledSweeping domain run) step with
  | opens is move =>
    have kept := congrArg (AList.lookup o) move.slots
    rw [had] at kept
    exact absurd (kept.symm.trans gone) (Option.some_ne_none _)
  | sweeps is move => exact move.released o slot had gone

def aliceIdle : Tables := (step empty (.claimSlot ⟨"owner","alice",1000⟩)).2

def sweptWhileOpening : Nat → Op
  | 0 => .openDatabase (anOpen true [1] 200000) [9]
  | _ => .deleteUnused 100000 10 (fun _ => 0)

/- The sweep chooses the slot while the Open holds it and creates the database. The Open commits, and
the sweep deletes the slot. -/
theorem releasedOccupied : ∃ (w after : Calls) (events : List (Event Result)) (e : Event Result),
    Run engine (fun i => script (sweptWhileOpening i)) aliceIdle events w ∧
    Step engine (fun i => script (sweptWhileOpening i)) w e after ∧
    w.committed.slots.lookup "owner" = some ⟨"alice","",1000⟩ ∧ after.committed.slots.lookup "owner" = none ∧
    Live after.committed "alice" := by
  have ran : (schedule engine (fun i => script (sweptWhileOpening i)) [0,1] [0,0,0,0,0,1,1,1,0,0]
      ⟨aliceIdle,fun _ => none⟩).bind (fun out => (advance engine (fun i => script (sweptWhileOpening i)) [0,1] out.2 1).map
        (fun moved => (out.1,out.2.committed.slots.lookup "owner",moved.2.committed.slots.lookup "owner",
          (moved.2.committed.row aKey).map Row.deleted))) =
      some ([.invoked 0,.moved 0,.moved 0,.moved 0,.moved 0,.invoked 1,.moved 1,.moved 1,.moved 0,.moved 0],
        some ⟨"alice","",1000⟩,none,some false) := by
    decide +kernel
  obtain ⟨w,e,after,run,deletes,facts⟩ := scheduledStep
    (fun (w after : Calls) => (w.committed.slots.lookup "owner",after.committed.slots.lookup "owner",
      (after.committed.row aKey).map Row.deleted)) (by decide) ran
  obtain ⟨had,rest⟩ := Prod.mk.inj facts
  obtain ⟨gone,live⟩ := Prod.mk.inj rest
  obtain ⟨row,found,alive⟩ := Option.map_eq_some_iff.mp live
  exact ⟨w,after,_,e,run,deletes,had,gone,aKey,row,rfl,found,alive⟩

/- The Open that holds the slot beside the sweep finds no database and is rolled back. -/
def sweptWhileMissing : Nat → Op
  | 0 => .openDatabase (anOpen false [1] 200000) [9]
  | _ => .deleteUnused 100000 10 (fun _ => 0)

def opensNothing (w : Calls) (i : Nat) : Bool := decide (i ≠ 0) || (w.calls 0).all (fun call => !call.commits)

theorem opensNothingSettled (w : Calls) (e : Event Result) (check : opensNothing w e.caller = true) :
    Settled sweptWhileMissing w e := by
  intro req id opening is at_ commits
  have only : e.caller = 0 := by
    unfold sweptWhileMissing at is
    split at is <;> first | assumption | contradiction
  rw [only] at at_
  simp [opensNothing,only,at_,commits] at check

theorem releasedUnoccupiedIdle : ∃ w after : Calls, Run engine (fun i => script (sweptWhileMissing i)) aliceIdle
      [.invoked 0,.moved 0,.moved 0,.invoked 1,.moved 1,.moved 1,.moved 0,.moved 0] w ∧
    Step engine (fun i => script (sweptWhileMissing i)) w (.moved 1) after ∧
    w.committed.slots.lookup "owner" = some ⟨"alice","",1000⟩ ∧
    after.committed.slots.lookup "owner" = none ∧ ¬ Live after.committed "alice" := by
  have ran : (scheduleWhile engine (fun i => script (sweptWhileMissing i)) [0,1] opensNothing [0,0,0,1,1,1,0,0]
      ⟨aliceIdle,fun _ => none⟩).bind (fun out => (advance engine (fun i => script (sweptWhileMissing i)) [0,1] out.2 1).map
        (fun moved => (out.1,moved.1,out.2.committed.slots.lookup "owner",moved.2.committed.slots.lookup "owner"))) =
      some ([.invoked 0,.moved 0,.moved 0,.invoked 1,.moved 1,.moved 1,.moved 0,.moved 0],.moved 1,
        some ⟨"alice","",1000⟩,none) := by
    decide +kernel
  obtain ⟨w,after,run,deletes,_,facts⟩ := scheduledWhileStep
    (fun (w after : Calls) => (w.committed.slots.lookup "owner",after.committed.slots.lookup "owner"))
    opensNothingSettled (by decide) (by decide) ran
  obtain ⟨had,gone⟩ := Prod.mk.inj facts
  have domain (i : Nat) : OpensOrSweeps (sweptWhileMissing i) := by
    cases i with
    | zero => exact (by decide : ("owner" : String) ≠ "")
    | succ i => trivial
  exact ⟨w,after,run.run,deletes,had,gone,releasedUnoccupied domain run deletes had gone⟩

end SqliteRemote.Postgres
