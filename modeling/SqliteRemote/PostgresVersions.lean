import SqliteRemote.MemoryVersions
import SqliteRemote.PostgresRecords

/-! Versions and epochs of the PostgreSQL store under calls whose statements interleave. While the row
of a database stays, its version and its epoch only rise, the version stands for one content, and a
lease that was released is not held again under its epoch. -/
namespace SqliteRemote.Postgres
open Rows StoreContract Programs RowLocking
open MemoryStore (Database Store Change record)

/- The same blocks, log and last commit; unless it was deleted, also the same pages. -/
structure SameContent (t u : Tables) (k : Key) (row new : Row) : Prop where
  parts : ∀ idx n, u.part k idx n = t.part k idx n
  log : ∀ v, u.change k v = t.change k v
  last : new.lastCommitID.getD [] = row.lastCommitID.getD []
  pages : row.deleted = false → new.deleted = false ∧ new.pageSize = row.pageSize ∧ new.pageCount = row.pageCount

structure Advances (t u : Tables) (k : Key) (row new : Row) : Prop where
  version : row.version ≤ new.version
  epoch : row.leaseEpoch ≤ new.leaseEpoch
  content : new.version = row.version → SameContent t u k row new
  released : new.leaseEpoch = row.leaseEpoch → row.leaseHolder = none → new.leaseHolder = none

section
variable {t u v : Tables} {k : Key} {row mid new : Row}

theorem advancesRefl (t : Tables) (k : Key) (row : Row) : Advances t t k row row :=
  ⟨Nat.le_refl _,Nat.le_refl _,fun _ => ⟨fun _ _ => rfl,fun _ => rfl,rfl,fun live => ⟨live,rfl,rfl⟩⟩,fun _ free => free⟩

theorem advancesTrans (first : Advances t u k row mid) (second : Advances u v k mid new) : Advances t v k row new := by
  refine ⟨Nat.le_trans first.version second.version,Nat.le_trans first.epoch second.epoch,fun same => ?_,fun same free => ?_⟩
  · have low := first.version
    have high := second.version
    have before := first.content (by omega)
    have after := second.content (by omega)
    refine ⟨fun idx n => (after.parts idx n).trans (before.parts idx n),fun x => (after.log x).trans (before.log x),
      after.last.trans before.last,fun live => ?_⟩
    obtain ⟨still,size,count⟩ := before.pages live
    obtain ⟨live,sizeToo,countToo⟩ := after.pages still
    exact ⟨live,sizeToo.trans size,countToo.trans count⟩
  · have low := first.epoch
    have high := second.epoch
    exact second.released (by omega) (first.released (by omega) free)

theorem advancesSame (same : SameRows t u k) (was : t.row k = some row) (is : u.row k = some new) : Advances t u k row new := by
  cases (same.row.trans was).symm.trans is
  exact ⟨Nat.le_refl _,Nat.le_refl _,fun _ => ⟨same.part,same.change,rfl,fun live => ⟨live,rfl,rfl⟩⟩,fun _ free => free⟩

theorem contentSame {before after : Database} (known : Known t k before row) (later : Known u k after new)
    (same : MemoryStore.SameData before after) : SameContent t u k row new := by
  refine ⟨fun idx n => ?_,fun x => Option.ext fun listed => ?_,?_,fun live => ?_⟩
  · have left := known.blocks idx.toUInt64 n
    have right := later.blocks idx.toUInt64 n
    rw [Int64.toInt64_toUInt64] at left right
    rw [left,right,same.blocks]
  · rw [later.log x listed,known.log x listed,same.changes]
  · rw [later.same.last,known.same.last,same.last]
  · obtain ⟨still,state⟩ := same.live (known.same.deleted.symm.trans live)
    refine ⟨later.same.deleted.trans still,?_,?_⟩
    · rw [later.same.pageSize,known.same.pageSize,state]
    · rw [later.same.pageCount,known.same.pageCount,state]

theorem advancesRecord {s : Store} {op : Op} {reply : Answer} {before after : Database} (known : Known t k before row)
    (later : Known u k after new) (was : record s k = some before)
    (did : MemoryStore.RecordStep s k op reply (some after)) : Advances t u k row new := by
  obtain ⟨epochs,free⟩ := MemoryStore.leaseStep did was
  have epoch : row.leaseEpoch ≤ new.leaseEpoch := by rwa [known.same.epoch,later.same.epoch]
  have released : new.leaseEpoch = row.leaseEpoch → row.leaseHolder = none → new.leaseHolder = none := by
    rw [known.same.epoch,later.same.epoch,known.same.holder,later.same.holder]
    exact fun same => free same.symm
  have versions : row.version = before.state.version ∧ new.version = after.state.version :=
    ⟨known.same.version,later.same.version⟩
  rcases MemoryStore.dataStep did was with same | ⟨req,_,_,_,_,rfl⟩ | ⟨rfl,_⟩
  · exact ⟨by rw [versions.1,versions.2,same.version],epoch,fun _ => contentSame known later same,released⟩
  · have rises : (before.apply req).state.version = before.state.version+1 := rfl
    exact ⟨by omega,epoch,fun same => absurd same (by omega),released⟩
  · have rises : before.remove.state.version = before.state.version+1 := rfl
    exact ⟨by omega,epoch,fun same => absurd same (by omega),released⟩

end

inductive Stays (ops : Nat → Op) (k : Key) : Calls → Calls → Prop where
  | here (w : Calls) : Stays ops k w w
  | next {start w after : Calls} {e : Event Result} (earlier : Stays ops k start w)
      (step : Step engine (fun i => script (ops i)) w e after) (there : (after.committed.row k).isSome) :
      Stays ops k start after

section
variable {ops : Nat → Op} {events : List (Event Result)} {start w after : Calls} {e : Event Result} {k : Key}

theorem staysRun (stays : Stays ops k start w) (run : Run engine (fun i => script (ops i)) empty events start) :
    ∃ more, Run engine (fun i => script (ops i)) empty more w := by
  induction stays with
  | here => exact ⟨events,run⟩
  | next _ step _ ih =>
    obtain ⟨more,reached⟩ := ih
    exact ⟨_,.next reached step⟩

section
variable (small : ∀ i req, ops i = .commit req → req.pageCount.toNat < 2^63)
include small

theorem advancesStep (run : Run engine (fun i => script (ops i)) empty events w)
    (step : Step engine (fun i => script (ops i)) w e after) {row new : Row} (was : w.committed.row k = some row)
    (is : after.committed.row k = some new) : Advances w.committed after.committed k row new := by
  rcases actedEach small run step k with same | acted
  · exact advancesSame same was is
  obtain ⟨cur,recorded⟩ := recordedRun small run k
  obtain ⟨s,valid,rfl,later,_⟩ := acted cur recorded
  have did := MemoryStore.recordStep valid.unheld (truncated (ops e.caller)) k
  generalize found : record s k = cur at recorded
  generalize record (MemoryStore.step s (truncated (ops e.caller))).2 k = next at later did
  cases recorded.represents with
  | absent row _ _ => cases row.symm.trans was
  | present known =>
    cases known.found.symm.trans was
    cases later.represents with
    | absent row _ _ => cases row.symm.trans is
    | present knownToo =>
      cases knownToo.found.symm.trans is
      exact advancesRecord known knownToo found did

theorem rowsCounted (run : Run engine (fun i => script (ops i)) empty events w) {row : Row}
    (found : w.committed.row k = some row) : row.version ≤ events.length ∧ row.leaseEpoch ≤ events.length := by
  induction run generalizing row with
  | start => cases found
  | @next events w after e earlier step ih =>
    rw [List.length_append]
    rcases actedEach small earlier step k with same | acted
    · obtain ⟨version,epoch⟩ := ih (same.row.symm.trans found)
      exact ⟨Nat.le_succ_of_le version,Nat.le_succ_of_le epoch⟩
    obtain ⟨cur,recorded⟩ := recordedRun small earlier k
    obtain ⟨s,valid,is,later,_⟩ := acted cur recorded
    have low : MemoryStore.Counted events.length (record s k) := by
      intro db there
      cases is.symm.trans there
      cases recorded.represents with
      | present known =>
        have bounds := ih known.found
        rwa [known.same.version,known.same.epoch] at bounds
    have high := MemoryStore.countedStep (MemoryStore.recordStep valid.unheld (truncated (ops e.caller)) k) low
    generalize record (MemoryStore.step s (truncated (ops e.caller))).2 k = next at later high
    cases later.represents with
    | absent row _ _ => cases row.symm.trans found
    | present known =>
      cases known.found.symm.trans found
      rw [known.same.version,known.same.epoch]
      exact high _ rfl

theorem advancesStays (run : Run engine (fun i => script (ops i)) empty events start) (stays : Stays ops k start w)
    {row new : Row}
    (was : start.committed.row k = some row) (is : w.committed.row k = some new) :
    Advances start.committed w.committed k row new := by
  induction stays generalizing new with
  | here =>
    cases was.symm.trans is
    exact advancesRefl _ k row
  | @next mid after e earlier step there ih =>
    obtain ⟨more,reached⟩ := staysRun earlier run
    -- The row was there before the step as well: at the start, or because it stays.
    have present : (mid.committed.row k).isSome := by
      cases earlier with
      | here => rw [was]; rfl
      | next _ _ there => exact there
    obtain ⟨between,found⟩ := Option.isSome_iff_exists.mp present
    exact advancesTrans (ih found) (advancesStep small reached step found is)

theorem versionsUnderInterleaving (run : Run engine (fun i => script (ops i)) empty events start)
    (stays : Stays ops k start w) {row new : Row}
    (was : start.committed.row k = some row) (is : w.committed.row k = some new) :
    row.version ≤ new.version ∧ row.leaseEpoch ≤ new.leaseEpoch ∧
    (new.version = row.version → SameContent start.committed w.committed k row new) ∧
    (new.leaseEpoch = row.leaseEpoch → row.leaseHolder = none → new.leaseHolder = none) := by
  have advances := advancesStays small run stays was is
  exact ⟨advances.version,advances.epoch,advances.content,advances.released⟩

end

end

def versionsOf (k : Key) (before after : Calls) : Option (Nat × Nat) :=
  (before.committed.row k).bind fun row => (after.committed.row k).map fun new => (row.version,new.version)

theorem versionsUnderInterleavingCommitted : ∃ start w row new, Stays replacedWhileCommitting aKey start w ∧
    start.committed.row aKey = some row ∧ w.committed.row aKey = some new ∧ row.version = 0 ∧ new.version = 1 ∧
    row.leaseEpoch ≤ new.leaseEpoch := by
  have ran : ((schedule engine (fun i => script (replacedWhileCommitting i)) [0,1,2,3]
      ([0,0,0,0,0,0] ++ [1,1,1,1,1,1,1,1] ++ [2,2,2,3,3,3,3,2,2,2,2]) ⟨empty,fun _ => none⟩).bind (fun out =>
        (advance engine (fun i => script (replacedWhileCommitting i)) [0,1,2,3] out.2 2).map
          (fun moved => (out.1,versionsOf aKey out.2 moved.2)))).map Prod.snd = some (some (0,1)) := by
    decide +kernel
  obtain ⟨⟨events,_⟩,did,same⟩ := Option.map_eq_some_iff.mp ran
  cases same
  obtain ⟨start,e,w,run,step,shown⟩ := scheduledStep (versionsOf aKey) (by decide) did
  obtain ⟨row,was,shown⟩ := Option.bind_eq_some_iff.mp shown
  obtain ⟨new,is,shown⟩ := Option.map_eq_some_iff.mp shown
  have stays : Stays replacedWhileCommitting aKey start w := .next (.here start) step (by rw [is]; rfl)
  exact ⟨start,w,row,new,stays,was,is,congrArg Prod.fst shown,congrArg Prod.snd shown,
    (versionsUnderInterleaving replacedSmall run stays was is).2.1⟩

inductive Keeping (ops : Nat → Op) (k : Key) : List (Event Result) → Calls → Prop where
  | start : Keeping ops k [] ⟨empty,fun _ => none⟩
  | next {events : List (Event Result)} {w after : Calls} {e : Event Result} (earlier : Keeping ops k events w)
      (step : Step engine (fun i => script (ops i)) w e after)
      (keeps : (w.committed.row k).isSome → (after.committed.row k).isSome) : Keeping ops k (events ++ [e]) after

section
variable {ops : Nat → Op} {events : List (Event Result)} {v w : Calls} {k : Key}

theorem keepingRun (keeping : Keeping ops k events w) : Run engine (fun i => script (ops i)) empty events w := by
  induction keeping with
  | start => exact .start
  | next _ step _ ih => exact .next ih step

theorem staysThere (stays : Stays ops k v w) (there : (v.committed.row k).isSome) : (w.committed.row k).isSome := by
  cases stays with
  | here => exact there
  | next _ _ there => exact there

theorem keepingPart (keeping : Keeping ops k events w) {earlier later : List (Event Result)}
    (split : events = earlier ++ later) : ∃ v, Keeping ops k earlier v := by
  induction keeping generalizing later with
  | start =>
    cases (List.append_eq_nil_iff.mp split.symm).1
    exact ⟨_,.start⟩
  | @next events w after e before step keeps ih =>
    rcases List.eq_nil_or_concat later with rfl | ⟨more,last,rfl⟩
    · rw [List.append_nil] at split
      subst split
      exact ⟨after,.next before step keeps⟩
    · rw [List.concat_eq_append,← List.append_assoc] at split
      exact ih (List.append_inj' split rfl).1

theorem keepingStays (keeping : Keeping ops k events w) {earlier later : List (Event Result)}
    (split : events = earlier ++ later) (run : Run engine (fun i => script (ops i)) empty earlier v)
    (there : (v.committed.row k).isSome) : Stays ops k v w := by
  induction keeping generalizing later with
  | start =>
    cases List.append_eq_nil_iff.mp split.symm with
    | intro none_ _ =>
      subst none_
      cases runUnique run .start
      exact .here _
  | @next events w after e before step keeps ih =>
    rcases List.eq_nil_or_concat later with rfl | ⟨more,last,rfl⟩
    · rw [List.append_nil] at split
      subst split
      cases runUnique run (keepingRun (.next before step keeps))
      exact .here _
    · rw [List.concat_eq_append,← List.append_assoc] at split
      obtain ⟨same,_⟩ := List.append_inj' split rfl
      have stays := ih same
      exact .next stays step (keeps (staysThere stays there))

theorem acknowledgedKnown {s : Store} {u : Tables} {key : Key} {db : Database} (here : key = k)
    (later : Recorded u k (record (s.put key db) k)) : ∃ new, Known u k db new := by
  subst here
  rw [MemoryStore.recordPut,if_pos rfl] at later
  cases later.represents with
  | present known => exact ⟨_,known⟩

theorem acknowledgedRow {t u : Tables} {cur : Option Database} {req : CommitRequest} {version : Nat}
    (recorded : Recorded t k cur) (here : req.key = k) (acted : Acted k (.commit req) t u (some (.ok (.version version)))) :
    ∃ new, u.row k = some new ∧ new.version = version ∧ new.lastCommitID.getD [] = req.commitID := by
  obtain ⟨s,_,_,later,replies⟩ := acted cur recorded
  have reply := replies _ rfl
  have outcome := MemoryStore.commitStep s (truncatedCommit req)
  simp only [truncated,MemoryStore.step] at later reply
  generalize s.commit (truncatedCommit req) = out at outcome later reply
  cases outcome with
  | refused e => cases reply
  | @repeated db found held again =>
    cases reply
    simp only [Database.repeats,Bool.and_eq_true,beq_iff_eq] at again
    obtain ⟨new,known⟩ := acknowledgedKnown here later
    exact ⟨new,known.found,known.same.version,known.same.last.trans again.2⟩
  | applied found held base valid =>
    cases reply
    obtain ⟨new,known⟩ := acknowledgedKnown here later
    exact ⟨new,known.found,known.same.version,known.same.last⟩

section
variable (small : ∀ i req, ops i = .commit req → req.pageCount.toNat < 2^63)
include small

theorem acknowledgedAfter (run : Run engine (fun i => script (ops i)) empty events w) {i : Nat} {req : CommitRequest}
    {version : Nat} (is : ops i = .commit req) (here : req.key = k)
    (returned : Event.returned i (.ok (.version version)) ∈ events) :
    ∃ earlier later v new, events = earlier ++ later ∧ Run engine (fun i => script (ops i)) empty earlier v ∧
      v.committed.row k = some new ∧ new.version = version ∧ new.lastCommitID.getD [] = req.commitID := by
  have known : Acknowledges k (ops i) (.version version) := by
    rw [is]
    exact ⟨here,fun _ _ _ => Op.noConfusion⟩
  obtain ⟨earlier,later,before,after,split,_,_,came,step,acted⟩ := landedActed small run k returned known
  obtain ⟨cur,recorded⟩ := recordedRun small came k
  rw [is] at acted
  obtain ⟨new,found,same,last⟩ := acknowledgedRow recorded here acted
  refine ⟨earlier ++ [.moved i],later,after,new,?_,.next came step,found,same,last⟩
  rw [split,List.append_assoc]
  rfl

theorem sameLast (keeping : Keeping ops k events w) {earlier more later : List (Event Result)} {u : Calls}
    (split : events = earlier ++ more ++ later) (first : Run engine (fun i => script (ops i)) empty earlier v)
    (second : Run engine (fun i => script (ops i)) empty (earlier ++ more) u) {row new : Row}
    (was : v.committed.row k = some row) (is : u.committed.row k = some new) (same : new.version = row.version) :
    new.lastCommitID.getD [] = row.lastCommitID.getD [] := by
  obtain ⟨middle,kept⟩ := keepingPart keeping split
  cases runUnique second (keepingRun kept)
  have stays := keepingStays kept rfl first (by rw [was]; rfl)
  exact ((advancesStays small first stays was is).content same).last

theorem acknowledgedApart (keeping : Keeping ops k events w) {i j : Nat} {a b : CommitRequest} {version : Nat}
    (first : ops i = .commit a) (second : ops j = .commit b) (here : a.key = k)
    (also : b.key = k) (one : Event.returned i (.ok (.version version)) ∈ events)
    (other : Event.returned j (.ok (.version version)) ∈ events) : a.commitID = b.commitID := by
  have run := keepingRun keeping
  obtain ⟨before,after,v,row,split,reached,found,is,last⟩ := acknowledgedAfter small run first here one
  obtain ⟨start,rest,u,new,parts,came,there,same,id⟩ := acknowledgedAfter small run second also other
  -- The states after the two commits are states of one run, so one of them comes first.
  rcases List.append_eq_append_iff.mp (split.symm.trans parts) with ⟨more,rfl,rfl⟩ | ⟨more,rfl,rfl⟩
  · rw [← List.append_assoc] at split
    rw [← last,← id]
    exact (sameLast small keeping split reached came found there (same.trans is.symm)).symm
  · rw [← List.append_assoc] at parts
    rw [← last,← id]
    exact sameLast small keeping parts came reached there found (is.trans same.symm)

end

end

def leavesRow (k : Key) (w : Calls) (i : Nat) : Bool :=
  (w.calls i).all fun call => (w.committed.row k).isNone || ((call.moved engine w.committed).1.row k).isSome

theorem keepingWhile {ops : Nat → Op} {k : Key} {events : List (Event Result)} {w : Calls}
    (run : RunWhile engine (fun w e => leavesRow k w e.caller = true) (fun i => script (ops i)) empty events w) :
    Keeping ops k events w := by
  induction run with
  | start => exact .start
  | @next events w after e earlier met step ih =>
    refine .next ih step (fun there => ?_)
    rcases stepMoved step with ⟨i,rfl,rfl⟩ | ⟨call,at_,rfl,_⟩
    · exact there
    · rw [leavesRow,at_,Option.all_some,Bool.or_eq_true] at met
      rcases met with none_ | some_
      · rw [Option.isNone_iff_eq_none.mp none_] at there
        contradiction
      · exact some_

def sentAgain : CommitRequest := {aCommit [1] 0 1 [aBlock 0] with now := 4321}

def committedTwice : Nat → Op
  | 0 => .openDatabase (anOpen true [1] 1234) [9]
  | 1 => .commit (aCommit [1] 0 2 [aBlock 1])
  | 2 => .commit sentAgain
  | _ => .getSlot "owner"

theorem acknowledgedApartRepeated : ∃ events w, Keeping committedTwice aKey events w ∧
    Event.returned 1 (.ok (.version 1)) ∈ events ∧ Event.returned 2 (.ok (.version 1)) ∈ events ∧
    aCommit [1] 0 2 [aBlock 1] ≠ sentAgain ∧ (aCommit [1] 0 2 [aBlock 1]).commitID = sentAgain.commitID := by
  have ran : (scheduleWhile engine (fun i => script (committedTwice i)) [0,1,2] (leavesRow aKey)
      ([0,0,0,0,0,0,0,0] ++ [1,1,1,2,2,1,1,1,1,1,1,2,2,2,2]) ⟨empty,fun _ => none⟩).map (fun out =>
        out.1.contains (.returned 1 (.ok (.version 1))) && out.1.contains (.returned 2 (.ok (.version 1)))) = some true := by
    decide +kernel
  have small : ∀ i req, committedTwice i = .commit req → req.pageCount.toNat < 2^63 := by
    intro i req is
    rcases i with _ | _ | _ | i
    all_goals cases is
    all_goals decide
  have differ : aCommit [1] 0 2 [aBlock 1] ≠ sentAgain := by
    intro same
    exact absurd (congrArg CommitRequest.pageCount same) (by decide)
  obtain ⟨⟨events,w⟩,did,shown⟩ := Option.map_eq_some_iff.mp ran
  rw [Bool.and_eq_true,List.contains_iff_mem,List.contains_iff_mem] at shown
  have keeping := keepingWhile (scheduleWhileRun (fun _ _ met => met) (by decide)
    (fun _ there => Bool.noConfusion there) did .start).1
  exact ⟨events,w,keeping,shown.1,shown.2,differ,acknowledgedApart small keeping rfl rfl rfl rfl shown.1 shown.2⟩

end SqliteRemote.Postgres
