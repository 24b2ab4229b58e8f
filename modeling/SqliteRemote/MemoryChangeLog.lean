import SqliteRemote.MemoryCatchUp

/-! The change log of a record over its lifetime. The log is cut at its window, emptied by a deletion
and goes on at the next version when the database is created anew, so it always holds the commits
after the later of the last deletion and the edge of the window. -/
namespace SqliteRemote.MemoryStore
open Rows StoreContract

def outlives (k : Key) (seen : List Event) (e : Event) : List Event :=
  if (record e.after k).isSome then seen ++ [e] else []

def lifetime (k : Key) (events : List Event) : List Event := events.foldl (outlives k) []

def deletionAt (k : Key) (e : Event) : Option Nat :=
  (record e.after k).bind fun after =>
    if after.deleted && (record e.before k).any (fun before => !before.deleted) then some after.state.version else none

def lastDeletion (k : Key) (life : List Event) : Nat := ((life.filterMap (deletionAt k)).getLast?).getD 0

theorem lifetimeSnoc (k : Key) (events : List Event) (e : Event) :
    lifetime k (events ++ [e]) = outlives k (lifetime k events) e := List.foldl_concat ..

theorem undeletedSnoc {k : Key} {life : List Event} {e : Event} (none_ : deletionAt k e = none) :
    lastDeletion k (life ++ [e]) = lastDeletion k life := by
  simp [lastDeletion,none_]

theorem deletedSnoc {k : Key} {life : List Event} {e : Event} {v : Nat} (some_ : deletionAt k e = some v) :
    lastDeletion k (life ++ [e]) = v := by
  simp [lastDeletion,some_]

/- What the log of a record says about its lifetime. -/
structure Logs (k : Key) (life : List Event) (db : Database) : Prop where
  past : lastDeletion k life ≤ db.state.version
  length : db.changes.length = min (db.state.version-lastDeletion k life) changeWindow
  bounded : ∀ e ∈ life, ∀ req, AppliedAt k req e → versionOf k e.after ≤ db.state.version
  logged : ∀ e ∈ life, ∀ req, AppliedAt k req e → db.state.version < versionOf k e.after+db.changes.length →
    ⟨versionOf k e.after,touched req.blocks⟩ ∈ db.changes
  source : ∀ c ∈ db.changes, ∃ e ∈ life, ∃ req, AppliedAt k req e ∧ versionOf k e.after = c.version ∧
    c.blocks = touched req.blocks

theorem appliedVersion {k : Key} {req : CommitRequest} {e : Event} (applied : AppliedAt k req e) :
    versionOf k e.after = versionOf k e.before+1 := by
  obtain ⟨_,_,_,db,found,_,there⟩ := applied
  rw [versionFound found,versionFound there]
  rfl

section
variable {k : Key} {life : List Event} {e : Event} {before after : Database}

theorem logsCreated {req : OpenRequest} {id : Bytes} (missing : record e.before k = none)
    (there : record e.after k = some ((Database.fresh req.pageSize).grant req id)) :
    Logs k [e] ((Database.fresh req.pageSize).grant req id) := by
  have undeleted : deletionAt k e = none := by simp [deletionAt,there,missing]
  have unapplied : ∀ req, ¬AppliedAt k req e := by
    rintro req ⟨_,_,_,db,found,_⟩
    rw [missing] at found
    contradiction
  have start : lastDeletion k ([] ++ [e]) = 0 := undeletedSnoc undeleted
  rw [List.nil_append] at start
  refine ⟨by rw [start]; exact Nat.zero_le _,by rw [start]; rfl,?_,?_,fun c member => absurd member List.not_mem_nil⟩
  · intro a member req applied
    exact absurd (List.mem_singleton.mp member ▸ applied) (unapplied req)
  · intro a member req applied
    exact absurd (List.mem_singleton.mp member ▸ applied) (unapplied req)

theorem logsSame (found : record e.before k = some before) (there : record e.after k = some after)
    (logs : Logs k life before) (same : SameData before after) : Logs k (life ++ [e]) after := by
  have undeleted : deletionAt k e = none := by
    cases dead : before.deleted with
    | true => simp [deletionAt,there,found,dead]
    | false => simp [deletionAt,there,(same.live dead).1]
  have earlier {a : Event} {req : CommitRequest} (member : a ∈ life ++ [e]) (applied : AppliedAt k req a) : a ∈ life := by
    rcases List.mem_append.mp member with old | last
    · exact old
    · rw [List.mem_singleton.mp last] at applied
      have moved := appliedVersion applied
      rw [versionFound found,versionFound there,same.version] at moved
      omega
  refine ⟨?_,?_,?_,?_,?_⟩
  · rw [undeletedSnoc undeleted,same.version]
    exact logs.past
  · rw [undeletedSnoc undeleted,same.version,same.changes]
    exact logs.length
  · intro a member req applied
    rw [same.version]
    exact logs.bounded a (earlier member applied) req applied
  · intro a member req applied
    rw [same.version,same.changes]
    exact logs.logged a (earlier member applied) req applied
  · intro c member
    rw [same.changes] at member
    obtain ⟨a,old,from_⟩ := logs.source c member
    exact ⟨a,List.mem_append_left _ old,from_⟩

theorem logsApplied {req : CommitRequest} (valid : Wellformed before) (found : record e.before k = some before)
    (there : record e.after k = some (before.apply req)) (applied : AppliedAt k req e)
    (logs : Logs k life before) : Logs k (life ++ [e]) (before.apply req) := by
  have undeleted : deletionAt k e = none := by
    cases dead : before.deleted with
    | true => simp [deletionAt,there,found,dead]
    | false =>
      have live : (before.apply req).deleted = false := dead
      simp [deletionAt,there,live]
  have length : (before.apply req).changes.length = min (before.changes.length+1) changeWindow := by
    show (lastChanges _).length = _
    rw [lastChangesLength,List.length_append,List.length_singleton]
  have version : (before.apply req).state.version = before.state.version+1 := rfl
  have past := logs.past
  have before_ := logs.length
  refine ⟨?_,?_,?_,?_,?_⟩
  · rw [undeletedSnoc undeleted,version]
    omega
  · rw [undeletedSnoc undeleted,version,length,before_]
    omega
  · intro a member other again
    rw [version]
    rcases List.mem_append.mp member with old | last
    · exact Nat.le_succ_of_le (logs.bounded a old other again)
    · rw [List.mem_singleton.mp last,versionFound there]
      exact Nat.le_refl _
  · intro a member other again near
    rw [version] at near
    refine (appliedMember valid req _).mpr ⟨?_,by simp only; omega⟩
    rcases List.mem_append.mp member with old | last
    · exact .inl (logs.logged a old other again (by omega))
    · rw [List.mem_singleton.mp last] at again ⊢
      cases again.1.symm.trans applied.1
      rw [versionFound there]
      exact .inr rfl
  · intro c member
    rcases ((appliedMember valid req c).mp member).1 with logged | added
    · obtain ⟨a,old,from_⟩ := logs.source c logged
      exact ⟨a,List.mem_append_left _ old,from_⟩
    · refine ⟨e,List.mem_append_right _ List.mem_cons_self,req,applied,?_,by rw [added]⟩
      rw [versionFound there,added]
      rfl

theorem logsRemoved (found : record e.before k = some before) (there : record e.after k = some before.remove)
    (live : before.deleted = false) (logs : Logs k life before) : Logs k (life ++ [e]) before.remove := by
  have deleted : deletionAt k e = some (before.state.version+1) := by
    simp [deletionAt,there,found,live,Database.remove]
  have version : before.remove.state.version = before.state.version+1 := rfl
  have bounded : ∀ a ∈ life ++ [e], ∀ req, AppliedAt k req a → versionOf k a.after ≤ before.state.version+1 := by
    intro a member req applied
    rcases List.mem_append.mp member with old | last
    · exact Nat.le_succ_of_le (logs.bounded a old req applied)
    · rw [List.mem_singleton.mp last,versionFound there]
      exact Nat.le_refl _
  refine ⟨?_,?_,bounded,?_,fun c member => absurd member List.not_mem_nil⟩
  · rw [deletedSnoc deleted,version]
  · rw [deletedSnoc deleted,version,Nat.sub_self]
    rfl
  · intro a member req applied near
    have reached := bounded a member req applied
    have empty : before.remove.changes.length = 0 := rfl
    rw [version,empty] at near
    omega

end

def LogsNow (k : Key) (events : List Event) (s : Store) : Prop :=
  match record s k with
  | none => lifetime k events = []
  | some db => Logs k (lifetime k events) db

theorem logsStep {ops : List Op} {k : Key} (seen : List Event) :
    ∀ e ∈ history ops, LogsNow k seen e.before → LogsNow k (seen ++ [e]) e.after := by
  intro e member logs
  have did := eventRecord wellformedNew member k
  unfold LogsNow at logs ⊢
  rw [lifetimeSnoc,outlives]
  cases there : record e.after k with
  | none => rfl
  | some after =>
    rw [there] at did
    simp only [Option.isSome_some,if_true]
    cases found : record e.before k with
    | none =>
      rw [found] at logs
      obtain ⟨req,id,_,_,_,_,rfl⟩ := createdFresh did found
      rw [logs]
      exact logsCreated found there
    | some before =>
      rw [found] at logs
      have valid := (wellformedEvent wellformedNew member).1 k before found
      rcases dataStep did found with same | ⟨req,isCommit,key,reply,base,rfl⟩ | ⟨rfl,live,_⟩
      · exact logsSame found there logs same
      · exact logsApplied valid found there ⟨isCommit,key,reply,before,found,base,there⟩ logs
      · exact logsRemoved found there live logs

theorem logsRun (ops : List Op) {k : Key} {db : Database} (found : record (run new ops) k = some db) :
    Logs k (lifetime k (history ops)) db := by
  have logs : LogsNow k (history ops) (run new ops) := History.invariantSeen step rfl logsStep
  rw [LogsNow,found] at logs
  exact logs

theorem changeSetIncreasing (db : Database) (f : Nat) : (db.changeSet f).blocks.Pairwise (· < ·) := by
  unfold Database.changeSet
  split
  · exact .nil
  · split
    · exact .nil
    · split
      · exact .nil
      · exact sortedIncreasing (List.nodup_dedup _)

theorem incompleteEmpty {db : Database} {f : Nat} (incomplete : (db.changeSet f).complete = false) :
    (db.changeSet f).blocks = [] := by
  unfold Database.changeSet at incomplete ⊢
  split at incomplete
  · contradiction
  · rename_i moved
    rw [if_neg moved]
    split at incomplete
    · rfl
    · split at incomplete
      · rename_i far
        rw [if_pos far]
      · contradiction

theorem changesExact (ops : List Op) (k : Key) (db : Database) (found : record (run new ops) k = some db)
    (live : db.deleted = false) (f : Nat) :
    (f ≤ db.state.version → ∃ set, (run new ops).changes k f = .ok set ∧ set.toVersion = db.state.version ∧
      (set.complete = true ↔ lastDeletion k (lifetime k (history ops)) ≤ f ∧ db.state.version-f ≤ 1024) ∧
      (set.complete = true → set.blocks.Pairwise (· < ·) ∧ ∀ i, i ∈ set.blocks ↔
        ∃ e ∈ lifetime k (history ops), ∃ req, AppliedAt k req e ∧
          f < versionOf k e.after ∧ versionOf k e.after ≤ db.state.version ∧ i ∈ req.blocks.map Block.index) ∧
      (set.complete = false → set.blocks = [])) ∧
    (db.state.version < f → ∃ reason, (run new ops).changes k f = .error (.badRequest reason)) := by
  have logs := logsRun ops found
  have valid := wellformedRun ops k db found
  have lookup : (run new ops).dbs.lookup k = some db := found
  refine ⟨fun inside => ?_,fun ahead => ⟨.versionAhead f db.state.version,?_⟩⟩
  · have answer : (run new ops).changes k f = .ok (db.changeSet f) := by
      simp only [Store.changes,lookup,live,Bool.false_eq_true,if_false,if_neg (Nat.not_lt.mpr inside)]
    refine ⟨_,answer,(changesReply found answer).2,?_,fun complete => ⟨changeSetIncreasing db f,fun i => ?_⟩,incompleteEmpty⟩
    · have past := logs.past
      have window : changeWindow = 1024 := rfl
      rw [completeIff valid inside,logs.length]
      omega
    · rw [listedIff valid complete]
      have reach := (completeIff valid inside).mp complete
      refine ⟨fun entry => ?_,fun written => ?_⟩
      · obtain ⟨c,member,late,listed⟩ := entry
        obtain ⟨e,alive,req,applied,version,blocks⟩ := logs.source c member
        rw [blocks,touchedMember] at listed
        exact ⟨e,alive,req,applied,version.symm ▸ late,logs.bounded e alive req applied,listed⟩
      · obtain ⟨e,alive,req,applied,late,_,listed⟩ := written
        exact ⟨_,logs.logged e alive req applied (by omega),late,(touchedMember _ _).mpr listed⟩
  · simp only [Store.changes,lookup,live,Bool.false_eq_true,if_false,if_pos ahead]

def deletedBetween : List Op :=
  [.openDatabase (sampleOpen [1]) [7],.commit (sampleCommit [10] 1 0 2 [⟨1,filled⟩]),.delete ⟨sampleKey,true,2⟩,
   .openDatabase (sampleOpen [1]) [8],.commit (sampleCommit [11] 3 2 1 [⟨0,filled⟩])]

theorem changesExactOfDeleted : ∃ db, record (run new deletedBetween) sampleKey = some db ∧
    lastDeletion sampleKey (lifetime sampleKey (history deletedBetween)) = 2 ∧
    (∃ set, (run new deletedBetween).changes sampleKey 2 = .ok set ∧ set.complete = true ∧ set.blocks = [0]) ∧
    (∃ set, (run new deletedBetween).changes sampleKey 1 = .ok set ∧ set.complete = false) := by
  have state : (record (run new deletedBetween) sampleKey).map (fun db => (db.deleted,db.state.version)) =
      some (false,3) := by decide +kernel
  have deleted : lastDeletion sampleKey (lifetime sampleKey (history deletedBetween)) = 2 := by decide +kernel
  have listed : (run new deletedBetween).changes sampleKey 2 = .ok ⟨2,3,[0],true⟩ := by decide +kernel
  obtain ⟨db,found,shown⟩ := Option.map_eq_some_iff.mp state
  obtain ⟨live,version⟩ := Prod.mk.inj shown
  obtain ⟨late,answer,_,complete,_⟩ := (changesExact deletedBetween sampleKey db found live 2).1 (by omega)
  obtain ⟨early,other,_,incomplete,_⟩ := (changesExact deletedBetween sampleKey db found live 1).1 (by omega)
  refine ⟨db,found,deleted,⟨late,answer,complete.mpr ⟨by omega,by omega⟩,?_⟩,early,other,?_⟩
  · rw [listed] at answer
    cases answer
    rfl
  · cases reaches : early.complete with
    | false => rfl
    | true =>
      have back := (incomplete.mp reaches).1
      omega

end SqliteRemote.MemoryStore
