import Mathlib.Data.List.Dedup
import SqliteRemote.MemoryVersions

/-! What a complete change set says about the blocks it does not list. The log names the blocks
a commit writes, not those it cuts off, so a block cut off and grown back reads as zeros
without being listed. -/
namespace SqliteRemote.MemoryStore
open Rows StoreContract

def WritesAt (k : Key) (i : UInt64) (e : Event) : Prop :=
  ∃ req, AppliedAt k req e ∧ i ∈ req.blocks.map Block.index

def CutsAt (k : Key) (i : UInt64) (e : Event) : Prop := ∃ req, AppliedAt k req e ∧ req.pageCount ≤ i

theorem completeIff {db : Database} (valid : Wellformed db) {f : Nat} (ahead : f ≤ db.state.version) :
    (db.changeSet f).complete = true ↔ db.state.version ≤ f+db.changes.length := by
  unfold Database.changeSet
  split
  · rename_i same
    simp [same]
  · rename_i moved
    cases log : db.changes with
    | nil => simp only [List.length_nil,Bool.false_eq_true,false_iff]; omega
    | cons oldest rest =>
      have start := oldestLogged valid log
      rw [log] at start
      simp only
      split
      · simp only [Bool.false_eq_true,false_iff]; omega
      · simp only [true_iff]; omega

theorem listedIff {db : Database} (valid : Wellformed db) {f : Nat} (complete : (db.changeSet f).complete = true)
    (i : UInt64) : i ∈ (db.changeSet f).blocks ↔ ∃ c ∈ db.changes, f < c.version ∧ i ∈ c.blocks := by
  unfold Database.changeSet at complete ⊢
  split at complete
  · rename_i same
    rw [if_pos same]
    simp only [List.not_mem_nil,false_iff,not_exists,not_and]
    intro c member late
    have := (logVersion valid member).2
    omega
  · rename_i moved
    rw [if_neg moved]
    cases log : db.changes with
    | nil => rw [log] at complete; contradiction
    | cons oldest rest =>
      rw [log] at complete
      simp only at complete ⊢
      split at complete
      · contradiction
      · rename_i near
        rw [if_neg near]
        simp only [changedSince,(List.perm_insertionSort _ _).mem_iff,List.mem_dedup,List.mem_flatMap,
          List.mem_filter,decide_eq_true_eq]
        exact exists_congr (fun c => and_assoc)

structure Since (k : Key) (old : Database) (seen : List Event) (db : Database) : Prop where
  live : old.deleted = false → db.deleted = false ∧ db.state.pageSize = old.state.pageSize
  logged : ∀ e ∈ seen, ∀ req, AppliedAt k req e → old.state.version ≤ req.baseVersion.toNat ∧
    (db.state.version ≤ req.baseVersion.toNat+db.changes.length →
      ⟨req.baseVersion.toNat+1,touched req.blocks⟩ ∈ db.changes)
  source : ∀ c ∈ db.changes, old.state.version < c.version →
    ∃ e ∈ seen, ∃ req, AppliedAt k req e ∧ c.blocks = touched req.blocks
  intact : ∀ i, (∀ e ∈ seen, ¬ WritesAt k i e) → (∀ e ∈ seen, ¬ CutsAt k i e) → db.blocks i = old.blocks i
  cut : ∀ i, (∀ e ∈ seen, ¬ WritesAt k i e) → (∃ e ∈ seen, CutsAt k i e) → db.blocks i = none

/- After a deletion the log never reaches back to the old version again. -/
def Restarted (old db : Database) : Prop := old.state.version+db.changes.length < db.state.version

def Followed (k : Key) (old : Database) (seen : List Event) (s : Store) : Prop :=
  ∃ db, record s k = some db ∧ old.state.version ≤ db.state.version ∧ (Restarted old db ∨ Since k old seen db)

theorem appliedMoves {k : Key} {req : CommitRequest} {e : Event} {before after : Database}
    (applied : AppliedAt k req e) (found : record e.before k = some before) (there : record e.after k = some after) :
    before.state.version = req.baseVersion.toNat ∧ after = before.apply req := by
  obtain ⟨_,_,_,db,same,base,done⟩ := applied
  cases found.symm.trans same
  exact ⟨base,Option.some.inj (there.symm.trans done)⟩

theorem sinceStart {k : Key} {old : Database} (valid : Wellformed old) : Since k old [] old where
  live := fun live => ⟨live,rfl⟩
  logged := fun _ member => absurd member List.not_mem_nil
  source := fun c member late => absurd (logVersion valid member).2 (by omega)
  intact := fun _ _ _ => rfl
  cut := fun i _ cut => by
    obtain ⟨e,member,_⟩ := cut
    exact absurd member List.not_mem_nil

section
variable {k : Key} {old before after : Database} {seen : List Event} {e : Event}

theorem sinceSame (since : Since k old seen before) (same : SameData before after)
    (still : ∀ req, ¬ AppliedAt k req e) : Since k old (seen ++ [e]) after := by
  have inSeen {a : Event} {req : CommitRequest} (member : a ∈ seen ++ [e]) (applied : AppliedAt k req a) : a ∈ seen := by
    rcases List.mem_append.mp member with there | here
    · exact there
    · exact absurd (List.mem_singleton.mp here ▸ applied) (still req)
  refine ⟨?_,?_,?_,?_,?_⟩
  · intro live
    obtain ⟨open_,size⟩ := since.live live
    obtain ⟨stays,state⟩ := same.live open_
    exact ⟨stays,by rw [state]; exact size⟩
  · intro a member req applied
    rw [same.version,same.changes]
    exact since.logged a (inSeen member applied) req applied
  · intro c member late
    rw [same.changes] at member
    obtain ⟨a,there,source⟩ := since.source c member late
    exact ⟨a,List.mem_append_left _ there,source⟩
  · intro i unwritten uncut
    rw [same.blocks]
    exact since.intact i (fun a member => unwritten a (List.mem_append_left _ member))
      (fun a member => uncut a (List.mem_append_left _ member))
  · intro i unwritten cut
    rw [same.blocks]
    obtain ⟨a,member,req,applied,beyond⟩ := cut
    exact since.cut i (fun a member => unwritten a (List.mem_append_left _ member))
      ⟨a,inSeen member applied,req,applied,beyond⟩

theorem sinceApplied {req : CommitRequest} (valid : Wellformed before) (ahead : old.state.version ≤ before.state.version)
    (since : Since k old seen before) (applied : AppliedAt k req e)
    (base : before.state.version = req.baseVersion.toNat) : Since k old (seen ++ [e]) (before.apply req) := by
  have last : e ∈ seen ++ [e] := List.mem_append_right _ List.mem_cons_self
  have same {other : CommitRequest} (again : AppliedAt k other e) : other = req := by
    cases again.1.symm.trans applied.1
    rfl
  refine ⟨since.live,?_,?_,?_,?_⟩
  · intro a member other again
    rcases List.mem_append.mp member with there | here
    · obtain ⟨low,log⟩ := since.logged a there other again
      refine ⟨low,fun near => ?_⟩
      have length : (before.apply req).changes.length ≤ before.changes.length+1 := by
        show (lastChanges _).length ≤ _
        rw [lastChangesLength]; simp
      have version : (before.apply req).state.version = before.state.version+1 := rfl
      rw [version] at near
      exact (appliedMember valid req _).mpr ⟨.inl (log (by omega)),by simp only; omega⟩
    · rw [List.mem_singleton.mp here] at again
      cases same again
      refine ⟨by omega,fun near => ?_⟩
      have version : (before.apply req).state.version = before.state.version+1 := rfl
      rw [version] at near
      exact (appliedMember valid req _).mpr ⟨.inr (by rw [base]),by simp only; omega⟩
  · intro c member late
    rcases ((appliedMember valid req c).mp member).1 with logged | added
    · obtain ⟨a,there,source⟩ := since.source c logged late
      exact ⟨a,List.mem_append_left _ there,source⟩
    · exact ⟨e,last,req,applied,by rw [added]⟩
  · intro i unwritten uncut
    have inside : ¬ req.pageCount ≤ i := fun beyond => uncut e last ⟨req,applied,beyond⟩
    have unlisted : i ∉ req.blocks.map Block.index := fun listed => unwritten e last ⟨req,applied,listed⟩
    simp only [Database.apply,cutBlocks,if_neg inside,writeBlocksOther unlisted]
    exact since.intact i (fun a member => unwritten a (List.mem_append_left _ member))
      (fun a member => uncut a (List.mem_append_left _ member))
  · intro i unwritten cut
    have unlisted : i ∉ req.blocks.map Block.index := fun listed => unwritten e last ⟨req,applied,listed⟩
    simp only [Database.apply,cutBlocks,writeBlocksOther unlisted]
    split
    · rfl
    · rename_i inside
      obtain ⟨a,member,other,again,beyond⟩ := cut
      rcases List.mem_append.mp member with there | here
      · exact since.cut i (fun a member => unwritten a (List.mem_append_left _ member)) ⟨a,there,other,again,beyond⟩
      · rw [List.mem_singleton.mp here] at again
        cases same again
        exact absurd beyond inside

end

theorem followedStep {s : Store} (start : WellformedStore s) {ops : List Op} {k : Key} (old : Database)
    (kept : Kept k (History.history step s ops)) (seen : List Event) :
    ∀ e ∈ History.history step s ops, Followed k old seen e.before → Followed k old (seen ++ [e]) e.after := by
  intro e member followed
  obtain ⟨before,found,ahead,how⟩ := followed
  obtain ⟨after,there⟩ := keptRecord (kept e member) found
  have did := eventRecord start member k
  have valid := (wellformedEvent start member).1 k before found
  rw [there] at did
  refine ⟨after,there,?_⟩
  rcases dataStep did found with same | ⟨req,isCommit,key,reply,base,rfl⟩ | ⟨rfl,_⟩
  · have still : ∀ req, ¬ AppliedAt k req e := by
      intro req applied
      obtain ⟨_,moved⟩ := appliedMoves applied found there
      have version := same.version
      rw [moved] at version
      exact absurd version (Nat.succ_ne_self _)
    refine ⟨same.version ▸ ahead,?_⟩
    rcases how with lost | since
    · refine .inl ?_
      unfold Restarted at lost ⊢
      rwa [same.changes,same.version]
    · exact .inr (sinceSame since same still)
  · refine ⟨Nat.le_succ_of_le ahead,?_⟩
    rcases how with lost | since
    · refine .inl ?_
      have length : (before.apply req).changes.length ≤ before.changes.length+1 := by
        show (lastChanges _).length ≤ _
        rw [lastChangesLength]; simp
      have version : (before.apply req).state.version = before.state.version+1 := rfl
      unfold Restarted at lost ⊢
      omega
    · exact .inr (sinceApplied valid ahead since ⟨isCommit,key,reply,before,found,base,there⟩ base)
  · refine ⟨Nat.le_succ_of_le ahead,.inl ?_⟩
    show old.state.version+0 < before.state.version+1
    omega

theorem followedRun {s : Store} (start : WellformedStore s) (ops : List Op) {k : Key} {old : Database}
    (found : record s k = some old) (kept : Kept k (History.history step s ops)) :
    Followed k old (History.history step s ops) (run s ops) :=
  History.invariantSeen step ⟨old,found,Nat.le_refl _,.inr (sinceStart (start k old found))⟩
    (followedStep start old kept)

theorem unlistedContent {s : Store} (start : WellformedStore s) {ops : List Op} {k : Key} {old db : Database}
    (found : record s k = some old) (there : record (run s ops) k = some db)
    (kept : Kept k (History.history step s ops)) (live : old.deleted = false)
    (complete : (db.changeSet old.state.version).complete = true) :
    (∀ i, i ∈ (db.changeSet old.state.version).blocks ↔ ∃ e ∈ History.history step s ops, WritesAt k i e) ∧
    ∀ i, i ∉ (db.changeSet old.state.version).blocks →
      ((∀ e ∈ History.history step s ops, ¬ CutsAt k i e) → db.content i = old.content i) ∧
      ((∃ e ∈ History.history step s ops, CutsAt k i e) → db.content i = zeros old.state.pageSize) := by
  obtain ⟨now,same,ahead,how⟩ := followedRun start ops found kept
  cases there.symm.trans same
  have valid : Wellformed db := History.invariantRun step wellformedStep start ops k db there
  have reach := (completeIff valid ahead).mp complete
  have since : Since k old (History.history step s ops) db := by
    rcases how with lost | since
    · unfold Restarted at lost; omega
    · exact since
  have listed : ∀ i, i ∈ (db.changeSet old.state.version).blocks ↔
      ∃ e ∈ History.history step s ops, WritesAt k i e := by
    intro i
    rw [listedIff valid complete]
    refine ⟨fun entry => ?_,fun written => ?_⟩
    · obtain ⟨c,member,late,inside⟩ := entry
      obtain ⟨e,event,req,applied,blocks⟩ := since.source c member late
      rw [blocks,touchedMember] at inside
      exact ⟨e,event,req,applied,inside⟩
    · obtain ⟨e,event,req,applied,inside⟩ := written
      obtain ⟨low,log⟩ := since.logged e event req applied
      exact ⟨_,log (by omega),Nat.lt_succ_of_le low,(touchedMember _ _).mpr inside⟩
  refine ⟨listed,fun i unlisted => ?_⟩
  have unwritten : ∀ e ∈ History.history step s ops, ¬ WritesAt k i e :=
    fun e member writes => unlisted ((listed i).mpr ⟨e,member,writes⟩)
  have size := (since.live live).2
  unfold Database.content
  refine ⟨fun uncut => ?_,fun cut => ?_⟩
  · rw [since.intact i unwritten uncut,size]
  · rw [since.cut i unwritten cut,size]
    rfl

theorem changesReply {s : Store} {k : Key} {f : Nat} {set : ChangeSet} {db : Database}
    (found : record s k = some db) (asked : s.changes k f = .ok set) :
    set = db.changeSet f ∧ set.toVersion = db.state.version := by
  have lookup : s.dbs.lookup k = some db := found
  simp only [Store.changes,lookup] at asked
  split at asked
  · contradiction
  split at asked
  · contradiction
  cases asked
  refine ⟨rfl,?_⟩
  unfold Database.changeSet
  split
  · rfl
  · split
    · rfl
    · split <;> rfl

theorem catchUpSoundIff (past later : List Op) (k : Key) (old db : Database) (set : ChangeSet)
    (existed : record (run new past) k = some old)
    (current : record (run new (past ++ later)) k = some db)
    (kept : Kept k (History.history step (run new past) later))
    (asked : (run new (past ++ later)).changes k old.state.version = .ok set)
    (complete : set.complete = true) :
    set.toVersion = db.state.version ∧
    ((∀ i, i < old.state.pageCount → i < db.state.pageCount → i ∉ set.blocks → db.content i = old.content i) ↔
     (∀ i, i < old.state.pageCount → i < db.state.pageCount →
      (∃ e ∈ History.history step (run new past) later, CutsAt k i e) →
      (∃ e ∈ History.history step (run new past) later, WritesAt k i e) ∨
        old.content i = zeros old.state.pageSize)) := by
  obtain ⟨rfl,version⟩ := changesReply current asked
  have start := wellformedRun past
  have there : record (run (run new past) later) k = some db := by
    rw [← current]; exact congrArg (record · k) (History.runAppend step new past later).symm
  have live {i : UInt64} (inside : i < old.state.pageCount) : old.deleted = false := by
    cases dead : old.deleted with
    | false => rfl
    | true => rw [((start k old existed).empty dead).2.2.1] at inside; exact absurd inside UInt64.not_lt_zero
  refine ⟨version,fun sound i below inside cut => ?_,fun grown i below inside unlisted => ?_⟩
  · obtain ⟨listed,content⟩ := unlistedContent start existed there kept (live below) complete
    by_cases written : i ∈ (db.changeSet old.state.version).blocks
    · exact .inl ((listed i).mp written)
    · exact .inr ((sound i below inside written).symm.trans ((content i written).2 cut))
  · obtain ⟨listed,content⟩ := unlistedContent start existed there kept (live below) complete
    by_cases cut : ∃ e ∈ History.history step (run new past) later, CutsAt k i e
    · rcases grown i below inside cut with written | zero
      · exact absurd ((listed i).mpr written) unlisted
      · rw [(content i unlisted).2 cut,zero]
    · exact (content i unlisted).1 (fun e member cuts => cut ⟨e,member,cuts⟩)

def filled : Bytes := List.replicate 512 1

/- A block is written, cut off by a smaller page count and grown back without being written. -/
def regrowRun : List Op :=
  [.openDatabase (sampleOpen [1]) [7],
   .commit (sampleCommit [10] 1 0 2 [⟨1,filled⟩]),.fetch sampleKey 1 1 1,
   .commit (sampleCommit [11] 1 1 1 []),.commit (sampleCommit [12] 1 2 2 []),
   .changes sampleKey 1,.fetch sampleKey 3 1 1]

theorem regrownUnlisted : Kept sampleKey (history regrowRun) ∧
    ((history regrowRun).map History.Event.reply)[2]? = some (.ok (.blocks [filled])) ∧
    ((history regrowRun).map History.Event.reply)[5]? = some (.ok (.changeSet ⟨1,3,[],true⟩)) ∧
    ((history regrowRun).map History.Event.reply)[6]? = some (.ok (.blocks [zeros 512])) ∧
    filled ≠ zeros 512 := by
  decide +kernel

def writtenPast : List Op := [.openDatabase (sampleOpen [1]) [7],.commit (sampleCommit [10] 1 0 2 [⟨1,filled⟩])]
def writtenLater : List Op :=
  [.commit (sampleCommit [11] 1 1 1 []),.commit (sampleCommit [12] 1 2 2 [⟨1,filled⟩])]

theorem catchUpOfWritten : ∃ old db set,
    record (run new writtenPast) sampleKey = some old ∧
    record (run new (writtenPast ++ writtenLater)) sampleKey = some db ∧
    (run new (writtenPast ++ writtenLater)).changes sampleKey old.state.version = .ok set ∧
    set.complete = true ∧ set.toVersion = 3 ∧ old.state.pageCount = 2 ∧
    ((∀ i, i < old.state.pageCount → i < db.state.pageCount → i ∉ set.blocks → db.content i = old.content i) ↔
     (∀ i, i < old.state.pageCount → i < db.state.pageCount →
      (∃ e ∈ History.history step (run new writtenPast) writtenLater, CutsAt sampleKey i e) →
      (∃ e ∈ History.history step (run new writtenPast) writtenLater, WritesAt sampleKey i e) ∨
        old.content i = zeros old.state.pageSize)) := by
  have kept : Kept sampleKey (History.history step (run new writtenPast) writtenLater) := by decide +kernel
  have asked : (run new (writtenPast ++ writtenLater)).changes sampleKey 1 = .ok ⟨1,3,[1],true⟩ := by decide +kernel
  have version : (record (run new writtenPast) sampleKey).map (fun db => db.state) =
      some ⟨512,2,1,[10]⟩ := by decide +kernel
  obtain ⟨old,existed,state⟩ := Option.map_eq_some_iff.mp version
  obtain ⟨db,current⟩ := Option.isSome_iff_exists.mp
    (by decide +kernel : (record (run new (writtenPast ++ writtenLater)) sampleKey).isSome = true)
  have asked : (run new (writtenPast ++ writtenLater)).changes sampleKey old.state.version =
      .ok ⟨1,3,[1],true⟩ := by rw [state]; exact asked
  exact ⟨old,db,_,existed,current,asked,rfl,rfl,by rw [state],
    (catchUpSoundIff writtenPast writtenLater sampleKey old db _ existed current kept asked rfl).2⟩

end SqliteRemote.MemoryStore
