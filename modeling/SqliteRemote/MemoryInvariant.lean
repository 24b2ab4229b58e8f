import SqliteRemote.MemoryRecord

/-! The representation invariant of the memory store holds in every reachable state. It is
proved once for each change a record step makes. -/
namespace SqliteRemote.MemoryStore
open Rows StoreContract

theorem writeBlocksCons (m : UInt64 → Option Bytes) (b : Block) (bs : List Block) :
    writeBlocks m (b :: bs) = writeBlocks (Function.update m b.index (some b.data)) bs := rfl

theorem writeBlocksOther {bs : List Block} {i : UInt64} (unlisted : i ∉ bs.map Block.index)
    (m : UInt64 → Option Bytes) : writeBlocks m bs i = m i := by
  induction bs generalizing m with
  | nil => rfl
  | cons b bs ih =>
    simp only [List.map_cons,List.mem_cons,not_or] at unlisted
    rw [writeBlocksCons,ih unlisted.2,Function.update_of_ne unlisted.1]

theorem writeBlocksListed {bs : List Block} {b : Block} (once : (bs.map Block.index).Nodup) (member : b ∈ bs)
    (m : UInt64 → Option Bytes) : writeBlocks m bs b.index = some b.data := by
  induction bs generalizing m with
  | nil => simp at member
  | cons head tail ih =>
    obtain ⟨fresh,once⟩ := List.nodup_cons.mp once
    rw [writeBlocksCons]
    rcases List.mem_cons.mp member with rfl | inTail
    · rw [writeBlocksOther fresh,Function.update_self]
    · exact ih once inTail _

theorem writeBlocksSource {bs : List Block} {m : UInt64 → Option Bytes} {i : UInt64} {data : Bytes}
    (found : writeBlocks m bs i = some data) : (∃ b ∈ bs, b.index = i ∧ b.data = data) ∨ m i = some data := by
  induction bs generalizing m with
  | nil => exact .inr found
  | cons head tail ih =>
    rw [writeBlocksCons] at found
    rcases ih found with listed | before
    · obtain ⟨b,member,same⟩ := listed
      exact .inl ⟨b,List.mem_cons_of_mem _ member,same⟩
    · by_cases same : i = head.index
      · subst same
        rw [Function.update_self] at before
        exact .inl ⟨head,List.mem_cons_self,rfl,Option.some.inj before⟩
      · rw [Function.update_of_ne same] at before
        exact .inr before

theorem touchedMember (blocks : List Block) (i : UInt64) : i ∈ touched blocks ↔ i ∈ blocks.map Block.index :=
  (List.perm_insertionSort _ _).mem_iff

theorem sortedIncreasing {indexes : List UInt64} (once : indexes.Nodup) :
    (indexes.insertionSort (· ≤ ·)).Pairwise (· < ·) := by
  have sorted : (indexes.insertionSort (· ≤ ·)).Pairwise (· ≤ ·) := List.pairwise_insertionSort (· ≤ ·) _
  have distinct : (indexes.insertionSort (· ≤ ·)).Nodup := (List.perm_insertionSort _ _).nodup_iff.mpr once
  exact (sorted.and distinct).imp (fun both => UInt64.lt_of_le_of_ne both.1 both.2)

theorem touchedIncreasing {blocks : List Block} (once : (blocks.map Block.index).Nodup) :
    (touched blocks).Pairwise (· < ·) := sortedIncreasing once

theorem lastChangesDrop (log : List Change) : lastChanges log = log.drop (log.length - changeWindow) := by
  unfold lastChanges
  split
  · rfl
  · rename_i short
    rw [Nat.sub_eq_zero_of_le (by omega),List.drop_zero]

theorem lastChangesLength (log : List Change) : (lastChanges log).length = min log.length changeWindow := by
  rw [lastChangesDrop,List.length_drop]
  omega

theorem validPageSizePower (size : UInt32) :
    validPageSize size = true ↔ ∃ e, 9 ≤ e ∧ e ≤ 16 ∧ size.toNat = 2^e := by
  have bounds : validPageSize size = true ↔
      512 ≤ size.toNat ∧ size.toNat ≤ 65536 ∧ (size &&& (size-1)).toNat = 0 := by
    simp only [validPageSize,minPageSize,maxPageSize,Bool.and_eq_true,decide_eq_true_eq,beq_iff_eq,and_assoc,
      UInt32.le_iff_toNat_le,← UInt32.toNat_inj]
    rfl
  have before (positive : 1 ≤ size.toNat) : (size-1).toNat = size.toNat-1 :=
    UInt32.toNat_sub_of_le _ _ (UInt32.le_iff_toNat_le.mpr positive)
  rw [bounds]
  constructor
  · rintro ⟨low,high,power⟩
    rw [UInt32.toNat_and,before (by omega),Nat.and_sub_one_eq_zero_iff_isPowerOfTwo (by omega)] at power
    obtain ⟨e,same⟩ := power
    refine ⟨e,?_,?_,same⟩
    · exact (Nat.pow_le_pow_iff_right (a := 2) (by decide)).mp (same ▸ low)
    · exact (Nat.pow_le_pow_iff_right (a := 2) (by decide)).mp (same ▸ high)
  · rintro ⟨e,low,high,same⟩
    have least : 2^9 ≤ 2^e := Nat.pow_le_pow_right (by decide) low
    have most : 2^e ≤ 2^16 := Nat.pow_le_pow_right (by decide) high
    rw [UInt32.toNat_and,before (by omega),Nat.and_sub_one_eq_zero_iff_isPowerOfTwo (by omega)]
    exact ⟨by omega,by omega,e,same⟩

/- The invariant in the words of the record itself. Wellformed adds to it that the log does not go
back before version 1, which later proofs count with. -/
structure Represented (db : Database) : Prop where
  size : ∃ e, 9 ≤ e ∧ e ≤ 16 ∧ db.state.pageSize.toNat = 2^e
  stored : ∀ i data, db.blocks i = some data → i < db.state.pageCount ∧ data.length = db.state.pageSize.toNat
  window : db.changes.length ≤ 1024
  consecutive : ∃ first, db.changes.map Change.version = List.range' first db.changes.length
  current : ∀ c, db.changes.getLast? = some c → c.version = db.state.version
  increasing : ∀ c ∈ db.changes, c.blocks.Pairwise (· < ·)
  uncommitted : db.changes = [] → db.state.lastCommitID = []
  committed : db.changes ≠ [] → db.state.lastCommitID ≠ []
  epoch : 1 ≤ db.lease.epoch
  removed : db.deleted = true → (∀ i, db.blocks i = none) ∧ db.changes = [] ∧ db.state.pageCount = 0 ∧
    db.state.lastCommitID = [] ∧ db.holder = none

theorem Represented.versions {db : Database} (valid : Represented db) :
    db.changes.map Change.version = List.range' (db.state.version+1-db.changes.length) db.changes.length ∧
      db.changes.length ≤ db.state.version+1 := by
  obtain ⟨first,versions⟩ := valid.consecutive
  cases log : db.changes.getLast? with
  | none =>
    have none : db.changes = [] := List.getLast?_eq_none_iff.mp log
    rw [none]
    exact ⟨rfl,Nat.zero_le _⟩
  | some c =>
    have filled : db.changes ≠ [] := fun none => by rw [none] at log; contradiction
    have last : (db.changes.map Change.version).getLast? = some c.version := by rw [List.getLast?_map,log]; rfl
    have positive : 0 < db.changes.length := List.length_pos_iff.mpr filled
    rw [versions,List.getLast?_range',if_neg (by omega),valid.current c log] at last
    have ends := Option.some.inj last
    have start : first = db.state.version+1-db.changes.length := by omega
    exact ⟨start ▸ versions,by omega⟩

theorem Wellformed.represented {db : Database} (valid : Wellformed db) : Represented db where
  size := (validPageSizePower _).mp valid.size
  stored := valid.stored
  window := valid.window
  consecutive := ⟨_,valid.log⟩
  current := by
    intro c last
    have reach := valid.reach
    have filled : 0 < db.changes.length :=
      List.length_pos_iff.mpr fun none => by rw [none] at last; contradiction
    have version : (db.changes.map Change.version).getLast? = some c.version := by rw [List.getLast?_map,last]; rfl
    rw [valid.log,List.getLast?_range',if_neg (by omega)] at version
    have ends := Option.some.inj version
    omega
  increasing := valid.listed
  uncommitted := valid.last.mpr
  committed := fun some none => some (valid.last.mp none)
  epoch := valid.epoch
  removed := by
    intro dead
    obtain ⟨free,log,pages,blocks⟩ := valid.empty dead
    exact ⟨blocks,log,pages,valid.last.mpr log,free⟩

theorem Represented.wellformed {db : Database} (valid : Represented db)
    (reach : db.changes.length ≤ db.state.version) : Wellformed db where
  size := (validPageSizePower _).mpr valid.size
  stored := valid.stored
  window := valid.window
  reach := reach
  log := valid.versions.1
  listed := valid.increasing
  last := ⟨fun none => not_not.mp fun some => valid.committed some none,valid.uncommitted⟩
  epoch := valid.epoch
  empty := by
    intro dead
    obtain ⟨blocks,log,pages,_,free⟩ := valid.removed dead
    exact ⟨free,log,pages,blocks⟩

theorem representedExtend {db : Database} (valid : Represented db) (expiresAt : Time) :
    Represented (db.extend expiresAt) := {valid with}

theorem representedRelease {db : Database} (valid : Represented db) : Represented db.release :=
  {valid with
    removed := by
      intro dead
      obtain ⟨blocks,log,pages,last,_⟩ := valid.removed dead
      exact ⟨blocks,log,pages,last,rfl⟩}

theorem representedGrant {db : Database} (valid : Represented db) (live : db.deleted = false) (req : OpenRequest)
    (id : Bytes) : Represented (db.grant req id) :=
  {valid with
    epoch := Nat.le_add_left 1 _
    removed := fun dead => absurd (live.symm.trans dead) Bool.false_ne_true}

theorem representedRevived {db : Database} (valid : Represented db) (dead : db.deleted = true) {req : OpenRequest}
    (size : validPageSize req.pageSize = true) (id : Bytes) :
    Represented ((db.revive req.pageSize).grant req id) :=
  {valid with
    size := (validPageSizePower _).mp size
    stored := by
      intro i data found
      have stored : db.blocks i = some data := found
      rw [(valid.removed dead).1 i] at stored
      contradiction
    epoch := Nat.le_add_left 1 _
    removed := fun again => absurd again Bool.false_ne_true}

theorem representedFresh {req : OpenRequest} (size : validPageSize req.pageSize = true) (id : Bytes) :
    Represented ((Database.fresh req.pageSize).grant req id) where
  size := (validPageSizePower _).mp size
  stored := fun _ _ found => absurd found (Option.some_ne_none _).symm
  window := Nat.zero_le _
  consecutive := ⟨0,rfl⟩
  current := fun _ last => absurd last (Option.some_ne_none _).symm
  increasing := fun _ member => absurd member List.not_mem_nil
  uncommitted := fun _ => rfl
  committed := fun some => absurd rfl some
  epoch := Nat.le_refl 1
  removed := fun again => absurd again Bool.false_ne_true

theorem representedRemove {db : Database} (valid : Represented db) : Represented db.remove where
  size := valid.size
  stored := fun _ _ found => absurd found (Option.some_ne_none _).symm
  window := Nat.zero_le _
  consecutive := ⟨0,rfl⟩
  current := fun _ last => absurd last (Option.some_ne_none _).symm
  increasing := fun _ member => absurd member List.not_mem_nil
  uncommitted := fun _ => rfl
  committed := fun some => absurd rfl some
  epoch := Nat.le_add_left 1 _
  removed := fun _ => ⟨fun _ => rfl,rfl,rfl,rfl,rfl⟩

theorem appliedChanges (db : Database) (req : CommitRequest) : (db.apply req).changes =
    lastChanges (db.changes ++ [(⟨db.state.version+1,touched req.blocks⟩ : Change)]) := rfl

theorem appliedLength (db : Database) (req : CommitRequest) :
    (db.apply req).changes.length = min (db.changes.length+1) changeWindow := by
  rw [appliedChanges,lastChangesLength]; simp

theorem extendedLog {db : Database} (valid : Represented db) (blocks : List UInt64) :
    (db.changes ++ [(⟨db.state.version+1,blocks⟩ : Change)]).map Change.version =
      List.range' (db.state.version+1-db.changes.length) (db.changes.length+1) := by
  obtain ⟨versions,reach⟩ := valid.versions
  have next : db.state.version+1-db.changes.length+1*db.changes.length = db.state.version+1 := by omega
  rw [List.map_append,versions,List.range'_concat,next]
  rfl

theorem appliedLog {db : Database} (valid : Represented db) (req : CommitRequest) :
    (db.apply req).changes.map Change.version =
      List.range' (db.state.version+2-(db.apply req).changes.length) (db.apply req).changes.length := by
  have reach := valid.versions.2
  rw [appliedLength,appliedChanges,lastChangesDrop,List.map_drop,extendedLog valid,List.drop_range',
    List.length_append,List.length_singleton]
  have start : db.state.version+1-db.changes.length+(db.changes.length+1-changeWindow)*1 =
      db.state.version+2-min (db.changes.length+1) changeWindow := by omega
  have count : db.changes.length+1-(db.changes.length+1-changeWindow) =
      min (db.changes.length+1) changeWindow := by omega
  rw [start,count]

theorem appliedLast (db : Database) (req : CommitRequest) :
    (db.apply req).changes.getLast? = some ⟨db.state.version+1,touched req.blocks⟩ := by
  rw [appliedChanges,lastChangesDrop,List.getLast?_drop,if_neg,List.getLast?_append]
  · rfl
  · rw [List.length_append,List.length_singleton,changeWindow]
    omega

theorem representedApply {db : Database} (valid : Represented db) (live : db.deleted = false) {req : CommitRequest}
    (ok : validateCommit db.state.pageSize req = none) : Represented (db.apply req) := by
  obtain ⟨given,each,once⟩ := validCommit ok
  refine ⟨valid.size,?_,?_,⟨_,appliedLog valid req⟩,?_,?_,?_,fun _ => given,valid.epoch,?_⟩
  · intro i data found
    simp only [Database.apply,cutBlocks] at found
    split at found
    · contradiction
    · rename_i inside
      refine ⟨UInt64.not_le.mp inside,?_⟩
      rcases writeBlocksSource found with listed | before
      · obtain ⟨b,member,_,same⟩ := listed
        exact same ▸ (each b member).1
      · exact (valid.stored i data before).2
  · rw [appliedLength]
    exact Nat.min_le_right _ _
  · intro c last
    rw [appliedLast] at last
    exact (Option.some.inj last) ▸ rfl
  · intro c member
    rw [appliedChanges,lastChangesDrop] at member
    rcases List.mem_append.mp (List.mem_of_mem_drop member) with old | added
    · exact valid.increasing c old
    · rw [List.mem_singleton.mp added]
      exact touchedIncreasing once
  · intro none
    have last := appliedLast db req
    rw [none] at last
    contradiction
  · intro dead
    exact absurd (live.symm.trans dead) Bool.false_ne_true

theorem memDropLog {log : List Change} {start : Nat}
    (versions : log.map Change.version = List.range' start log.length) (m : Nat) (c : Change) :
    c ∈ log.drop m ↔ c ∈ log ∧ start+m ≤ c.version := by
  have tail : (log.drop m).map Change.version = List.range' (start+m) (log.length-m) := by
    rw [List.map_drop,versions,List.drop_range',Nat.mul_one]
  refine ⟨fun member => ⟨List.mem_of_mem_drop member,?_⟩,fun both => ?_⟩
  · have listed := List.mem_map_of_mem (f := Change.version) member
    rw [tail,List.mem_range'_1] at listed
    exact listed.1
  · obtain ⟨member,late⟩ := both
    rw [← List.take_append_drop m log] at member
    rcases List.mem_append.mp member with early | found
    · obtain ⟨n,short,rfl⟩ := List.mem_take_iff_getElem.mp early
      have place : (log.map Change.version)[n]? = (List.range' start log.length)[n]? := by rw [versions]
      rw [List.getElem?_map,List.getElem?_range' (by omega),List.getElem?_eq_getElem (by omega)] at place
      have version := Option.some.inj place
      omega
    · exact found

theorem appliedMember {db : Database} (valid : Wellformed db) (req : CommitRequest) (c : Change) :
    c ∈ (db.apply req).changes ↔ (c ∈ db.changes ∨ c = ⟨db.state.version+1,touched req.blocks⟩) ∧
      db.state.version+2 ≤ c.version+(db.apply req).changes.length := by
  have reach := valid.reach
  let added : Change := ⟨db.state.version+1,touched req.blocks⟩
  have versions : (db.changes ++ [added]).map Change.version =
      List.range' (db.state.version+1-db.changes.length) (db.changes ++ [added]).length := by
    rw [List.length_append,List.length_singleton]
    exact extendedLog valid.represented _
  rw [appliedLength,appliedChanges,lastChangesDrop,memDropLog versions,List.mem_append,List.mem_singleton,
    List.length_append,List.length_singleton]
  refine and_congr_right (fun _ => ?_)
  omega

theorem logVersion {db : Database} (valid : Wellformed db) {c : Change} (member : c ∈ db.changes) :
    db.state.version < c.version+db.changes.length ∧ c.version ≤ db.state.version := by
  have listed := List.mem_map_of_mem (f := Change.version) member
  have reach := valid.reach
  rw [valid.log,List.mem_range'_1] at listed
  omega

theorem oldestLogged {db : Database} (valid : Wellformed db) {oldest : Change} {rest : List Change}
    (log : db.changes = oldest :: rest) : oldest.version+db.changes.length = db.state.version+1 := by
  have versions := valid.log
  have reach := valid.reach
  rw [log,List.length_cons] at versions reach
  rw [List.map_cons,List.range'_succ] at versions
  have first : oldest.version = db.state.version+1-(rest.length+1) := (List.cons.inj versions).1
  rw [log,List.length_cons]
  omega

theorem holdsHolder {db : Database} {epoch : Nat} (held : db.holds epoch = true) :
    db.holder ≠ none ∧ db.lease.epoch = epoch := by
  simp only [Database.holds,Bool.and_eq_true,beq_iff_eq] at held
  refine ⟨?_,held.2⟩
  intro free
  simp [free] at held

theorem heldRepresented {db : Database} (valid : Represented db) {epoch : Nat} (held : db.holds epoch = true) :
    db.deleted = false := by
  cases dead : db.deleted with
  | false => rfl
  | true => exact absurd (valid.removed dead).2.2.2.2 (holdsHolder held).1

theorem heldLive {db : Database} (valid : Wellformed db) {epoch : Nat} (held : db.holds epoch = true) :
    db.deleted = false := heldRepresented valid.represented held

def RepresentedStore (s : Store) : Prop := ∀ k db, record s k = some db → Represented db

theorem RepresentedStore.unheld {s : Store} (valid : RepresentedStore s) : Unheld s :=
  fun k db found dead => ((valid k db found).removed dead).2.2.2.2

theorem representedAfter {s : Store} (valid : RepresentedStore s) {k : Key} {op : Op} {reply : Answer}
    {after : Option Database} (did : RecordStep s k op reply after) : ∀ db, after = some db → Represented db := by
  intro db same
  cases did with
  | idle quiet => exact valid k db same
  | resumed key found live asked held id => cases same; exact representedExtend (valid k _ found) _
  | granted key found live asked => cases same; exact representedGrant (valid k _ found) live _ _
  | revived key found dead asked size => cases same; exact representedRevived (valid k _ found) dead size _
  | created key missing asked size => cases same; exact representedFresh size _
  | repeated key found held again => cases same; exact representedExtend (valid k _ found) _
  | applied key found held base ok =>
    cases same
    exact representedApply (valid k _ found) (heldRepresented (valid k _ found) held) ok
  | renewed found held => cases same; exact representedExtend (valid k _ found) _
  | released found held => cases same; exact representedRelease (valid k _ found)
  | deleted key found live => cases same; exact representedRemove (valid k _ found)
  | swept listed found live free => cases same; exact representedRemove (valid k _ found)
  | purged present cause => contradiction

theorem representedStep (s : Store) (op : Op) (valid : RepresentedStore s) : RepresentedStore (step s op).2 :=
  fun k db found => representedAfter valid (recordStep valid.unheld op k) db found

theorem reachAfter {s : Store} (reach : ∀ k db, record s k = some db → db.changes.length ≤ db.state.version)
    {k : Key} {op : Op} {reply : Answer} {after : Option Database} (did : RecordStep s k op reply after) :
    ∀ db, after = some db → db.changes.length ≤ db.state.version := by
  intro db same
  cases did with
  | idle quiet => exact reach k db same
  | resumed key found live asked held id => cases same; exact (reach k _ found :)
  | granted key found live asked => cases same; exact (reach k _ found :)
  | revived key found dead asked size => cases same; exact (reach k _ found :)
  | created key missing asked size => cases same; exact Nat.zero_le _
  | repeated key found held again => cases same; exact (reach k _ found :)
  | applied key found held base ok =>
    cases same
    have before := reach k _ found
    rw [appliedLength]
    exact (Nat.min_le_left _ _).trans (Nat.succ_le_succ before)
  | renewed found held => cases same; exact (reach k _ found :)
  | released found held => cases same; exact (reach k _ found :)
  | deleted key found live => cases same; exact Nat.zero_le _
  | swept listed found live free => cases same; exact Nat.zero_le _
  | purged present cause => contradiction

theorem wellformedStep (s : Store) (op : Op) (valid : WellformedStore s) : WellformedStore (step s op).2 := by
  intro k db found
  have did := recordStep valid.unheld op k
  have represented := representedAfter (fun k db found => (valid k db found).represented) did db found
  exact represented.wellformed (reachAfter (fun k db found => (valid k db found).reach) did db found)

theorem wellformedNew : WellformedStore new := by
  intro k db found
  simp [record,new] at found

theorem wellformedRun (ops : List Op) : WellformedStore (run new ops) :=
  History.invariantRun step wellformedStep wellformedNew ops

theorem representationInvariant :
    (∀ ops k db, record (run new ops) k = some db → Represented db) ∧
    ∀ s op, RepresentedStore s → RepresentedStore (step s op).2 :=
  ⟨fun ops k db found => (wellformedRun ops k db found).represented,representedStep⟩

def committedThenDeleted : List Op :=
  [.openDatabase ⟨⟨"alice","db"⟩,"",some [1],512,true,false,none,0,60⟩ [7],
    .commit ⟨⟨"alice","db"⟩,[10],1,0,1,[⟨0,zeros 512⟩],1,60⟩,.delete ⟨⟨"alice","db"⟩,true,2⟩]

theorem committedThenDeletedRepresented : ∃ before after : Database,
    record (run new (committedThenDeleted.take 2)) ⟨"alice","db"⟩ = some before ∧ before.changes = [⟨1,[0]⟩] ∧
    Represented before ∧ record (run new committedThenDeleted) ⟨"alice","db"⟩ = some after ∧
    after.deleted = true ∧ Represented after := by
  have log : (record (run new (committedThenDeleted.take 2)) ⟨"alice","db"⟩).map Database.changes =
      some [⟨1,[0]⟩] := by decide +kernel
  have dead : (record (run new committedThenDeleted) ⟨"alice","db"⟩).map Database.deleted = some true := by
    decide +kernel
  obtain ⟨before,found,changes⟩ := Option.map_eq_some_iff.mp log
  obtain ⟨after,left,deleted⟩ := Option.map_eq_some_iff.mp dead
  have start : RepresentedStore (run new (committedThenDeleted.take 2)) := representationInvariant.1 _
  have next := representationInvariant.2 _ (.delete ⟨⟨"alice","db"⟩,true,2⟩) start
  exact ⟨before,after,found,changes,start _ _ found,left,deleted,next _ _ left⟩

theorem wellformedEvent {s : Store} (start : WellformedStore s) {ops : List Op} {e : Event}
    (member : e ∈ History.history step s ops) : WellformedStore e.before ∧ WellformedStore e.after :=
  History.invariantEvent step wellformedStep start member

theorem eventRecord {s : Store} (start : WellformedStore s) {ops : List Op} {e : Event}
    (member : e ∈ History.history step s ops) (k : Key) : RecordStep e.before k e.op e.reply (record e.after k) := by
  have did := recordStep (wellformedEvent start member).1.unheld e.op k
  rwa [History.eventStep step member] at did

/- Open writes the record before its last checks, but only where these cannot fail: neither a new
record nor a deleted one has a holder, and its page size is the one asked for. -/
theorem failedStep {s : Store} (valid : WellformedStore s) {op : Op} {err : Error}
    (failed : (step s op).1 = .error err) : (step s op).2 = s := by
  cases op with
  | openDatabase req id =>
    have outcome := openStep valid.unheld req id
    simp only [step] at failed ⊢
    generalize s.open req id = out at outcome failed ⊢
    cases outcome <;> first | rfl | contradiction
  | commit req =>
    have outcome := commitStep s req
    simp only [step] at failed ⊢
    generalize s.commit req = out at outcome failed ⊢
    cases outcome <;> first | rfl | contradiction
  | renew key epoch now ttl =>
    have outcome := renewStep s key epoch now ttl
    simp only [step] at failed ⊢
    generalize s.renew key epoch now ttl = out at outcome failed ⊢
    cases outcome <;> first | rfl | contradiction
  | release key epoch =>
    have outcome := releaseStep s key epoch
    simp only [step] at failed ⊢
    generalize s.release key epoch = out at outcome failed ⊢
    cases outcome <;> first | rfl | contradiction
  | delete req =>
    have outcome := deleteStep s req
    simp only [step] at failed ⊢
    generalize s.delete req = out at outcome failed ⊢
    cases outcome <;> first | rfl | contradiction
  | setSlotLabel owner subject label =>
    simp only [step,Store.setSlotLabel] at failed ⊢
    cases found : s.slots.lookup owner with
    | none => rfl
    | some slot =>
      rw [found] at failed
      simp only at failed ⊢
      split at failed
      · rename_i other; rw [if_pos other]; rfl
      · contradiction
  | deleteSlot owner subject =>
    simp only [step,Store.deleteSlot] at failed ⊢
    cases found : s.slots.lookup owner with
    | none => rw [found] at failed; contradiction
    | some slot =>
      rw [found] at failed
      simp only at failed ⊢
      split at failed
      · rename_i other; rw [if_pos other]; rfl
      · contradiction
  | fetch key version first count => exact fetchKeeps s key version first count
  | changes key fromVersion => exact changesKeeps s key fromVersion
  | deleteUnused cutoff limit tie => contradiction
  | getSlot owner => contradiction
  | claimSlot req => contradiction

end SqliteRemote.MemoryStore
