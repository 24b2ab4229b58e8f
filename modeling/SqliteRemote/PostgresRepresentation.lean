import SqliteRemote.MemoryInvariant
import SqliteRemote.PostgresSteps

/-! How the tables represent the memory store: a row for a record, its blocks cut into parts,
its log keyed by version. What the statements of a commit and of a deletion do to the rows of
one key is what the memory store does to the record. -/
namespace SqliteRemote.Postgres
open Rows Chunks StoreContract Programs RowLocking
open MemoryStore (Database Store Change record)

structure RowOf (db : Database) (row : Row) : Prop where
  pageSize : row.pageSize = db.state.pageSize.toInt32
  pageCount : row.pageCount = db.state.pageCount.toInt64
  version : row.version = db.state.version
  last : row.lastCommitID.getD [] = db.state.lastCommitID
  epoch : row.leaseEpoch = db.lease.epoch
  lease : row.leaseID.getD [] = db.lease.id
  holder : row.leaseHolder = db.holder
  deleted : row.deleted = db.deleted

structure TimesOf (db : Database) (row : Row) : Prop where
  granted : row.leaseGranted = some db.grantedAt
  expires : row.leaseExpires = some db.expiresAt

def LogIs (t : Tables) (k : Key) (log : List Change) : Prop :=
  ∀ v blocks, t.change k v = some blocks ↔ ∃ c ∈ log, c.version = v ∧ c.blocks.map UInt64.toInt64 = blocks

-- The times of a deleted row are NULL, and nothing reads those of a deleted record.
structure Known (t : Tables) (k : Key) (db : Database) (row : Row) : Prop where
  found : t.row k = some row
  same : RowOf db row
  times : db.deleted = false → TimesOf db row
  blocks : BlocksAre t k db.blocks
  log : LogIs t k db.changes

inductive Represents (t : Tables) (k : Key) : Option Database → Prop where
  | absent (row : t.row k = none) (blocks : BlocksAre t k (fun _ => none)) (log : LogIs t k []) : Represents t k none
  | present {db : Database} {row : Row} (known : Known t k db row) : Represents t k (some db)

structure Sim (s : Store) (t : Tables) : Prop where
  slots : ∀ owner, t.slots.lookup owner = s.slots.lookup owner
  records : ∀ k, Represents t k (record s k)

section
variable {db : Database} {row : Row} (same : RowOf db row)
include same

theorem stateOfRow : stateOf row = db.state := by
  simp only [stateOf,same.pageSize,same.pageCount,same.version,same.last,UInt32.toUInt32_toInt32,
    UInt64.toUInt64_toInt64]

theorem leaseOfRow : leaseOf row = db.lease := by
  simp only [leaseOf,same.lease,same.epoch]

theorem holdsRow (epoch : Nat) : holds row epoch = db.holds epoch := by
  simp only [holds,Database.holds,same.holder,same.epoch]

theorem usableRow (epoch : Nat) : row.usable epoch = db.holds epoch := by
  simp only [Row.usable,Database.holds,same.holder,same.epoch,Bool.and_comm]

theorem activeRow (times : TimesOf db row) (now : Time) : row.active now = db.active now := by
  simp only [Row.active,Database.active,same.holder,times.expires,Option.any_some]

theorem freeRow (free : db.holder = none) (now : Time) : row.active now = false := by
  simp only [Row.active,same.holder,free,Option.isSome_none,Bool.false_and]

theorem repeatsRow (req : CommitRequest) : row.repeats req = db.repeats req := by
  simp only [Row.repeats,Database.repeats,same.version,same.last]

theorem rowGrant (req : OpenRequest) (id : Bytes) (granted expires : Time) :
    RowOf (db.grant req id) (row.granted id req.instanceID granted expires) :=
  ⟨same.pageSize,same.pageCount,same.version,same.last,by simp [Row.granted,Database.grant,same.epoch],rfl,rfl,
    same.deleted⟩

theorem rowRevive (pageSize : UInt32) : RowOf (db.revive pageSize) (row.revived pageSize.toInt32) :=
  ⟨rfl,same.pageCount,same.version,same.last,same.epoch,same.lease,same.holder,rfl⟩

theorem rowExtend (expires at_ : Time) : RowOf (db.extend expires) (row.extended at_) :=
  ⟨same.pageSize,same.pageCount,same.version,same.last,same.epoch,same.lease,same.holder,same.deleted⟩

theorem rowRelease : RowOf db.release row.released :=
  ⟨same.pageSize,same.pageCount,same.version,same.last,same.epoch,same.lease,rfl,same.deleted⟩

theorem rowRemove : RowOf db.remove row.dropped :=
  ⟨same.pageSize,rfl,by simp [Row.dropped,Database.remove,same.version],rfl,
    by simp [Row.dropped,Database.remove,same.epoch],rfl,rfl,rfl⟩

theorem rowApplied (req : CommitRequest) : RowOf (db.apply req) (row.afterCommit req) :=
  ⟨same.pageSize,rfl,by simp [Row.afterCommit,Row.applied,Database.apply,same.version],rfl,same.epoch,same.lease,
    same.holder,same.deleted⟩

end

theorem rowFresh (pageSize : UInt32) : RowOf (Database.fresh pageSize) (newRow pageSize.toInt32) :=
  ⟨rfl,rfl,rfl,rfl,rfl,rfl,rfl,rfl⟩

theorem wholeTimestamp {time : Time} (whole : 1000 ∣ time) : timestamp time = time := Int.ediv_mul_cancel whole

theorem timesGrant (db : Database) (row : Row) {req : OpenRequest} (id : Bytes) (now : 1000 ∣ req.now)
    (expiry : 1000 ∣ req.now+req.ttl) :
    TimesOf (db.grant req id) (row.granted id req.instanceID (timestamp req.now) (timestamp (req.now+req.ttl))) :=
  ⟨by rw [wholeTimestamp now]; rfl,by rw [wholeTimestamp expiry]; rfl⟩

theorem timesExtend {db : Database} {row : Row} (times : TimesOf db row) {expires : Time} (whole : 1000 ∣ expires) :
    TimesOf (db.extend expires) (row.extended (timestamp expires)) :=
  ⟨times.granted,by rw [wholeTimestamp whole]; rfl⟩

theorem representsSame {t after : Tables} {k : Key} {db : Option Database} (same : SameRows t after k)
    (represents : Represents t k db) : Represents after k db := by
  have blocksSame {m : UInt64 → Option Bytes} (blocks : BlocksAre t k m) : BlocksAre after k m :=
    fun i n => (same.part _ _).trans (blocks i n)
  have logSame {log : List Change} (are : LogIs t k log) : LogIs after k log := by
    intro v blocks
    rw [same.change]
    exact are v blocks
  cases represents with
  | absent row blocks log => exact .absent (same.row.trans row) (blocksSame blocks) (logSame log)
  | present known =>
    exact .present ⟨same.row.trans known.found,known.same,known.times,blocksSame known.blocks,logSame known.log⟩

theorem representsGone {t : Tables} {k : Key} (gone : NoRows t k) : Represents t k none :=
  .absent gone.row (fun _ _ => gone.part _ _) (fun v blocks => by rw [gone.change]; simp)

theorem simPut {s : Store} {t after : Tables} {key : Key} {db : Database} (sim : Sim s t)
    (slots : after.slots = t.slots) (others : ∀ k, k ≠ key → SameRows t after k)
    (represents : Represents after key (some db)) : Sim (s.put key db) after := by
  refine ⟨fun owner => by rw [slots]; exact sim.slots owner,fun k => ?_⟩
  rw [MemoryStore.recordPut]
  by_cases here : k = key
  · subst here
    rwa [if_pos rfl]
  · rw [if_neg here]
    exact representsSame (others k here) (sim.records k)

theorem simRow {s : Store} {t : Tables} {key : Key} {db : Database} {row : Row} (sim : Sim s t) (same : RowOf db row)
    (times : db.deleted = false → TimesOf db row) (blocks : BlocksAre t key db.blocks) (log : LogIs t key db.changes) :
    Sim (s.put key db) (t.put key row) := by
  refine simPut sim rfl (fun k other => putSame t row other) (.present ⟨putRow t key row,same,times,?_,?_⟩)
  · intro i n
    exact (partApply t key _ n _).trans (blocks i n)
  · intro v listed
    rw [Tables.put,changeApply]
    exact log v listed

theorem knownRow {s : Store} {t : Tables} {k : Key} {db : Database} (sim : Sim s t) (found : record s k = some db) :
    ∃ row, Known t k db row := by
  have represents := sim.records k
  rw [found] at represents
  cases represents with
  | present known => exact ⟨_,known⟩

theorem missingRow {s : Store} {t : Tables} {k : Key} (sim : Sim s t) (missing : record s k = none) :
    t.row k = none ∧ BlocksAre t k (fun _ => none) ∧ LogIs t k [] := by
  have represents := sim.records k
  rw [missing] at represents
  cases represents with
  | absent row blocks log => exact ⟨row,blocks,log⟩

theorem knownRecord {s : Store} {t : Tables} {k : Key} {row : Row} (sim : Sim s t) (found : t.row k = some row) :
    ∃ db, record s k = some db ∧ Known t k db row := by
  cases stored : record s k with
  | none => exact absurd ((missingRow sim stored).1.symm.trans found) (Option.some_ne_none _).symm
  | some db =>
    obtain ⟨other,known⟩ := knownRow sim stored
    cases found.symm.trans known.found
    exact ⟨db,rfl,known⟩

theorem partsApplied (t : Tables) (key k : Key) (idx i : Int64) (data : Nat → Bytes) (count n : Nat) :
    (engine.applyAll ((List.range count).map (fun m => Write.part key ⟨idx,m,data m⟩)) t).part k i n =
      if k = key ∧ i = idx ∧ n < count then some (data n) else t.part k i n := by
  induction count with
  | zero => simp [Engine.applyAll]
  | succ count ih =>
    rw [List.range_succ,List.map_append,Engine.applyAll,List.foldl_append]
    rw [Engine.applyAll] at ih
    have last := partApply (List.foldl (fun s w => engine.apply w s) t
      ((List.range count).map (fun m => Write.part key ⟨idx,m,data m⟩))) k i n (.part key ⟨idx,count,data count⟩)
    simp only [ih] at last
    refine last.trans ?_
    by_cases here : k = key ∧ i = idx
    · by_cases same : n = count
      · simp [here,same]
      · have less : n < count+1 ↔ n < count := by omega
        simp [here,same,less]
    · rw [if_neg (fun all => here ⟨all.1,all.2.1⟩),if_neg (fun all => here ⟨all.1,all.2.1⟩),
        if_neg (fun all => here ⟨all.1,all.2.1⟩)]

theorem partOfShort {data : Bytes} {n : Nat} (beyond : ¬ n < chunkCount partBytes data) : partOf data n = none := by
  rw [partOf,if_neg beyond]

/- The parts of a new block take the place of all parts of the old one, since both have the
size of a page. -/
theorem writtenBlock {t : Tables} {key : Key} {m : UInt64 → Option Bytes} {size : Nat} (stored : BlocksAre t key m)
    (sizes : ∀ i data, m i = some data → data.length = size) {b : Block} (whole : b.data.length = size) :
    BlocksAre (t.written key [b]) key (Function.update m b.index (some b.data)) := by
  intro i n
  have applied := partsApplied t key key b.index.toInt64 i.toInt64 (chunk partBytes b.data)
    (chunkCount partBytes b.data) n
  have shape : t.written key [b] = engine.applyAll ((List.range (chunkCount partBytes b.data)).map
      (fun n => Write.part key ⟨b.index.toInt64,n,chunk partBytes b.data n⟩)) t := by
    simp [Tables.written,blockParts,Function.comp_def]
  rw [shape,applied]
  by_cases here : i = b.index
  · subst here
    rw [Function.update_self,Option.bind_some]
    by_cases inside : n < chunkCount partBytes b.data
    · rw [if_pos ⟨rfl,rfl,inside⟩,partOf,if_pos inside]
    · rw [if_neg (fun all => inside all.2.2),stored,partOfShort inside]
      cases old : m b.index with
      | none => rfl
      | some data =>
        refine partOfShort ?_
        have same : chunkCount partBytes data = chunkCount partBytes b.data := by
          rw [chunkCount,chunkCount,sizes _ _ old,whole]
        rwa [same]
  · rw [if_neg (fun all => here (signedInjective all.2.1)),Function.update_of_ne here,stored]

theorem writtenCons (t : Tables) (key : Key) (b : Block) (blocks : List Block) :
    t.written key (b :: blocks) = (t.written key [b]).written key blocks := by
  simp [Tables.written,Engine.applyAll,List.foldl_append]

theorem writtenBlocks {t : Tables} {key : Key} {m : UInt64 → Option Bytes} {size : Nat} (stored : BlocksAre t key m)
    (sizes : ∀ i data, m i = some data → data.length = size) {blocks : List Block}
    (whole : ∀ b ∈ blocks, b.data.length = size) :
    BlocksAre (t.written key blocks) key (MemoryStore.writeBlocks m blocks) := by
  induction blocks generalizing t m with
  | nil => exact stored
  | cons b rest ih =>
    have size := whole b List.mem_cons_self
    rw [writtenCons,MemoryStore.writeBlocksCons]
    refine ih (writtenBlock stored sizes size) ?_ (fun b member => whole b (List.mem_cons_of_mem _ member))
    intro i data found
    by_cases here : i = b.index
    · rw [here,Function.update_self] at found
      exact Option.some.inj found ▸ size
    · rw [Function.update_of_ne here] at found
      exact sizes i data found

theorem signedLe {x y : UInt64} (left : x.toNat < 2^63) (right : y.toNat < 2^63) :
    x.toInt64 ≤ y.toInt64 ↔ x ≤ y := by
  rw [Int64.le_iff_toInt_le,signedSmall left,signedSmall right,UInt64.le_iff_toNat_le]
  omega

theorem signedLt {x y : UInt64} (left : x.toNat < 2^63) (right : y.toNat < 2^63) :
    x.toInt64 < y.toInt64 ↔ x < y := by
  rw [Int64.lt_iff_toInt_lt,signedSmall left,signedSmall right,UInt64.lt_iff_toNat_lt]
  omega

theorem signedRange {first count pageCount : UInt64} (inside : checkRange first count pageCount = none)
    (small : pageCount.toNat < 2^63) {n : Nat} (less : n < count.toNat) :
    first.toInt64 ≤ (first+UInt64.ofNat n).toInt64 ∧ (first+UInt64.ofNat n).toInt64 < (first+count).toInt64 := by
  have index := rangeIndex inside (Nat.le_of_lt less)
  have beyond := rangeIndex inside (Nat.le_refl count.toNat)
  rw [UInt64.ofNat_toNat] at beyond
  rw [signedLe (by omega) (by omega),signedLt (by omega) (by omega),UInt64.le_iff_toNat_le,UInt64.lt_iff_toNat_lt]
  omega

/- Cutting by the signed index is cutting by the index while neither exceeds the signed range. -/
theorem cutStored {t : Tables} {key : Key} {m : UInt64 → Option Bytes} (stored : BlocksAre t key m)
    (small : ∀ i data, m i = some data → i.toNat < 2^63) {pageCount : UInt64} (fits : pageCount.toNat < 2^63)
    (i : UInt64) (n : Nat) :
    (if pageCount.toInt64 ≤ i.toInt64 then none else t.part key i.toInt64 n) =
      (MemoryStore.cutBlocks m pageCount i).bind (fun data => partOf data n) := by
  rw [stored,MemoryStore.cutBlocks]
  cases found : m i with
  | none => simp
  | some data =>
    simp only [signedLe fits (small i data found)]
    split <;> rfl

theorem blocksCommitted {t : Tables} {req : CommitRequest} {m : UInt64 → Option Bytes} {size : Nat}
    (stored : BlocksAre t req.key m) (sizes : ∀ i data, m i = some data → data.length = size)
    (signed : ∀ i data, m i = some data → i.toNat < 2^63)
    (each : ∀ b ∈ req.blocks, b.data.length = size ∧ b.index < req.pageCount) (small : req.pageCount.toNat < 2^63)
    (row : Row) : BlocksAre (t.committed req row) req.key
      (MemoryStore.cutBlocks (MemoryStore.writeBlocks m req.blocks) req.pageCount) := by
  have written := writtenBlocks stored sizes (fun b member => (each b member).1)
  have below : ∀ i data, MemoryStore.writeBlocks m req.blocks i = some data → i.toNat < 2^63 := by
    intro i data there
    rcases MemoryStore.writeBlocksSource there with listed | before
    · obtain ⟨b,member,rfl,_⟩ := listed
      exact Nat.lt_trans (UInt64.lt_iff_toNat_lt.mp (each b member).2) small
    · exact signed i data before
  intro i n
  rw [committedPart]
  simp only [true_and]
  exact cutStored written below small i n

theorem blocksRemoved {t : Tables} {key : Key} {m : UInt64 → Option Bytes} (stored : BlocksAre t key m)
    (signed : ∀ i data, m i = some data → i.toNat < 2^63) (row : Row) :
    BlocksAre (t.removed key row) key (fun _ => none) := by
  intro i n
  have zero : (0 : Int64) = (0 : UInt64).toInt64 := rfl
  have cut := cutStored stored signed (by decide : (0 : UInt64).toNat < 2^63) i n
  rw [removedPart]
  simp only [true_and,zero]
  rw [cut,MemoryStore.cutBlocks,if_pos UInt64.zero_le]

theorem touchedSigned {blocks : List Block} (small : ∀ b ∈ blocks, b.index.toNat < 2^63) :
    touchedRows blocks = (MemoryStore.touched blocks).map UInt64.toInt64 := by
  have perm : (touchedRows blocks).Perm ((MemoryStore.touched blocks).map UInt64.toInt64) := by
    refine (List.perm_insertionSort _ _).trans (List.Perm.trans ?_ ((List.perm_insertionSort _ _).map _).symm)
    rw [List.map_map]
    rfl
  have signed : ∀ i ∈ MemoryStore.touched blocks, i.toNat < 2^63 := by
    intro i member
    obtain ⟨b,listed,rfl⟩ := List.mem_map.mp ((MemoryStore.touchedMember blocks i).mp member)
    exact small b listed
  have ordered : ((MemoryStore.touched blocks).map UInt64.toInt64).Pairwise (· ≤ ·) := by
    refine List.pairwise_map.mpr ((List.pairwise_insertionSort (· ≤ ·) _).imp_of_mem ?_)
    intro a b first second order
    exact (signedLe (signed a first) (signed b second)).mpr order
  exact perm.eq_of_pairwise' (List.pairwise_insertionSort (· ≤ ·) _) ordered

theorem appliedLogIs {t : Tables} {db : Database} {row : Row} {req : CommitRequest}
    (valid : MemoryStore.Wellformed db) (known : Known t req.key db row)
    (small : ∀ b ∈ req.blocks, b.index.toNat < 2^63) : LogIs (t.committed req row) req.key (db.apply req).changes := by
  have window := valid.window
  have reach := valid.reach
  have length : (db.apply req).changes.length = min (db.changes.length+1) changeWindow := by
    have shape : (db.apply req).changes =
      MemoryStore.lastChanges (db.changes ++ [⟨db.state.version+1,MemoryStore.touched req.blocks⟩]) := rfl
    rw [shape,MemoryStore.lastChangesLength,List.length_append,List.length_singleton]
  have unlogged : t.change req.key (row.version+1) = none := by
    refine Option.eq_none_iff_forall_ne_some.mpr (fun listed found => ?_)
    obtain ⟨c,member,version,_⟩ := (known.log _ _).mp found
    have := (MemoryStore.logVersion valid member).2
    rw [known.same.version] at version
    omega
  intro v listed
  rw [committedChange,unlogged,known.same.version]
  simp only [true_and,Option.getD_none,MemoryStore.appliedMember valid,length]
  by_cases pruned : changeWindow < db.state.version+1 ∧ v ≤ db.state.version+1-changeWindow
  · rw [if_pos pruned]
    simp only [reduceCtorEq,false_iff,not_exists,not_and]
    intro c member version
    omega
  rw [if_neg pruned]
  by_cases latest : v = db.state.version+1
  · rw [if_pos latest,touchedSigned small,Option.some.injEq]
    constructor
    · intro same
      exact ⟨⟨db.state.version+1,MemoryStore.touched req.blocks⟩,⟨.inr rfl,by simp only [changeWindow]; omega⟩,
        latest.symm,same⟩
    · intro found
      obtain ⟨c,⟨member,_⟩,version,same⟩ := found
      rcases member with old | new
      · have := (MemoryStore.logVersion valid old).2
        omega
      · rw [new] at same
        exact same
  · rw [if_neg latest,known.log v listed]
    constructor
    · intro found
      obtain ⟨c,member,version,same⟩ := found
      have := (MemoryStore.logVersion valid member).1
      exact ⟨c,⟨.inl member,by omega⟩,version,same⟩
    · intro found
      obtain ⟨c,⟨member,_⟩,version,same⟩ := found
      rcases member with old | new
      · exact ⟨c,old,version,same⟩
      · rw [new] at version
        exact absurd version.symm latest

theorem logOfRecord {t : Tables} {key : Key} {db : Database} {row : Row} (valid : MemoryStore.Wellformed db)
    (known : Known t key db row) :
    t.log key = db.changes.map (fun c => (c.version,c.blocks.map UInt64.toInt64)) := by
  have versions : (db.changes.map Change.version).Pairwise (· < ·) := by
    rw [valid.log]
    exact List.pairwise_lt_range'
  refine logIs t key (List.pairwise_map.mpr (List.pairwise_map.mp versions)) ?_
  intro v blocks
  rw [known.log,List.mem_map]
  refine exists_congr (fun c => and_congr_right (fun _ => ?_))
  rw [Prod.mk.injEq]

theorem changedBlocksSigned (log : List Change) (f : Nat) :
    changedBlocks ((log.map (fun c => (c.version,c.blocks.map UInt64.toInt64))).filter
      (fun entry => decide (f < entry.1))) = MemoryStore.changedSince log f := by
  have unsigned (blocks : List UInt64) : (blocks.map UInt64.toInt64).map Int64.toUInt64 = blocks := by
    rw [List.map_map]
    exact (List.map_congr_left (fun i _ => UInt64.toUInt64_toInt64 i)).trans (List.map_id blocks)
  rw [changedBlocks,MemoryStore.changedSince,List.filter_map,List.flatMap_map]
  simp only [unsigned]
  rfl

end SqliteRemote.Postgres
