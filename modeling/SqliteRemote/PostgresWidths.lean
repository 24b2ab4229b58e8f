import SqliteRemote.MemoryVersions
import SqliteRemote.PostgresRefinement

/-! Page counts and block indexes are unsigned in a request and signed in the tables. A page
count of 2^63 or more is negative there, so the statement that deletes the blocks from the page
count on deletes every block with a nonnegative index, and no range that crosses 2^63 is found. -/
namespace SqliteRemote.Postgres
open Rows Chunks StoreContract Programs RowLocking
open MemoryStore (Database Store record)

def committedContent (db : Database) (req : CommitRequest) (i : UInt64) : Bytes :=
  ((req.blocks.find? (fun b => b.index == i)).map Block.data).getD (db.content i)

def unwritten (db : Database) (req : CommitRequest) : Prop :=
  (∀ b ∈ req.blocks, b.data = zeros db.state.pageSize) ∧
  ∀ i, i < req.pageCount → i ∉ req.blocks.map Block.index → db.content i = zeros db.state.pageSize

def unwrittenNear (limit : Nat) (db : Database) (req : CommitRequest) : Prop :=
  ∀ i, i < req.pageCount → i.toNat+1 < 2^63+limit → committedContent db req i = zeros db.state.pageSize

theorem findBlock (blocks : List Block) (i : UInt64) :
    (∃ b ∈ blocks, blocks.find? (fun b => b.index == i) = some b ∧ b.index = i) ∨
    blocks.find? (fun b => b.index == i) = none ∧ i ∉ blocks.map Block.index := by
  cases found : blocks.find? (fun b => b.index == i) with
  | some b => exact .inl ⟨b,List.mem_of_find?_eq_some found,rfl,by simpa using List.find?_some found⟩
  | none =>
    refine .inr ⟨rfl,fun listed => ?_⟩
    obtain ⟨b,member,same⟩ := List.mem_map.mp listed
    have other := List.find?_eq_none.mp found b member
    simp [same] at other

section
variable {db : Database} {req : CommitRequest} (ok : validateCommit db.state.pageSize req = none)
include ok

theorem writtenContent (i : UInt64) :
    (MemoryStore.writeBlocks db.blocks req.blocks i).getD (zeros db.state.pageSize) = committedContent db req i := by
  obtain ⟨_,_,once⟩ := validCommit ok
  rw [committedContent]
  rcases findBlock req.blocks i with listed | unlisted
  · obtain ⟨b,member,found,rfl⟩ := listed
    rw [found,MemoryStore.writeBlocksListed once member]
    rfl
  · rw [unlisted.1,MemoryStore.writeBlocksOther unlisted.2]
    rfl

theorem appliedContent {i : UInt64} (inside : i < req.pageCount) :
    (db.apply req).content i = committedContent db req i := by
  have uncut : (db.apply req).blocks i = MemoryStore.writeBlocks db.blocks req.blocks i := by
    simp only [Database.apply,MemoryStore.cutBlocks]
    rw [if_neg (UInt64.not_le.mpr inside)]
  rw [Database.content,uncut]
  exact writtenContent ok i

theorem unwrittenIff : unwritten db req ↔
    ∀ i, i < req.pageCount → committedContent db req i = zeros db.state.pageSize := by
  obtain ⟨_,each,once⟩ := validCommit ok
  constructor
  · intro zero i inside
    rw [committedContent]
    rcases findBlock req.blocks i with listed | unlisted
    · obtain ⟨b,member,found,_⟩ := listed
      rw [found]
      exact zero.1 b member
    · rw [unlisted.1]
      exact zero.2 i inside unlisted.2
  · intro zero
    refine ⟨fun b member => ?_,fun i inside fresh => ?_⟩
    · have content := zero b.index (each b member).2
      rw [← writtenContent ok,MemoryStore.writeBlocksListed once member] at content
      exact content
    · have content := zero i inside
      rw [← writtenContent ok,MemoryStore.writeBlocksOther fresh] at content
      exact content

theorem unwrittenNearAll : unwrittenNear (2^64) db req ↔ unwritten db req := by
  rw [unwrittenIff ok]
  refine ⟨fun near i inside => near i inside ?_,fun zero i inside _ => zero i inside⟩
  have last := UInt64.toNat_lt i
  omega

end

def signedBlocks (db : Database) (req : CommitRequest) (i : UInt64) : Option Bytes :=
  if req.pageCount.toInt64 ≤ i.toInt64 then none else MemoryStore.writeBlocks db.blocks req.blocks i

section
variable {t : Tables} {db : Database} {row : Row} {req : CommitRequest} (known : Known t req.key db row)
  (valid : MemoryStore.Wellformed db) (ok : validateCommit db.state.pageSize req = none)
include known valid ok

theorem committedBlocks : BlocksAre (t.committed req row) req.key (signedBlocks db req) := by
  obtain ⟨_,each,_⟩ := validCommit ok
  have stored := writtenBlocks known.blocks (fun i data there => (valid.stored i data there).2)
    (fun b member => (each b member).1)
  intro i n
  rw [committedPart,signedBlocks]
  simp only [true_and]
  split
  · rfl
  · exact stored i n

omit known in
theorem committedSizes {i : UInt64} {data : Bytes} (found : signedBlocks db req i = some data) :
    data.length = db.state.pageSize.toNat := by
  obtain ⟨_,each,_⟩ := validCommit ok
  rw [signedBlocks] at found
  split at found
  · contradiction
  rcases MemoryStore.writeBlocksSource found with listed | before
  · obtain ⟨b,member,_,same⟩ := listed
    exact same ▸ (each b member).1
  · exact (valid.stored i data before).2

omit known valid in
theorem keptContent {i : UInt64} (uncut : ¬ req.pageCount.toInt64 ≤ i.toInt64) :
    (signedBlocks db req i).getD (zeros db.state.pageSize) = committedContent db req i := by
  rw [signedBlocks,if_neg uncut]
  exact writtenContent ok i

theorem committedFetch (live : db.deleted = false) {first count : UInt64}
    (inside : checkRange first count req.pageCount = none) :
    fetched (t.committed req row) req.key (db.state.version+1) first count =
      .ok ((List.range count.toNat).map (fun n =>
        if first.toInt64 ≤ (first+UInt64.ofNat n).toInt64 ∧ (first+UInt64.ofNat n).toInt64 < (first+count).toInt64 then
          (signedBlocks db req (first+UInt64.ofNat n)).getD (zeros db.state.pageSize)
        else zeros db.state.pageSize)) := by
  have of := rowApplied known.same req
  have range : checkRange first count (db.apply req).state.pageCount = none := inside
  have alive : (db.apply req).deleted = false := live
  have version : (db.apply req).state.version = db.state.version+1 := rfl
  have size : (db.apply req).state.pageSize = db.state.pageSize := rfl
  rw [fetched,committedRow,if_pos rfl]
  simp only [of.deleted,of.version,of.pageCount,of.pageSize,UInt32.toUInt32_toInt32,UInt64.toUInt64_toInt64,alive,
    version,range,size,Bool.false_eq_true,if_false,ne_eq,not_true]
  rw [zeros,copiedRange (committedBlocks known valid ok) (fun i data found => committedSizes valid ok found)]

end

theorem memoryFetch {s : Store} {db : Database} {req : CommitRequest} (found : record s req.key = some db)
    (live : db.deleted = false) {version : Nat} (is : version = db.state.version) {first count : UInt64}
    (inside : checkRange first count db.state.pageCount = none) :
    s.fetch req.key version first count = .ok ((List.range count.toNat).map
      (fun n => db.content (first+UInt64.ofNat n))) := by
  have there : s.dbs.lookup req.key = some db := found
  rw [Store.fetch,there]
  simp only [live,is,inside,Bool.false_eq_true,if_false,ne_eq,not_true]

theorem newBase {db : Database} (valid : MemoryStore.Wellformed db) {req : CommitRequest}
    (base : db.state.version = req.baseVersion.toNat) : db.repeats req = false := by
  cases again : db.repeats req with
  | false => rfl
  | true =>
    have := (MemoryStore.repeatsBase valid again).1
    omega

theorem rangeBelow {first count pageCount : UInt64} (inside : checkRange first count pageCount = none) {n : Nat}
    (member : n ∈ List.range count.toNat) : first+UInt64.ofNat n < pageCount := by
  have less := List.mem_range.mp member
  have index := rangeIndex inside (Nat.le_of_lt less)
  rw [UInt64.lt_iff_toNat_lt]
  omega

section
variable {t : Tables} {db : Database} {row : Row} {req : CommitRequest} (known : Known t req.key db row)
  (valid : MemoryStore.Wellformed db) (ok : validateCommit db.state.pageSize req = none) (live : db.deleted = false)
include known valid ok live

/- A range that has a block past 2^63 and its limit behind starts past 2^63, where the order of the
signed numbers is the order of the indexes again. -/
theorem fetchesCommitted {limit : Nat} (condition : req.pageCount.toNat < 2^63 ∨ unwrittenNear limit db req)
    {first count : UInt64} (short : count.toNat ≤ limit) (inside : checkRange first count req.pageCount = none) :
    fetched (t.committed req row) req.key (db.state.version+1) first count =
      .ok ((List.range count.toNat).map (fun n => committedContent db req (first+UInt64.ofNat n))) := by
  rw [committedFetch known valid ok live inside]
  refine congrArg Except.ok (List.map_congr_left (fun n member => ?_))
  have below := rangeBelow inside member
  have less := List.mem_range.mp member
  rcases condition with fits | near
  · have uncut : ¬ req.pageCount.toInt64 ≤ (first+UInt64.ofNat n).toInt64 := by
      rw [signedLe fits (Nat.lt_trans (UInt64.lt_iff_toNat_lt.mp below) fits)]
      exact UInt64.not_le.mpr below
    rw [if_pos (signedRange inside fits less),keptContent ok uncut]
  by_cases reached : (first+UInt64.ofNat n).toNat+1 < 2^63+limit
  · have content := near _ below reached
    rw [content]
    split
    · by_cases cut : req.pageCount.toInt64 ≤ (first+UInt64.ofNat n).toInt64
      · rw [signedBlocks,if_pos cut]
        rfl
      · rw [keptContent ok cut,content]
    · rfl
  · have index := rangeIndex inside (Nat.le_of_lt less)
    have beyond := rangeIndex inside (Nat.le_refl count.toNat)
    rw [UInt64.ofNat_toNat] at beyond
    have under := UInt64.lt_iff_toNat_lt.mp below
    have uncut : ¬ req.pageCount.toInt64 ≤ (first+UInt64.ofNat n).toInt64 := by
      rw [Int64.le_iff_toInt_le,signedLarge (by omega),signedLarge (by omega)]
      omega
    rw [if_pos,keptContent ok uncut]
    rw [Int64.le_iff_toInt_le,Int64.lt_iff_toInt_lt,signedLarge (by omega),signedLarge (by omega),signedLarge (by omega)]
    omega

theorem nearZeros {limit : Nat} (positive : 0 < limit) (large : 2^63 ≤ req.pageCount.toNat)
    (agrees : ∀ first count, count.toNat ≤ limit → checkRange first count req.pageCount = none →
      fetched (t.committed req row) req.key (db.state.version+1) first count =
        .ok ((List.range count.toNat).map (fun n => committedContent db req (first+UInt64.ofNat n)))) :
    unwrittenNear limit db req := by
  intro i inside reached
  have below := UInt64.lt_iff_toNat_lt.mp inside
  have last := UInt64.toNat_lt req.pageCount
  have size : UInt64.size = 2^64 := rfl
  -- From the block itself, or from the last block below 2^63, to the block.
  let first : UInt64 := UInt64.ofNat (min i.toNat (2^63-1))
  let count : UInt64 := UInt64.ofNat (i.toNat+1-min i.toNat (2^63-1))
  have start : first.toNat = min i.toNat (2^63-1) := UInt64.toNat_ofNat_of_lt' (by omega)
  have length : count.toNat = i.toNat+1-min i.toNat (2^63-1) := UInt64.toNat_ofNat_of_lt' (by omega)
  have range : checkRange first count req.pageCount = none := by
    have low : first ≤ req.pageCount := UInt64.le_iff_toNat_le.mpr (by omega)
    refine checkRangeAccepts.mpr ⟨low,UInt64.le_iff_toNat_le.mpr ?_⟩
    rw [UInt64.toNat_sub_of_le _ _ low]
    omega
  have beyond := (rangeIndex range (Nat.le_refl count.toNat)).1
  rw [UInt64.ofNat_toNat] at beyond
  have answer := agrees first count (by omega) range
  rw [committedFetch known valid ok live range] at answer
  have same := List.map_inj_left.mp (Except.ok.inj answer) (i.toNat-first.toNat) (List.mem_range.mpr (by omega))
  have block : first+UInt64.ofNat (i.toNat-first.toNat) = i := by
    refine UInt64.toNat_inj.mp ?_
    rw [(rangeIndex range (by omega)).1]
    omega
  rw [block] at same
  rw [← same]
  split
  · rename_i both
    have cut : req.pageCount.toInt64 ≤ i.toInt64 := by
      have low := Int64.le_iff_toInt_le.mp both.1
      have high := Int64.lt_iff_toInt_lt.mp both.2
      rw [signedSmall (by omega)] at low
      by_cases small : i.toNat < 2^63
      · rw [Int64.le_iff_toInt_le,signedLarge large,signedSmall small]
        omega
      · rw [signedLarge (by omega)] at low
        omega
    rw [signedBlocks,if_pos cut]
    rfl
  · rfl

theorem rangesAgree {limit : Nat} (positive : 0 < limit) :
    (∀ first count, count.toNat ≤ limit → checkRange first count req.pageCount = none →
      fetched (t.committed req row) req.key (db.state.version+1) first count =
        .ok ((List.range count.toNat).map (fun n => committedContent db req (first+UInt64.ofNat n)))) ↔
      req.pageCount.toNat < 2^63 ∨ unwrittenNear limit db req := by
  refine ⟨fun agrees => ?_,fun condition first count => fetchesCommitted known valid ok live condition⟩
  exact (Nat.lt_or_ge req.pageCount.toNat (2^63)).imp_right fun large => nearZeros known valid ok live positive large agrees

end

theorem fetchReturns {t : Tables} {key : Key} {version : Nat} {first count : UInt64} {data : List Bytes} :
    (step t (.fetch key version first count)).1 = .ok (.blocks data) ↔
      fetched t key version first count = .ok data := by
  rw [stepFetch]
  cases fetched t key version first count with
  | error e => refine ⟨fun same => ?_,fun same => ?_⟩ <;> contradiction
  | ok blocks =>
    refine ⟨fun same => congrArg Except.ok (Reply.blocks.inj (Except.ok.inj same)),fun same => ?_⟩
    cases same
    rfl

theorem widthsPreserveIff {s : Store} {t : Tables} (sim : Sim s t) (valid : MemoryStore.WellformedStore s)
    {req : CommitRequest} {db : Database} (found : record s req.key = some db) (held : db.holds req.leaseEpoch = true)
    (base : db.state.version = req.baseVersion.toNat) (ok : validateCommit db.state.pageSize req = none) :
    (∀ first count, checkRange first count req.pageCount = none →
      (MemoryStore.step (MemoryStore.step s (.commit req)).2 (.fetch req.key (db.state.version+1) first count)).1 =
        .ok (.blocks ((List.range count.toNat).map (fun n => committedContent db req (first+UInt64.ofNat n))))) ∧
    ((∀ first count, checkRange first count req.pageCount = none →
      (step (step t (.commit req)).2 (.fetch req.key (db.state.version+1) first count)).1 =
        .ok (.blocks ((List.range count.toNat).map (fun n => committedContent db req (first+UInt64.ofNat n))))) ↔
      req.pageCount.toNat < 2^63 ∨ unwritten db req) ∧
    ∀ limit, 0 < limit → ((∀ first count, count.toNat ≤ limit → checkRange first count req.pageCount = none →
      (step (step t (.commit req)).2 (.fetch req.key (db.state.version+1) first count)).1 =
        .ok (.blocks ((List.range count.toNat).map (fun n => committedContent db req (first+UInt64.ofNat n))))) ↔
      req.pageCount.toNat < 2^63 ∨ unwrittenNear limit db req) := by
  have wellformed := valid _ _ found
  have live := MemoryStore.heldLive wellformed held
  have fresh := newBase wellformed base
  obtain ⟨row,known⟩ := knownRow sim found
  have there : s.dbs.lookup req.key = some db := found
  have memory : (MemoryStore.step s (.commit req)).2 = s.put req.key (db.apply req) := by
    simp [MemoryStore.step,Store.commit,there,held,fresh,base,ok,MemoryStore.answer]
  have postgres : (step t (.commit req)).2 = t.committed req row := by
    rw [stepTx t (rfl : script (.commit req) = inTx .version (commitBody req)),execCommit,known.found]
    simp only [holdsRow known.same,held,repeatsRow known.same,fresh,known.same.version,base,known.same.pageSize,
      UInt32.toUInt32_toInt32,ok,Bool.not_true,Bool.false_eq_true,if_false,ne_eq,not_true]
    rfl
  simp only [postgres,fetchReturns]
  refine ⟨fun first count inside => ?_,?_,fun limit positive => rangesAgree known wellformed ok live positive⟩
  · have stored : record (s.put req.key (db.apply req)) req.key = some (db.apply req) := by
      rw [MemoryStore.recordPut,if_pos rfl]
    have version : db.state.version+1 = (db.apply req).state.version := rfl
    rw [memory,MemoryStore.step,memoryFetch stored live version inside]
    exact congrArg (fun blocks => Except.ok (Reply.blocks blocks))
      (List.map_congr_left (fun n member => appliedContent ok (rangeBelow inside member)))
  · rw [← unwrittenNearAll ok,← rangesAgree known wellformed ok live (by decide : 0 < 2^64)]
    refine ⟨fun all first count _ => all first count,fun all first count => all first count ?_⟩
    exact Nat.le_of_lt (UInt64.toNat_lt count)

def hugeRun : List Op :=
  [.openDatabase (anOpen true [1] 0) [9],.commit (aCommit [1] 0 9223372036854775808 [aBlock 0]),.fetch aKey 1 0 1]

theorem hugePageCountLoses : validateCommit 512 (aCommit [1] 0 9223372036854775808 [aBlock 0]) = none ∧
    checkRange 0 1 9223372036854775808 = none ∧
    ((History.history step empty hugeRun).map History.Event.reply)[2]? = some (.ok (.blocks [List.replicate 512 0])) ∧
    ((MemoryStore.history hugeRun).map History.Event.reply)[2]? = some (.ok (.blocks [List.replicate 512 7])) := by
  decide +kernel

def smallCommit : CommitRequest := aCommit [1] 0 2 [aBlock 1]

theorem widthsPreserveOfSmall : checkRange 0 2 smallCommit.pageCount = none ∧
    (step (step (History.run step empty [.openDatabase (anOpen true [1] 0) [9]]) (.commit smallCommit)).2
      (.fetch aKey 1 0 2)).1 = .ok (.blocks [List.replicate 512 0,List.replicate 512 7]) := by
  have fits : ∀ op ∈ [Op.openDatabase (anOpen true [1] 0) [9]], Representable op := by decide
  have found : record (MemoryStore.run MemoryStore.new [.openDatabase (anOpen true [1] 0) [9]]) smallCommit.key =
      some ((Database.fresh 512).grant (anOpen true [1] 0) [9]) := rfl
  have inside : checkRange 0 2 smallCommit.pageCount = none := by decide
  have both := widthsPreserveIff (simRun fits).2 (MemoryStore.wellformedRun _) found rfl rfl (by decide +kernel)
  exact ⟨inside,(both.2.1.mpr (.inl (by decide)) 0 2 inside).trans (by decide +kernel)⟩

end SqliteRemote.Postgres
