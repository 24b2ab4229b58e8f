import SqliteRemote.BlockMigration
import SqliteRemote.PostgresRecords

/-! What Fetch makes of the parts. The blocks of a database are followed along a run, commit by commit.
They are the blocks of the record that its rows stand for, so in every state the parts are theirs and a
Fetch puts them together again. -/
namespace SqliteRemote.Postgres
open Rows Chunks StoreContract Programs RowLocking LockedRows
open MemoryStore (Database record cutBlocks writeBlocks)

/- The blocks of a database after a step of a call, given its rows before and after: those of a
commit to it, written over the old ones and cut, as soon as the commit has its version. -/
def recorded (k : Key) (op : Op) (before after : Option Row) (m : UInt64 → Option Bytes) : UInt64 → Option Bytes :=
  match after with
  | none => fun _ => none
  | some row =>
      if row.deleted then fun _ => none
      else match op with
      | .commit req =>
          if req.key = k ∧ before.map Row.version ≠ some row.version then cutBlocks (writeBlocks m req.blocks) req.pageCount
          else m
      | _ => m

inductive Contents (ops : Nat → Op) (k : Key) : List (Event Result) → Calls → (UInt64 → Option Bytes) → Prop where
  | start : Contents ops k [] ⟨empty,fun _ => none⟩ (fun _ => none)
  | next {events : List (Event Result)} {w after : Calls} {e : Event Result} {m : UInt64 → Option Bytes}
      (earlier : Contents ops k events w m) (step : Step engine (fun i => script (ops i)) w e after) :
      Contents ops k (events ++ [e]) after (recorded k (ops e.caller) (w.committed.row k) (after.committed.row k) m)

section
variable {ops : Nat → Op} {k : Key} {events : List (Event Result)} {w : Calls} {m : UInt64 → Option Bytes}

theorem contentsRun (contents : Contents ops k events w m) : Run engine (fun i => script (ops i)) empty events w := by
  induction contents with
  | start => exact .start
  | next _ step ih => exact .next ih step

theorem runContents (run : Run engine (fun i => script (ops i)) empty events w) (k : Key) :
    ∃ m, Contents ops k events w m := by
  induction run with
  | start => exact ⟨_,.start⟩
  | next _ step ih =>
    obtain ⟨m,contents⟩ := ih
    exact ⟨_,.next contents step⟩

end

def blocksOf (cur : Option Database) : UInt64 → Option Bytes := cur.elim (fun _ => none) Database.blocks

section
variable {k : Key}

theorem recordedDead (op : Op) (before : Option Row) {row : Row} (dead : row.deleted = true) (m : UInt64 → Option Bytes) :
    recorded k op before (some row) m = fun _ => none := if_pos dead

theorem recordedLive {op : Op} {before : Option Row} {row : Row} (live : row.deleted = false)
    (other : ∀ req, op = .commit req → before.map Row.version = some row.version) (m : UInt64 → Option Bytes) :
    recorded k op before (some row) m = m := by
  simp only [recorded,live,Bool.false_eq_true,if_false]
  split
  · rename_i req
    rw [if_neg fun both => both.2 (other req rfl)]
  · rfl

theorem knownVersion {t : Tables} {db : Database} (was : Recorded t k (some db)) :
    (t.row k).map Row.version = some db.state.version := by
  cases was.represents with
  | present known => rw [known.found,Option.map_some,known.same.version]

theorem recordedAfter {t after : Tables} {cur : Option Database} {op : Op} {m : UInt64 → Option Bytes}
    (is : Recorded after k cur) (keeps : ∀ db, cur = some db → db.deleted = false → m = db.blocks ∧
      ∀ req, op = .commit req → (t.row k).map Row.version = some db.state.version) :
    recorded k op (t.row k) (after.row k) m = blocksOf cur := by
  cases represents : is.represents with
  | absent row _ _ =>
    rw [row]
    rfl
  | @present db row known =>
    rw [known.found]
    cases deleted : db.deleted with
    | true =>
      rw [recordedDead op _ (known.same.deleted.trans deleted)]
      exact funext fun i => (((is.valid db rfl).empty deleted).2.2.2 i).symm
    | false =>
      obtain ⟨same,versions⟩ := keeps db rfl deleted
      rw [← known.same.version] at versions
      rw [recordedLive (known.same.deleted.trans deleted) versions,same]
      rfl

theorem recordedActs {s : MemoryStore.Store} {t after : Tables} {op : Op} {reply : Answer} {cur : Option Database}
    (was : Recorded t k (record s k)) (did : MemoryStore.RecordStep s k (truncated op) reply cur) (is : Recorded after k cur) :
    recorded k op (t.row k) (after.row k) (blocksOf (record s k)) = blocksOf cur := by
  have kept {db new : Database} (found : record s k = some db) (same : new.blocks = db.blocks)
      (version : new.state.version = db.state.version) :
      blocksOf (record s k) = new.blocks ∧ ∀ req, op = .commit req → (t.row k).map Row.version = some new.state.version := by
    rw [found] at was ⊢
    exact ⟨same.symm,fun _ _ => (knownVersion was).trans (congrArg some version.symm)⟩
  generalize cut : truncated op = ran at did
  cases did with
  | idle quiet => exact recordedAfter is (fun db found _ => kept found rfl rfl)
  | resumed _ found | granted _ found | revived _ found | repeated _ found | renewed found | released found =>
    exact recordedAfter is (fun db is _ => by cases is; exact kept found rfl rfl)
  | created _ missing =>
    refine recordedAfter is (fun db is _ => ?_)
    cases is
    rw [missing]
    refine ⟨rfl,fun req commits => ?_⟩
    rw [commits] at cut
    cases cut
  | deleted | swept => exact recordedAfter is (fun db is live => by cases is; cases live)
  | purged => exact recordedAfter is (fun db is _ => by cases is)
  | @applied db req key found held base valid =>
    cases op with
    | commit given =>
      cases cut
      have here : given.key = k := key
      rw [found] at was ⊢
      have before := knownVersion was
      have live : db.deleted = false := by
        cases deleted : db.deleted with
        | false => rfl
        | true =>
          rw [Database.holds,((was.valid db rfl).empty deleted).1] at held
          contradiction
      cases is.represents with
      | present known =>
        have alive := known.same.deleted.trans live
        have newer : (t.row k).map Row.version ≠ some (db.state.version+1) := by
          rw [before]
          simp
        rw [known.found]
        simp only [recorded,alive,Bool.false_eq_true,if_false,known.same.version]
        exact if_pos ⟨here,newer⟩
    | _ => cases cut

end

section
variable {ops : Nat → Op} {k : Key} {events : List (Event Result)} {w : Calls} {m : UInt64 → Option Bytes}

theorem contentsRecorded (small : ∀ i req, ops i = .commit req → req.pageCount.toNat < 2^63)
    (contents : Contents ops k events w m) : ∃ cur, Recorded w.committed k cur ∧ m = blocksOf cur := by
  induction contents with
  | start => exact ⟨none,recordedGone ⟨rfl,fun _ _ => rfl,fun _ => rfl⟩,rfl⟩
  | next earlier step ih =>
    obtain ⟨cur,was,rfl⟩ := ih
    rcases actedEach small (contentsRun earlier) step k with same | acted
    · refine ⟨cur,recordedSame same was,?_⟩
      rw [← same.row]
      refine recordedAfter (recordedSame same was) (fun db is _ => ?_)
      subst is
      exact ⟨rfl,fun _ _ => knownVersion (recordedSame same was)⟩
    · obtain ⟨s,valid,rfl,is,_⟩ := acted cur was
      exact ⟨_,is,recordedActs was (MemoryStore.recordStep valid.unheld _ k) is⟩

end

theorem signedOffset {first count pageCount i : UInt64} (inside : checkRange first count pageCount = none)
    (small : pageCount.toNat < 2^63) (signed : i.toNat < 2^63) (low : first.toInt64 ≤ i.toInt64)
    (high : i.toInt64 < (first+count).toInt64) : (i-first).toNat < count.toNat := by
  have beyond := rangeIndex inside (Nat.le_refl count.toNat)
  rw [UInt64.ofNat_toNat] at beyond
  rw [signedLe (by omega) signed] at low
  rw [signedLt signed (by omega),UInt64.lt_iff_toNat_lt] at high
  rw [UInt64.toNat_sub_of_le _ _ low]
  have start := UInt64.le_iff_toNat_le.mp low
  omega

def WholeParts (t : Tables) (k : Key) : Prop :=
  ∀ idx n, (t.part k idx n).isSome → ∃ row, t.row k = some row ∧ row.deleted = false ∧ 0 ≤ idx ∧ idx < row.pageCount ∧
    ∀ part, (t.part k idx part).map List.length =
      if part < (row.pageSize.toUInt32.toNat+1023)/1024 then
        some (if row.pageSize.toUInt32.toNat = 512 then 512 else 1024)
      else none

theorem partLength {data : Bytes} {size : UInt32} (valid : validPageSize size = true) (whole : data.length = size.toNat)
    (n : Nat) : (partOf data n).map List.length =
      if n < (size.toNat+1023)/1024 then some (if size.toNat = 512 then 512 else 1024) else none := by
  have count : chunkCount partBytes data = (size.toNat+1023)/1024 := by
    rw [chunkCount,whole]
    rfl
  rw [partOf,count]
  split
  · rename_i inside
    have length : (chunk partBytes data n).length = min 1024 (size.toNat-n*1024) := by
      simp [chunk,partBytes,whole]
    have exactly : min 1024 (size.toNat-n*1024) = if size.toNat = 512 then 512 else 1024 := by
      obtain ⟨e,low,high,power⟩ := (MemoryStore.validPageSizePower size).mp valid
      rw [power] at inside ⊢
      interval_cases e <;> simp at inside ⊢ <;> omega
    rw [Option.map_some,length,exactly]
  · rfl

/- A Fetch in a state whose blocks are m: the parts it is given lie inside the blocks it has made, and
it returns the blocks of m, with zeros for those never written. -/
def Reassembled (t : Tables) (k : Key) (m : UInt64 → Option Bytes) (version : Nat) (first count : UInt64)
    (data : List Bytes) : Prop :=
  ∃ row, t.row k = some row ∧ row.version = version ∧
    (∀ p ∈ t.parts k first.toInt64 (first+count).toInt64, (p.idx.toUInt64-first).toNat < count.toNat ∧
      p.part*partBytes < row.pageSize.toUInt32.toNat) ∧
    data = (List.range count.toNat).map (fun n => (m (first+UInt64.ofNat n)).getD (zeros row.pageSize.toUInt32))

theorem recordedSigned {t : Tables} {k : Key} {db : Database} (was : Recorded t k (some db)) {i : UInt64} {data : Bytes}
    (found : db.blocks i = some data) : i.toNat < 2^63 :=
  Nat.lt_trans (UInt64.lt_iff_toNat_lt.mp ((was.valid db rfl).stored i data found).1) (was.small db rfl)

section
variable {t : Tables} {k : Key} {db : Database} {row : Row} (was : Recorded t k (some db)) (known : Known t k db row)
include was known

theorem knownParts {idx : Int64} {n : Nat} (present : (t.part k idx n).isSome) :
    row.deleted = false ∧ 0 ≤ idx ∧ idx < row.pageCount ∧ ∀ part, (t.part k idx part).map List.length =
      if part < (row.pageSize.toUInt32.toNat+1023)/1024 then
        some (if row.pageSize.toUInt32.toNat = 512 then 512 else 1024)
      else none := by
  have valid := was.valid db rfl
  have parts (part : Nat) : t.part k idx part = (db.blocks idx.toUInt64).bind (fun data => partOf data part) := by
    have at_ := known.blocks idx.toUInt64 part
    rw [Int64.toInt64_toUInt64] at at_
    exact at_
  rw [parts] at present
  cases found : db.blocks idx.toUInt64 with
  | none =>
    rw [found] at present
    contradiction
  | some data =>
    have live : db.deleted = false := by
      cases deleted : db.deleted with
      | false => rfl
      | true => cases ((valid.empty deleted).2.2.2 _).symm.trans found
    obtain ⟨below,size⟩ := valid.stored _ data found
    have signed := recordedSigned was found
    have low := (signedLe (by decide : (0 : UInt64).toNat < 2^63) signed).mpr UInt64.zero_le
    have high := (signedLt signed (was.small db rfl)).mpr below
    rw [Int64.toInt64_toUInt64] at low high
    have pageSize : row.pageSize.toUInt32 = db.state.pageSize := by rw [known.same.pageSize,UInt32.toUInt32_toInt32]
    refine ⟨known.same.deleted.trans live,low,known.same.pageCount ▸ high,fun part => ?_⟩
    rw [parts,found,pageSize]
    exact partLength valid.size size part

theorem knownInside {first count : UInt64} (inside : checkRange first count db.state.pageCount = none) {p : Part}
    (listed : p ∈ t.parts k first.toInt64 (first+count).toInt64) :
    (p.idx.toUInt64-first).toNat < count.toNat ∧ p.part*partBytes < row.pageSize.toUInt32.toNat := by
  obtain ⟨stored,low,high⟩ := (memParts t k _ _ p).mp listed
  have at_ := known.blocks p.idx.toUInt64 p.part
  rw [Int64.toInt64_toUInt64] at at_
  cases found : db.blocks p.idx.toUInt64 with
  | none =>
    rw [found] at at_
    cases at_.symm.trans stored
  | some block =>
    rw [found] at at_
    have piece : partOf block p.part = some p.data := at_.symm.trans stored
    constructor
    · rw [← Int64.toInt64_toUInt64 p.idx] at low high
      exact signedOffset inside (was.small db rfl) (recordedSigned was found) low high
    · rw [partOf] at piece
      split at piece <;> try contradiction
      rename_i among
      rw [known.same.pageSize,UInt32.toUInt32_toInt32,← ((was.valid db rfl).stored _ block found).2]
      exact (chunkStarts (by decide) block p.part).mp among

end

section
variable {t : Tables} {k : Key} {cur : Option Database} (was : Recorded t k cur)
include was

theorem recordedBlocks : BlocksAre t k (blocksOf cur) := by
  cases was.represents with
  | absent _ blocks _ => exact blocks
  | present known => exact known.blocks

theorem recordedParts : WholeParts t k := by
  intro idx n present
  cases was.represents with
  | absent _ blocks _ =>
    have at_ := blocks idx.toUInt64 n
    rw [Int64.toInt64_toUInt64] at at_
    rw [at_] at present
    contradiction
  | @present db row known => exact ⟨row,known.found,knownParts was known present⟩

theorem recordedFetched {version : Nat} {first count : UInt64} {data : List Bytes}
    (got : fetched t k version first count = .ok data) : Reassembled t k (blocksOf cur) version first count data := by
  rw [fetchRecorded was version first count ∅] at got
  cases out : (storeOf k cur ∅).fetch k version first count with
  | error f =>
    rw [out] at got
    cases got
  | ok blocks =>
    rw [out] at got
    cases got
    obtain ⟨db,found,_,rfl,inside,rfl⟩ := MemoryStore.fetchRead out
    rw [recordOf,if_pos rfl] at found
    subst found
    cases was.represents with
    | @present _ row known =>
      refine ⟨row,known.found,known.same.version,fun p listed => knownInside was known inside listed,?_⟩
      rw [known.same.pageSize,UInt32.toUInt32_toInt32]
      rfl

end

theorem migrationParts {blocks : List (BlockKey × Bytes)} (sizes : ∀ b ∈ blocks, 1 ≤ b.2.length ∧ b.2.length ≤ 65536) :
    migrateUp blocks = blocks.flatMap partRows ∧ ∀ p ∈ migrateUp blocks, p.1.part < 2^15 := by
  have parts := migrateUpParts (fun b member => (sizes b member).1)
  refine ⟨parts,fun p member => ?_⟩
  rw [parts] at member
  obtain ⟨b,among,part⟩ := List.mem_flatMap.mp member
  have start := (partRowsBlock part).2
  have short := (sizes b among).2
  rw [partBytes] at start
  omega

theorem blocksReassembled {ops : Nat → Op} {events : List (Event Result)} {w : Calls}
    (small : ∀ i req, ops i = .commit req → req.pageCount.toNat < 2^63)
    (run : Run engine (fun i => script (ops i)) empty events w) (k : Key) :
    (∃ m, Contents ops k events w m) ∧
    (∀ m, Contents ops k events w m → BlocksAre w.committed k m ∧ WholeParts w.committed k ∧
      ∀ version first count data, fetched w.committed k version first count = .ok data →
        Reassembled w.committed k m version first count data) ∧
    (∀ i version first count data, ops i = .fetch k version first count →
      Event.returned i (.ok (.blocks data)) ∈ events →
      ∃ earlier later view m, events = earlier ++ later ∧ Event.invoked i ∈ earlier ∧
        Event.returned i (.ok (.blocks data)) ∈ later ∧ Contents ops k earlier view m ∧
        Reassembled view.committed k m version first count data) ∧
    ∀ blocks : List (BlockKey × Bytes), (∀ b ∈ blocks, 1 ≤ b.2.length ∧ b.2.length ≤ 65536) →
      (blocks.map Prod.fst).Nodup → migrateUp blocks = blocks.flatMap partRows ∧
        (∀ p ∈ migrateUp blocks, p.1.part < 2^15) ∧
        ∀ parts, parts.Perm (migrateUp blocks) → (migrateDown parts).Perm blocks := by
  refine ⟨runContents run k,fun m contents => ?_,fun i version first count data is returned => ?_,fun blocks sizes once => ?_⟩
  · obtain ⟨cur,was,rfl⟩ := contentsRecorded small contents
    exact ⟨recordedBlocks was,recordedParts was,fun _ _ _ _ got => recordedFetched was got⟩
  · have reads : script (ops i) = .ask (.tx true (fetchBody k version first count)) fun r => .done (r.map .blocks) := by
      rw [is]
      rfl
    obtain ⟨earlier,later,view,rfl,invoked,there,ran,result⟩ :=
      readFrom reads (fetchReads k version first count) run returned
    obtain ⟨m,contents⟩ := runContents ran k
    have got : fetched view.committed k version first count = .ok data := by
      rw [execFetch] at result
      cases out : fetched view.committed k version first count with
      | error f =>
        rw [out] at result
        cases result
      | ok blocks =>
        rw [out] at result
        cases result
        rfl
    obtain ⟨cur,was,rfl⟩ := contentsRecorded small contents
    exact ⟨earlier,later,view,_,rfl,invoked,there,contents,recordedFetched was got⟩
  · obtain ⟨up,narrow⟩ := migrationParts sizes
    exact ⟨up,narrow,fun _ perm => migrateDownUp (fun b member => (sizes b member).1) once perm⟩

def twoLives : Nat → Op
  | 0 => .openDatabase {anOpen true [1] 0 with pageSize := 2048} [9]
  | 1 => .commit (aCommit [1] 0 2 [⟨0,List.replicate 2048 5⟩,⟨1,List.replicate 2048 6⟩])
  | 2 => .delete ⟨aKey,true,0⟩
  | 3 => .openDatabase (anOpen true [1] 0) [8]
  | 4 => .commit {aCommit [2] 2 2 [aBlock 0,aBlock 1] with leaseEpoch := 3}
  | 5 => .commit {aCommit [3] 3 1 [] with leaseEpoch := 3}
  | _ => .fetch aKey 4 0 1

def fetchedLast (events : List (Event Result)) (w : Calls) : Bool :=
  decide (Event.returned 6 (.ok (.blocks [(aBlock 0).data])) ∈ events) && (w.committed.part aKey 0 0).isSome

theorem blocksReassembledTwice : ∃ events w, Run engine (fun i => script (twoLives i)) empty events w ∧
    Event.returned 6 (.ok (.blocks [(aBlock 0).data])) ∈ events ∧ (w.committed.part aKey 0 0).isSome ∧
    WholeParts w.committed aKey ∧ ∃ earlier view m, Contents twoLives aKey earlier view m ∧
      Reassembled view.committed aKey m 4 0 1 [(aBlock 0).data] := by
  have ran : (schedule engine (fun i => script (twoLives i)) [0,1,2,3,4,5,6] ([0,0,0,0,0,0,0,0] ++ [1,1,1,1,1,1,1,1,1] ++
      [2,2,2,2,2,2,2,2] ++ [3,3,3,3,3,3,3,3] ++ [4,4,4,4,4,4,4,4,4] ++ [5,5,5,5,5,5,5,5] ++ [6,6,6,6,6,6])
      ⟨empty,fun _ => none⟩).map (fun out => fetchedLast out.1 out.2) = some true := by
    decide +kernel
  have small : ∀ i req, twoLives i = .commit req → req.pageCount.toNat < 2^63 := by
    intro i req is
    rcases i with _ | _ | _ | _ | _ | _ | i
    all_goals try exact Op.noConfusion is
    all_goals
      rw [← Op.commit.inj is]
      decide
  obtain ⟨events,w,run,shown⟩ := scheduledShown fetchedLast (by decide) ran
  rw [fetchedLast,Bool.and_eq_true,decide_eq_true_eq] at shown
  obtain ⟨returned,stored⟩ := shown
  obtain ⟨⟨m,contents⟩,state,fetches,_⟩ := blocksReassembled small run aKey
  obtain ⟨earlier,later,view,m,_,_,_,before,whole⟩ := fetches 6 4 0 1 _ rfl returned
  exact ⟨events,w,run,returned,stored,(state _ contents).2.1,earlier,view,m,before,whole⟩

end SqliteRemote.Postgres
