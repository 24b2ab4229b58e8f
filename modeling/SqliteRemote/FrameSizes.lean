import SqliteRemote.FetchReassembly
import SqliteRemote.Protobuf
import SqliteRemote.ServerConfig

/-! The sizes of answer frames. The handler counts blocks and block indexes by fixed allowances
for what their encoding adds; here the frames it builds are encoded and measured. -/
namespace SqliteRemote.Server
open StoreContract Programs Protocol
open Protobuf hiding Bytes

def pagesMessage (p : Pages) : Bytes :=
  numberField 1 p.firstBlock.toNat ++ repeatedField 2 p.blocks ++ boolField 3 p.last

def changesMessage (set : ChangeSet) : Bytes :=
  numberField 1 set.fromVersion ++ numberField 2 set.toVersion ++ packedField 3 (set.blocks.map UInt64.toNat) ++
    boolField 4 set.complete

-- The two kinds of frames whose size depends on what the store returned.
def bodyField : ServerBody → Option Bytes
  | .pages p => some (delimited 12 (pagesMessage p))
  | .changes set => some (delimited 19 (changesMessage set))
  | _ => none

def encoding (frame : ServerFrame) : Option Bytes :=
  (bodyField frame.body).map (fun body => numberField 1 frame.requestID.toNat ++ body)

def Fits (opts : Options) (frame : ServerFrame) : Prop :=
  ∀ bytes, encoding frame = some bytes → bytes.length ≤ opts.maxFrameBytes.toNat

theorem errorFits (opts : Options) (id : UInt64) (failure : Failure) :
    Fits opts (errorFrame opts.platform id failure) := by
  intro bytes none_
  cases none_

theorem word (n : UInt64) : n.toNat < 128^10 := Nat.lt_trans (UInt64.toNat_lt n) (by decide)

theorem pageSizeBound {pageSize : UInt32} (valid : validPageSize pageSize = true) : pageSize.toNat ≤ 65536 := by
  simp only [validPageSize,Bool.and_eq_true,decide_eq_true_eq] at valid
  exact UInt32.le_iff_toNat_le.mp valid.1.2

theorem blockBudget {pageSize : UInt32} (valid : validPageSize pageSize = true) :
    (pageSize+pagesBlockOverhead).toNat = pageSize.toNat+8 := by
  have bound := pageSizeBound valid
  rw [UInt32.toNat_add]
  show (pageSize.toNat+8)%2^32 = _
  omega

section
variable {opts : Options} (limit : minMaxFrameBytes ≤ opts.maxFrameBytes)
include limit

theorem limitBounds : 66560 ≤ opts.maxFrameBytes.toNat ∧ opts.maxFrameBytes.toNat < 2^32 :=
  ⟨UInt32.le_iff_toNat_le.mp limit,UInt32.toNat_lt _⟩

theorem pagesBudget : (opts.maxFrameBytes-pagesFrameOverhead).toNat = opts.maxFrameBytes.toNat-64 := by
  have bounds := limitBounds limit
  rw [UInt32.toNat_sub_of_le _ _ (UInt32.le_iff_toNat_le.mpr (by show 64 ≤ _; omega))]
  rfl

theorem changesBudget : (opts.maxFrameBytes-changesFrameOverhead).toNat = opts.maxFrameBytes.toNat-64 :=
  pagesBudget limit

/- One block of any page size fits, so the count is never forced up to one. -/
theorem blocksCounted {pageSize : UInt32} (valid : validPageSize pageSize = true) :
    blocksPerFrame opts pageSize*(pageSize.toNat+8) ≤ opts.maxFrameBytes.toNat-64 := by
  have bounds := limitBounds limit
  have size := pageSizeBound valid
  unfold blocksPerFrame
  rw [UInt32.toNat_div,pagesBudget limit,blockBudget valid]
  have one : 1 ≤ (opts.maxFrameBytes.toNat-64)/(pageSize.toNat+8) :=
    (Nat.le_div_iff_mul_le (by omega)).mpr (by omega)
  rw [max_eq_right one]
  exact Nat.div_mul_le_self _ _

theorem indexesCounted : changesPerFrame opts*10 ≤ opts.maxFrameBytes.toNat-64 := by
  have bounds := limitBounds limit
  unfold changesPerFrame
  rw [UInt32.toNat_div,changesBudget limit]
  show max 1 ((opts.maxFrameBytes.toNat-64)/10)*10 ≤ _
  omega

theorem pagesFit {pageSize : UInt32} (valid : validPageSize pageSize = true) (id : UInt64) {p : Pages}
    (count : p.blocks.length ≤ blocksPerFrame opts pageSize) (sizes : ∀ b ∈ p.blocks, b.length = pageSize.toNat) :
    Fits opts (pagesFrame id p) := by
  have bounds := limitBounds limit
  have page := pageSizeBound valid
  have budget : p.blocks.length*(pageSize.toNat+4) ≤ opts.maxFrameBytes.toNat-64 :=
    Nat.le_trans (Nat.mul_le_mul count (by omega)) (blocksCounted limit valid)
  have blocks : (repeatedField 2 p.blocks).length ≤ p.blocks.length*(pageSize.toNat+4) := by
    refine flatMapLength (fun b member => ?_)
    have block := delimitedLength 2 1 3 (by decide) (by decide) (by decide) (by omega) (sizes b member).le
    omega
  have first : (numberField 1 p.firstBlock.toNat).length ≤ 11 := numberLength (by decide) (by decide) (word _)
  have number : (numberField 1 id.toNat).length ≤ 11 := numberLength (by decide) (by decide) (word _)
  have last := boolLength 3 (by decide) p.last
  have message : (pagesMessage p).length ≤ 13+p.blocks.length*(pageSize.toNat+4) := by
    rw [pagesMessage,List.length_append,List.length_append]
    omega
  have body := delimitedLength 12 1 5 (by decide) (by decide) (by decide) (by omega) message
  rintro bytes ⟨⟩
  show (numberField 1 id.toNat ++ delimited 12 (pagesMessage p)).length ≤ _
  rw [List.length_append]
  omega

theorem changesFit (id : UInt64) {set : ChangeSet} (older : set.fromVersion < 2^64) (newer : set.toVersion < 2^64)
    (count : set.blocks.length ≤ changesPerFrame opts) : Fits opts ⟨id,.changes set⟩ := by
  have bounds := limitBounds limit
  have budget : set.blocks.length*10 ≤ opts.maxFrameBytes.toNat-64 :=
    Nat.le_trans (Nat.mul_le_mul_right 10 count) (indexesCounted limit)
  have indexes : ((set.blocks.map UInt64.toNat).flatMap varint).length ≤ set.blocks.length*10 := by
    rw [List.flatMap_map]
    exact flatMapLength (fun index _ => varintLength (by decide) (word index))
  have packed : (packedField 3 (set.blocks.map UInt64.toNat)).length ≤ 6+set.blocks.length*10 := by
    unfold packedField
    split
    · exact Nat.zero_le _
    · exact delimitedLength 3 1 5 (by decide) (by decide) (by decide) (by omega) indexes
  have number : (numberField 1 id.toNat).length ≤ 11 := numberLength (by decide) (by decide) (word _)
  have wide : 2^64 < 128^10 := by decide
  have old : (numberField 1 set.fromVersion).length ≤ 11 :=
    numberLength (by decide) (by decide) (Nat.lt_trans older wide)
  have new : (numberField 2 set.toVersion).length ≤ 11 :=
    numberLength (by decide) (by decide) (Nat.lt_trans newer wide)
  have last := boolLength 4 (by decide) set.complete
  have message : (changesMessage set).length ≤ 30+set.blocks.length*10 := by
    rw [changesMessage,List.length_append,List.length_append,List.length_append]
    omega
  have body := delimitedLength 19 2 5 (by decide) (by decide) (by decide) (by omega) message
  rintro bytes ⟨⟩
  show (numberField 1 id.toNat ++ delimited 19 (changesMessage set)).length ≤ _
  rw [List.length_append]
  omega

theorem pageFramesFit {pageSize : UInt32} (valid : validPageSize pageSize = true) (id : UInt64)
    {runs : List (Range × List Bytes)} (sizes : ∀ run ∈ runs, ∀ b ∈ run.2, b.length = pageSize.toNat) :
    ∀ f ∈ pageFrames id (blocksPerFrame opts pageSize) runs, Fits opts f := by
  intro f member
  have some_ : runs ≠ [] := by
    rintro rfl
    exact absurd member List.not_mem_nil
  obtain ⟨groups,frames,grouped⟩ := pageFramesGrouped id (blocksPerFramePositive opts pageSize) some_
  rw [frames] at member
  obtain ⟨p,inside,rfl⟩ := List.mem_map.mp member
  obtain ⟨short,run,there,blocks⟩ := groupedBlocks grouped.each inside
  exact pagesFit limit valid id short (fun b inBlocks => sizes run there b (blocks b inBlocks))

theorem fittingChanges (id : UInt64) {set : ChangeSet} (older : set.fromVersion < 2^64) (newer : set.toVersion < 2^64) :
    Fits opts ⟨id,.changes (if changesPerFrame opts < set.blocks.length
      then ⟨set.fromVersion,set.toVersion,[],false⟩ else set)⟩ := by
  split
  · exact changesFit limit id older newer (Nat.zero_le _)
  · rename_i short
    exact changesFit limit id older newer (Nat.le_of_not_lt short)

end

structure Unbounded (opts : Options) (pageSize : UInt32) : Prop where
  pages : (opts.maxFrameBytes-pagesFrameOverhead).toNat+pagesFrameOverhead.toNat = opts.maxFrameBytes.toNat
  block : (pageSize+pagesBlockOverhead).toNat = pageSize.toNat+pagesBlockOverhead.toNat
  changes : (opts.maxFrameBytes-changesFrameOverhead).toNat+changesFrameOverhead.toNat = opts.maxFrameBytes.toNat

theorem unbounded {opts : Options} (limit : minMaxFrameBytes ≤ opts.maxFrameBytes) {pageSize : UInt32}
    (valid : validPageSize pageSize = true) : Unbounded opts pageSize := by
  have bounds := limitBounds limit
  refine ⟨?_,blockBudget valid,?_⟩
  · rw [pagesBudget limit]
    exact Nat.sub_add_cancel (by omega)
  · rw [changesBudget limit]
    exact Nat.sub_add_cancel (by omega)

def changesAsked (key : Key) (fromVersion : Nat) (set : ChangeSet) : Asked Effect :=
  ⟨.call (.changes key fromVersion),.ok set⟩

theorem framesFit {opts : Options} (limit : minMaxFrameBytes ≤ opts.maxFrameBytes) {c after : Connection}
    {frame : ClientFrame} {trace : List (Asked Effect)} (performed : Performs (c.handle opts frame) trace after) :
    (∀ pageSize, validPageSize pageSize = true → Unbounded opts pageSize) ∧
    (∀ req db, frame.body = .fetch req → c.dbs.lookup req.dbID = some db → validPageSize db.pageSize = true →
      (∀ run, fetchAsked db.key req.version run ∈ trace → ∀ b ∈ run.2, b.length = db.pageSize.toNat) →
      ∀ f ∈ sent trace, Fits opts f) ∧
    (∀ req, frame.body = .changed req →
      (∀ key fromVersion set, changesAsked key fromVersion set ∈ trace → set.fromVersion < 2^64 ∧ set.toVersion < 2^64) →
      ∀ f ∈ sent trace, Fits opts f) := by
  refine ⟨fun pageSize valid => unbounded limit valid,fun req db body isOpen valid sizes => ?_,fun req body versions => ?_⟩
  · rcases fetchAnswered body performed with ⟨failure,frames⟩ | ⟨other,got,paging⟩
    · rw [frames]
      exact List.forall_mem_singleton.mpr (errorFits opts _ _)
    · have found := paging.isOpen
      rw [isOpen] at found
      cases found
      rw [pagingFrames paging]
      exact pageFramesFit limit valid _ (fun run member => sizes run (pagingAsked paging run member))
  · simp only [Connection.handle,body] at performed
    split at performed
    · rw [performsFail performed]
      exact List.forall_mem_singleton.mpr (errorFits opts _ _)
    unfold Connection.changed at performed
    split at performed
    · rw [performsFail performed]
      exact List.forall_mem_singleton.mpr (errorFits opts _ _)
    cases performed with
    | ask answer tail =>
      cases answer with
      | error fault =>
        obtain ⟨rfl,rfl⟩ := replied tail
        exact List.forall_mem_singleton.mpr (errorFits opts _ _)
      | ok set =>
        obtain ⟨older,newer⟩ := versions _ _ set List.mem_cons_self
        obtain ⟨rfl,rfl⟩ := replied tail
        exact List.forall_mem_singleton.mpr (fittingChanges limit _ older newer)

def wholePages (size : Nat) (x : Asked Effect) : Bool :=
  ((fetched x).map (fun f => f.2.2.2.all (fun b => b.length == size))).getD true

def defaultServer : Config :=
  {defaultConfig with addr := ":8080", serverID := "wss://vfs.example/v1/ws", store := storeMemory}

def defaultOptions : Options := defaultServer.options ⟨id,fun _ => "",2^48/24⟩

theorem framesFitTwoRanges :
    (∀ f ∈ sent ((fetchingConnection.handle defaultOptions ⟨3,.fetch twoRanges⟩).runWith
      (storeAnswers fetchedStore)).1, Fits defaultOptions f) ∧ Unbounded defaultOptions 512 := by
  have accepted : defaultServer.validate ⟨id,fun _ => "",fun _ => none⟩ = none :=
    defaultValid _ (by decide) (by decide)
  have limit : minMaxFrameBytes ≤ defaultOptions.maxFrameBytes := validLimit accepted
  have isOpen : fetchingConnection.dbs.lookup twoRanges.dbID = some ⟨⟨"alice","db"⟩,1,512,none,0⟩ := by decide +kernel
  have whole : ((fetchingConnection.handle defaultOptions ⟨3,.fetch twoRanges⟩).runWith
      (storeAnswers fetchedStore)).1.all (wholePages 512) = true := by decide +kernel
  obtain ⟨unwrapped,fetches,_⟩ := framesFit limit (performsRun (storeAnswers fetchedStore) (fetchingConnection.handle
    defaultOptions ⟨3,.fetch twoRanges⟩))
  refine ⟨fetches twoRanges _ rfl isOpen (by decide) (fun run member b inside => ?_),unwrapped 512 (by decide)⟩
  have each : run.2.all (fun b => b.length == 512) = true := List.all_eq_true.mp whole _ member
  exact of_decide_eq_true (List.all_eq_true.mp each b inside)

end SqliteRemote.Server
