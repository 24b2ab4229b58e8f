import SqliteRemote.BlockFiles
import SqliteRemote.MemoryCatchUp
import SqliteRemote.MemoryDeletion

/-! What a fetch reads. The reference file of a key is computed from the operations and their
answers alone: it starts empty when the database is created, takes every applied commit and ends
with the database. The block map of a record is this file with the blank blocks left out. -/
namespace SqliteRemote.MemoryStore
open Rows StoreContract BlockFiles

structure File where
  pageSize : UInt32
  version : Nat
  blocks : List Bytes
  deriving DecidableEq, Repr

-- A repeated commit is acknowledged with the version the file already has.
def File.commit (file : File) (req : CommitRequest) (version : Nat) : File :=
  if version = file.version then file
  else
    let blank := zeros file.pageSize
    ⟨file.pageSize,version,resize blank req.pageCount.toNat
      (writeAll blank file.blocks (req.blocks.map (fun b => (b.index.toNat,b.data))))⟩

def follow (k : Key) (file : Option File) : Op → Answer → Option File
  | .openDatabase req _,.ok (.opened result) =>
      if req.key = k ∧ file.isNone then some ⟨req.pageSize,result.state.version,[]⟩ else file
  | .commit req,.ok (.version version) => if req.key = k then file.map (·.commit req version) else file
  | .delete req,.ok (.deleted result) => if req.key = k ∧ 0 < result.epoch then none else file
  | .deleteUnused _ _ _,.ok (.unused keys) => if k ∈ keys then none else file
  | .claimSlot _,.ok (.claimed result) =>
      if result.replaced.any (fun old => old.subject == k.subject) then none else file
  | .deleteSlot _ subject,.ok _ => if subject = k.subject then none else file
  | _,_ => file

def reference (k : Key) (events : List Event) : Option File :=
  events.foldl (fun file e => follow k file e.op e.reply) none

structure Mirrors (file : File) (db : Database) : Prop where
  live : db.deleted = false
  size : file.pageSize = db.state.pageSize
  version : file.version = db.state.version
  length : file.blocks.length = db.state.pageCount.toNat
  content : ∀ i : UInt64, read (zeros file.pageSize) file.blocks i.toNat = db.content i

def Follows : Option File → Option Database → Prop
  | none,found => ∀ db, found = some db → db.deleted = true
  | some file,found => ∃ db, found = some db ∧ Mirrors file db

theorem writtenContent {blank : Bytes} {blocks : List Bytes} {m : UInt64 → Option Bytes}
    (same : ∀ i : UInt64, read blank blocks i.toNat = (m i).getD blank) (written : List Block) (i : UInt64) :
    read blank (writeAll blank blocks (written.map (fun b => (b.index.toNat,b.data)))) i.toNat =
      (writeBlocks m written i).getD blank := by
  induction written generalizing blocks m with
  | nil => exact same i
  | cons b rest ih =>
    rw [writeBlocksCons]
    refine ih (fun j => ?_)
    rw [readWrite]
    by_cases here : j = b.index
    · subst here
      rw [if_pos rfl,Function.update_self]
      rfl
    · rw [if_neg (fun index => here (UInt64.toNat_inj.mp index)),Function.update_of_ne here]
      exact same j

theorem mirrorsApply {file : File} {db : Database} (mirrors : Mirrors file db) (req : CommitRequest) :
    Mirrors (file.commit req (db.state.version+1)) (db.apply req) := by
  have moved : ¬ db.state.version+1 = file.version := by have := mirrors.version; omega
  simp only [File.commit,if_neg moved]
  refine ⟨mirrors.live,mirrors.size,rfl,lengthResize _ _ _,fun i => ?_⟩
  have before : ∀ j : UInt64, read (zeros file.pageSize) file.blocks j.toNat =
      (db.blocks j).getD (zeros file.pageSize) := fun j => by rw [mirrors.content j,mirrors.size]; rfl
  rw [readResize,writtenContent before,mirrors.size]
  simp only [Database.content,Database.apply,cutBlocks]
  by_cases beyond : req.pageCount ≤ i
  · rw [if_pos beyond,if_neg (Nat.not_lt.mpr (UInt64.le_iff_toNat_le.mp beyond))]
    rfl
  · rw [if_neg beyond,if_pos (UInt64.lt_iff_toNat_lt.mp (UInt64.not_le.mp beyond))]

theorem mirrorsEmpty (db : Database) (live : db.deleted = false) (pages : db.state.pageCount = 0)
    (blocks : ∀ i, db.blocks i = none) : Mirrors ⟨db.state.pageSize,db.state.version,[]⟩ db := by
  refine ⟨live,rfl,rfl,by rw [pages]; rfl,fun i => ?_⟩
  rw [Database.content,blocks i]
  rfl

theorem displacedGone (s : Store) (k : Key) (op : Op) (gone : displaces k ⟨s,op,(step s op).1,(step s op).2⟩ = true)
    (done : ∃ reply, (step s op).1 = .ok reply) : record (step s op).2 k = none := by
  cases op with
  | claimSlot req =>
    simp only [displaces,step,Store.claimSlot] at gone ⊢
    cases found : s.slots.lookup req.owner with
    | none => simp [found] at gone
    | some old =>
      by_cases same : old.subject = req.subject
      · simp [found,same] at gone
      · simp only [found,if_neg same,Option.any_some,beq_iff_eq] at gone ⊢
        have cut := purgeRecord s old.subject k
        rw [if_pos gone.symm] at cut
        exact cut
  | deleteSlot owner subject =>
    simp only [displaces,beq_iff_eq] at gone
    obtain ⟨reply,done⟩ := done
    simp only [step,Store.deleteSlot] at done ⊢
    cases found : s.slots.lookup owner with
    | none => simp [answer,purgeRecord,gone]
    | some slot =>
      rw [found] at done
      simp only at done ⊢
      split at done
      · contradiction
      · rename_i own
        rw [if_neg own]
        simp [answer,purgeRecord,gone]
  | _ => simp [displaces] at gone

theorem followIdle {k : Key} {file : Option File} {e : Event} (quiet : ¬ Touches k e.op e.reply)
    (stays : displaces k e = true → ∃ err, e.reply = .error err) : follow k file e.op e.reply = file := by
  obtain ⟨before,op,reply,after⟩ := e
  simp only at quiet ⊢
  unfold follow
  split
  · exact if_neg (fun opened => quiet opened.1)
  · exact if_neg quiet
  · exact if_neg quiet
  · exact if_neg quiet
  · refine if_neg (fun replaced => ?_)
    obtain ⟨err,failed⟩ := stays replaced
    contradiction
  · refine if_neg (fun same => ?_)
    obtain ⟨err,failed⟩ := stays (beq_iff_eq.mpr same)
    contradiction
  · rfl

theorem followDisplaced {k : Key} {file : Option File} {e : Event} (gone : displaces k e = true) {reply : Reply}
    (done : e.reply = .ok reply) : follow k file e.op e.reply = none := by
  obtain ⟨before,op,answer,after⟩ := e
  simp only at done
  subst done
  unfold displaces at gone
  split at gone
  · rename_i isClaim claimed
    cases isClaim; cases claimed
    exact if_pos gone
  · rename_i owner subject isDelete
    simp only at isDelete
    subst isDelete
    exact if_pos (beq_iff_eq.mp gone)
  · contradiction

theorem followsLive {file : Option File} {db : Database} (follows : Follows file (some db))
    (live : db.deleted = false) : ∃ f, file = some f ∧ Mirrors f db := by
  cases file with
  | none => exact absurd (live.symm.trans (follows db rfl)) Bool.false_ne_true
  | some f =>
    obtain ⟨same,there,mirrors⟩ := follows
    cases there
    exact ⟨f,rfl,mirrors⟩

theorem followsDead {file : Option File} {found : Option Database} (follows : Follows file found)
    (dead : ∀ db, found = some db → db.deleted = true) : file = none := by
  cases file with
  | none => rfl
  | some f =>
    obtain ⟨db,there,mirrors⟩ := follows
    exact absurd (mirrors.live.symm.trans (dead db there)) Bool.false_ne_true

theorem followsLease {file : Option File} {before after : Database} (follows : Follows file (some before))
    (live : before.deleted = false) (same : SameData before after) : Follows file (some after) := by
  obtain ⟨f,rfl,mirrors⟩ := followsLive follows live
  obtain ⟨stays,state⟩ := same.live live
  refine ⟨after,rfl,stays,by rw [state]; exact mirrors.size,by rw [state]; exact mirrors.version,
    by rw [state]; exact mirrors.length,fun i => ?_⟩
  rw [mirrors.content i,Database.content,Database.content,same.blocks,state]

theorem followsRemoved {db : Database} (dead : db.deleted = true) : Follows none (some db) := by
  intro same there
  cases there
  exact dead

theorem followOpened {k : Key} {file : Option File} {req : OpenRequest} {id : Bytes} {result : OpenResult}
    (key : req.key = k) : follow k file (.openDatabase req id) (.ok (.opened result)) =
      some (file.getD ⟨req.pageSize,result.state.version,[]⟩) := by
  cases file with
  | none => exact if_pos ⟨key,rfl⟩
  | some f => exact if_neg (fun opened => absurd opened.2 Bool.false_ne_true)

theorem followCommitted {k : Key} {req : CommitRequest} (key : req.key = k) (file : Option File) (version : Nat) :
    follow k file (.commit req) (.ok (.version version)) = file.map (·.commit req version) := if_pos key

theorem followDeleted {k : Key} {e : Event} (deleted : DeletedAt k e) (file : Option File) :
    follow k file e.op e.reply = none := by
  rcases deleted with ⟨req,result,isDelete,key,reply,some⟩ | ⟨cutoff,limit,tie,keys,isSweep,reply,listed⟩
  · rw [isDelete,reply]
    exact if_pos ⟨key,some⟩
  · rw [isSweep,reply]
    exact if_pos listed

theorem followsRecord {s : Store} (valid : WellformedStore s) {k : Key} {op : Op} {reply : Answer}
    {after : Option Database} (did : RecordStep s k op reply after) {file : Option File}
    (follows : Follows file (record s k)) (still : ¬ Touches k op reply → follow k file op reply = file) :
    Follows (follow k file op reply) after := by
  cases did with
  | idle quiet => rw [still quiet]; exact follows
  | purged present cause =>
    have ends : follow k file op reply = none := by
      cases cause with
      | replaced was subject => exact if_pos (by simp [was,subject])
      | slotDeleted => exact if_pos rfl
      | unusedOfHolder listed holder => exact if_pos listed
    rw [ends]
    intro db found
    contradiction
  | resumed key found live asked held same =>
    rw [found] at follows
    obtain ⟨f,rfl,mirrors⟩ := followsLive follows live
    rw [followOpened key]
    exact followsLease follows live ⟨rfl,rfl,rfl,rfl,fun live => ⟨live,rfl⟩⟩
  | granted key found live asked =>
    rw [found] at follows
    obtain ⟨f,rfl,mirrors⟩ := followsLive follows live
    rw [followOpened key]
    exact followsLease follows live ⟨rfl,rfl,rfl,rfl,fun live => ⟨live,rfl⟩⟩
  | @revived db req id key found dead asked size =>
    rw [found] at follows
    cases followsDead follows (fun db same => by cases same; exact dead)
    obtain ⟨_,_,pages,blocks⟩ := (valid k _ found).empty dead
    rw [followOpened key]
    exact ⟨_,rfl,mirrorsEmpty ((db.revive req.pageSize).grant req id) rfl pages blocks⟩
  | @created req id key missing asked size =>
    rw [missing] at follows
    cases followsDead follows (fun db same => by contradiction)
    rw [followOpened key]
    exact ⟨_,rfl,mirrorsEmpty ((Database.fresh req.pageSize).grant req id) rfl rfl (fun _ => rfl)⟩
  | repeated key found held again =>
    have live := heldLive (valid k _ found) held
    rw [found] at follows
    obtain ⟨f,rfl,mirrors⟩ := followsLive follows live
    rw [followCommitted key,Option.map_some,File.commit,if_pos mirrors.version.symm]
    exact followsLease follows live ⟨rfl,rfl,rfl,rfl,fun live => ⟨live,rfl⟩⟩
  | applied key found held base ok =>
    rw [found] at follows
    obtain ⟨f,rfl,mirrors⟩ := followsLive follows (heldLive (valid k _ found) held)
    rw [followCommitted key,Option.map_some]
    exact ⟨_,rfl,mirrorsApply mirrors _⟩
  | renewed found held =>
    rw [found] at follows
    exact followsLease follows (heldLive (valid k _ found) held) ⟨rfl,rfl,rfl,rfl,fun live => ⟨live,rfl⟩⟩
  | released found held =>
    rw [found] at follows
    exact followsLease follows (heldLive (valid k _ found) held) ⟨rfl,rfl,rfl,rfl,fun live => ⟨live,rfl⟩⟩
  | @deleted db req key found live =>
    have ends : follow k file (.delete req) (.ok (.deleted ⟨db.lease.epoch+1,db.active req.now⟩)) = none :=
      if_pos ⟨key,Nat.succ_pos _⟩
    rw [ends]
    exact followsRemoved rfl
  | @swept db cutoff limit tie keys listed found live free =>
    have ends : follow k file (.deleteUnused cutoff limit tie) (.ok (.unused keys)) = none := if_pos listed
    rw [ends]
    exact followsRemoved rfl

theorem followsStep {s : Store} (start : WellformedStore s) {ops : List Op} {e : Event}
    (member : e ∈ History.history step s ops) {k : Key} {file : Option File}
    (follows : Follows file (record e.before k)) :
    Follows (follow k file e.op e.reply) (record e.after k) := by
  by_cases gone : displaces k e = true ∧ ∃ reply, e.reply = .ok reply
  · obtain ⟨gone,reply,done⟩ := gone
    have removed := displacedGone e.before k e.op
    rw [History.eventStep step member] at removed
    rw [followDisplaced gone done,removed gone ⟨reply,done⟩]
    intro db found
    contradiction
  · refine followsRecord (wellformedEvent start member).1 (eventRecord start member k) follows ?_
    intro quiet
    refine followIdle quiet (fun displaced => ?_)
    cases answered : e.reply with
    | error err => exact ⟨err,rfl⟩
    | ok reply => exact absurd ⟨displaced,reply,answered⟩ gone

theorem followsRun (ops : List Op) (k : Key) : Follows (reference k (history ops)) (record (run new ops) k) := by
  refine History.invariantSeen step (P := fun seen s => Follows (reference k seen) (record s k)) ?_ ?_
  · intro db found
    simp [record,new] at found
  · intro seen e member follows
    rw [reference,List.foldl_append]
    exact followsStep wellformedNew member follows

theorem contentLength {db : Database} (valid : Wellformed db) (i : UInt64) :
    (db.content i).length = db.state.pageSize.toNat := by
  unfold Database.content
  cases stored : db.blocks i with
  | none => simp [zeros]
  | some data => exact (valid.stored i data stored).2

theorem fetchedRange {file : File} {db : Database} (mirrors : Mirrors file db) {first count : UInt64}
    (inside : checkRange first count db.state.pageCount = none) :
    (List.range count.toNat).map (fun n => db.content (first+UInt64.ofNat n)) =
      (file.blocks.drop first.toNat).take count.toNat := by
  refine List.ext_getElem? (fun n => ?_)
  rw [List.getElem?_map,List.getElem?_take,List.getElem?_drop]
  by_cases less : n < count.toNat
  · obtain ⟨index,bound⟩ := rangeIndex inside (Nat.le_of_lt less)
    have within : first.toNat+n < file.blocks.length := by rw [mirrors.length]; omega
    rw [List.getElem?_range less,if_pos less,readInside (zeros file.pageSize) within,← index,mirrors.content]
    rfl
  · rw [List.getElem?_eq_none (by simp; omega),if_neg less]
    rfl

def Blank (k : Key) (i : UInt64) (s : Store) : Prop := ∀ db, record s k = some db → db.blocks i = none

theorem blankStep {s : Store} (start : WellformedStore s) {ops : List Op} {e : Event}
    (member : e ∈ History.history step s ops) {k : Key} {i : UInt64} (unwritten : ¬ WritesAt k i e)
    (blank : Blank k i e.before) : Blank k i e.after := by
  intro after there
  have did := eventRecord start member k
  rw [there] at did
  cases found : record e.before k with
  | none =>
    obtain ⟨req,id,result,_,_,_,rfl⟩ := createdFresh did found
    rfl
  | some before =>
    rcases dataStep did found with same | ⟨req,isCommit,key,reply,base,rfl⟩ | ⟨rfl,_⟩
    · rw [same.blocks]
      exact blank before found
    · have unlisted : i ∉ req.blocks.map Block.index :=
        fun listed => unwritten ⟨req,⟨isCommit,key,reply,before,found,base,there⟩,listed⟩
      simp only [Database.apply,cutBlocks,writeBlocksOther unlisted,blank before found,ite_self]
    · rfl

theorem cutBlank {k : Key} {i : UInt64} {e : Event} (cut : CutsAt k i e) : Blank k i e.after := by
  obtain ⟨req,⟨_,_,_,db,_,_,there⟩,beyond⟩ := cut
  intro after found
  cases there.symm.trans found
  simp only [Database.apply,cutBlocks,if_pos beyond]

theorem fetchReadsReference (past : List Op) (k : Key) (version : Nat) (first count : UInt64) (data : List Bytes)
    (fetched : (run new past).fetch k version first count = .ok data) :
    ∃ file db, reference k (history past) = some file ∧ record (run new past) k = some db ∧
      file.version = version ∧ file.pageSize = db.state.pageSize ∧
      first.toNat+count.toNat ≤ file.blocks.length ∧ data = (file.blocks.drop first.toNat).take count.toNat ∧
      (∀ block ∈ data, block.length = db.state.pageSize.toNat) ∧
      (∀ (i : Nat) (e : Event), (history past)[i]? = some e → DeletedAt k e →
        reference k ((history past).drop (i+1)) = some file) ∧
      (∀ (i : Nat) (e : Event) (n : Nat), (history past)[i]? = some e → n < count.toNat →
        CutsAt k (first+UInt64.ofNat n) e →
        (∀ later ∈ (history past).drop (i+1), ¬ WritesAt k (first+UInt64.ofNat n) later) →
        data[n]? = some (zeros db.state.pageSize)) := by
  obtain ⟨db,found,live,rfl,inside,rfl⟩ := fetchRead fetched
  have follows := followsRun past k
  rw [found] at follows
  obtain ⟨file,same,mirrors⟩ := followsLive follows live
  refine ⟨file,db,same,found,mirrors.version,mirrors.size,?_,fetchedRange mirrors inside,?_,?_,?_⟩
  · rw [mirrors.length]
    exact (rangeIndex inside (Nat.zero_le _)).2
  · intro block member
    obtain ⟨n,_,rfl⟩ := List.mem_map.mp member
    exact contentLength (wellformedRun past k db found) _
  · intro i e at_ deleted
    have parts : history past = (history past).take i ++ e :: (history past).drop (i+1) := by
      obtain ⟨short,rfl⟩ := List.getElem?_eq_some_iff.mp at_
      rw [List.getElem_cons_drop,List.take_append_drop]
    have whole := same
    rw [parts,reference,List.foldl_append,List.foldl_cons,followDeleted deleted] at whole
    exact whole
  · intro i e n at_ less cut unwritten
    have blank : Blank k (first+UInt64.ofNat n) (run new past) := by
      refine History.carriedToEnd step at_ (cutBlank cut) ?_
      intro later member after blank
      exact blankStep wellformedNew member (unwritten later after) blank
    rw [List.getElem?_map,List.getElem?_range less,Option.map_some,Database.content,blank db found]
    rfl

theorem fetchReadsReferenceRegrown : ∃ file,
    (run new (regrowRun.take 5)).fetch sampleKey 3 0 2 = .ok [zeros 512,zeros 512] ∧
    reference sampleKey (history (regrowRun.take 5)) = some file ∧ file.version = 3 ∧ file.pageSize = 512 ∧
    [zeros 512,zeros 512] = (file.blocks.drop 0).take 2 := by
  have fetched : (run new (regrowRun.take 5)).fetch sampleKey 3 0 2 = .ok [zeros 512,zeros 512] := by decide +kernel
  have size : (record (run new (regrowRun.take 5)) sampleKey).map (fun db => db.state.pageSize) = some 512 := by
    decide +kernel
  obtain ⟨file,db,same,found,version,pages,_,data,_⟩ := fetchReadsReference _ sampleKey 3 0 2 _ fetched
  rw [found] at size
  exact ⟨file,fetched,same,version,pages.trans (Option.some.inj size),data⟩

end SqliteRemote.MemoryStore
