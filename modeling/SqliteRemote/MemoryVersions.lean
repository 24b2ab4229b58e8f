import SqliteRemote.MemoryFencing

/-! The version history of one key. A commit is applied once: what later repeats it finds its
commit ID under the version it produced, as long as no other commit or deletion has moved on. -/
namespace SqliteRemote.MemoryStore
open Rows StoreContract

def versionOf (k : Key) (s : Store) : Nat := ((record s k).map (fun db => db.state.version)).getD 0

def CommittedAt (k : Key) (req : CommitRequest) (version : Nat) (e : Event) : Prop :=
  e.op = .commit req ∧ req.key = k ∧ e.reply = .ok (.version version)

def AppliedAt (k : Key) (req : CommitRequest) (e : Event) : Prop :=
  e.op = .commit req ∧ req.key = k ∧ e.reply = .ok (.version (req.baseVersion.toNat+1)) ∧
    ∃ db, record e.before k = some db ∧ db.state.version = req.baseVersion.toNat ∧
      record e.after k = some (db.apply req)

def UnchangedAt (k : Key) (e : Event) : Prop :=
  ∃ db now, record e.before k = some db ∧ record e.after k = some now ∧
    now.blocks = db.blocks ∧ now.state = db.state ∧ now.changes = db.changes

def ProducedAt (k : Key) (v : Nat) (e : Event) : Prop := versionOf k e.before < v ∧ versionOf k e.after = v

theorem versionFound {s : Store} {k : Key} {db : Database} (found : record s k = some db) :
    versionOf k s = db.state.version := by simp [versionOf,found]

/- A repeat was applied before: a version that has a last commit is not zero, so BaseVersion+1
did not wrap. -/
theorem repeatsBase {db : Database} (valid : Wellformed db) {req : CommitRequest} (again : db.repeats req = true) :
    db.state.version = req.baseVersion.toNat+1 ∧ db.state.lastCommitID = req.commitID ∧ req.commitID ≠ [] := by
  simp only [Database.repeats,Bool.and_eq_true,beq_iff_eq,Bool.not_eq_true',List.isEmpty_eq_false_iff] at again
  obtain ⟨⟨version,given⟩,last⟩ := again
  have logged : db.changes ≠ [] := fun none => given (last ▸ valid.last.mpr none)
  have positive : 0 < db.state.version := Nat.lt_of_lt_of_le (List.length_pos_of_ne_nil logged) valid.reach
  refine ⟨?_,last,given⟩
  have wrapped : (req.baseVersion+1).toNat = (req.baseVersion.toNat+1) % 2^64 := by
    simp [UInt64.toNat_add]
  have bound := req.baseVersion.toNat_lt
  rw [wrapped] at version
  omega

structure SameData (before after : Database) : Prop where
  blocks : after.blocks = before.blocks
  changes : after.changes = before.changes
  version : after.state.version = before.state.version
  last : after.state.lastCommitID = before.state.lastCommitID
  live : before.deleted = false → after.deleted = false ∧ after.state = before.state

theorem dataStep {s : Store} {k : Key} {op : Op} {reply : Answer} {before after : Database}
    (did : RecordStep s k op reply (some after)) (found : record s k = some before) :
    SameData before after ∨
    (∃ req, op = .commit req ∧ req.key = k ∧ reply = .ok (.version (req.baseVersion.toNat+1)) ∧
      before.state.version = req.baseVersion.toNat ∧ after = before.apply req) ∨
    (after = before.remove ∧ before.deleted = false ∧
      ((∃ req result, op = .delete req ∧ req.key = k ∧ reply = .ok (.deleted result) ∧ 0 < result.epoch) ∨
       (∃ cutoff limit tie keys, op = .deleteUnused cutoff limit tie ∧ reply = .ok (.unused keys) ∧ k ∈ keys))) := by
  generalize target : some after = out at did
  cases did with
  | idle quiet => cases found.symm.trans target.symm; exact .inl ⟨rfl,rfl,rfl,rfl,fun live => ⟨live,rfl⟩⟩
  | purged present cause => contradiction
  | created key missing asked size => cases found.symm.trans missing
  | applied key there held base valid =>
    cases Option.some.inj target; cases found.symm.trans there
    exact .inr (.inl ⟨_,rfl,key,by rw [base],base,rfl⟩)
  | deleted key there live =>
    cases Option.some.inj target; cases found.symm.trans there
    exact .inr (.inr ⟨rfl,live,.inl ⟨_,_,rfl,key,rfl,Nat.succ_pos _⟩⟩)
  | swept listed there live free =>
    cases Option.some.inj target; cases found.symm.trans there
    exact .inr (.inr ⟨rfl,live,.inr ⟨_,_,_,_,rfl,rfl,listed⟩⟩)
  | granted key there live asked =>
    cases Option.some.inj target; cases found.symm.trans there
    exact .inl ⟨rfl,rfl,rfl,rfl,fun live => ⟨live,rfl⟩⟩
  | revived key there dead asked size =>
    cases Option.some.inj target; cases found.symm.trans there
    exact .inl ⟨rfl,rfl,rfl,rfl,fun live => absurd (live.symm.trans dead) Bool.false_ne_true⟩
  | released there held =>
    cases Option.some.inj target; cases found.symm.trans there
    exact .inl ⟨rfl,rfl,rfl,rfl,fun live => ⟨live,rfl⟩⟩
  | resumed key there live asked held same =>
    cases Option.some.inj target; cases found.symm.trans there
    exact .inl ⟨rfl,rfl,rfl,rfl,fun live => ⟨live,rfl⟩⟩
  | repeated key there held again =>
    cases Option.some.inj target; cases found.symm.trans there
    exact .inl ⟨rfl,rfl,rfl,rfl,fun live => ⟨live,rfl⟩⟩
  | renewed there held =>
    cases Option.some.inj target; cases found.symm.trans there
    exact .inl ⟨rfl,rfl,rfl,rfl,fun live => ⟨live,rfl⟩⟩

theorem createdFresh {s : Store} {k : Key} {op : Op} {reply : Answer} {after : Database}
    (did : RecordStep s k op reply (some after)) (missing : record s k = none) :
    ∃ req id result, op = .openDatabase req id ∧ req.key = k ∧ reply = .ok (.opened result) ∧
      after = (Database.fresh req.pageSize).grant req id := by
  generalize target : some after = out at did
  cases did with
  | idle quiet => cases missing.symm.trans target.symm
  | purged present cause => contradiction
  | created key none asked size => cases Option.some.inj target; exact ⟨_,_,_,rfl,key,rfl,rfl⟩
  | applied key there held base valid => cases missing.symm.trans there
  | deleted key there live => cases missing.symm.trans there
  | swept listed there live free => cases missing.symm.trans there
  | granted key there live asked => cases missing.symm.trans there
  | revived key there dead asked size => cases missing.symm.trans there
  | released there held => cases missing.symm.trans there
  | resumed key there live asked held same => cases missing.symm.trans there
  | repeated key there held again => cases missing.symm.trans there
  | renewed there held => cases missing.symm.trans there

theorem createdVersion {s : Store} {k : Key} {op : Op} {reply : Answer} {after : Database}
    (did : RecordStep s k op reply (some after)) (missing : record s k = none) :
    after.state.version = 0 ∧ after.state.lastCommitID = [] := by
  obtain ⟨req,id,result,_,_,_,rfl⟩ := createdFresh did missing
  exact ⟨rfl,rfl⟩

def Counted (n : Nat) (cur : Option Database) : Prop :=
  ∀ db, cur = some db → db.state.version ≤ n ∧ db.lease.epoch ≤ n

theorem countedStep {s : Store} {k : Key} {op : Op} {reply : Answer} {after : Option Database} {n : Nat}
    (did : RecordStep s k op reply after) (low : Counted n (record s k)) : Counted (n+1) after := by
  have later {db : Database} {version epoch : Nat} (found : record s k = some db) (rises : version ≤ db.state.version+1)
      (grows : epoch ≤ db.lease.epoch+1) : version ≤ n+1 ∧ epoch ≤ n+1 := by
    have bounds := low db found
    omega
  intro db is
  cases did with
  | idle quiet => exact later is (Nat.le_succ _) (Nat.le_succ _)
  | purged present cause => contradiction
  | created key missing asked size => cases is; exact ⟨Nat.zero_le _,Nat.succ_le_succ (Nat.zero_le _)⟩
  | resumed _ found | repeated _ found => cases is; exact later found (Nat.le_succ _) (Nat.le_succ _)
  | renewed found | released found => cases is; exact later found (Nat.le_succ _) (Nat.le_succ _)
  | granted _ found | revived _ found => cases is; exact later found (Nat.le_succ _) (Nat.le_refl _)
  | applied _ found => cases is; exact later found (Nat.le_refl _) (Nat.le_succ _)
  | deleted _ found | swept _ found => cases is; exact later found (Nat.le_refl _) (Nat.le_refl _)

/- No counter of a record passes the number of the operations, which Go's counters of 64 bits hold. -/
theorem countedRun (ops : List Op) (k : Key) : Counted ops.length (record (run new ops) k) := by
  have seen : Counted (history ops).length (record (run new ops) k) := by
    refine History.invariantSeen step (P := fun events s => Counted events.length (record s k)) ?_ ?_
    · intro db found
      simp [record,new] at found
    · intro events e member low
      rw [List.length_append]
      exact countedStep (eventRecord wellformedNew member k) low
  rwa [History.historyLength] at seen

theorem committedStep {s : Store} (start : WellformedStore s) {ops : List Op} {e : Event} {k : Key}
    {req : CommitRequest} {v : Nat} (member : e ∈ History.history step s ops) (done : CommittedAt k req v e) :
    v = req.baseVersion.toNat+1 ∧ (AppliedAt k req e ∨
      UnchangedAt k e ∧ ∃ db, record e.before k = some db ∧ db.state.version = v ∧
        db.state.lastCommitID = req.commitID ∧ req.commitID ≠ []) := by
  obtain ⟨isCommit,key,reply⟩ := done
  have did := eventRecord start member k
  have sound := (wellformedEvent start member).1
  unfold AppliedAt UnchangedAt
  rw [isCommit,reply] at did
  rw [isCommit,reply]
  generalize record e.after k = after at did ⊢
  cases did with
  | idle quiet => exact absurd key quiet
  | purged present cause => cases cause
  | repeated key found held again =>
    obtain ⟨version,last,given⟩ := repeatsBase (sound k _ found) again
    exact ⟨version,.inr ⟨⟨_,_,found,rfl,rfl,rfl,rfl⟩,_,found,rfl,last,given⟩⟩
  | applied key found held base valid =>
    exact ⟨by rw [base],.inl ⟨rfl,key,by rw [base],_,found,base,rfl⟩⟩

section
variable {ops : List Op} {k : Key} (kept : Kept k (history ops))
include kept

theorem versionRises : ∀ e ∈ history ops,
    versionOf k e.after = versionOf k e.before ∨ versionOf k e.after = versionOf k e.before+1 := by
  intro e member
  have did := eventRecord wellformedNew member k
  cases found : record e.before k with
  | none =>
    left
    cases there : record e.after k with
    | none => simp [versionOf,found,there]
    | some after =>
      rw [there] at did
      simp [versionOf,found,there,(createdVersion did found).1]
  | some before =>
    obtain ⟨after,there⟩ := keptRecord (kept e member) found
    rw [there] at did
    rw [versionFound found,versionFound there]
    rcases dataStep did found with same | ⟨req,_,_,_,_,rfl⟩ | ⟨rfl,_⟩
    · exact .inl same.version
    · exact .inr rfl
    · exact .inr rfl

theorem versionsOrdered {i j : Nat} {a b : Event} (order : i ≤ j) (first : (history ops)[i]? = some a)
    (later : (history ops)[j]? = some b) : versionOf k a.before ≤ versionOf k b.before := by
  rcases Nat.lt_or_eq_of_le order with less | same
  · have up := versionRises kept a (List.mem_of_getElem? first)
    have between := History.countedUp step (versionRises kept) first later less
    omega
  · subst same
    cases first.symm.trans later
    exact Nat.le_refl _

theorem producedBy {e : Event} {v : Nat} (member : e ∈ history ops) (produced : ProducedAt k v e) :
    (∃ req, AppliedAt k req e ∧ req.baseVersion.toNat+1 = v) ∨ DeletedAt k e := by
  obtain ⟨below,reached⟩ := produced
  have did := eventRecord wellformedNew member k
  cases found : record e.before k with
  | none =>
    cases there : record e.after k with
    | none => simp [versionOf,there] at reached; omega
    | some after =>
      rw [there] at did
      rw [versionFound there,(createdVersion did found).1] at reached
      omega
  | some before =>
    obtain ⟨after,there⟩ := keptRecord (kept e member) found
    rw [there] at did
    rw [versionFound found] at below
    rw [versionFound there] at reached
    rcases dataStep did found with same | ⟨req,isCommit,key,reply,base,rfl⟩ | ⟨_,_,cause⟩
    · have := same.version
      omega
    · refine .inl ⟨req,⟨isCommit,key,reply,before,found,base,there⟩,?_⟩
      rw [← base]
      exact reached
    · exact .inr cause

def Acknowledged (k : Key) (v : Nat) (id : Bytes) (s : Store) : Prop :=
  ∃ db, record s k = some db ∧ v ≤ db.state.version ∧ (db.state.version = v → db.state.lastCommitID = id)

theorem acknowledgedKept (v : Nat) (id : Bytes) :
    ∀ e ∈ history ops, Acknowledged k v id e.before → Acknowledged k v id e.after := by
  intro e member held
  obtain ⟨before,found,low,last⟩ := held
  obtain ⟨after,there⟩ := keptRecord (kept e member) found
  have did := eventRecord wellformedNew member k
  rw [there] at did
  refine ⟨after,there,?_⟩
  rcases dataStep did found with same | ⟨req,_,_,_,_,rfl⟩ | ⟨rfl,_⟩
  · have version := same.version
    exact ⟨by omega,fun current => same.last.trans (last (by omega))⟩
  · refine ⟨Nat.le_succ_of_le low,fun current => ?_⟩
    simp only [Database.apply] at current
    omega
  · refine ⟨Nat.le_succ_of_le low,fun current => ?_⟩
    simp only [Database.remove] at current
    omega

omit kept in
theorem committedAcknowledged {e : Event} {req : CommitRequest} {v : Nat} (member : e ∈ history ops)
    (done : CommittedAt k req v e) : Acknowledged k v req.commitID e.after := by
  obtain ⟨version,how⟩ := committedStep wellformedNew member done
  rcases how with ⟨_,_,_,db,_,base,there⟩ | ⟨⟨db,now,found,there,_,state,_⟩,old,same,current,last,_⟩
  · refine ⟨_,there,?_,fun _ => rfl⟩
    simp only [Database.apply]
    omega
  · cases found.symm.trans same
    exact ⟨now,there,by rw [state]; omega,fun _ => by rw [state]; exact last⟩

theorem sameBase {i j : Nat} {a b : Event} {req other : CommitRequest} {v w : Nat} (order : i < j)
    (first : (history ops)[i]? = some a) (later : (history ops)[j]? = some b)
    (done : CommittedAt k req v a) (again : CommittedAt k other w b)
    (base : req.baseVersion = other.baseVersion) : req.commitID = other.commitID ∧ UnchangedAt k b := by
  have started := (committedStep wellformedNew (List.mem_of_getElem? first) done).1
  have held : Acknowledged k v req.commitID b.before :=
    History.carried step (acknowledgedKept kept v req.commitID) first later order
      (committedAcknowledged (List.mem_of_getElem? first) done)
  obtain ⟨db,found,low,last⟩ := held
  obtain ⟨version,how⟩ := committedStep wellformedNew (List.mem_of_getElem? later) again
  rcases how with ⟨_,_,_,old,same,current,_⟩ | ⟨unchanged,old,same,current,id,_⟩
  · cases found.symm.trans same
    rw [base] at started
    omega
  · cases found.symm.trans same
    rw [base] at started
    exact ⟨(last (by omega)).symm.trans id,unchanged⟩

omit kept in
theorem lastCommitted {j : Nat} {b : Event} {db : Database} (later : (history ops)[j]? = some b)
    (found : record b.before k = some db) (given : db.state.lastCommitID ≠ []) :
    ∃ i < j, ∃ a req v, (history ops)[i]? = some a ∧ CommittedAt k req v a ∧
      db.state.version = req.baseVersion.toNat+1 := by
  let P (n : Nat) (s : Store) : Prop := ∀ db, record s k = some db → db.state.lastCommitID ≠ [] →
    ∃ i < n, ∃ a req v, (history ops)[i]? = some a ∧ CommittedAt k req v a ∧
      db.state.version = req.baseVersion.toNat+1
  have always : P j b.before := by
    refine History.invariantAt step ?_ ?_ later
    · intro db found
      simp [record,new] at found
    · intro n e at_ before after there given
      have member := List.mem_of_getElem? at_
      have did := eventRecord wellformedNew member k
      rw [there] at did
      cases found : record e.before k with
      | none => exact absurd (createdVersion did found).2 given
      | some old =>
        rcases dataStep did found with same | ⟨req,isCommit,key,reply,base,rfl⟩ | ⟨rfl,_⟩
        · obtain ⟨i,lower,a,req,v,first,done,version⟩ := before old found (same.last ▸ given)
          exact ⟨i,by omega,a,req,v,first,done,same.version.trans version⟩
        · refine ⟨n,by omega,e,req,_,at_,⟨isCommit,key,reply⟩,?_⟩
          simp [Database.apply,base]
        · exact absurd rfl given
  exact always db found given

omit kept in
theorem firstApplied {j : Nat} {b : Event} {req : CommitRequest} {v : Nat}
    (later : (history ops)[j]? = some b) (done : CommittedAt k req v b)
    (first : ¬ ∃ i < j, ∃ a other w, (history ops)[i]? = some a ∧ CommittedAt k other w a ∧
      other.baseVersion = req.baseVersion) : AppliedAt k req b := by
  obtain ⟨version,how⟩ := committedStep wellformedNew (List.mem_of_getElem? later) done
  rcases how with applied | ⟨_,db,found,current,last,given⟩
  · exact applied
  · obtain ⟨i,lower,a,other,w,before,did,earlier⟩ := lastCommitted later found (last ▸ given)
    refine absurd ⟨i,lower,a,other,w,before,did,?_⟩ first
    exact UInt64.toNat_inj.mp (by omega)

end

theorem linearHistory (ops : List Op) (k : Key) (kept : Kept k (history ops)) :
    (∀ e ∈ history ops, ∀ req v, CommittedAt k req v e → v = req.baseVersion.toNat+1) ∧
    (∀ (i j : Nat) (a b : Event) (req other : CommitRequest) (v w : Nat),
      (history ops)[i]? = some a → (history ops)[j]? = some b →
      CommittedAt k req v a → CommittedAt k other w b → req.baseVersion = other.baseVersion →
      req.commitID = other.commitID) ∧
    (∀ (j : Nat) (b : Event) (req : CommitRequest) (v : Nat), (history ops)[j]? = some b → CommittedAt k req v b →
      ((∃ i < j, ∃ a other w, (history ops)[i]? = some a ∧ CommittedAt k other w a ∧
        other.baseVersion = req.baseVersion) → UnchangedAt k b) ∧
      ((¬ ∃ i < j, ∃ a other w, (history ops)[i]? = some a ∧ CommittedAt k other w a ∧
        other.baseVersion = req.baseVersion) → AppliedAt k req b)) ∧
    (∀ (i j : Nat) (a b : Event), i ≤ j → (history ops)[i]? = some a → (history ops)[j]? = some b →
      versionOf k a.before ≤ versionOf k b.after) ∧
    (∀ v, 0 < v → v ≤ versionOf k (run new ops) →
      ∃! i : Nat, ∃ e, (history ops)[i]? = some e ∧ ProducedAt k v e) ∧
    (∀ e ∈ history ops, ∀ v, ProducedAt k v e →
      (∃ req, AppliedAt k req e ∧ req.baseVersion.toNat+1 = v) ∨ DeletedAt k e) := by
  refine ⟨fun e member req v done => (committedStep wellformedNew member done).1,?_,?_,?_,?_,
    fun e member v produced => producedBy kept member produced⟩
  · intro i j a b req other v w first later done again base
    rcases Nat.lt_trichotomy i j with order | same | order
    · exact (sameBase kept order first later done again base).1
    · subst same
      cases first.symm.trans later
      cases done.1.symm.trans again.1
      rfl
    · exact (sameBase kept order later first again done base.symm).1.symm
  · intro j b req v later done
    refine ⟨?_,firstApplied later done⟩
    intro earlier
    obtain ⟨i,order,a,other,w,first,did,base⟩ := earlier
    exact (sameBase kept order first later did done base).2
  · intro i j a b order first later
    have up := versionRises kept b (List.mem_of_getElem? later)
    have low := versionsOrdered kept order first later
    omega
  · intro v positive reached
    have start : versionOf k new < v := by simpa [versionOf,record,new] using positive
    exact History.passedOnce step (versionRises kept) start reached

def repeatedRun : List Op :=
  [.openDatabase (sampleOpen [1]) [7],.commit (sampleCommit [9] 1 0 3 []),.commit (sampleCommit [9] 1 0 3 [])]

theorem linearHistoryOfRepeat : Kept sampleKey (history repeatedRun) ∧
    (∃ e, (history repeatedRun)[2]? = some e ∧ e.reply = .ok (.version 1) ∧ UnchangedAt sampleKey e) ∧
    ∃! i : Nat, ∃ e, (history repeatedRun)[i]? = some e ∧ ProducedAt sampleKey 1 e := by
  have kept : Kept sampleKey (history repeatedRun) := by decide
  obtain ⟨_,_,once,_,each,_⟩ := linearHistory repeatedRun sampleKey kept
  refine ⟨kept,⟨_,rfl,rfl,?_⟩,each 1 (by decide) (by decide)⟩
  exact (once 2 _ (sampleCommit [9] 1 0 3 []) 1 rfl ⟨rfl,rfl,rfl⟩).1
    ⟨1,by decide,_,sampleCommit [9] 1 0 3 [],1,rfl,⟨rfl,rfl,rfl⟩,rfl⟩

end SqliteRemote.MemoryStore
