import SqliteRemote.MemoryInvariant

/-! Fencing over whole runs of the memory store. An epoch is fenced once the record has moved
past it or its lease has no holder; every operation that keeps the record keeps it fenced. -/
namespace SqliteRemote.MemoryStore
open Rows StoreContract

def GrantedAt (k : Key) (epoch : Nat) (e : Event) : Prop :=
  ∃ req id result, e.op = .openDatabase req id ∧ req.key = k ∧ req.resume = none ∧
    e.reply = .ok (.opened result) ∧ result.lease.epoch = epoch

def ReleasedAt (k : Key) (epoch : Nat) (e : Event) : Prop :=
  e.op = .release k epoch ∧ e.reply = .ok .done

def DeletedAt (k : Key) (e : Event) : Prop :=
  (∃ req result, e.op = .delete req ∧ req.key = k ∧ e.reply = .ok (.deleted result) ∧ 0 < result.epoch) ∨
  (∃ cutoff limit tie keys, e.op = .deleteUnused cutoff limit tie ∧ e.reply = .ok (.unused keys) ∧ k ∈ keys)

def Carries (k : Key) (epoch : Nat) : Op → Prop
  | .openDatabase req _ => req.key = k ∧ ∃ r, req.resume = some r ∧ r.leaseEpoch = epoch
  | .commit req => req.key = k ∧ req.leaseEpoch = epoch
  | .renew key carried _ _ => key = k ∧ carried = epoch
  | .release key carried => key = k ∧ carried = epoch
  | _ => False

def RemovedAt (k : Key) (e : Event) : Prop := (record e.before k).isSome ∧ (record e.after k).isNone
instance (k e) : Decidable (RemovedAt k e) := by unfold RemovedAt; infer_instance

def Kept (k : Key) (events : List Event) : Prop := ∀ e ∈ events, ¬ RemovedAt k e
instance (k events) : Decidable (Kept k events) := by unfold Kept; infer_instance

theorem removedOnlyBy {s : Store} (start : WellformedStore s) {ops : List Op} {e : Event} {k : Key}
    (member : e ∈ History.history step s ops) (removed : RemovedAt k e) : Purges e.before k e.op e.reply := by
  obtain ⟨present,gone⟩ := removed
  have did := eventRecord start member k
  generalize record e.after k = after at did gone
  generalize e.op = op at did ⊢
  generalize e.reply = reply at did ⊢
  cases did with
  | idle quiet => simp [Option.isNone_iff_eq_none.mp gone] at present
  | purged present cause => exact cause
  | _ => contradiction

def Reached (k : Key) (epoch : Nat) (s : Store) : Prop := ∃ db, record s k = some db ∧ epoch ≤ db.lease.epoch

def Fenced (k : Key) (epoch : Nat) (s : Store) : Prop :=
  ∃ db, record s k = some db ∧ (epoch < db.lease.epoch ∨ epoch = db.lease.epoch ∧ db.holder = none)

theorem leaseStep {s : Store} {k : Key} {op : Op} {reply : Answer} {before after : Database}
    (did : RecordStep s k op reply (some after)) (found : record s k = some before) :
    before.lease.epoch ≤ after.lease.epoch ∧
    (before.lease.epoch = after.lease.epoch → before.holder = none → after.holder = none) := by
  generalize target : some after = out at did
  cases did with
  | idle quiet =>
    cases found.symm.trans target.symm
    exact ⟨Nat.le_refl _,fun _ free => free⟩
  | purged present cause => contradiction
  | created key missing asked size => cases found.symm.trans missing
  | granted key there live asked =>
    cases Option.some.inj target; cases found.symm.trans there
    exact ⟨Nat.le_succ _,fun same => absurd same (Nat.ne_of_lt (Nat.lt_succ_self _))⟩
  | revived key there dead asked size =>
    cases Option.some.inj target; cases found.symm.trans there
    exact ⟨Nat.le_succ _,fun same => absurd same (Nat.ne_of_lt (Nat.lt_succ_self _))⟩
  | deleted key there live =>
    cases Option.some.inj target; cases found.symm.trans there
    exact ⟨Nat.le_succ _,fun _ _ => rfl⟩
  | swept listed there live free =>
    cases Option.some.inj target; cases found.symm.trans there
    exact ⟨Nat.le_succ _,fun _ _ => rfl⟩
  | released there held =>
    cases Option.some.inj target; cases found.symm.trans there
    exact ⟨Nat.le_refl _,fun _ _ => rfl⟩
  | resumed key there live asked held same =>
    cases Option.some.inj target; cases found.symm.trans there
    exact ⟨Nat.le_refl _,fun _ free => free⟩
  | repeated key there held again =>
    cases Option.some.inj target; cases found.symm.trans there
    exact ⟨Nat.le_refl _,fun _ free => free⟩
  | applied key there held base valid =>
    cases Option.some.inj target; cases found.symm.trans there
    exact ⟨Nat.le_refl _,fun _ free => free⟩
  | renewed there held =>
    cases Option.some.inj target; cases found.symm.trans there
    exact ⟨Nat.le_refl _,fun _ free => free⟩

theorem keptRecord {e : Event} {k : Key} {before : Database} (kept : ¬ RemovedAt k e)
    (found : record e.before k = some before) : ∃ after, record e.after k = some after := by
  cases there : record e.after k with
  | some after => exact ⟨after,rfl⟩
  | none => exact absurd ⟨by simp [found],by simp [there]⟩ kept

section
variable {s : Store} {ops : List Op} {k : Key} (start : WellformedStore s)
  (kept : Kept k (History.history step s ops))
include start kept

theorem reachedKept (epoch : Nat) : ∀ e ∈ History.history step s ops, Reached k epoch e.before → Reached k epoch e.after := by
  intro e member reached
  obtain ⟨before,found,past⟩ := reached
  obtain ⟨after,there⟩ := keptRecord (kept e member) found
  have did := eventRecord start member k
  rw [there] at did
  exact ⟨after,there,Nat.le_trans past (leaseStep did found).1⟩

theorem fencedKept (epoch : Nat) : ∀ e ∈ History.history step s ops, Fenced k epoch e.before → Fenced k epoch e.after := by
  intro e member fenced
  obtain ⟨before,found,past⟩ := fenced
  obtain ⟨after,there⟩ := keptRecord (kept e member) found
  have did := eventRecord start member k
  rw [there] at did
  obtain ⟨grows,stays⟩ := leaseStep did found
  refine ⟨after,there,?_⟩
  rcases past with past | ⟨same,free⟩
  · exact .inl (by omega)
  · rcases Nat.lt_or_eq_of_le grows with moved | unmoved
    · exact .inl (by omega)
    · exact .inr ⟨by omega,stays unmoved free⟩

omit kept in
theorem grantedEpoch {e : Event} {epoch : Nat} (member : e ∈ History.history step s ops)
    (granted : GrantedAt k epoch e) :
    (∃ db, record e.after k = some db ∧ db.lease.epoch = epoch) ∧
    ∀ db, record e.before k = some db → db.lease.epoch < epoch := by
  obtain ⟨req,id,result,isOpen,key,asked,reply,same⟩ := granted
  have did := eventRecord start member k
  rw [isOpen,reply] at did
  generalize record e.after k = after at did ⊢
  cases did with
  | idle quiet => exact absurd key quiet
  | resumed key there live resumes held id => rw [asked] at resumes; contradiction
  | granted key there live asked =>
    subst same
    refine ⟨⟨_,rfl,rfl⟩,fun db found => ?_⟩
    cases found.symm.trans there
    exact Nat.lt_succ_self _
  | revived key there dead asked size =>
    subst same
    refine ⟨⟨_,rfl,rfl⟩,fun db found => ?_⟩
    cases found.symm.trans there
    exact Nat.lt_succ_self _
  | created key missing asked size =>
    subst same
    refine ⟨⟨_,rfl,rfl⟩,fun db found => ?_⟩
    cases found.symm.trans missing
  | purged present cause => cases cause

omit kept in
theorem releasedFences {e : Event} {epoch : Nat} (member : e ∈ History.history step s ops)
    (released : ReleasedAt k epoch e) : Fenced k epoch e.after := by
  obtain ⟨isRelease,reply⟩ := released
  have did := eventRecord start member k
  rw [isRelease,reply] at did
  unfold Fenced
  generalize record e.after k = after at did ⊢
  cases did with
  | idle quiet => exact absurd rfl quiet
  | released found held => exact ⟨_,rfl,.inr ⟨(holdsHolder held).2.symm,rfl⟩⟩
  | purged present cause => cases cause

theorem deletedFences {e : Event} {epoch : Nat} (member : e ∈ History.history step s ops)
    (deleted : DeletedAt k e) (reached : Reached k epoch e.before) : Fenced k epoch e.after := by
  obtain ⟨before,found,past⟩ := reached
  obtain ⟨later,there⟩ := keptRecord (kept e member) found
  have did := eventRecord start member k
  refine ⟨later,there,.inl ?_⟩
  rw [there] at did
  generalize target : some later = after at did
  rcases deleted with ⟨req,result,isDelete,key,reply,some⟩ | ⟨cutoff,limit,tie,keys,isSweep,reply,listed⟩
  · rw [isDelete,reply] at did
    cases did with
    | idle quiet => exact absurd ⟨key,some⟩ quiet
    | deleted key same live =>
      cases Option.some.inj target; cases found.symm.trans same
      exact Nat.lt_succ_of_le past
    | purged present cause => contradiction
  · rw [isSweep,reply] at did
    cases did with
    | idle quiet => exact absurd listed quiet
    | swept listed same live free =>
      cases Option.some.inj target; cases found.symm.trans same
      exact Nat.lt_succ_of_le past
    | purged present cause => contradiction

omit kept in
theorem fencedRefuses {e : Event} {epoch : Nat} (member : e ∈ History.history step s ops)
    (fenced : Fenced k epoch e.before) (carries : Carries k epoch e.op) : ∃ err, e.reply = .error err := by
  obtain ⟨before,found,past⟩ := fenced
  have unusable : before.holds epoch = false := by
    cases held : before.holds epoch with
    | false => rfl
    | true =>
      obtain ⟨holder,same⟩ := holdsHolder held
      rcases past with past | ⟨_,free⟩
      · omega
      · exact absurd free holder
  cases answered : e.reply with
  | error err => exact ⟨err,rfl⟩
  | ok reply =>
    have did := eventRecord start member k
    generalize isOp : e.op = op at did carries
    rw [answered] at did
    generalize record e.after k = after at did
    cases did with
    | idle quiet =>
      cases op <;> simp only [Carries,Touches] at carries quiet
      all_goals exact absurd carries.1 quiet
    | purged present cause => cases cause <;> contradiction
    | granted key there live asked =>
      obtain ⟨_,r,resumes,_⟩ := carries
      rw [asked] at resumes; contradiction
    | revived key there dead asked size =>
      obtain ⟨_,r,resumes,_⟩ := carries
      rw [asked] at resumes; contradiction
    | created key missing asked size =>
      obtain ⟨_,r,resumes,_⟩ := carries
      rw [asked] at resumes; contradiction
    | resumed key there live asked held same =>
      obtain ⟨_,r,resumes,carried⟩ := carries
      cases asked.symm.trans resumes; cases found.symm.trans there
      rw [carried,unusable] at held; contradiction
    | repeated key there held again =>
      cases found.symm.trans there; rw [carries.2,unusable] at held; contradiction
    | applied key there held base valid =>
      cases found.symm.trans there; rw [carries.2,unusable] at held; contradiction
    | renewed there held =>
      cases found.symm.trans there; rw [carries.2,unusable] at held; contradiction
    | released there held =>
      cases found.symm.trans there; rw [carries.2,unusable] at held; contradiction
    | deleted key there live => contradiction
    | swept listed there live free => contradiction

end

section
variable {ops : List Op} {k : Key} (kept : Kept k (history ops))
include kept

theorem grantsIncrease {i j : Nat} {a b : Event} {m n : Nat} (order : i < j)
    (first : (history ops)[i]? = some a) (later : (history ops)[j]? = some b)
    (granted : GrantedAt k m a) (again : GrantedAt k n b) : m < n := by
  obtain ⟨⟨db,found,epoch⟩,_⟩ := grantedEpoch wellformedNew (List.mem_of_getElem? first) granted
  have reached : Reached k m b.before :=
    History.carried step (reachedKept wellformedNew kept m) first later order ⟨db,found,epoch.ge⟩
  obtain ⟨now,there,past⟩ := reached
  have next := (grantedEpoch wellformedNew (List.mem_of_getElem? later) again).2 now there
  omega

/- What ends the lease of an epoch granted before: a new lease, its own release, a deletion. -/
theorem endedFenced {h i : Nat} {x a : Event} {epoch : Nat} (order : h < i)
    (first : (history ops)[h]? = some x) (next : (history ops)[i]? = some a) (granted : GrantedAt k epoch x)
    (ended : (∃ n, GrantedAt k n a) ∨ ReleasedAt k epoch a ∨ DeletedAt k a) : Fenced k epoch a.after := by
  have member := List.mem_of_getElem? next
  obtain ⟨⟨db,found,same⟩,_⟩ := grantedEpoch wellformedNew (List.mem_of_getElem? first) granted
  have reached : Reached k epoch a.before :=
    History.carried step (reachedKept wellformedNew kept epoch) first next order ⟨db,found,same.ge⟩
  rcases ended with ⟨n,again⟩ | released | deleted
  · obtain ⟨⟨now,there,current⟩,_⟩ := grantedEpoch wellformedNew member again
    have later : epoch < n := grantsIncrease kept order first next granted again
    exact ⟨now,there,.inl (by omega)⟩
  · exact releasedFences wellformedNew member released
  · exact deletedFences wellformedNew kept member deleted reached

theorem endedRefused {h i j : Nat} {x a b : Event} {epoch : Nat} (before : h < i) (after : i < j)
    (first : (history ops)[h]? = some x) (next : (history ops)[i]? = some a)
    (later : (history ops)[j]? = some b) (granted : GrantedAt k epoch x)
    (ended : (∃ n, GrantedAt k n a) ∨ ReleasedAt k epoch a ∨ DeletedAt k a)
    (carries : Carries k epoch b.op) : ∃ err, b.reply = .error err := by
  have fenced : Fenced k epoch b.before :=
    History.carried step (fencedKept wellformedNew kept epoch) next later after
      (endedFenced kept before first next granted ended)
  exact fencedRefuses wellformedNew (List.mem_of_getElem? later) fenced carries

end

theorem fencing (ops : List Op) (k : Key) (kept : Kept k (history ops)) :
    (∀ (i j : Nat) (a b : Event) (m n : Nat), i < j →
      (history ops)[i]? = some a → (history ops)[j]? = some b →
      GrantedAt k m a → GrantedAt k n b → m < n) ∧
    (∀ (h i j : Nat) (x a b : Event) (epoch : Nat), h < i → i < j →
      (history ops)[h]? = some x → (history ops)[i]? = some a → (history ops)[j]? = some b →
      GrantedAt k epoch x → ((∃ n, GrantedAt k n a) ∨ ReleasedAt k epoch a ∨ DeletedAt k a) →
      Carries k epoch b.op → ∃ err, b.reply = .error err) :=
  ⟨fun _ _ _ _ _ _ order first later granted again => grantsIncrease kept order first later granted again,
    fun _ _ _ _ _ _ _ before after first next later granted ended carries =>
      endedRefused kept before after first next later granted ended carries⟩

def sampleKey : Key := ⟨"alice","db"⟩

def sampleOpen (holder : Bytes) : OpenRequest :=
  ⟨sampleKey,"",some holder,512,true,true,none,0,10⟩

def sampleCommit (id : Bytes) (epoch : Nat) (base pageCount : UInt64) (blocks : List Block) : CommitRequest :=
  ⟨sampleKey,id,epoch,base,pageCount,blocks,0,10⟩

def takeoverRun : List Op :=
  [.openDatabase (sampleOpen [1]) [7],.openDatabase (sampleOpen [2]) [8],.commit (sampleCommit [9] 1 0 0 [])]

theorem fencingOfTakeover : Kept sampleKey (history takeoverRun) ∧
    (∃ err, ((history takeoverRun).map History.Event.reply)[2]? = some (.error err)) := by
  have kept : Kept sampleKey (history takeoverRun) := by decide
  refine ⟨kept,?_⟩
  obtain ⟨err,refused⟩ := (fencing takeoverRun sampleKey kept).2 0 1 2 _ _ _ 1 (by decide) (by decide) rfl rfl rfl
    ⟨sampleOpen [1],[7],_,rfl,rfl,rfl,rfl,rfl⟩ (.inl ⟨2,sampleOpen [2],[8],_,rfl,rfl,rfl,rfl,rfl⟩) ⟨rfl,rfl⟩
  exact ⟨err,congrArg some refused⟩

theorem failureChangesNothing (past : List Op) (op : Op) (err : Error)
    (failed : (step (run new past) op).1 = .error err) : (step (run new past) op).2 = run new past :=
  failedStep (wellformedRun past) failed

theorem failureChangesNothingFenced :
    (step (run new (takeoverRun.take 2)) (.commit (sampleCommit [9] 1 0 0 []))).1 = .error .fenced ∧
    (step (run new (takeoverRun.take 2)) (.commit (sampleCommit [9] 1 0 0 []))).2 = run new (takeoverRun.take 2) :=
  ⟨by decide +kernel,failureChangesNothing _ _ .fenced (by decide +kernel)⟩

end SqliteRemote.MemoryStore
