import SqliteRemote.MemoryVersions

/-! Deletion of unused databases. The record of a database goes on with its epoch and version
unless the database belongs to a slot holder: that one is dropped with its record, and the next
one created under its key starts from the first epoch and version zero. -/
namespace SqliteRemote.MemoryStore
open Rows StoreContract

/- The slot of the subject of k passes to another key, or DeleteSlot is called for the subject. -/
def displaces (k : Key) (e : Event) : Bool :=
  match e.op,e.reply with
  | .claimSlot _,.ok (.claimed result) => result.replaced.any (fun old => old.subject == k.subject)
  | .deleteSlot _ subject,_ => subject == k.subject
  | _,_ => false

def sweeps (k : Key) (e : Event) : Bool :=
  match e.op,e.reply with
  | .deleteUnused _ _ _,.ok (.unused keys) => keys.contains k
  | _,_ => false

def sweepsHolder (k : Key) (e : Event) : Bool := sweeps k e && e.before.slotHolders.contains k.subject

theorem sweptDeleted {k : Key} {e : Event} (swept : sweeps k e = true) : DeletedAt k e := by
  unfold sweeps at swept
  split at swept
  · rename_i cutoff limit tie keys isSweep reply
    exact .inr ⟨cutoff,limit,tie,keys,isSweep,reply,List.contains_iff_mem.mp swept⟩
  · contradiction

theorem removedDisplaced {s : Store} {k : Key} {op : Op} {reply : Answer}
    (cause : Purges s k op reply) (after : Store) :
    displaces k ⟨s,op,reply,after⟩ = true ∨ sweepsHolder k ⟨s,op,reply,after⟩ = true := by
  cases cause with
  | replaced was subject => simp [displaces,was,subject]
  | slotDeleted => simp [displaces]
  | unusedOfHolder listed holder => simp [sweepsHolder,sweeps,listed,holder]

theorem sparedKept {ops : List Op} {k : Key} (placed : ∀ e ∈ history ops, displaces k e = false)
    (spared : ∀ e ∈ history ops, sweepsHolder k e = false) : Kept k (history ops) := by
  intro e member removed
  rcases removedDisplaced (removedOnlyBy wellformedNew member removed) e.after with displaced | swept
  · exact absurd ((placed e member).symm.trans displaced) Bool.false_ne_true
  · exact absurd ((spared e member).symm.trans swept) Bool.false_ne_true

theorem sweptRecord {ops : List Op} {k : Key} {e : Event} (member : e ∈ history ops) (swept : sweeps k e = true) :
    (k.subject ∈ e.before.slotHolders → record e.after k = none) ∧
    (¬ RemovedAt k e → versionOf k e.after = versionOf k e.before+1) := by
  unfold sweeps at swept
  split at swept
  · rename_i cutoff limit tie keys isSweep reply
    have did := eventRecord wellformedNew member k
    rw [isSweep,reply] at did
    unfold RemovedAt versionOf
    generalize record e.after k = after at did ⊢
    cases did with
    | idle quiet => exact absurd (List.contains_iff_mem.mp swept) quiet
    | swept listed found live free => exact ⟨fun holder => absurd holder free,fun _ => by simp [found,Database.remove]⟩
    | purged present cause => exact ⟨fun _ => rfl,fun kept => absurd ⟨present,rfl⟩ kept⟩
  · contradiction

theorem openedVersion {ops : List Op} {k : Key} {e : Event} {req : OpenRequest} {id : Bytes} {result : OpenResult}
    (member : e ∈ history ops) (isOpen : e.op = .openDatabase req id) (key : req.key = k)
    (reply : e.reply = .ok (.opened result)) : result.state.version = versionOf k e.before ∧
      (record e.before k = none → result.lease.epoch = 1) := by
  have did := eventRecord wellformedNew member k
  rw [isOpen,reply] at did
  unfold versionOf
  generalize record e.after k = after at did
  cases did with
  | idle quiet => exact absurd key quiet
  | purged present cause => cases cause
  | resumed key found live asked held same => simp [found]
  | granted key found live asked => simp [found]
  | revived key found dead asked size => simp [found,Database.revive]
  | created key missing asked size => simp [missing,Database.fresh]

theorem deletionKeepsFencing (ops : List Op) (k : Key) (placed : ∀ e ∈ history ops, displaces k e = false) :
    (∀ e ∈ history ops, sweepsHolder k e = true → record e.after k = none) ∧
    (∀ e ∈ history ops, record e.before k = none → ∀ req id result, e.op = .openDatabase req id → req.key = k →
      e.reply = .ok (.opened result) → result.lease.epoch = 1 ∧ result.state.version = 0) ∧
    ((∀ e ∈ history ops, sweepsHolder k e = false) →
      (∀ (i j : Nat) (a b : Event) (m n : Nat), i < j →
        (history ops)[i]? = some a → (history ops)[j]? = some b →
        GrantedAt k m a → GrantedAt k n b → m < n) ∧
      (∀ (h i j : Nat) (x a b : Event) (epoch : Nat), h < i → i < j →
        (history ops)[h]? = some x → (history ops)[i]? = some a → (history ops)[j]? = some b →
        GrantedAt k epoch x → sweeps k a = true → Carries k epoch b.op → ∃ err, b.reply = .error err) ∧
      (∀ (h i j : Nat) (x a b : Event) (old : Database), h ≤ i → i < j →
        (history ops)[h]? = some x → (history ops)[i]? = some a → (history ops)[j]? = some b →
        record x.before k = some old → sweeps k a = true →
        ∀ req id result, b.op = .openDatabase req id → req.key = k → b.reply = .ok (.opened result) →
        old.state.version < result.state.version)) := by
  refine ⟨?_,?_,fun spared => ?_⟩
  · intro e member holder
    obtain ⟨swept,holds⟩ := Bool.and_eq_true_iff.mp holder
    exact (sweptRecord member swept).1 (List.contains_iff_mem.mp holds)
  · intro e member missing req id result isOpen key reply
    obtain ⟨version,first⟩ := openedVersion member isOpen key reply
    exact ⟨first missing,by simpa [versionOf,missing] using version⟩
  have kept := sparedKept placed spared
  refine ⟨fun _ _ _ _ _ _ order first later granted again => grantsIncrease kept order first later granted again,?_,?_⟩
  · intro h i j x a b epoch before after first next later granted swept carries
    exact endedRefused kept before after first next later granted (.inr (.inr (sweptDeleted swept))) carries
  · intro h i j x a b old before after first next later found swept req id result isOpen key reply
    have low := versionsOrdered kept before first next
    have high := History.countedUp step (versionRises kept) next later after
    have passed := (sweptRecord (List.mem_of_getElem? next) swept).2 (kept a (List.mem_of_getElem? next))
    rw [(openedVersion (List.mem_of_getElem? later) isOpen key reply).1]
    rw [versionFound found] at low
    omega

/- Alice holds a slot; her database is swept and created anew, and the old lease commits to it. -/
def holderSweptRun : List Op :=
  [.claimSlot ⟨"owner","alice",0⟩,.openDatabase (sampleOpen [1]) [7],.commit (sampleCommit [10] 1 0 1 []),
   .deleteUnused 100 5 (fun _ => 0),.openDatabase (sampleOpen [2]) [8],.commit (sampleCommit [11] 1 0 1 [])]

theorem holderSweptStartsOver : (∀ e ∈ history holderSweptRun, displaces sampleKey e = false) ∧
    (history holderSweptRun).map History.Event.reply =
      [.ok (.claimed ⟨⟨"alice","",0⟩,none,[]⟩),.ok (.opened ⟨⟨[7],1⟩,⟨512,0,0,[]⟩,false⟩),.ok (.version 1),
       .ok (.unused [sampleKey]),.ok (.opened ⟨⟨[8],1⟩,⟨512,0,0,[]⟩,false⟩),.ok (.version 1)] := by
  decide +kernel

def freeSweptRun : List Op :=
  [.openDatabase (sampleOpen [1]) [7],.commit (sampleCommit [10] 1 0 1 []),
   .deleteUnused 100 5 (fun _ => 0),.openDatabase (sampleOpen [2]) [8],.commit (sampleCommit [11] 1 2 1 [])]

theorem deletionKeepsFencingOfFree :
    (∀ e ∈ history freeSweptRun, displaces sampleKey e = false ∧ sweepsHolder sampleKey e = false) ∧
    (∃ err, ((history freeSweptRun).map History.Event.reply)[4]? = some (.error err)) ∧
    ∃ result, ((history freeSweptRun).map History.Event.reply)[3]? = some (.ok (.opened result)) ∧
      1 < result.state.version := by
  have placed : ∀ e ∈ history freeSweptRun, displaces sampleKey e = false := by decide +kernel
  have spared : ∀ e ∈ history freeSweptRun, sweepsHolder sampleKey e = false := by decide +kernel
  obtain ⟨_,_,whenSpared⟩ := deletionKeepsFencing freeSweptRun sampleKey placed
  obtain ⟨_,refused,versions⟩ := whenSpared spared
  refine ⟨fun e member => ⟨placed e member,spared e member⟩,?_,?_⟩
  · obtain ⟨err,reply⟩ := refused 0 2 4 _ _ _ 1 (by decide) (by decide) rfl rfl rfl
      ⟨sampleOpen [1],[7],_,rfl,rfl,rfl,rfl,rfl⟩ (by decide +kernel) ⟨rfl,rfl⟩
    exact ⟨err,congrArg some reply⟩
  · exact ⟨⟨⟨[8],3⟩,⟨512,0,2,[]⟩,false⟩,rfl,versions 2 2 3 _ _ _ _ (by decide) (by decide) rfl rfl rfl rfl
      (by decide +kernel) (sampleOpen [2]) [8] _ rfl rfl rfl⟩

end SqliteRemote.MemoryStore
