import SqliteRemote.MemoryInvariant

/-! The deletion of unused databases in batches. Slots are released after every batch, but a subject
that still has an unused database keeps its slot, so every database is deleted as the first state
of the sweep says and the batches do not show in the result. -/
namespace SqliteRemote.Server
open Rows StoreContract
open MemoryStore (Store Database record)

def sweepBatch : Nat := 100

structure Sweep where
  deleted : Nat
  logged : List Key
  store : Store

-- The loop runs until a call returns less than a full batch; each call has its own order of keys
-- with equal expiry.
def sweep (cutoff : Time) (batch : Nat) (tie : Nat → Key → Nat) (deleted : Nat) (logged : List Key) (s : Store) :
    Nat → Option Sweep
  | 0 => none
  | rounds+1 =>
      let (keys,swept) := s.deleteUnused cutoff batch (tie 0)
      if keys.length < batch then some ⟨deleted+keys.length,logged ++ keys,swept⟩
      else sweep cutoff batch (fun round => tie (round+1)) (deleted+keys.length) (logged ++ keys) swept rounds

def Unused (cutoff : Time) (s : Store) (k : Key) : Prop :=
  ∃ db, record s k = some db ∧ db.deleted = false ∧ db.expiresAt < cutoff

def Used (s : Store) (subject : String) : Prop := ∃ k db, k.subject = subject ∧ record s k = some db ∧ db.deleted = false

def unusedKeys (cutoff : Time) (s : Store) : List Key :=
  keysWhere s.dbs (fun _ db => !db.deleted && decide (db.expiresAt < cutoff))

theorem memUnusedKeys {cutoff : Time} {s : Store} {k : Key} : k ∈ unusedKeys cutoff s ↔ Unused cutoff s k := by
  simp only [unusedKeys,memKeysWhere,Bool.and_eq_true,Bool.not_eq_true',decide_eq_true_eq]
  rfl

theorem usedIff (s : Store) (subject : String) : s.hasDatabases subject = true ↔ Used s subject := by
  simp only [Store.hasDatabases,anyRowIff,Bool.and_eq_true,beq_iff_eq,Bool.not_eq_true']
  refine ⟨?_,?_⟩
  · rintro ⟨k,db,found,same,live⟩
    exact ⟨k,db,same,found,live⟩
  · rintro ⟨k,db,same,found,live⟩
    exact ⟨k,db,found,same,live⟩

structure Batch (cutoff : Time) (s : Store) (keys : List Key) (swept : Store) : Prop where
  once : keys.Nodup
  unused : ∀ k ∈ keys, Unused cutoff s k
  taken : ∀ k ∈ keys, record swept k = if k.subject ∈ s.slotHolders then none else (record s k).map Database.remove
  kept : ∀ k, k ∉ keys → record swept k = record s k
  slots : ∀ owner, swept.slots.lookup owner =
    (s.slots.lookup owner).filter (fun slot => !(decide (slot.claimedAt < cutoff) && !swept.hasDatabases slot.subject))

theorem batchOf (cutoff : Time) (s : Store) (limit : Nat) (tie : Key → Nat) :
    Batch cutoff s (s.deleteUnused cutoff limit tie).1 (s.deleteUnused cutoff limit tie).2 := by
  have after (k : Key) : record (s.deleteUnused cutoff limit tie).2 k =
      record ((s.unused cutoff limit tie).foldl (Store.drop s.slotHolders) s) k := rfl
  have once := MemoryStore.unusedNodup s cutoff limit tie
  refine ⟨once,fun k member => MemoryStore.unusedMember member,fun k member => ?_,fun k other => ?_,fun owner => ?_⟩
  · rw [after,MemoryStore.sweepRecord _ once]
    exact if_pos member
  · rw [after,MemoryStore.sweepRecord _ once]
    exact if_neg other
  · simp only [Store.deleteUnused,lookupEraseWhere,MemoryStore.sweepSlots]
    rfl

theorem batchWhole {cutoff : Time} {s : Store} {limit : Nat} {tie : Key → Nat}
    (short : (s.deleteUnused cutoff limit tie).1.length < limit) {k : Key} (unused : Unused cutoff s k) :
    k ∈ (s.deleteUnused cutoff limit tie).1 := by
  have short : (s.unused cutoff limit tie).length < limit := short
  show k ∈ s.unused cutoff limit tie
  unfold Store.unused at short ⊢
  simp only at short ⊢
  split at short
  · rename_i long
    rw [List.length_take] at short
    omega
  · rename_i fits
    rw [if_neg fits]
    exact (List.perm_insertionSort _ _).mem_iff.mpr (memUnusedKeys.mpr unused)

section
variable {cutoff : Time} {s swept final : Store} {keys later : List Key}

theorem takenGone (batch : Batch cutoff s keys swept) {k : Key} (member : k ∈ keys) {db : Database}
    (found : record swept k = some db) : db.deleted = true := by
  rw [batch.taken k member] at found
  split at found
  · contradiction
  · obtain ⟨old,_,rfl⟩ := Option.map_eq_some_iff.mp found
    rfl

theorem liveKept (batch : Batch cutoff s keys swept) {k : Key} {db : Database} (found : record swept k = some db)
    (live : db.deleted = false) : k ∉ keys ∧ record s k = some db := by
  have other : k ∉ keys := by
    intro member
    rw [takenGone batch member found] at live
    contradiction
  rw [batch.kept k other] at found
  exact ⟨other,found⟩

theorem unusedKept (batch : Batch cutoff s keys swept) {k : Key} :
    Unused cutoff swept k ↔ k ∉ keys ∧ Unused cutoff s k := by
  refine ⟨?_,?_⟩
  · rintro ⟨db,found,live,expired⟩
    obtain ⟨other,was⟩ := liveKept batch found live
    exact ⟨other,db,was,live,expired⟩
  · rintro ⟨other,db,found,rest⟩
    rw [← batch.kept k other] at found
    exact ⟨db,found,rest⟩

theorem usedBefore (batch : Batch cutoff s keys swept) {subject : String} (used : Used swept subject) : Used s subject := by
  obtain ⟨k,db,same,found,live⟩ := used
  exact ⟨k,db,same,(liveKept batch found live).2,live⟩

theorem holderKept (batch : Batch cutoff s keys swept) {subject : String} (used : Used swept subject) :
    subject ∈ swept.slotHolders ↔ subject ∈ s.slotHolders := by
  rw [MemoryStore.memSlotHolders,MemoryStore.memSlotHolders]
  have has := (usedIff swept subject).mpr used
  refine ⟨?_,?_⟩
  · rintro ⟨owner,slot,found,same⟩
    rw [batch.slots owner] at found
    exact ⟨owner,slot,(Option.filter_eq_some_iff.mp found).1,same⟩
  · rintro ⟨owner,slot,found,rfl⟩
    refine ⟨owner,slot,?_,rfl⟩
    rw [batch.slots owner,found]
    simp [has]

theorem batchAppend (batch : Batch cutoff s keys swept) (rest : Batch cutoff swept later final) :
    Batch cutoff s (keys ++ later) final := by
  have apart : ∀ k ∈ later, k ∉ keys := fun k member => ((unusedKept batch).mp (rest.unused k member)).1
  refine ⟨?_,fun k member => ?_,fun k member => ?_,fun k other => ?_,fun owner => ?_⟩
  · exact List.nodup_append'.mpr ⟨batch.once,rest.once,fun k first last => apart k last first⟩
  · rcases List.mem_append.mp member with first | last
    · exact batch.unused k first
    · exact ((unusedKept batch).mp (rest.unused k last)).2
  · rcases List.mem_append.mp member with first | last
    · have unlisted : k ∉ later := fun last => apart k last first
      rw [rest.kept k unlisted]
      exact batch.taken k first
    · obtain ⟨db,found,live,_⟩ := rest.unused k last
      have holder := holderKept batch ⟨k,db,rfl,found,live⟩
      rw [rest.taken k last,batch.kept k (apart k last)]
      simp only [holder]
  · rw [List.mem_append,not_or] at other
    rw [rest.kept k other.2,batch.kept k other.1]
  · rw [rest.slots owner,batch.slots owner]
    cases found : s.slots.lookup owner with
    | none => rfl
    | some slot =>
      have shrinks : final.hasDatabases slot.subject = true → swept.hasDatabases slot.subject = true :=
        fun has => (usedIff _ _).mpr (usedBefore rest ((usedIff _ _).mp has))
      cases last : final.hasDatabases slot.subject <;> cases first : swept.hasDatabases slot.subject <;>
        cases old : decide (slot.claimedAt < cutoff) <;> simp_all [Option.filter]

theorem batchCount (batch : Batch cutoff s keys swept) :
    keys.length+(unusedKeys cutoff swept).length ≤ (unusedKeys cutoff s).length := by
  have once : (keys ++ unusedKeys cutoff swept).Nodup := by
    refine List.nodup_append'.mpr ⟨batch.once,keysWhereNodup _ _,fun k first last => ?_⟩
    exact ((unusedKept batch).mp (memUnusedKeys.mp last)).1 first
  have inside : keys ++ unusedKeys cutoff swept ⊆ unusedKeys cutoff s := by
    intro k member
    refine memUnusedKeys.mpr ?_
    rcases List.mem_append.mp member with first | last
    · exact batch.unused k first
    · exact ((unusedKept batch).mp (memUnusedKeys.mp last)).2
  have shorter := (once.subperm inside).length_le
  rwa [List.length_append] at shorter

end

section
variable {cutoff : Time} {batch : Nat} {tie : Nat → Key → Nat} {s : Store}

theorem sweepShort (short : (s.deleteUnused cutoff batch (tie 0)).1.length < batch) (deleted : Nat) (logged : List Key)
    (rounds : Nat) : sweep cutoff batch tie deleted logged s (rounds+1) =
      some ⟨deleted+(s.deleteUnused cutoff batch (tie 0)).1.length,logged ++ (s.deleteUnused cutoff batch (tie 0)).1,
        (s.deleteUnused cutoff batch (tie 0)).2⟩ := by
  unfold sweep
  exact if_pos short

theorem sweepFull (full : ¬(s.deleteUnused cutoff batch (tie 0)).1.length < batch) (deleted : Nat) (logged : List Key)
    (rounds : Nat) : sweep cutoff batch tie deleted logged s (rounds+1) =
      sweep cutoff batch (fun round => tie (round+1)) (deleted+(s.deleteUnused cutoff batch (tie 0)).1.length)
        (logged ++ (s.deleteUnused cutoff batch (tie 0)).1) (s.deleteUnused cutoff batch (tie 0)).2 rounds := by
  conv => lhs; unfold sweep
  exact if_neg full

end

/- The loop ends, after at most one round more than there are unused databases. -/
theorem sweepEnds {cutoff : Time} {batch : Nat} (positive : 1 ≤ batch) {n : Nat} {s : Store}
    (bound : (unusedKeys cutoff s).length ≤ n) (tie : Nat → Key → Nat) (deleted : Nat) (logged : List Key) :
    ∃ result, ∀ rounds, n ≤ rounds → sweep cutoff batch tie deleted logged s (rounds+1) = some result := by
  induction n generalizing s tie deleted logged with
  | zero =>
    have count := batchCount (batchOf cutoff s batch (tie 0))
    exact ⟨_,fun rounds _ => sweepShort (by omega) deleted logged rounds⟩
  | succ n ih =>
    have count := batchCount (batchOf cutoff s batch (tie 0))
    by_cases short : (s.deleteUnused cutoff batch (tie 0)).1.length < batch
    · exact ⟨_,fun rounds _ => sweepShort short deleted logged rounds⟩
    · have fewer : (unusedKeys cutoff (s.deleteUnused cutoff batch (tie 0)).2).length ≤ n := by omega
      obtain ⟨result,ends⟩ := ih fewer (fun round => tie (round+1))
        (deleted+(s.deleteUnused cutoff batch (tie 0)).1.length) (logged ++ (s.deleteUnused cutoff batch (tie 0)).1)
      refine ⟨result,fun rounds enough => ?_⟩
      obtain ⟨rest,rfl⟩ := Nat.exists_eq_add_of_le enough
      rw [sweepFull short,Nat.add_right_comm]
      exact ends (n+rest) (Nat.le_add_right n rest)

theorem sweepEnded {cutoff : Time} {batch : Nat} {tie : Nat → Key → Nat} {rounds : Nat} {s : Store} {deleted : Nat}
    {logged : List Key} {result : Sweep} (ended : sweep cutoff batch tie deleted logged s rounds = some result) :
    ∃ keys, result.deleted = deleted+keys.length ∧ result.logged = logged ++ keys ∧
      Batch cutoff s keys result.store ∧ ∀ k, Unused cutoff s k → k ∈ keys := by
  induction rounds generalizing s tie deleted logged with
  | zero => contradiction
  | succ rounds ih =>
    have one := batchOf cutoff s batch (tie 0)
    by_cases short : (s.deleteUnused cutoff batch (tie 0)).1.length < batch
    · rw [sweepShort short] at ended
      cases ended
      exact ⟨_,rfl,rfl,one,fun k unused => batchWhole short unused⟩
    · rw [sweepFull short] at ended
      obtain ⟨later,number,list,rest,whole⟩ := ih ended
      refine ⟨_ ++ later,?_,?_,batchAppend one rest,fun k unused => ?_⟩
      · rw [number,List.length_append,Nat.add_assoc]
      · rw [list,List.append_assoc]
      · by_cases taken : k ∈ (s.deleteUnused cutoff batch (tie 0)).1
        · exact List.mem_append_left _ taken
        · exact List.mem_append_right _ (whole k ((unusedKept one).mpr ⟨taken,unused⟩))

structure SweptUnused (cutoff : Time) (s : Store) (result : Sweep) : Prop where
  each : ∀ k, k ∈ result.logged ↔ Unused cutoff s k
  once : result.logged.Nodup
  number : result.deleted = result.logged.length
  removed : ∀ k, Unused cutoff s k → k.subject ∈ s.slotHolders → record result.store k = none
  recorded : ∀ k db, record s k = some db → Unused cutoff s k → k.subject ∉ s.slotHolders →
    ∃ gone, record result.store k = some gone ∧ gone.deleted = true ∧
      gone.lease.epoch = db.lease.epoch+1 ∧ gone.state.version = db.state.version+1
  kept : ∀ k, ¬Unused cutoff s k → record result.store k = record s k
  slots : ∀ owner, result.store.slots.lookup owner = s.slots.lookup owner ∨ result.store.slots.lookup owner = none
  released : ∀ owner slot, s.slots.lookup owner = some slot → (result.store.slots.lookup owner = none ↔
    slot.claimedAt < cutoff ∧ ¬Used result.store slot.subject)

theorem sweptBatch {cutoff : Time} {s : Store} {keys : List Key} {result : Sweep} (number : result.deleted = keys.length)
    (list : result.logged = keys) (batch : Batch cutoff s keys result.store) (whole : ∀ k, Unused cutoff s k → k ∈ keys) :
    SweptUnused cutoff s result := by
  subst list
  refine ⟨fun k => ⟨batch.unused k,whole k⟩,batch.once,number,?_,?_,?_,?_,?_⟩
  · intro k unused holder
    rw [batch.taken k (whole k unused),if_pos holder]
  · intro k db found unused free
    rw [batch.taken k (whole k unused),if_neg free,found]
    exact ⟨db.remove,rfl,rfl,rfl,rfl⟩
  · intro k used
    exact batch.kept k (fun member => used (batch.unused k member))
  · intro owner
    rw [batch.slots owner]
    cases s.slots.lookup owner with
    | none => exact .inl rfl
    | some slot =>
      rw [Option.filter_some]
      split
      · exact .inl rfl
      · exact .inr rfl
  · intro owner slot found
    rw [batch.slots owner,found,← usedIff]
    simp [Option.filter]

theorem sweepExact (s : Store) (cutoff : Time) (batch : Nat) (positive : 1 ≤ batch) (tie : Nat → Key → Nat) :
    ∃ result, (∃ enough, ∀ rounds, enough ≤ rounds → sweep cutoff batch tie 0 [] s (rounds+1) = some result) ∧
      SweptUnused cutoff s result ∧
      ∀ other order rounds same, 1 ≤ other → sweep cutoff other order 0 [] s rounds = some same →
        (∀ k, record same.store k = record result.store k) ∧
        ∀ owner, same.store.slots.lookup owner = result.store.slots.lookup owner := by
  obtain ⟨result,ends⟩ := sweepEnds positive (Nat.le_refl (unusedKeys cutoff s).length) tie 0 []
  have final := ends _ (Nat.le_refl _)
  obtain ⟨keys,number,list,done,whole⟩ := sweepEnded final
  rw [Nat.zero_add] at number
  refine ⟨result,⟨_,ends⟩,sweptBatch number list done whole,?_⟩
  intro other order rounds same _ ended
  obtain ⟨others,_,_,again,all⟩ := sweepEnded ended
  have records : ∀ k, record same.store k = record result.store k := by
    intro k
    by_cases unused : Unused cutoff s k
    · rw [again.taken k (all k unused),done.taken k (whole k unused)]
    · rw [again.kept k (fun member => unused (again.unused k member)),
        done.kept k (fun member => unused (done.unused k member))]
  have used : ∀ subject, same.store.hasDatabases subject = result.store.hasDatabases subject := by
    intro subject
    rw [Bool.eq_iff_iff,usedIff,usedIff]
    simp only [Used,records]
  refine ⟨records,fun owner => ?_⟩
  rw [again.slots owner,done.slots owner]
  simp only [used]

def opening (subject dbID : String) : Op :=
  .openDatabase ⟨⟨subject,dbID⟩,"",some [1],512,true,false,none,0,10⟩ [7]

def unusedStore : Store :=
  MemoryStore.run MemoryStore.new
    [.claimSlot ⟨"owner","alice",0⟩,opening "alice" "first",opening "alice" "second",opening "bob" "other"]

theorem sweepExactOneByOne : ∃ result,
    (∃ enough, ∀ rounds, enough ≤ rounds → sweep 100 1 (fun _ _ => 0) 0 [] unusedStore (rounds+1) = some result) ∧
    SweptUnused 100 unusedStore result ∧ result.store.slots.lookup "owner" = none ∧
    record result.store ⟨"alice","first"⟩ = none ∧ record result.store ⟨"alice","second"⟩ = none ∧
    (record result.store ⟨"bob","other"⟩).map (fun db => (db.deleted,db.lease.epoch)) = some (true,2) := by
  have view : (sweep 100 sweepBatch (fun _ _ => 0) 0 [] unusedStore 1).map (fun r => (r.store.slots.lookup "owner",
      (record r.store ⟨"alice","first"⟩).isNone,(record r.store ⟨"alice","second"⟩).isNone,
      (record r.store ⟨"bob","other"⟩).map (fun db => (db.deleted,db.lease.epoch)))) =
      some (none,true,true,some (true,2)) := by decide +kernel
  obtain ⟨whole,ended,shown⟩ := Option.map_eq_some_iff.mp view
  simp only [Prod.mk.injEq,Option.isNone_iff_eq_none] at shown
  obtain ⟨slot,first,second,other⟩ := shown
  obtain ⟨result,ends,swept,all⟩ := sweepExact unusedStore 100 1 (by decide) (fun _ _ => 0)
  obtain ⟨records,slots⟩ := all sweepBatch _ _ whole (by decide) ended
  refine ⟨result,ends,swept,?_,?_,?_,?_⟩
  · rw [← slots]
    exact slot
  · rw [← records]
    exact first
  · rw [← records]
    exact second
  · rw [← records]
    exact other

end SqliteRemote.Server
