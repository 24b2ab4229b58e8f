import SqliteRemote.MemorySlots

/-! Subjects share one store and do not influence each other. An operation on a key reads and
writes the record of that key and reads the slot of its owner; a purge takes the records of one
subject; a slot changes by the operations that name its owner. So the records of a subject and the
slots of the owners it names come out of a run the same without the operations of the others. -/
namespace SqliteRemote.MemoryStore
open Rows StoreContract

/- The operations on keys of a subject. What ClaimSlot reports as deleted is of another one. -/
def onKeysOf (subject : String) : Op → Bool
  | .openDatabase req _ => req.key.subject == subject
  | .fetch key _ _ _ => key.subject == subject
  | .commit req => req.key.subject == subject
  | .changes key _ => key.subject == subject
  | .renew key _ _ _ => key.subject == subject
  | .release key _ => key.subject == subject
  | .delete req => req.key.subject == subject
  | .setSlotLabel _ holder _ => holder == subject
  | .deleteSlot _ holder => holder == subject
  | _ => false

def namedBy (subject : String) : Op → Option String
  | .openDatabase req _ => if req.key.subject = subject then some req.owner else none
  | .claimSlot req => if req.subject = subject then some req.owner else none
  | .setSlotLabel owner holder _ => if holder = subject then some owner else none
  | .deleteSlot owner holder => if holder = subject then some owner else none
  | _ => none

def foreignTo (subject : String) (named : List String) : Op → Bool
  | .openDatabase req _ => req.key.subject != subject
  | .fetch key _ _ _ => key.subject != subject
  | .commit req => req.key.subject != subject
  | .changes key _ => key.subject != subject
  | .renew key _ _ _ => key.subject != subject
  | .release key _ => key.subject != subject
  | .delete req => req.key.subject != subject
  | .getSlot owner => !named.contains owner
  | .claimSlot req => req.subject != subject && !named.contains req.owner
  | .setSlotLabel owner holder _ => holder != subject && !named.contains owner
  | .deleteSlot owner holder => holder != subject && !named.contains owner
  | .deleteUnused _ _ _ => false

def writesSlot : Op → Option String
  | .claimSlot req => some req.owner
  | .setSlotLabel owner _ _ => some owner
  | .deleteSlot owner _ => some owner
  | _ => none

theorem slotAfterOther {owner : String} {op : Op} (other : writesSlot op ≠ some owner) (slot : Option Slot) :
    slotAfter owner slot op = slot := by
  cases op with
  | claimSlot req => exact if_neg (fun same => other (congrArg some same))
  | setSlotLabel named holder label => exact if_neg (fun same => other (congrArg some same))
  | deleteSlot named holder => exact if_neg (fun same => other (congrArg some same))
  | _ => rfl

def Alike (subject : String) (s t : Store) : Prop := ∀ k, k.subject = subject → record s k = record t k

def Matches {ρ : Type} (subject : String) (x y : ρ × Store) : Prop := x.1 = y.1 ∧ Alike subject x.2 y.2

section
variable {subject : String} {s t : Store}

theorem alikePut (alike : Alike subject s t) (key : Key) (db : Database) :
    Alike subject (s.put key db) (t.put key db) := by
  intro k ofSubject
  rw [recordPut,recordPut,alike k ofSubject]

theorem alikePurge (alike : Alike subject s t) (holder : String) :
    Alike subject (s.purge holder).2 (t.purge holder).2 := by
  intro k ofSubject
  rw [purgeRecord,purgeRecord,alike k ofSubject]

theorem matchesAnswer {α : Type} (reply : α → Reply) {x y : Except Error α × Store} (same : Matches subject x y) :
    Matches subject (answer reply x) (answer reply y) := by
  obtain ⟨result,after⟩ := x
  obtain ⟨other,later⟩ := y
  obtain ⟨results,alike⟩ := same
  cases (results : result = other)
  cases result <;> exact ⟨rfl,alike⟩

theorem leaseMatches (alike : Alike subject s t) (req : OpenRequest) (id : Bytes) (db : Database) :
    Matches subject (s.lease req id db) (t.lease req id db) := by
  unfold Store.lease
  cases req.resume with
  | some r =>
    simp only [Store.resume]
    split_ifs
    · exact ⟨rfl,alike⟩
    · exact ⟨rfl,alikePut alike _ _⟩
  | none =>
    simp only [Store.grant]
    split_ifs
    · exact ⟨rfl,alike⟩
    · exact ⟨rfl,alikePut alike _ _⟩

theorem checkedLeaseMatches (alike : Alike subject s t) (req : OpenRequest) (id : Bytes) (db : Database) :
    Matches subject (s.checkedLease req id db) (t.checkedLease req id db) := by
  unfold Store.checkedLease
  split_ifs
  · exact ⟨rfl,alike⟩
  · exact leaseMatches alike req id db

theorem openMatches (alike : Alike subject s t) {req : OpenRequest} (key : req.key.subject = subject)
    (slot : s.slots.lookup req.owner = t.slots.lookup req.owner) (id : Bytes) :
    Matches subject (s.open req id) (t.open req id) := by
  have taken : s.slotTaken req.owner req.key.subject = t.slotTaken req.owner req.key.subject := by
    rw [Store.slotTaken,Store.slotTaken,slot]
  have found : s.dbs.lookup req.key = t.dbs.lookup req.key := alike req.key key
  unfold Store.open
  rw [taken,found]
  by_cases busy : t.slotTaken req.owner req.key.subject = true
  · rw [if_pos busy,if_pos busy]
    exact ⟨rfl,alike⟩
  rw [if_neg busy,if_neg busy]
  cases t.dbs.lookup req.key with
  | none =>
    simp only
    split_ifs
    · exact ⟨rfl,alike⟩
    · exact ⟨rfl,alike⟩
    · exact leaseMatches (alikePut alike _ _) req id _
  | some db =>
    simp only
    split_ifs
    · exact ⟨rfl,alike⟩
    · exact ⟨rfl,alike⟩
    · exact ⟨rfl,alike⟩
    · exact checkedLeaseMatches (alikePut alike _ _) req id _
    · exact checkedLeaseMatches alike req id db

theorem commitMatches (alike : Alike subject s t) {req : CommitRequest} (key : req.key.subject = subject) :
    Matches subject (s.commit req) (t.commit req) := by
  have found : s.dbs.lookup req.key = t.dbs.lookup req.key := alike req.key key
  unfold Store.commit
  rw [found]
  cases t.dbs.lookup req.key with
  | none => exact ⟨rfl,alike⟩
  | some db =>
    simp only
    split_ifs
    · exact ⟨rfl,alike⟩
    · exact ⟨rfl,alikePut alike _ _⟩
    · exact ⟨rfl,alike⟩
    · cases validateCommit db.state.pageSize req with
      | some reason => exact ⟨rfl,alike⟩
      | none => exact ⟨rfl,alikePut alike _ _⟩

theorem renewMatches (alike : Alike subject s t) {key : Key} (ofSubject : key.subject = subject) (epoch : Nat)
    (now : Time) (ttl : Duration) : Matches subject (s.renew key epoch now ttl) (t.renew key epoch now ttl) := by
  have found : s.dbs.lookup key = t.dbs.lookup key := alike key ofSubject
  unfold Store.renew
  rw [found]
  cases t.dbs.lookup key with
  | none => exact ⟨rfl,alike⟩
  | some db =>
    simp only
    split_ifs
    · exact ⟨rfl,alike⟩
    · exact ⟨rfl,alikePut alike _ _⟩

theorem releaseMatches (alike : Alike subject s t) {key : Key} (ofSubject : key.subject = subject) (epoch : Nat) :
    Matches subject (s.release key epoch) (t.release key epoch) := by
  have found : s.dbs.lookup key = t.dbs.lookup key := alike key ofSubject
  unfold Store.release
  rw [found]
  cases t.dbs.lookup key with
  | none => exact ⟨rfl,alike⟩
  | some db =>
    simp only
    split_ifs
    · exact ⟨rfl,alike⟩
    · exact ⟨rfl,alikePut alike _ _⟩

theorem deleteMatches (alike : Alike subject s t) {req : DeleteRequest} (key : req.key.subject = subject) :
    Matches subject (s.delete req) (t.delete req) := by
  have found : s.dbs.lookup req.key = t.dbs.lookup req.key := alike req.key key
  unfold Store.delete
  rw [found]
  cases t.dbs.lookup req.key with
  | none => exact ⟨rfl,alike⟩
  | some db =>
    simp only
    split_ifs
    · exact ⟨rfl,alike⟩
    · exact ⟨rfl,alike⟩
    · exact ⟨rfl,alikePut alike _ _⟩

theorem fetchMatches (alike : Alike subject s t) {key : Key} (ofSubject : key.subject = subject) (version : Nat)
    (first count : UInt64) : s.fetch key version first count = t.fetch key version first count := by
  have found : s.dbs.lookup key = t.dbs.lookup key := alike key ofSubject
  rw [Store.fetch,Store.fetch,found]

theorem changesMatches (alike : Alike subject s t) {key : Key} (ofSubject : key.subject = subject)
    (fromVersion : Nat) : s.changes key fromVersion = t.changes key fromVersion := by
  have found : s.dbs.lookup key = t.dbs.lookup key := alike key ofSubject
  rw [Store.changes,Store.changes,found]

/- A purge lists the keys of its subject in order, so it does not matter what else is stored. -/
theorem purgeMatches (alike : Alike subject s t) : (s.purge subject).1 = (t.purge subject).1 := by
  let own (k : Key) (db : Database) : Bool := k.subject == subject && !db.deleted
  have same : (keysWhere s.dbs own).Perm (keysWhere t.dbs own) := by
    refine (List.perm_ext_iff_of_nodup (keysWhereNodup _ _) (keysWhereNodup _ _)).mpr (fun k => ?_)
    rw [memKeysWhere,memKeysWhere]
    by_cases ofSubject : k.subject = subject
    · have found : s.dbs.lookup k = t.dbs.lookup k := alike k ofSubject
      rw [found]
    · simp [own,ofSubject]
  have one : ∀ k ∈ keysWhere s.dbs own, k.subject = subject := by
    intro k member
    obtain ⟨db,_,listed⟩ := (memKeysWhere _ _ _).mp member
    exact beq_iff_eq.mp (Bool.and_eq_true_iff.mp listed).1
  exact byDBIDUnique same one

theorem recordElsewhere (valid : WellformedStore s) {op : Op} (other : isSweep op = false) {k : Key}
    (elsewhere : onKeysOf k.subject op = false)
    (kept : ∀ req slot, op = .claimSlot req → s.slots.lookup req.owner = some slot → slot.subject = k.subject →
      slot.subject = req.subject) : record (step s op).2 k = record s k := by
  have did := recordStep valid.unheld op k
  generalize record (step s op).2 k = after at did ⊢
  generalize answered : (step s op).1 = reply at did
  cases did with
  | idle quiet => rfl
  | purged present cause =>
    cases cause with
    | @replaced req result old was ofSubject =>
      have same : (s.claimSlot req).1 = result := Reply.claimed.inj (Except.ok.inj answered)
      obtain ⟨found,different,_⟩ := claimReplaced (same ▸ was)
      exact absurd (kept req old rfl found ofSubject) different
    | slotDeleted => simp [onKeysOf] at elsewhere
    | unusedOfHolder listed holder => contradiction
  | swept listed found live free => contradiction
  | resumed key found live asked held same => simp [onKeysOf,key] at elsewhere
  | granted key found live asked => simp [onKeysOf,key] at elsewhere
  | revived key found dead asked size => simp [onKeysOf,key] at elsewhere
  | created key missing asked size => simp [onKeysOf,key] at elsewhere
  | repeated key found held again => simp [onKeysOf,key] at elsewhere
  | applied key found held base ok => simp [onKeysOf,key] at elsewhere
  | renewed found held => simp [onKeysOf] at elsewhere
  | released found held => simp [onKeysOf] at elsewhere
  | deleted key found live => simp [onKeysOf,key] at elsewhere

end

/- How the two runs relate: the records of the subject and the slots of the owners it names are
the same, and no other slot is its own. -/
structure Agree (subject : String) (named : List String) (s t : Store) : Prop where
  left : WellformedStore s
  right : WellformedStore t
  records : Alike subject s t
  slots : ∀ owner ∈ named, s.slots.lookup owner = t.slots.lookup owner
  others : ∀ owner, owner ∉ named → ∀ slot, s.slots.lookup owner = some slot → slot.subject ≠ subject
  othersToo : ∀ owner, owner ∉ named → ∀ slot, t.slots.lookup owner = some slot → slot.subject ≠ subject

section
variable {subject : String} {named : List String} {s t : Store} {op : Op}

theorem othersStep (valid : WellformedStore s) (other : isSweep op = false)
    (names : ∀ owner, namedBy subject op = some owner → owner ∈ named)
    (before : ∀ owner, owner ∉ named → ∀ slot, s.slots.lookup owner = some slot → slot.subject ≠ subject) :
    ∀ owner, owner ∉ named → ∀ slot, (step s op).2.slots.lookup owner = some slot → slot.subject ≠ subject := by
  intro owner unnamed slot found
  rw [slotStep valid other] at found
  rcases slotOrigin found with ⟨old,there,same⟩ | claimed
  · rw [same]
    exact before owner unnamed old there
  · intro own
    cases op with
    | claimSlot req =>
      simp only [claimantOf] at claimed
      split at claimed <;> try contradiction
      rename_i here
      refine unnamed (names owner ?_)
      rw [namedBy,Option.some.inj claimed,if_pos own,here]
    | _ => contradiction

theorem foreignElsewhere (foreign : foreignTo subject named op = true) :
    isSweep op = false ∧ onKeysOf subject op = false ∧ namedBy subject op = none ∧
    ∀ owner, writesSlot op = some owner → owner ∉ named := by
  cases op <;> simp_all [foreignTo,isSweep,onKeysOf,namedBy,writesSlot]

theorem dropped (foreign : foreignTo subject named op = true) (agree : Agree subject named s t) :
    onKeysOf subject op = false ∧ Agree subject named (step s op).2 t := by
  obtain ⟨other,elsewhere,nameless,unnamed⟩ := foreignElsewhere foreign
  refine ⟨elsewhere,wellformedStep s op agree.left,agree.right,?_,?_,?_,agree.othersToo⟩
  · intro k ofSubject
    subst ofSubject
    rw [recordElsewhere agree.left other elsewhere,agree.records k rfl]
    intro req slot isClaim found own
    subst isClaim
    exact absurd own (agree.others req.owner (unnamed req.owner rfl) slot found)
  · intro owner member
    rw [slotStep agree.left other,slotAfterOther (fun writes => unnamed owner writes member),agree.slots owner member]
  · exact othersStep agree.left other (fun owner isNamed => by rw [nameless] at isNamed; contradiction) agree.others

theorem claimAlike {req : ClaimRequest} (agree : Agree subject named s t) :
    Alike subject (step s (.claimSlot req)).2 (step t (.claimSlot req)).2 := by
  intro k ofSubject
  subst ofSubject
  by_cases member : req.owner ∈ named
  · have slots := agree.slots req.owner member
    by_cases passed : ∃ old, t.slots.lookup req.owner = some old ∧ old.subject ≠ req.subject
    · obtain ⟨old,found,different⟩ := passed
      have left := (claimReplaced (claimFrom (slots.trans found) different)).2.2.2 k
      have right := (claimReplaced (claimFrom found different)).2.2.2 k
      exact (left.trans (by rw [agree.records k rfl])).trans right.symm
    · have kept : ∀ claim slot, Op.claimSlot req = .claimSlot claim → t.slots.lookup claim.owner = some slot →
          slot.subject = k.subject → slot.subject = claim.subject := by
        intro claim slot same found _
        cases same
        exact not_not.mp (fun different => passed ⟨slot,found,different⟩)
      rw [recordElsewhere agree.right rfl rfl kept,recordElsewhere agree.left rfl rfl,agree.records k rfl]
      intro claim slot same found own
      cases same
      exact kept req slot rfl (slots ▸ found) own
  · rw [recordElsewhere agree.right rfl rfl,recordElsewhere agree.left rfl rfl,agree.records k rfl]
    · intro claim slot same found own
      cases same
      exact absurd own (agree.others req.owner member slot found)
    · intro claim slot same found own
      cases same
      exact absurd own (agree.othersToo req.owner member slot found)

theorem elsewhereAlike (other : isSweep op = false) (elsewhere : onKeysOf subject op = false)
    (agree : Agree subject named s t) : Alike subject (step s op).2 (step t op).2 := by
  cases op with
  | claimSlot req => exact claimAlike agree
  | _ =>
    intro k ofSubject
    subst ofSubject
    rw [recordElsewhere agree.left other elsewhere (by intros; contradiction),
      recordElsewhere agree.right other elsewhere (by intros; contradiction),agree.records k rfl]

theorem ownMatches (names : ∀ owner, namedBy subject op = some owner → owner ∈ named)
    (agree : Agree subject named s t) (own : onKeysOf subject op = true) : Matches subject (step s op) (step t op) := by
  have alike := agree.records
  cases op with
  | openDatabase req id =>
    have key : req.key.subject = subject := beq_iff_eq.mp own
    exact matchesAnswer _ (openMatches alike key (agree.slots req.owner (names req.owner (if_pos key))) id)
  | commit req => exact matchesAnswer _ (commitMatches alike (beq_iff_eq.mp own))
  | renew key epoch now ttl => exact matchesAnswer _ (renewMatches alike (beq_iff_eq.mp own) epoch now ttl)
  | release key epoch => exact matchesAnswer _ (releaseMatches alike (beq_iff_eq.mp own) epoch)
  | delete req => exact matchesAnswer _ (deleteMatches alike (beq_iff_eq.mp own))
  | fetch key version first count =>
    exact matchesAnswer _ ⟨fetchMatches alike (beq_iff_eq.mp own) version first count,alike⟩
  | changes key fromVersion => exact matchesAnswer _ ⟨changesMatches alike (beq_iff_eq.mp own) fromVersion,alike⟩
  | setSlotLabel owner holder label =>
    have slot := agree.slots owner (names owner (if_pos (beq_iff_eq.mp own)))
    refine matchesAnswer _ ?_
    unfold Store.setSlotLabel
    rw [slot]
    cases t.slots.lookup owner with
    | none => exact ⟨rfl,alike⟩
    | some old =>
      simp only
      split_ifs
      · exact ⟨rfl,alike⟩
      · exact ⟨rfl,alike⟩
  | deleteSlot owner holder =>
    cases (beq_iff_eq.mp own : holder = subject)
    have slot := agree.slots owner (names owner (if_pos rfl))
    refine matchesAnswer _ ?_
    unfold Store.deleteSlot
    rw [slot]
    cases t.slots.lookup owner with
    | none => exact ⟨congrArg Except.ok (purgeMatches alike),alikePurge alike _⟩
    | some old =>
      simp only
      split_ifs
      · exact ⟨rfl,alike⟩
      · exact ⟨congrArg Except.ok (purgeMatches alike),alikePurge alike _⟩
  | deleteUnused cutoff limit tie => contradiction
  | getSlot owner => contradiction
  | claimSlot req => contradiction

theorem performed (other : isSweep op = false) (names : ∀ owner, namedBy subject op = some owner → owner ∈ named)
    (agree : Agree subject named s t) :
    (onKeysOf subject op = true → (step s op).1 = (step t op).1) ∧
    Agree subject named (step s op).2 (step t op).2 := by
  refine ⟨fun own => (ownMatches names agree own).1,wellformedStep s op agree.left,wellformedStep t op agree.right,
    ?_,?_,othersStep agree.left other names agree.others,othersStep agree.right other names agree.othersToo⟩
  · cases own : onKeysOf subject op with
    | true => exact (ownMatches names agree own).2
    | false => exact elsewhereAlike other own agree
  · intro owner member
    rw [slotStep agree.left other,slotStep agree.right other,agree.slots owner member]

end

theorem subjectsSeparate (subject : String) (ops : List (Op × Bool))
    (unswept : ∀ x ∈ ops, isSweep x.1 = false)
    (foreign : ∀ x ∈ ops, x.2 = false → foreignTo subject (ops.filterMap (fun y => namedBy subject y.1)) x.1 = true) :
    History.observations (onKeysOf subject) (history (ops.map Prod.fst)) =
      History.observations (onKeysOf subject) (history (History.staying ops)) ∧
    ∀ k, k.subject = subject →
      record (run new (ops.map Prod.fst)) k = record (run new (History.staying ops)) k := by
  let named := ops.filterMap (fun y => namedBy subject y.1)
  have start : Agree subject named new new :=
    ⟨wellformedNew,wellformedNew,fun _ _ => rfl,fun _ _ => rfl,fun _ _ _ found => by simp [new] at found,
      fun _ _ _ found => by simp [new] at found⟩
  have each : ∀ x ∈ ops, isSweep x.1 = false ∧ (∀ owner, namedBy subject x.1 = some owner → owner ∈ named) ∧
      (x.2 = false → foreignTo subject named x.1 = true) :=
    fun x member => ⟨unswept x member,fun owner names => List.mem_filterMap.mpr ⟨x,member,names⟩,foreign x member⟩
  obtain ⟨replies,agree⟩ := History.thinned step
    (R := Agree subject named)
    (fun s t op ok agree => dropped (ok.2.2 rfl) agree)
    (fun s t op ok agree => performed ok.1 ok.2.1 agree) start each
  exact ⟨replies,agree.records⟩

def sharedRun : List (Op × Bool) :=
  [(.openDatabase (sampleOpen [1]) [7],true),
   (.openDatabase {sampleOpen [2] with key := ⟨"bob","db"⟩} [8],false),
   (.claimSlot ⟨"team","bob",3⟩,false),
   (.commit (sampleCommit [9] 1 0 1 []),true)]

theorem subjectsSeparateOfAlice :
    History.observations (onKeysOf "alice") (history (sharedRun.map Prod.fst)) =
      History.observations (onKeysOf "alice") (history (History.staying sharedRun)) ∧
    record (run new (sharedRun.map Prod.fst)) sampleKey = record (run new (History.staying sharedRun)) sampleKey := by
  obtain ⟨replies,records⟩ := subjectsSeparate "alice" sharedRun (by decide) (by decide)
  exact ⟨replies,records sampleKey rfl⟩

end SqliteRemote.MemoryStore
