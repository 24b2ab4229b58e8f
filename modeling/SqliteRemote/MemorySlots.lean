import SqliteRemote.MemoryDeletion

/-! Slots in the memory store. An owner has at most one slot, and only Open asks for it: while the
slot is another key's, no Open under the owner gets through. A claim purges the databases of the key
it replaces, so the operations that do not look at slots find nothing. -/
namespace SqliteRemote.MemoryStore
open Rows StoreContract

def slotAfter (owner : String) (slot : Option Slot) : Op → Option Slot
  | .claimSlot req =>
      if req.owner = owner then
        some ((slot.filter (fun old => old.subject == req.subject)).getD ⟨req.subject,"",req.now⟩)
      else slot
  | .setSlotLabel named holder label =>
      if named = owner then slot.map (fun old => if old.subject = holder then {old with label := label} else old)
      else slot
  | .deleteSlot named holder => if named = owner then slot.filter (fun old => old.subject != holder) else slot
  | _ => slot

def isSweep : Op → Bool
  | .deleteUnused _ _ _ => true
  | _ => false

theorem claimedSlot (s : Store) (req : ClaimRequest) (owner : String) :
    (s.claimSlot req).2.slots.lookup owner = slotAfter owner (s.slots.lookup owner) (.claimSlot req) := by
  unfold Store.claimSlot slotAfter
  cases found : s.slots.lookup req.owner with
  | none =>
    simp only [lookupInsert,eq_comm (a := owner)]
    by_cases here : req.owner = owner
    · subst here; simp [found]
    · simp [here]
  | some old =>
    by_cases same : old.subject = req.subject
    · simp only [if_pos same]
      by_cases here : req.owner = owner
      · subst here; simp [found,Option.filter,same]
      · simp [here]
    · simp only [if_neg same,lookupInsert,eq_comm (a := owner)]
      by_cases here : req.owner = owner
      · subst here; simp [found,Option.filter,same]
      · simp [here,Store.purge]

theorem labelledSlot (s : Store) (named holder label owner : String) :
    (s.setSlotLabel named holder label).2.slots.lookup owner =
      slotAfter owner (s.slots.lookup owner) (.setSlotLabel named holder label) := by
  unfold Store.setSlotLabel slotAfter
  by_cases here : named = owner
  · subst here
    cases found : s.slots.lookup named with
    | none => simp [found]
    | some slot =>
      by_cases same : slot.subject = holder
      · simp [same]
      · simp [same,found]
  · cases found : s.slots.lookup named with
    | none => simp [here]
    | some slot =>
      by_cases same : slot.subject = holder
      · simp [same,here,Ne.symm here]
      · simp [same,here]

theorem deletedSlot (s : Store) (named holder owner : String) :
    (s.deleteSlot named holder).2.slots.lookup owner =
      slotAfter owner (s.slots.lookup owner) (.deleteSlot named holder) := by
  unfold Store.deleteSlot slotAfter
  by_cases here : named = owner
  · subst here
    cases found : s.slots.lookup named with
    | none => simp [found,Store.purge]
    | some slot =>
      by_cases same : slot.subject = holder
      · simp [same,Store.purge,Option.filter]
      · simp [same,found,Option.filter]
  · cases found : s.slots.lookup named with
    | none => simp [here,Store.purge]
    | some slot =>
      by_cases same : slot.subject = holder
      · simp [same,Store.purge,here,Ne.symm here]
      · simp [same,here]

theorem slotStep {s : Store} (valid : WellformedStore s) {op : Op} (other : isSweep op = false) (owner : String) :
    (step s op).2.slots.lookup owner = slotAfter owner (s.slots.lookup owner) op := by
  cases op with
  | openDatabase req id =>
    have outcome := openStep valid.unheld req id
    simp only [step]
    generalize s.open req id = out at outcome
    cases outcome <;> rfl
  | commit req =>
    have outcome := commitStep s req
    simp only [step]
    generalize s.commit req = out at outcome
    cases outcome <;> rfl
  | renew key epoch now ttl =>
    have outcome := renewStep s key epoch now ttl
    simp only [step]
    generalize s.renew key epoch now ttl = out at outcome
    cases outcome <;> rfl
  | release key epoch =>
    have outcome := releaseStep s key epoch
    simp only [step]
    generalize s.release key epoch = out at outcome
    cases outcome <;> rfl
  | delete req =>
    have outcome := deleteStep s req
    simp only [step]
    generalize s.delete req = out at outcome
    cases outcome <;> rfl
  | fetch key version first count => rw [fetchKeeps]; rfl
  | changes key fromVersion => rw [changesKeeps]; rfl
  | deleteUnused cutoff limit tie => contradiction
  | getSlot named => rfl
  | claimSlot req => exact claimedSlot s req owner
  | setSlotLabel named holder label =>
    rw [← labelledSlot,step]
    cases s.setSlotLabel named holder label with | mk result after => cases result <;> rfl
  | deleteSlot named holder =>
    rw [← deletedSlot,step]
    cases s.deleteSlot named holder with | mk result after => cases result <;> rfl

theorem sweptSlot (s : Store) (cutoff : Time) (limit : Nat) (tie : Key → Nat) (owner : String) :
    (step s (.deleteUnused cutoff limit tie)).2.slots.lookup owner = s.slots.lookup owner ∨
    (step s (.deleteUnused cutoff limit tie)).2.slots.lookup owner = none := by
  have kept := sweepSlots s.slotHolders (s.unused cutoff limit tie) s
  simp only [step,Store.deleteUnused,lookupEraseWhere,kept]
  cases found : s.slots.lookup owner with
  | none => exact .inl rfl
  | some slot =>
    simp only [Option.filter]
    split
    · exact .inl rfl
    · exact .inr rfl

theorem takenRefused {s : Store} {req : OpenRequest} {slot : Slot} (id : Bytes)
    (found : s.slots.lookup req.owner = some slot) (given : req.owner ≠ "") (other : slot.subject ≠ req.key.subject) :
    step s (.openDatabase req id) = (.error .slotTaken,s) := by
  have taken : s.slotTaken req.owner req.key.subject = true := by simp [Store.slotTaken,found,given,other]
  simp only [step,Store.open,taken,if_true]
  rfl

def claimantOf (owner : String) : Op → Option String
  | .claimSlot req => if req.owner = owner then some req.subject else none
  | _ => none

def claimants (owner : String) (ops : List Op) : List String := ops.filterMap (claimantOf owner)

def passes (owner : String) (e : Event) : Bool :=
  match e.op,e.reply with
  | .claimSlot req,.ok (.claimed result) => req.owner == owner && result.replaced.isSome
  | .deleteSlot named _,.ok _ => named == owner
  | .deleteUnused _ _ _,_ => (e.after.slots.lookup owner).isNone
  | _,_ => false

/- The operations that find no database under the key. -/
def usesKey (k : Key) : Op → Bool
  | .fetch key _ _ _ => key == k
  | .changes key _ => key == k
  | .commit req => req.key == k
  | .renew key _ _ _ => key == k
  | .release key _ => key == k
  | _ => false

theorem missingRefused {s : Store} {k : Key} (missing : record s k = none) {op : Op} (uses : usesKey k op = true) :
    step s op = (.error .notFound,s) := by
  have none : s.dbs.lookup k = none := missing
  cases op with
  | fetch key version first count => cases beq_iff_eq.mp uses; simp [step,Store.fetch,none,answer]
  | changes key fromVersion => cases beq_iff_eq.mp uses; simp [step,Store.changes,none,answer]
  | commit req => cases beq_iff_eq.mp uses; simp [step,Store.commit,none,answer]
  | renew key epoch now ttl => cases beq_iff_eq.mp uses; simp [step,Store.renew,none,answer]
  | release key epoch => cases beq_iff_eq.mp uses; simp [step,Store.release,none,answer]
  | _ => contradiction

theorem slotOrigin {owner : String} {before : Option Slot} {op : Op} {after : Slot}
    (came : slotAfter owner before op = some after) :
    (∃ old, before = some old ∧ after.subject = old.subject) ∨ claimantOf owner op = some after.subject := by
  cases op with
  | claimSlot req =>
    simp only [slotAfter,claimantOf] at came ⊢
    split at came
    · rename_i here
      cases kept : before.filter (fun old => old.subject == req.subject) with
      | none =>
        rw [kept] at came
        cases came
        exact .inr (if_pos here)
      | some old =>
        rw [kept] at came
        cases came
        exact .inl ⟨_,(Option.filter_eq_some_iff.mp kept).1,rfl⟩
    · exact .inl ⟨after,came,rfl⟩
  | setSlotLabel named holder label =>
    simp only [slotAfter] at came
    split at came
    · obtain ⟨old,found,rfl⟩ := Option.map_eq_some_iff.mp came
      refine .inl ⟨old,found,?_⟩
      split <;> rfl
    · exact .inl ⟨after,came,rfl⟩
  | deleteSlot named holder =>
    simp only [slotAfter] at came
    split at came
    · exact .inl ⟨after,(Option.filter_eq_some_iff.mp came).1,rfl⟩
    · exact .inl ⟨after,came,rfl⟩
  | _ => exact .inl ⟨after,came,rfl⟩

theorem claimReplaced {s : Store} {req : ClaimRequest} {old : Slot}
    (replaced : (s.claimSlot req).1.replaced = some old) :
    s.slots.lookup req.owner = some old ∧ old.subject ≠ req.subject ∧
    (s.claimSlot req).2.slots.lookup req.owner = some ⟨req.subject,"",req.now⟩ ∧
    ∀ k, record (s.claimSlot req).2 k = if k.subject = old.subject then none else record s k := by
  unfold Store.claimSlot at replaced ⊢
  cases found : s.slots.lookup req.owner with
  | none => rw [found] at replaced; contradiction
  | some slot =>
    rw [found] at replaced
    by_cases same : slot.subject = req.subject
    · simp only [if_pos same] at replaced
      contradiction
    · simp only [if_neg same,Option.some.injEq] at replaced ⊢
      subst replaced
      exact ⟨rfl,same,AList.lookup_insert _,fun k => purgeRecord s slot.subject k⟩

theorem claimFrom {s : Store} {req : ClaimRequest} {slot : Slot} (found : s.slots.lookup req.owner = some slot)
    (other : slot.subject ≠ req.subject) : (s.claimSlot req).1.replaced = some slot := by
  simp [Store.claimSlot,found,other]

theorem slotStays {s : Store} (valid : WellformedStore s) {owner : String} (op : Op) {slot : Slot}
    (found : s.slots.lookup owner = some slot) (stays : passes owner ⟨s,op,(step s op).1,(step s op).2⟩ = false) :
    ∃ after, (step s op).2.slots.lookup owner = some after ∧ after.subject = slot.subject := by
  cases op with
  | deleteUnused cutoff limit tie =>
    rcases sweptSlot s cutoff limit tie owner with same | gone
    · exact ⟨slot,same.trans found,rfl⟩
    · simp [passes,gone] at stays
  | claimSlot req =>
    rw [slotStep valid rfl,found,slotAfter]
    by_cases here : req.owner = owner
    · subst here
      rw [if_pos rfl]
      by_cases same : slot.subject = req.subject
      · exact ⟨slot,by simp [Option.filter,same],rfl⟩
      · simp [passes,step,claimFrom found same] at stays
    · exact ⟨slot,if_neg here,rfl⟩
  | setSlotLabel named holder label =>
    rw [slotStep valid rfl,found,slotAfter]
    by_cases here : named = owner
    · refine ⟨_,if_pos here,?_⟩
      simp only
      split <;> rfl
    · exact ⟨slot,if_neg here,rfl⟩
  | deleteSlot named holder =>
    by_cases here : named = owner
    · cases failed : (step s (.deleteSlot named holder)).1 with
      | error err => exact ⟨slot,by rw [failedStep valid failed,found],rfl⟩
      | ok reply =>
        subst here
        simp [passes,failed] at stays
    · rw [slotStep valid rfl,found,slotAfter]
      exact ⟨slot,if_neg here,rfl⟩
  | _ => exact ⟨slot,by rw [slotStep valid rfl,found]; rfl,rfl⟩

theorem slotClaimed {ops : List Op} {owner : String} {i : Nat} {e : Event} (at_ : (history ops)[i]? = some e)
    {slot : Slot} (found : e.before.slots.lookup owner = some slot) : slot.subject ∈ claimants owner ops := by
  have known : ∀ slot, e.before.slots.lookup owner = some slot → slot.subject ∈ claimants owner ops := by
    refine History.invariantAt step
      (P := fun _ s => ∀ slot, s.slots.lookup owner = some slot → slot.subject ∈ claimants owner ops) ?_ ?_ at_
    · intro slot found
      simp [new] at found
    · intro n event there before slot found
      have member := List.mem_of_getElem? there
      have valid := (wellformedEvent wellformedNew member).1
      have whole := History.eventStep step member
      have listed : event.op ∈ ops := History.eventOp step (List.mem_of_getElem? there)
      cases sweep : isSweep event.op with
      | true =>
        cases op : event.op with
        | deleteUnused cutoff limit tie =>
          rw [op] at whole
          rcases sweptSlot event.before cutoff limit tie owner with same | gone
          · rw [whole] at same
            exact before slot (same.symm.trans found)
          · rw [whole] at gone
            cases gone.symm.trans found
        | _ => rw [op] at sweep; contradiction
      | false =>
        have came := slotStep valid sweep owner
        rw [whole,found] at came
        rcases slotOrigin came.symm with ⟨old,there,same⟩ | claimed
        · rw [same]
          exact before old there
        · exact List.mem_filterMap.mpr ⟨event.op,listed,claimed⟩
  exact known slot found

structure Excludes (owner holder subject : String) (s : Store) : Prop where
  held : ∃ slot, s.slots.lookup owner = some slot ∧ slot.subject = holder
  empty : ∀ k, k.subject = subject → record s k = none

section
variable {ops : List Op} {owner holder subject : String}

theorem excludesStep (given : owner ≠ "") (other : holder ≠ subject) {i : Nat} {e : Event}
    (at_ : (history ops)[i]? = some e)
    (under : ∀ req id, e.op = .openDatabase req id → req.key.subject = subject → req.owner = owner)
    (stays : passes owner e = false) (before : Excludes owner holder subject e.before) :
    Excludes owner holder subject e.after := by
  have member := List.mem_of_getElem? at_
  have valid := (wellformedEvent wellformedNew member).1
  have whole := History.eventStep step member
  obtain ⟨slot,found,same⟩ := before.held
  refine ⟨?_,fun k ofSubject => ?_⟩
  · have kept := slotStays valid e.op found
    rw [whole] at kept
    obtain ⟨after,there,unchanged⟩ := kept stays
    exact ⟨after,there,unchanged.trans same⟩
  · have missing := before.empty k ofSubject
    have did := eventRecord wellformedNew member k
    cases there : record e.after k with
    | none => rfl
    | some after =>
      rw [there] at did
      obtain ⟨req,id,result,isOpen,key,reply,_⟩ := createdFresh did missing
      have ofKey : req.key.subject = subject := by rw [key,ofSubject]
      have named := under req id isOpen ofKey
      subst named
      have refused := takenRefused id found given (by rw [same,ofKey]; exact other)
      rw [← isOpen,whole,reply] at refused
      cases refused

/- The run lemma: the exclusion lasts from the claim to the event that passes the slot on. -/
theorem excludesFrom (given : owner ≠ "")
    (under : ∀ op ∈ ops, ∀ req id, op = .openDatabase req id → req.key.subject ∈ claimants owner ops →
      req.owner = owner)
    {i j : Nat} {a b : Event} (order : i < j) (first : (history ops)[i]? = some a)
    (later : (history ops)[j]? = some b) {req : ClaimRequest} {result : ClaimResult} {old : Slot}
    (isClaim : a.op = .claimSlot req) (ofOwner : req.owner = owner) (reply : a.reply = .ok (.claimed result))
    (replaced : result.replaced = some old)
    (lasts : ∀ (m : Nat) (c : Event), i < m → m < j → (history ops)[m]? = some c → passes owner c = false) :
    Excludes owner req.subject old.subject b.before ∧ old.subject ≠ req.subject ∧
    old.subject ∈ claimants owner ops ∧ ∀ k, k.subject ≠ old.subject → record a.after k = record a.before k := by
  have whole := History.eventStep step (List.mem_of_getElem? first)
  rw [isClaim,reply] at whole
  have answered : (a.before.claimSlot req).1 = result := Reply.claimed.inj (Except.ok.inj (Prod.mk.inj whole).1)
  have after : (a.before.claimSlot req).2 = a.after := (Prod.mk.inj whole).2
  subst ofOwner
  obtain ⟨was,other,now,purged⟩ := claimReplaced (answered ▸ replaced)
  rw [after] at now purged
  have claimed : old.subject ∈ claimants req.owner ops := slotClaimed first was
  have started : Excludes req.owner req.subject old.subject a.after :=
    ⟨⟨_,now,rfl⟩,fun k same => (purged k).trans (if_pos same)⟩
  refine ⟨?_,other,claimed,fun k same => (purged k).trans (if_neg same)⟩
  have always : i < j → j ≤ j → Excludes req.owner req.subject old.subject b.before := by
    refine History.invariantAt step
      (P := fun n s => i < n → n ≤ j → Excludes req.owner req.subject old.subject s) ?_ ?_ later
    · intro before
      omega
    · intro n e at_ before low high
      rcases Nat.lt_or_eq_of_le (Nat.le_of_lt_succ low) with past | here
      · refine excludesStep given other.symm at_ ?_ (lasts n e past (by omega) at_) (before past (by omega))
        intro opened id isOpen ofSubject
        have listed : e.op ∈ ops := History.eventOp step (List.mem_of_getElem? at_)
        exact under e.op listed opened id isOpen (ofSubject ▸ claimed)
      · subst here
        cases first.symm.trans at_
        exact started
  exact always order (Nat.le_refl j)

end

theorem oneSlot (s : Store) (owner : String) :
    (s.slots.entries.filter (fun row => row.1 == owner)).length ≤ 1 := by
  have once : ((s.slots.entries.filter (fun row => row.1 == owner)).map Sigma.fst).Nodup :=
    List.Nodup.sublist (List.filter_sublist.map _) s.slots.nodupKeys
  have each : ∀ row ∈ s.slots.entries.filter (fun row => row.1 == owner), row.1 = owner :=
    fun row member => beq_iff_eq.mp (List.mem_filter.mp member).2
  generalize s.slots.entries.filter (fun row => row.1 == owner) = rows at once each
  match rows with
  | [] => exact Nat.zero_le 1
  | [_] => exact Nat.le_refl 1
  | a :: b :: _ =>
    have same : a.1 = b.1 := (each a (by simp)).trans (each b (by simp)).symm
    simp [same] at once

theorem slotExclusion (owner : String) (given : owner ≠ "") (ops : List Op)
    (under : ∀ op ∈ ops, ∀ req id, op = .openDatabase req id → req.key.subject ∈ claimants owner ops →
      req.owner = owner) :
    (∀ e ∈ history ops, (e.after.slots.entries.filter (fun row => row.1 == owner)).length ≤ 1) ∧
    ∀ (i j : Nat) (a b : Event) (req : ClaimRequest) (result : ClaimResult) (old : Slot), i < j →
      (history ops)[i]? = some a → (history ops)[j]? = some b →
      a.op = .claimSlot req → req.owner = owner → a.reply = .ok (.claimed result) → result.replaced = some old →
      (∀ (m : Nat) (c : Event), i < m → m < j → (history ops)[m]? = some c → passes owner c = false) →
      (∀ k, k.subject ≠ old.subject → record a.after k = record a.before k) ∧
      ∀ k, k.subject = old.subject →
        record b.before k = none ∧
        (∀ opened id, b.op = .openDatabase opened id → opened.key = k → b.reply = .error .slotTaken) ∧
        (usesKey k b.op = true → b.reply = .error .notFound) := by
  refine ⟨fun e member => oneSlot e.after owner,?_⟩
  intro i j a b req result old order first later isClaim ofOwner reply replaced lasts
  obtain ⟨excludes,other,claimed,untouched⟩ :=
    excludesFrom given under order first later isClaim ofOwner reply replaced lasts
  have whole := History.eventStep step (List.mem_of_getElem? later)
  refine ⟨untouched,fun k ofSubject => ⟨excludes.empty k ofSubject,?_,?_⟩⟩
  · intro opened id isOpen key
    have listed : b.op ∈ ops := History.eventOp step (List.mem_of_getElem? later)
    have ofKey : opened.key.subject = old.subject := by rw [key,ofSubject]
    have named := under b.op listed opened id isOpen (ofKey ▸ claimed)
    obtain ⟨slot,found,same⟩ := excludes.held
    have refused := takenRefused id (named ▸ found) (named ▸ given) (by rw [same,ofKey]; exact other.symm)
    rw [← isOpen,whole] at refused
    exact (Prod.mk.inj refused).1
  · intro uses
    have refused := missingRefused (excludes.empty k ofSubject) uses
    rw [whole] at refused
    exact (Prod.mk.inj refused).1

def slotRun : List Op :=
  [.claimSlot ⟨"owner","alice",0⟩,.openDatabase {sampleOpen [1] with owner := "owner"} [7],
   .claimSlot ⟨"owner","bob",1⟩,.openDatabase {sampleOpen [1] with owner := "owner"} [8],
   .commit (sampleCommit [9] 1 0 1 [])]

theorem slotExclusionOfAlice :
    ((history slotRun).map History.Event.reply)[3]? = some (.error .slotTaken) ∧
    ((history slotRun).map History.Event.reply)[4]? = some (.error .notFound) := by
  have under : ∀ op ∈ slotRun, ∀ req id, op = .openDatabase req id → req.key.subject ∈ claimants "owner" slotRun →
      req.owner = "owner" := by
    intro op member req id isOpen _
    simp only [slotRun,List.mem_cons,List.not_mem_nil,or_false] at member
    rcases member with rfl | rfl | rfl | rfl | rfl <;> cases isOpen <;> rfl
  have excluded := (slotExclusion "owner" (by decide) slotRun under).2
  refine ⟨?_,?_⟩
  · have refused := (excluded 2 3 _ _ _ _ ⟨"alice","",0⟩ (by decide) rfl rfl rfl rfl rfl rfl (by intro m c; omega)).2
      sampleKey rfl
    exact congrArg some (refused.2.1 _ _ rfl rfl)
  · have lasts : ∀ (m : Nat) (c : Event), 2 < m → m < 4 → (history slotRun)[m]? = some c →
        passes "owner" c = false := by
      intro m c low high at_
      obtain rfl : m = 3 := by omega
      cases Option.some.inj at_
      rfl
    have refused := (excluded 2 4 _ _ _ _ ⟨"alice","",0⟩ (by decide) rfl rfl rfl rfl rfl rfl lasts).2 sampleKey rfl
    exact congrArg some (refused.2.2 rfl)

end SqliteRemote.MemoryStore
