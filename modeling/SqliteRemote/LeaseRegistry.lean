import SqliteRemote.MemorySlots
import SqliteRemote.ServerRuns

/-! The registry of lease holders against the leases of the store. A connection that opened or
deleted a database updates the registry in a step of its own, so the updates of one key can arrive in
another order than the epochs they carry. While they arrive in order, the connection with the newest
lease is the registered one. -/
namespace SqliteRemote.Server
open Rows StoreContract Programs Protocol
open MemoryStore (Store record WellformedStore RecordStep Reached)

def ordinary (frame : ClientFrame) : Bool :=
  match frame.body with
  | .openDB req => req.resume.isNone
  | .claimSlot => false
  | .deleteSlot => false
  | _ => true

def Action.ordinary : Action → Bool
  | .receive _ frame _ => Server.ordinary frame
  | _ => true

def issuedCall {β : Type} : Call β → β → Option (Key × Nat)
  | .openDB req => fun res => some (req.key,res.lease.epoch)
  | .delete req => fun res => if 0 < res.epoch then some (req.key,res.epoch) else none
  | _ => fun _ => none

def issued (x : Asked Effect) : Option (Key × Nat) := returned issuedCall x

def holderCall {β : Type} : Effect β → Option HolderCall
  | .holders h => some h
  | _ => none

def keyOf : HolderCall → Key
  | .set key _ => key
  | .remove key => key
  | .revoke key _ => key
  | .purge key => key

def updateOf : HolderCall → Option (Key × Nat)
  | .set key epoch => some (key,epoch)
  | .revoke key epoch => some (key,epoch)
  | _ => none

def updateAt (e : Event) : Option (Key × Nat) :=
  e.reply.asked.bind (fun x => (holderCall x.2.effect).bind updateOf)

/- No entry of a higher epoch is registered where a set or a revoke arrives. -/
def ordered (e : Event) : Bool :=
  (updateAt e).all (fun u => (e.before.shared.holders.lookup u.1).all (fun entry => decide (entry.epoch ≤ u.2)))

def KeepsHigher (e : Event) : Prop :=
  ∀ key epoch entry, updateAt e = some (key,epoch) → e.before.shared.holders.lookup key = some entry →
    epoch < entry.epoch → e.after.shared.holders.lookup key = some entry

theorem registryOther (w : Shared) (owner : Nat) {h : HolderCall} {k : Key} (other : keyOf h ≠ k) :
    (w.registry owner h).1.holders.lookup k = w.holders.lookup k := by
  have apart : k ≠ keyOf h := Ne.symm other
  cases h with
  | set key epoch => exact (lookupSet w.holders key k epoch owner).trans (if_neg apart)
  | remove key => exact (lookupRemove w.holders key k owner).trans (if_neg apart)
  | revoke key epoch => exact (lookupRevoke w.holders key k epoch).trans (if_neg apart)
  | purge key => exact (lookupPurge w.holders key k).trans (if_neg apart)

theorem holderCallSome {x : Asked Effect} {h : HolderCall} (asks : holderCall x.effect = some h) :
    x = ⟨.holders h,()⟩ := by
  obtain ⟨effect,answer⟩ := x
  cases effect with
  | holders other => cases asks; rfl
  | _ => contradiction

theorem askedRegistry (opts : Options) {w : World} {action : Action} {id : Nat} {h : HolderCall}
    (asks : (w.step opts action).1.asked = some (id,⟨.holders h,()⟩)) :
    (w.step opts action).2.shared = (w.shared.registry id h).1 ∧
    (w.step opts action).1.push = (w.shared.registry id h).2 := by
  have shared := shares opts w action
  generalize (w.step opts action).2.shared = after at shared ⊢
  generalize (w.step opts action).1 = out at shared asks ⊢
  cases shared with
  | same action out apart => cases apart _ asks
  | called choice was => exact absurd (congrArg (Option.map (fun x => holderCall x.2.effect)) asks) (by simp [holderCall])
  | registered choice was => cases asks; exact ⟨rfl,rfl⟩
  | removed choice was => cases asks; exact ⟨rfl,rfl⟩
  | swept cutoff limit tie => cases asks

theorem keepsHigherIff (opts : Options) {start : World} {actions : List Action} {e : Event}
    (member : e ∈ History.history (World.step opts) start actions) : KeepsHigher e ↔ ordered e = true := by
  have whole := History.eventStep (World.step opts) member
  obtain ⟨before,action,reply,after⟩ := e
  simp only [Prod.eq_iff_fst_eq_snd_eq] at whole
  obtain ⟨rfl,rfl⟩ := whole
  simp only [KeepsHigher,ordered,Option.all_eq_true,decide_eq_true_eq]
  refine ⟨?_,?_⟩
  · intro keeps u update entry found
    obtain ⟨key,epoch⟩ := u
    refine Nat.not_lt.mp (fun lower => ?_)
    have there := keeps key epoch entry update found lower
    obtain ⟨⟨id,x⟩,asks,rest⟩ := Option.bind_eq_some_iff.mp update
    obtain ⟨h,call,carries⟩ := Option.bind_eq_some_iff.mp rest
    obtain rfl := holderCallSome call
    rw [(askedRegistry opts asks).1] at there
    cases h with
    | set set carried =>
      cases carries
      simp only [Shared.registry,lookupSet,if_true] at there
      cases there
      exact absurd lower (Nat.lt_irrefl _)
    | revoke revoked carried =>
      cases carries
      simp [Shared.registry,lookupRevoke] at there
    | _ => contradiction
  · intro inOrder key epoch entry update found lower
    exact absurd (inOrder _ update _ found) (Nat.not_le.mpr lower)

def Leases (c : Connection) (k : Key) (n : Nat) : Prop := ∃ d db, c.dbs.lookup d = some db ∧ db.key = k ∧ db.epoch = n

def Owns (k : Key) (n : Nat) : Activity → Prop
  | .waiting c => Leases c k n
  | .working c _ seen _ => Leases c k n ∨ ∃ x ∈ seen, issued x = some (k,n)
  | _ => False

/- The connection has registered itself for the lease and has not taken itself out since. -/
def Has (k : Key) (n : Nat) : Activity → Prop
  | .waiting c => Leases c k n
  | .working c _ seen _ => (Leases c k n ∧ ∀ x ∈ seen, holderCall x.effect ≠ some (.remove k)) ∨
      ∃ x ∈ seen, holderCall x.effect = some (.set k n)
  | _ => False

def Named : Activity → Prop
  | .waiting c => NamedDBs c
  | .working c _ _ _ => NamedDBs c
  | _ => True

theorem leasesKept {c after : Connection} (keeps : Keeps c after) {k : Key} {n : Nat} (leases : Leases after k n) :
    Leases c k n := by
  obtain ⟨d,db,found,key,epoch⟩ := leases
  obtain ⟨old,was,sameKey,sameEpoch,_⟩ := keeps.leases d db found
  exact ⟨d,old,was,sameKey ▸ key,sameEpoch ▸ epoch⟩

theorem leasesPut {c : Connection} {d : String} {new : OpenDB} {k : Key} {n : Nat} (leases : Leases (c.put d new) k n) :
    new.key = k ∧ new.epoch = n ∨ Leases c k n := by
  obtain ⟨other,db,found,key,epoch⟩ := leases
  simp only [Connection.put,lookupInsert] at found
  split at found
  · cases found
    exact .inl ⟨key,epoch⟩
  · exact .inr ⟨other,db,found,key,epoch⟩

theorem leasesNamed {c : Connection} (named : NamedDBs c) {d : String} (closed : c.dbs.lookup d = none) (n : Nat) :
    ¬ Leases c ⟨c.subject,d⟩ n := by
  intro leases
  obtain ⟨other,db,found,key,_⟩ := leases
  have same : other = d := (Key.mk.inj ((named other db found).symm.trans key)).2
  rw [same,closed] at found
  contradiction

section
variable {opts : Options} {action : Action} {id : Nat} {before after : Activity} {x : Option (Asked Effect)}
  (turn : Turns opts action id before x after)
  (sane : ∀ c frame seen rest, before = .working c frame seen rest → Partly (c.handle opts frame) seen rest)
include turn sane

theorem namedTurn (named : Named before) : Named after := by
  cases turn with
  | same => exact named
  | loggedIn subject instanceID owner tokenExpires => exact namedLoggedIn subject instanceID owner tokenExpires
  | received c frame sent => exact named
  | asked c frame seen e next answer => exact named
  | finished c frame seen after => exact namedEnds (ends (sane _ _ _ _ rfl)) named
  | panicked c frame seen next oversized => trivial
  | leaves c => trivial
  | removed key keys => trivial
  | ended => trivial

theorem ownsTurn {k : Key} {n : Nat} (owns : Owns k n after) :
    Owns k n before ∨ ∃ y, x = some y ∧ issued y = some (k,n) := by
  cases turn with
  | same => exact .inl owns
  | loggedIn subject instanceID owner tokenExpires =>
    obtain ⟨d,db,found,_⟩ := owns
    simp [Connection.loggedIn] at found
  | received c frame sent =>
    rcases owns with leases | ⟨y,member,_⟩
    · exact .inl leases
    · exact absurd member List.not_mem_nil
  | asked c frame seen e next answer =>
    rcases owns with leases | ⟨y,member,gave⟩
    · exact .inl (.inl leases)
    · rcases List.mem_append.mp member with earlier | last
      · exact .inl (.inr ⟨y,earlier,gave⟩)
      · exact .inr ⟨y,congrArg some (List.mem_singleton.mp last).symm,gave⟩
  | finished c frame seen after =>
    left
    have done := ends (sane _ _ _ _ rfl)
    cases done with
    | kept still keeps => exact .inl (leasesKept keeps owns)
    | closed answer body isOpen => exact .inl (leasesKept (keepsErase c _) owns)
    | opened now res answer body closed =>
      rcases leasesPut owns with ⟨key,epoch⟩ | leases
      · exact .inr ⟨_,List.mem_cons_of_mem _ List.mem_cons_self,congrArg some (Prod.ext key epoch)⟩
      · exact .inl leases
  | panicked c frame seen next oversized => exact owns.elim
  | leaves c => exact owns.elim
  | removed key keys => exact owns.elim
  | ended => exact owns.elim

theorem hasTurn (named : Named before) {k : Key} {n : Nat} (has : Has k n after) :
    Has k n before ∨ ∃ y, x = some y ∧ holderCall y.effect = some (.set k n) := by
  cases turn with
  | same => exact .inl has
  | loggedIn subject instanceID owner tokenExpires =>
    obtain ⟨d,db,found,_⟩ := has
    simp [Connection.loggedIn] at found
  | received c frame sent =>
    rcases has with ⟨leases,_⟩ | ⟨y,member,_⟩
    · exact .inl leases
    · exact absurd member List.not_mem_nil
  | asked c frame seen e next answer =>
    rcases has with ⟨leases,stays⟩ | ⟨y,member,set⟩
    · exact .inl (.inl ⟨leases,fun y member => stays y (List.mem_append_left _ member)⟩)
    · rcases List.mem_append.mp member with earlier | last
      · exact .inl (.inr ⟨y,earlier,set⟩)
      · exact .inr ⟨y,congrArg some (List.mem_singleton.mp last).symm,set⟩
  | finished c frame seen after =>
    left
    have done := ends (sane _ _ _ _ rfl)
    cases done with
    | kept still keeps =>
      refine .inl ⟨leasesKept keeps has,?_⟩
      intro y member removed
      obtain rfl := holderCallSome removed
      cases still _ member
    | @closed req db answer body isOpen =>
      refine .inl ⟨leasesKept (keepsErase c _) has,?_⟩
      have other : db.key ≠ k := by
        intro same
        have gone : ¬ Leases {c with dbs := c.dbs.erase req.dbID} ⟨c.subject,req.dbID⟩ n :=
          leasesNamed (namedKept (keepsErase c _) named) (by simp) n
        rw [← named _ _ isOpen,same] at gone
        exact gone has
      simp [holderCall,other]
    | opened now res answer body closed =>
      rcases leasesPut has with ⟨key,epoch⟩ | leases
      · refine .inr ⟨_,List.mem_cons_of_mem _ (List.mem_cons_of_mem _ List.mem_cons_self),?_⟩
        subst key epoch
        rfl
      · exact .inl ⟨leases,by simp [holderCall]⟩
  | panicked c frame seen next oversized => exact has.elim
  | leaves c => exact has.elim
  | removed key keys => exact has.elim
  | ended => exact has.elim

end

def keepsRecords : Op → Bool
  | .claimSlot _ => false
  | .deleteSlot _ _ => false
  | _ => true

theorem slotlessStep {s : Store} (valid : WellformedStore s) {op : Op} (keeps : keepsRecords op = true) {owner : String}
    (free : s.slots.lookup owner = none) : (MemoryStore.step s op).2.slots.lookup owner = none := by
  cases sweep : MemoryStore.isSweep op with
  | true =>
    cases op with
    | deleteUnused cutoff limit tie =>
      rcases MemoryStore.sweptSlot s cutoff limit tie owner with same | gone
      · exact same.trans free
      · exact gone
    | _ => contradiction
  | false =>
    rw [MemoryStore.slotStep valid sweep,free]
    cases op with
    | claimSlot req => contradiction
    | deleteSlot named holder => contradiction
    | setSlotLabel named holder label => simp [MemoryStore.slotAfter]
    | _ => rfl

theorem reachedStep {s : Store} (valid : WellformedStore s) {op : Op} (keeps : keepsRecords op = true)
    (free : ∀ owner, s.slots.lookup owner = none) {k : Key} {n : Nat} (reached : Reached k n s) :
    Reached k n (MemoryStore.step s op).2 := by
  obtain ⟨db,found,past⟩ := reached
  have did := MemoryStore.recordStep valid.unheld op k
  generalize (MemoryStore.step s op).1 = reply at did
  cases there : record (MemoryStore.step s op).2 k with
  | some after =>
    rw [there] at did
    exact ⟨after,there,Nat.le_trans past (MemoryStore.leaseStep did found).1⟩
  | none =>
    rw [there] at did
    generalize gone : (none : Option MemoryStore.Database) = out at did
    cases did with
    | idle quiet => cases gone.trans found
    | purged present cause =>
      cases cause with
      | replaced was subject => contradiction
      | slotDeleted => contradiction
      | unusedOfHolder listed holder =>
        obtain ⟨owner,slot,taken,_⟩ := (MemoryStore.memSlotHolders s _).mp holder
        rw [free owner] at taken
        contradiction
    | _ => contradiction

def ordinaryCall {β : Type} : Call β → Bool
  | .openDB req => req.resume.isNone
  | .claimSlot _ => false
  | .deleteSlot _ _ => false
  | _ => true

def ordinaryEffect {β : Type} : Effect β → Bool
  | .call k => ordinaryCall k
  | .holders (.purge _) => false
  | _ => true

theorem actsOrdinary {opts : Options} {c : Connection} {frame : ClientFrame} {seen : List (Asked Effect)} {β : Type}
    {e : Effect β} (plain : ordinary frame = true) (acts : Acts opts c frame seen e) : ordinaryEffect e = true := by
  unfold ordinary at plain
  cases acts with
  | openDB now body closed => rw [body] at plain; exact plain
  | claimSlot now body owned => rw [body] at plain; contradiction
  | deleteSlot body owned => rw [body] at plain; contradiction
  | purge seen key body => rcases body with body | body <;> (rw [body] at plain; contradiction)
  | _ => rfl

theorem ordinaryKeeps {β : Type} (id : Bytes) {k : Call β} (plain : ordinaryCall k = true) :
    keepsRecords (opOf id k) = true := by
  cases k with
  | claimSlot req => contradiction
  | deleteSlot owner subject => contradiction
  | _ => rfl

theorem reachedPut (s : Store) (k : Key) (db : MemoryStore.Database) : Reached k db.lease.epoch (s.put k db) :=
  ⟨db,by simp,Nat.le_refl _⟩

theorem unreached {s : Store} {k : Key} {db : MemoryStore.Database} (found : record s k = some db) :
    ¬ Reached k (db.lease.epoch+1) s := by
  intro reached
  obtain ⟨other,there,past⟩ := reached
  cases found.symm.trans there
  exact Nat.not_succ_le_self _ past

theorem issuedFresh {β : Type} {s : Store} (valid : WellformedStore s) (id : Bytes) {call : Call β}
    (plain : ordinaryCall call = true) {k : Key} {n : Nat}
    (gave : issued ⟨.call call,declared (Server.call s id call).1⟩ = some (k,n)) :
    Reached k n (Server.call s id call).2 ∧ ¬ Reached k n s := by
  cases call with
  | openDB req =>
    have outcome := MemoryStore.openStep valid.unheld req id
    simp only [Server.call] at gave ⊢
    generalize s.open req id = out at outcome gave
    cases outcome with
    | refused e => contradiction
    | resumed found live asked held same => rw [ordinaryCall,asked] at plain; contradiction
    | granted found live asked =>
      cases gave
      exact ⟨reachedPut s _ _,unreached found⟩
    | @revived db found dead asked size =>
      cases gave
      have past : ¬ Reached req.key (db.lease.epoch+1) s := unreached found
      exact ⟨reachedPut s _ _,past⟩
    | created missing asked size =>
      cases gave
      refine ⟨reachedPut s req.key ((MemoryStore.Database.fresh req.pageSize).grant req id),fun reached => ?_⟩
      obtain ⟨db,there,_⟩ := reached
      cases missing.symm.trans there
  | delete req =>
    have outcome := MemoryStore.deleteStep s req
    simp only [Server.call] at gave ⊢
    generalize s.delete req = out at outcome gave
    cases outcome with
    | refused e => contradiction
    | nothing => contradiction
    | removed found live =>
      have positive : ∀ m, 0 < m+1 := Nat.succ_pos
      simp only [issued,returned,Effect.returned,declared,Except.toOption,Option.bind,issuedCall,positive,if_true] at gave
      cases gave
      exact ⟨reachedPut s _ _,unreached found⟩
  | _ => simp [issued,returned,Effect.returned,issuedCall] at gave

structure Tidy (opts : Options) (w : World) : Prop where
  sane : Sane opts w
  valid : WellformedStore w.shared.store
  named : ∀ id, Named (w.connections id)
  plain : ∀ id c frame seen rest, w.connections id = .working c frame seen rest → ordinary frame = true
  slotless : ∀ owner, w.shared.store.slots.lookup owner = none
  reached : ∀ id k n, Owns k n (w.connections id) → Reached k n w.shared.store
  distinct : ∀ i j k n, Owns k n (w.connections i) → Owns k n (w.connections j) → i = j

theorem tidyStart (opts : Options) : Tidy opts start := by
  refine ⟨saneStart opts,MemoryStore.wellformedNew,fun _ => trivial,?_,fun _ => rfl,?_,?_⟩
  · intro id c frame seen rest busy
    cases busy
  · intro id k n owns
    exact owns.elim
  · intro i j k n owns
    exact owns.elim

section
variable {opts : Options} {w : World} (tidy : Tidy opts w) (action : Action)
include tidy

theorem ordinaryOp : ∃ op, keepsRecords op = true ∧
    (w.step opts action).2.shared.store = (MemoryStore.step w.shared.store op).2 := by
  obtain ⟨op,performed,same⟩ := storeOp opts w action
  refine ⟨op,?_,same⟩
  cases performed with
  | none => rfl
  | called choice was =>
    exact ordinaryKeeps _ (actsOrdinary (tidy.plain _ _ _ _ _ was) (Protocol.acts (tidy.sane _ _ _ _ _ was)))
  | swept cutoff limit tie => rfl

theorem reachedAfter {k : Key} {n : Nat} (reached : Reached k n w.shared.store) :
    Reached k n (w.step opts action).2.shared.store := by
  obtain ⟨op,keeps,same⟩ := ordinaryOp tidy action
  rw [same]
  exact reachedStep tidy.valid keeps tidy.slotless reached

theorem issuedAfter {id : Nat} {x : Asked Effect} {k : Key} {n : Nat}
    (asks : (w.step opts action).1.asked = some (id,x)) (gave : issued x = some (k,n)) :
    Reached k n (w.step opts action).2.shared.store ∧ ¬ Reached k n w.shared.store := by
  obtain ⟨β,call,c,frame,seen,next,choice,rfl,was,rfl,store⟩ := toldByStore opts asks gave
  have plain := actsOrdinary (tidy.plain _ _ _ _ _ was) (Protocol.acts (tidy.sane _ _ _ _ _ was))
  rw [store]
  exact issuedFresh tidy.valid choice.leaseID plain gave

theorem tidyStep (plain : action.ordinary = true) : Tidy opts (w.step opts action).2 := by
  obtain ⟨op,keeps,same⟩ := ordinaryOp tidy action
  have owned : ∀ id k n, Owns k n ((w.step opts action).2.connections id) → Owns k n (w.connections id) ∨
      ∃ x, (w.step opts action).1.asked = some (id,x) ∧ issued x = some (k,n) := by
    intro id k n owns
    rcases ownsTurn (turns opts w action id) (tidy.sane id) owns with before | ⟨x,did,gave⟩
    · exact .inl before
    · exact .inr ⟨x,(askedByIff id _ x).mp did,gave⟩
  refine ⟨saneStep opts w action tidy.sane,wellformedShared opts w action tidy.valid,?_,?_,?_,?_,?_⟩
  · exact fun id => namedTurn (turns opts w action id) (tidy.sane id) (tidy.named id)
  · intro id c frame seen rest busy
    have turn := turns opts w action id
    have before := tidy.plain id
    rw [busy] at turn
    generalize w.connections id = activity at turn before
    generalize askedBy id (w.step opts action).1 = x at turn
    cases turn with
    | same => exact before _ _ _ _ rfl
    | received c frame sent =>
      obtain ⟨arrived,rfl⟩ := sent
      exact plain
    | asked => exact before _ _ _ _ rfl
  · intro owner
    rw [same]
    exact slotlessStep tidy.valid keeps (tidy.slotless owner)
  · intro id k n owns
    rcases owned id k n owns with before | ⟨x,asks,gave⟩
    · exact reachedAfter tidy action (tidy.reached id k n before)
    · exact (issuedAfter tidy action asks gave).1
  · intro i j k n left right
    rcases owned i k n left with before | ⟨x,asks,gave⟩
    · rcases owned j k n right with also | ⟨y,asked,got⟩
      · exact tidy.distinct i j k n before also
      · exact absurd (tidy.reached i k n before) (issuedAfter tidy action asked got).2
    · rcases owned j k n right with also | ⟨y,asked,got⟩
      · exact absurd (tidy.reached j k n also) (issuedAfter tidy action asks gave).2
      · exact (Prod.mk.inj (Option.some.inj (asks.symm.trans asked))).1

end

theorem setIssued {opts : Options} {c : Connection} {frame : ClientFrame} {seen : List (Asked Effect)} {rest : Handler}
    {k : Key} {n : Nat} (partly : Partly (c.handle opts frame) seen rest)
    (set : ∃ x ∈ seen, holderCall x.effect = some (.set k n)) : ∃ x ∈ seen, issued x = some (k,n) := by
  induction partly with
  | start =>
    obtain ⟨x,member,_⟩ := set
    exact absurd member List.not_mem_nil
  | @more seen β e next earlier answer ih =>
    obtain ⟨x,member,call⟩ := set
    rcases List.mem_append.mp member with before | last
    · obtain ⟨y,there,gave⟩ := ih ⟨x,before,call⟩
      exact ⟨y,List.mem_append_left _ there,gave⟩
    · obtain rfl := List.mem_singleton.mp last
      have own := acts earlier
      cases own with
      | set now res body closed =>
        cases call
        exact ⟨_,List.mem_append_left _ (List.mem_cons_of_mem _ List.mem_cons_self),rfl⟩
      | _ => cases call

theorem hasOwns {opts : Options} {k : Key} {n : Nat} {activity : Activity}
    (sane : ∀ c frame seen rest, activity = .working c frame seen rest → Partly (c.handle opts frame) seen rest)
    (has : Has k n activity) : Owns k n activity := by
  cases activity with
  | waiting c => exact has
  | working c frame seen rest =>
    rcases has with ⟨leases,_⟩ | set
    · exact .inl leases
    · exact .inr (setIssued (sane _ _ _ _ rfl) set)
  | _ => exact has

/- Whoever has the newest lease of a key is its registered holder. -/
def Registered (w : World) : Prop :=
  ∀ i k r, Has k r.lease.epoch (w.connections i) → record w.shared.store k = some r →
    w.shared.holders.lookup k = some ⟨r.lease.epoch,i⟩

/- A set or a revoke comes right after the call that issued its epoch, on a connection that has not
opened the database. -/
theorem updateActs {opts : Options} {c : Connection} {frame : ClientFrame} {seen : List (Asked Effect)} {β : Type}
    {e : Effect β} (acts : Acts opts c frame seen e) {h : HolderCall} (call : holderCall e = some h) {k : Key} {n : Nat}
    (update : updateOf h = some (k,n)) :
    (∃ x ∈ seen, issued x = some (k,n)) ∧ (∀ x ∈ seen, holderCall x.effect = none) ∧
    ∃ d, k = ⟨c.subject,d⟩ ∧ c.dbs.lookup d = none := by
  cases acts with
  | set now res body closed =>
    cases call
    cases update
    exact ⟨⟨_,List.mem_cons_of_mem _ List.mem_cons_self,rfl⟩,by simp [holderCall],_,rfl,closed⟩
  | revoke now res body closed deleted =>
    cases call
    cases update
    refine ⟨⟨_,List.mem_cons_of_mem _ List.mem_cons_self,?_⟩,by simp [holderCall],_,rfl,closed⟩
    simp [issued,returned,Effect.returned,issuedCall,Except.toOption,deleted]
  | remove body isOpen => cases call; cases update
  | purge seen key body => cases call; cases update
  | _ => cases call

theorem removeActs {opts : Options} {c : Connection} {frame : ClientFrame} {seen : List (Asked Effect)} {β : Type}
    {e : Effect β} (acts : Acts opts c frame seen e) {k : Key} (call : holderCall e = some (.remove k)) :
    ∀ x ∈ seen, holderCall x.effect = none := by
  cases acts with
  | remove body isOpen => simp [holderCall]
  | _ => cases call

inductive Asks (w : World) (j : Nat) (h : HolderCall) : Activity → Prop where
  | working {c : Connection} {frame : ClientFrame} {seen : List (Asked Effect)} {next : Unit → Handler}
      (busy : w.connections j = .working c frame seen (.ask (.holders h) next)) :
      Asks w j h (.working c frame (seen ++ [⟨.holders h,()⟩]) (next ()))
  | leaving {key : Key} {keys : List Key} (busy : w.connections j = .leaving (key :: keys)) (removes : h = .remove key) :
      Asks w j h (.leaving keys)

theorem asksRegistry (opts : Options) {w : World} {action : Action} {j : Nat} {h : HolderCall}
    (asks : (w.step opts action).1.asked = some (j,⟨.holders h,()⟩)) :
    Asks w j h ((w.step opts action).2.connections j) := by
  have turn := turns opts w action j
  rw [(askedByIff j _ _).mpr asks] at turn
  generalize (w.step opts action).2.connections j = after at turn ⊢
  generalize was : w.connections j = before at turn
  cases turn with
  | asked c frame seen e next answer => exact .working was
  | removed key keys => exact .leaving was rfl

theorem holdersStep (opts : Options) (w : World) (action : Action) :
    (w.step opts action).2.shared.holders = w.shared.holders ∨
    ∃ j h, (w.step opts action).1.asked = some (j,⟨.holders h,()⟩) := by
  have shared := shares opts w action
  generalize (w.step opts action).2.shared = after at shared ⊢
  generalize (w.step opts action).1 = out at shared ⊢
  cases shared with
  | same => exact .inl rfl
  | called choice was => exact .inl rfl
  | registered choice was => exact .inr ⟨_,_,rfl⟩
  | removed choice was => exact .inr ⟨_,_,rfl⟩
  | swept cutoff limit tie => exact .inl rfl

section
variable {opts : Options} {w : World} (tidy : Tidy opts w) {action : Action} {k : Key} {i j : Nat} {h : HolderCall}
  (asks : (w.step opts action).1.asked = some (j,⟨.holders h,()⟩))
include tidy asks

theorem newestNotUpdated {r : MemoryStore.Database} {n : Nat} (found : record w.shared.store k = some r)
    (has : Has k r.lease.epoch (w.connections i)) (update : updateOf h = some (k,n)) : n < r.lease.epoch := by
  have how := asksRegistry opts asks
  generalize (w.step opts action).2.connections j = after at how
  cases how with
  | leaving busy removes => subst removes; cases update
  | working busy =>
    obtain ⟨gave,unasked,d,key,closed⟩ := updateActs (acts (tidy.sane _ _ _ _ _ busy)) rfl update
    have own : Owns k n (w.connections j) := by rw [busy]; exact .inr gave
    have foreign : i ≠ j := by
      intro same
      have named := tidy.named j
      subst same
      rw [busy] at has named
      rcases has with ⟨leases,_⟩ | ⟨x,member,set⟩
      · rw [key] at leases
        exact leasesNamed named closed _ leases
      · rw [unasked x member] at set
        contradiction
    obtain ⟨other,there,past⟩ := tidy.reached j _ n own
    cases found.symm.trans there
    refine Nat.lt_of_le_of_ne past (fun same => ?_)
    rw [← same] at has
    exact foreign (tidy.distinct i j _ n (hasOwns (tidy.sane i) has) own)

theorem removedLacks {n : Nat} (removes : h = .remove k) : ¬ Has k n ((w.step opts action).2.connections j) := by
  have how := asksRegistry opts asks
  intro has
  generalize (w.step opts action).2.connections j = after at how has
  cases how with
  | leaving busy _ => exact has
  | working busy =>
    subst removes
    have unasked := removeActs (acts (tidy.sane _ _ _ _ _ busy)) rfl
    rcases has with ⟨_,stays⟩ | ⟨x,member,set⟩
    · exact stays ⟨.holders (.remove k),()⟩ (List.mem_append_right _ List.mem_cons_self) rfl
    · rcases List.mem_append.mp member with earlier | last
      · rw [unasked x earlier] at set
        contradiction
      · rw [List.mem_singleton.mp last] at set
        cases set

theorem neverPurges : h ≠ .purge k := by
  intro purges
  have how := asksRegistry opts asks
  generalize (w.step opts action).2.connections j = after at how
  cases how with
  | leaving busy removes => rw [removes] at purges; contradiction
  | working busy =>
    subst purges
    cases actsOrdinary (tidy.plain _ _ _ _ _ busy) (acts (tidy.sane _ _ _ _ _ busy))

end

theorem registeredStep {opts : Options} {w : World} (tidy : Tidy opts w) (action : Action)
    (inOrder : ordered ⟨w,action,(w.step opts action).1,(w.step opts action).2⟩ = true) (registered : Registered w) :
    Registered (w.step opts action).2 := by
  intro i k r has found
  rcases hasTurn (turns opts w action i) (tidy.sane i) (tidy.named i) has with before | ⟨y,did,set⟩
  · obtain ⟨old,was,past⟩ := tidy.reached i k _ (hasOwns (tidy.sane i) before)
    obtain ⟨later,there,grown⟩ := reachedAfter tidy action ⟨old,was,Nat.le_refl _⟩
    cases there.symm.trans found
    have same : old.lease.epoch = r.lease.epoch := Nat.le_antisymm grown past
    have entry := registered i k old (same ▸ before) was
    rw [same] at entry
    rcases holdersStep opts w action with unasked | ⟨j,h,asks⟩
    · rw [unasked]
      exact entry
    have late : ∀ n, updateOf h ≠ some (k,n) := by
      intro n update
      have lower := newestNotUpdated tidy asks was (same ▸ before) update
      have updates : updateAt ⟨w,action,(w.step opts action).1,(w.step opts action).2⟩ = some (k,n) := by
        rw [updateAt,asks]
        exact update
      rw [ordered,updates] at inOrder
      simp only [Option.all_some,entry,decide_eq_true_eq] at inOrder
      omega
    rw [(askedRegistry opts asks).1]
    by_cases here : keyOf h = k
    · subst here
      cases h with
      | set key n => exact absurd rfl (late n)
      | revoke key n => exact absurd rfl (late n)
      | purge key => exact absurd rfl (neverPurges tidy asks)
      | remove key =>
        have foreign : i ≠ j := by
          intro mine
          subst mine
          exact removedLacks tidy asks rfl has
        rw [Shared.registry,lookupRemove,entry]
        simp [keyOf,Option.filter,foreign]
    · rw [registryOther _ _ here]
      exact entry
  · obtain rfl := holderCallSome set
    rw [(askedRegistry opts ((askedByIff _ _ _).mp did)).1,Shared.registry,lookupSet,if_pos rfl]

theorem orderedRun (opts : Options) {actions : List Action} (plain : ∀ a ∈ actions, a.ordinary = true)
    (inOrder : ∀ e ∈ history opts actions, ordered e = true) : Tidy opts (run opts actions) ∧
    Registered (run opts actions) := by
  refine History.keptToEnd (World.step opts) (P := fun w => Tidy opts w ∧ Registered w) ?_
    ⟨tidyStart opts,fun _ _ _ has => has.elim⟩
  intro e member both
  have whole := History.eventStep (World.step opts) member
  have now := inOrder e member
  have sent := plain e.op (History.eventOp (World.step opts) member)
  obtain ⟨before,action,reply,after⟩ := e
  simp only [Prod.eq_iff_fst_eq_snd_eq] at whole
  obtain ⟨rfl,rfl⟩ := whole
  exact ⟨tidyStep both.1 action sent,registeredStep both.1 action now both.2⟩

def asksAbout (k : Key) (e : Event) : Bool :=
  (e.reply.asked.bind (fun x => holderCall x.2.effect)).any (fun h => keyOf h == k)

theorem entryUntouched (opts : Options) {w : World} {later : List Action} {k : Key} {entry : Holder}
    (found : w.shared.holders.lookup k = some entry)
    (apart : ∀ e ∈ History.history (World.step opts) w later, asksAbout k e = false) :
    (History.run (World.step opts) w later).shared.holders.lookup k = some entry := by
  refine History.keptToEnd (World.step opts) (P := fun w => w.shared.holders.lookup k = some entry) ?_ found
  intro e member there
  have whole := History.eventStep (World.step opts) member
  have aside := apart e member
  obtain ⟨before,action,reply,after⟩ := e
  simp only [Prod.eq_iff_fst_eq_snd_eq] at whole
  obtain ⟨rfl,rfl⟩ := whole
  rcases holdersStep opts before action with unasked | ⟨j,h,asks⟩
  · simp only [unasked]
    exact there
  · simp only [asksAbout,asks,Option.bind_some,holderCall,Option.any_some,beq_eq_false_iff_ne] at aside
    simp only [(askedRegistry opts asks).1]
    rw [registryOther _ _ aside]
    exact there

theorem registryFollowsNewest (opts : Options) (actions : List Action) (plain : ∀ a ∈ actions, a.ordinary = true) :
    (∀ e ∈ history opts actions, KeepsHigher e ↔ ordered e = true) ∧
    ((∀ e ∈ history opts actions, ordered e = true) →
      ∀ i c d db r, (run opts actions).connections i = .waiting c → c.dbs.lookup d = some db →
        record (run opts actions).shared.store db.key = some r → r.lease.epoch = db.epoch →
        (run opts actions).shared.holders.lookup db.key = some ⟨db.epoch,i⟩ ∧
        ∀ later action j epoch, (∀ e ∈ History.history (World.step opts) (run opts actions) later,
            asksAbout db.key e = false) → j ≠ i → db.epoch < epoch →
          ((run opts (actions ++ later)).step opts action).1.asked = some (j,⟨.holders (.set db.key epoch),()⟩) →
          ((run opts (actions ++ later)).step opts action).1.push = some ⟨i,db.key.dbID,epoch⟩) := by
  refine ⟨fun e member => keepsHigherIff opts member,?_⟩
  intro inOrder i c d db r idle isOpen found newest
  obtain ⟨tidy,registered⟩ := orderedRun opts plain inOrder
  have has : Has db.key r.lease.epoch ((run opts actions).connections i) := by
    rw [idle]
    exact ⟨d,db,isOpen,rfl,newest.symm⟩
  have entry := registered i db.key r has found
  rw [newest] at entry
  refine ⟨entry,?_⟩
  intro later action j epoch apart other higher asks
  have still := entryUntouched opts entry apart
  rw [← History.runAppend] at still
  rw [(askedRegistry opts asks).2,Shared.registry,Holders.set,still]
  simp [Ne.symm other,higher,Holder.revoked]

def openOn (d : String) : Activity → Option OpenDB
  | .waiting c => c.dbs.lookup d
  | _ => none

theorem openOnSome {d : String} {activity : Activity} {db : OpenDB} (found : openOn d activity = some db) :
    ∃ c, activity = .waiting c ∧ c.dbs.lookup d = some db := by
  cases activity with
  | waiting c => exact ⟨c,rfl,found⟩
  | _ => contradiction

def third (choice : Choice) : List Action := .logIn 2 "alice" [3] "" none :: handled 2 (openFrame true) choice 2

/- The first instance registers itself only after the second has taken the database over, and the
third takes it from the second. -/
def lateRegistration : List Action :=
  [.logIn 0 "alice" [1] "" none,.logIn 1 "alice" [2] "" none] ++ handled 0 (openFrame false) ⟨0,[7],[]⟩ 2 ++
    handled 1 (openFrame true) ⟨1,[8],[]⟩ 5 ++ List.replicate 3 (.proceed 0 ⟨1,[],[]⟩)

theorem lateRegistrationReplaces :
    let w := run sampleOptions lateRegistration
    (∀ a ∈ lateRegistration, a.ordinary = true) ∧
    (openOn "db" (w.connections 1)).map (fun db => (db.key,db.epoch)) = some (aliceKey,2) ∧
    (record w.shared.store aliceKey).map (fun r => r.lease.epoch) = some 2 ∧
    w.shared.holders.lookup aliceKey = some ⟨1,0⟩ ∧
    ((history sampleOptions (lateRegistration ++ third ⟨2,[9],[]⟩ ++ [.proceed 2 ⟨2,[],[]⟩])).filterMap
      (fun e => e.reply.push)) = [⟨0,"db",3⟩] := by
  decide +kernel

theorem registryFollowsTakeover :
    (run sampleOptions takenOver).shared.holders.lookup aliceKey = some ⟨2,1⟩ ∧
    ((run sampleOptions (takenOver ++ third ⟨2,[9],[]⟩)).step sampleOptions (.proceed 2 ⟨2,[],[]⟩)).1.push =
      some ⟨1,"db",3⟩ := by
  have isOpen : (openOn "db" ((run sampleOptions takenOver).connections 1)).map (fun db => (db.key,db.epoch)) =
      some (aliceKey,2) := by decide +kernel
  have newest : (record (run sampleOptions takenOver).shared.store aliceKey).map (fun r => r.lease.epoch) = some 2 := by
    decide +kernel
  have asks : ((run sampleOptions (takenOver ++ third ⟨2,[9],[]⟩)).step sampleOptions (.proceed 2 ⟨2,[],[]⟩)).1.asked.map
      (fun x => (x.1,holderCall x.2.effect)) = some (2,some (.set aliceKey 3)) := by decide +kernel
  obtain ⟨db,there,fields⟩ := Option.map_eq_some_iff.mp isOpen
  obtain ⟨key,epoch⟩ := Prod.mk.inj fields
  obtain ⟨c,idle,found⟩ := openOnSome there
  obtain ⟨r,recorded,same⟩ := Option.map_eq_some_iff.mp newest
  obtain ⟨⟨j,x⟩,asked,pair⟩ := Option.map_eq_some_iff.mp asks
  obtain ⟨rfl,call⟩ := Prod.mk.inj pair
  obtain rfl := holderCallSome call
  obtain ⟨entry,next⟩ := (registryFollowsNewest sampleOptions takenOver (by decide)).2 (by decide +kernel) 1 c "db" db r
    idle found (by rw [key]; exact recorded) (by rw [same,epoch])
  rw [key,epoch] at entry next
  exact ⟨entry,next (third ⟨2,[9],[]⟩) (.proceed 2 ⟨2,[],[]⟩) 2 3 (by decide +kernel) (by decide) (by decide) asked⟩

end SqliteRemote.Server
