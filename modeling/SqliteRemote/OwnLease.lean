import SqliteRemote.MemoryVersions
import SqliteRemote.ServerRuns

/-! Whose lease a Commit or CloseDb frame acts on. The connection keeps the epoch of its latest Open
for every database, but the two handlers take the epoch from the frame, and the frame may carry the
epoch that LeaseRevoked announced. -/
namespace SqliteRemote.Server
open Rows StoreContract Programs Protocol
open MemoryStore (record versionOf)

def openedEpoch (k : Key) (x : Asked Effect) : Option Nat :=
  ((opened x).filter (fun o => o.1 == k)).map (fun o => o.2.lease.epoch)

def latest (k : Key) (trace : List (Asked Effect)) : Option Nat := (trace.filterMap (openedEpoch k)).getLast?

def leaseOf : {β : Type} → Effect β → Option (Key × Nat)
  | _,.call (.commit req) => some (req.key,req.leaseEpoch)
  | _,.call (.release key epoch) => some (key,epoch)
  | _,_ => none

def frameLease (frame : ClientFrame) : Option (String × Nat) :=
  match frame.body with
  | .commit req => some (req.dbID,req.leaseEpoch)
  | .closeDB req => some (req.dbID,req.leaseEpoch)
  | _ => none

theorem latestAppend (k : Key) (first rest : List (Asked Effect)) :
    latest k (first ++ rest) = (latest k rest).or (latest k first) := by
  rw [latest,List.filterMap_append,List.getLast?_append]
  rfl

def Unopened (seen : List (Asked Effect)) : Prop := ∀ x ∈ seen, opened x = none

theorem quietUnopened {seen : List (Asked Effect)} (still : Quiet seen) : Unopened seen := by
  intro x member
  have both := still x member
  simp only [quiet,Bool.and_eq_true,Option.isNone_iff_eq_none] at both
  exact both.1

theorem latestUnopened (k : Key) {seen : List (Asked Effect)} (unopened : Unopened seen) : latest k seen = none := by
  have none : seen.filterMap (openedEpoch k) = [] := by
    refine List.filterMap_eq_nil_iff.mpr (fun x member => ?_)
    rw [openedEpoch,unopened x member]
    rfl
  rw [latest,none]
  rfl

theorem latestOpening (k : Key) (now : Time) (req : OpenRequest) (res : OpenResult) (h : HolderCall)
    (answer : ServerFrame) :
    latest k [⟨.clock,now⟩,⟨.call (.openDB req),.ok res⟩,⟨.holders h,()⟩,⟨.send answer,()⟩] =
      if req.key = k then some res.lease.epoch else none := by
  have epoch : openedEpoch k ⟨.call (.openDB req),.ok res⟩ = if req.key = k then some res.lease.epoch else none := by
    have asked : opened ⟨.call (.openDB req),.ok res⟩ = some (req.key,res) := rfl
    rw [openedEpoch,asked,Option.filter]
    by_cases same : req.key = k <;> simp [same]
  rw [latest,List.filterMap_cons_none rfl]
  by_cases same : req.key = k
  · rw [if_pos same] at epoch ⊢
    rw [List.filterMap_cons_some epoch,List.filterMap_cons_none rfl,List.filterMap_cons_none rfl]
    rfl
  · rw [if_neg same] at epoch ⊢
    rw [List.filterMap_cons_none epoch,List.filterMap_cons_none rfl,List.filterMap_cons_none rfl]
    rfl

def Leased (c : Connection) (trace : List (Asked Effect)) : Prop :=
  ∀ d db, c.dbs.lookup d = some db → db.key = ⟨c.subject,d⟩ ∧ latest db.key trace = some db.epoch

def Mine (trace : List (Asked Effect)) : Activity → Prop
  | .waiting c => Leased c trace
  | .working c _ seen _ => ∃ earlier, trace = earlier ++ seen ∧ Leased c earlier
  | _ => True

theorem leasedKept {c after : Connection} {earlier seen : List (Asked Effect)} (leased : Leased c earlier)
    (unopened : Unopened seen) (keeps : Keeps c after) : Leased after (earlier ++ seen) := by
  intro d db found
  obtain ⟨old,was,key,epoch,_⟩ := keeps.leases d db found
  obtain ⟨named,same⟩ := leased d old was
  rw [latestAppend,latestUnopened _ unopened,key,epoch,keeps.subject]
  exact ⟨named,same⟩

theorem leasedOpened {opts : Options} {c : Connection} {earlier : List (Asked Effect)} (leased : Leased c earlier)
    (req : Open) (now : Time) (res : OpenResult) (answer : ServerFrame) :
    Leased (c.put req.dbID ⟨⟨c.subject,req.dbID⟩,res.lease.epoch,res.state.pageSize,none,now⟩)
      (earlier ++ [⟨.clock,now⟩,⟨.call (.openDB (openRequest opts c req now)),.ok res⟩,
        ⟨.holders (.set ⟨c.subject,req.dbID⟩ res.lease.epoch),()⟩,⟨.send answer,()⟩]) := by
  intro d db found
  simp only [Connection.put,lookupInsert] at found
  split at found
  · rename_i here
    subst here
    cases found
    refine ⟨rfl,?_⟩
    simp [latestAppend,latestOpening,openRequest]
  · rename_i elsewhere
    obtain ⟨named,same⟩ := leased d db found
    refine ⟨named,?_⟩
    have other : (openRequest opts c req now).key ≠ db.key := by
      rw [named]
      intro equal
      exact elsewhere (Key.mk.inj equal).2.symm
    rw [latestAppend,latestOpening,if_neg other]
    exact same

theorem mineTurn {opts : Options} {action : Action} {id : Nat} {before after : Activity} {x : Option (Asked Effect)}
    {trace : List (Asked Effect)} (turn : Turns opts action id before x after)
    (sane : ∀ c frame seen rest, before = .working c frame seen rest → Partly (c.handle opts frame) seen rest)
    (mine : Mine trace before) : Mine (trace ++ x.toList) after := by
  cases turn with
  | same => simpa using mine
  | loggedIn subject instanceID owner tokenExpires =>
    intro d db found
    simp [Connection.loggedIn] at found
  | received c frame sent => exact ⟨trace,by simp,mine⟩
  | asked c frame seen e next answer =>
    obtain ⟨earlier,rfl,leased⟩ := mine
    exact ⟨earlier,by simp,leased⟩
  | finished c frame seen after =>
    obtain ⟨earlier,rfl,leased⟩ := mine
    rw [Option.toList_none,List.append_nil]
    have done := ends (sane _ _ _ _ rfl)
    cases done with
    | kept still keeps => exact leasedKept leased (quietUnopened still) keeps
    | closed answer body isOpen =>
      refine leasedKept leased ?_ (keepsErase c _)
      simp [Unopened,opened,returned,Effect.returned,Call.opened,Except.toOption]
    | opened now res answer body closed => exact leasedOpened leased _ now res answer
  | panicked c frame seen next oversized => trivial
  | leaves c => trivial
  | removed key keys => trivial
  | ended => trivial

theorem mineRun (opts : Options) (actions : List Action) (id : Nat) :
    Sane opts (run opts actions) ∧ Mine (own id (history opts actions)) ((run opts actions).connections id) := by
  refine History.invariantSeen (World.step opts)
    (P := fun seen w => Sane opts w ∧ Mine (own id seen) (w.connections id)) ⟨saneStart opts,trivial⟩ ?_
  intro seen e member both
  obtain ⟨sane,mine⟩ := both
  have whole := History.eventStep (World.step opts) member
  have after := saneStep opts e.before e.op sane
  have turn := turns opts e.before e.op id
  rw [whole] at after turn
  refine ⟨after,?_⟩
  rw [ownSnoc]
  exact mineTurn turn (fun c frame asked rest busy => sane id c frame asked rest busy) mine

theorem ownLatest {c : Connection} {d : String} {db : OpenDB} {earlier seen trace : List (Asked Effect)} {epoch : Nat}
    (leased : Leased c earlier) (isOpen : c.dbs.lookup d = some db) (split : trace = earlier ++ seen)
    (unopened : Unopened seen) : latest db.key trace = some epoch ↔ epoch = db.epoch := by
  obtain ⟨_,same⟩ := leased d db isOpen
  rw [split,latestAppend,latestUnopened _ unopened,Option.none_or,same,Option.some.injEq]
  exact eq_comm

theorem unheldCall {β : Type} {s : MemoryStore.Store} (id : Bytes) {k : Call β} {key : Key} {epoch : Nat}
    (acts : leaseOf (.call k) = some (key,epoch)) (unheld : ∀ r, record s key = some r → r.holds epoch = false) :
    (call s id k).2 = s := by
  cases k with
  | commit req =>
    cases acts
    cases found : s.dbs.lookup req.key with
    | none => simp [call,MemoryStore.Store.commit,found]
    | some r => simp [call,MemoryStore.Store.commit,found,unheld r found]
  | release released carried =>
    cases acts
    cases found : s.dbs.lookup key with
    | none => simp [call,MemoryStore.Store.release,found]
    | some r => simp [call,MemoryStore.Store.release,found,unheld r found]
  | _ => contradiction

theorem unheldUnchanged (opts : Options) {w : World} {action : Action} {id : Nat} {x : Asked Effect} {k : Key}
    {epoch : Nat} (did : askedBy id (w.step opts action).1 = some x) (acts : leaseOf x.effect = some (k,epoch))
    (unheld : ∀ r, record w.shared.store k = some r → r.holds epoch = false) :
    (w.step opts action).2.shared.store = w.shared.store := by
  have shared := shares opts w action
  generalize (w.step opts action).2.shared = after at shared ⊢
  generalize (w.step opts action).1 = out at shared did
  cases shared with
  | same => rfl
  | called choice was =>
    rw [askedSome] at did
    split at did <;> try contradiction
    cases did
    exact unheldCall _ acts unheld
  | registered choice was => cases ‹HolderCall› <;> rfl
  | removed choice was => rfl
  | swept cutoff limit tie => cases did

theorem ownCall (opts : Options) {past : List Action} {action : Action} {id : Nat} {x : Asked Effect} {k : Key}
    {epoch : Nat} (did : askedBy id ((run opts past).step opts action).1 = some x)
    (acts : leaseOf x.effect = some (k,epoch)) :
    ∃ c frame seen rest d db, (run opts past).connections id = .working c frame seen rest ∧
      c.dbs.lookup d = some db ∧ k = db.key ∧ frameLease frame = some (d,epoch) ∧
      (latest k (own id (history opts past)) = some epoch ↔ epoch = db.epoch) := by
  obtain ⟨sane,mine⟩ := mineRun opts past id
  have turn := turns opts (run opts past) action id
  rw [did] at turn
  generalize ((run opts past).step opts action).2.connections id = after at turn
  generalize busy : (run opts past).connections id = activity at turn mine ⊢
  cases turn with
  | removed key keys => contradiction
  | asked c frame seen e next answer =>
    obtain ⟨earlier,trace,leased⟩ := mine
    have own := Protocol.acts (sane id _ _ _ _ busy)
    cases own with
    | @commit req db pending now body isOpen header =>
      have carried : (commitRequest opts db.key pending now).leaseEpoch = req.leaseEpoch :=
        congrArg Header.leaseEpoch header
      have unopened : Unopened [⟨.clock,now⟩] := quietUnopened (quietSnoc (x := ⟨.clock,now⟩) quietNil rfl)
      cases acts
      refine ⟨c,frame,_,_,req.dbID,db,rfl,isOpen,rfl,?_,ownLatest leased isOpen trace unopened⟩
      rw [frameLease,body,carried]
    | @release req db body isOpen =>
      cases acts
      refine ⟨c,frame,_,_,req.dbID,db,rfl,isOpen,rfl,?_,ownLatest leased isOpen trace (quietUnopened quietNil)⟩
      rw [frameLease,body]
    | _ => contradiction

/- The frame carries the epoch that the connection keeps, or one under which the record is not held. -/
def KeptOrUnheld (w : World) (db : OpenDB) (epoch : Nat) : Prop :=
  epoch = db.epoch ∨ ∀ r, record w.shared.store db.key = some r → r.holds epoch = false

theorem changesUnderOwnLease (opts : Options) (past : List Action) (action : Action) (id : Nat) (x : Asked Effect)
    (k : Key) (epoch : Nat) (did : askedBy id ((run opts past).step opts action).1 = some x)
    (acts : leaseOf x.effect = some (k,epoch)) :
    ∃ c frame seen rest d db, (run opts past).connections id = .working c frame seen rest ∧
      c.dbs.lookup d = some db ∧ k = db.key ∧ frameLease frame = some (d,epoch) ∧
      (KeptOrUnheld (run opts past) db epoch →
        ((run opts past).step opts action).2.shared.store ≠ (run opts past).shared.store →
        latest k (own id (history opts past)) = some epoch ∧
        ∃ r, record (run opts past).shared.store k = some r ∧ r.holds epoch = true) ∧
      (¬KeptOrUnheld (run opts past) db epoch → latest k (own id (history opts past)) ≠ some epoch ∧
        ∃ r, record (run opts past).shared.store k = some r ∧ r.holds epoch = true) := by
  obtain ⟨c,frame,seen,rest,d,db,busy,isOpen,rfl,carries,current⟩ := ownCall opts did acts
  have held (unlike : ¬∀ r, record (run opts past).shared.store db.key = some r → r.holds epoch = false) :
      ∃ r, record (run opts past).shared.store db.key = some r ∧ r.holds epoch = true := by
    simp only [not_forall] at unlike
    obtain ⟨r,found,holds⟩ := unlike
    exact ⟨r,found,Bool.not_eq_false _ ▸ holds⟩
  refine ⟨c,frame,seen,rest,d,db,busy,isOpen,rfl,carries,fun kept changes => ?_,fun foreign => ?_⟩
  · have moved : ¬∀ r, record (run opts past).shared.store db.key = some r → r.holds epoch = false :=
      fun unheld => changes (unheldUnchanged opts did acts unheld)
    rcases kept with same | unheld
    · exact ⟨current.mpr same,held moved⟩
    · exact absurd unheld moved
  · obtain ⟨other,unlike⟩ := not_or.mp foreign
    exact ⟨fun same => other (current.mp same),held unlike⟩

def commitFrame (epoch : Nat) : ClientFrame := ⟨2,.commit ⟨"db",List.replicate 16 1,epoch,0,0,[],false,0⟩⟩

def closeFrame (epoch : Nat) : ClientFrame := ⟨3,.closeDB ⟨"db",epoch⟩⟩

/- The first instance is told epoch 2 by LeaseRevoked, commits under it and releases it. -/
theorem actsOnForeignLease :
    ((history sampleOptions takenOver).filterMap (fun e => e.reply.push)) = [⟨0,"db",2⟩] ∧
    (let past := takenOver ++ handled 0 (commitFrame 2) ⟨2,[],[]⟩ 1
      let (out,after) := (run sampleOptions past).step sampleOptions (.proceed 0 ⟨2,[],[]⟩)
      (askedBy 0 out).bind (fun x => leaseOf x.effect) = some (aliceKey,2) ∧
      latest aliceKey (own 0 (history sampleOptions past)) = some 1 ∧
      versionOf aliceKey (run sampleOptions past).shared.store = 0 ∧ versionOf aliceKey after.shared.store = 1) ∧
    (let past := takenOver ++ handled 0 (closeFrame 2) ⟨2,[],[]⟩ 0
      let (out,after) := (run sampleOptions past).step sampleOptions (.proceed 0 ⟨2,[],[]⟩)
      (askedBy 0 out).bind (fun x => leaseOf x.effect) = some (aliceKey,2) ∧
      latest aliceKey (own 0 (history sampleOptions past)) = some 1 ∧
      holderOf (run sampleOptions past) aliceKey = some [2] ∧ holderOf after aliceKey = none) := by
  decide +kernel

def keptEpoch (d : String) : Activity → Option Nat
  | .working c _ _ _ => (c.dbs.lookup d).map OpenDB.epoch
  | _ => none

def carriedLease : Activity → Option (String × Nat)
  | .working _ frame _ _ => frameLease frame
  | _ => none

def committing : List Action :=
  [.logIn 0 "alice" [1] "" none] ++ handled 0 (openFrame false) ⟨0,[7],[]⟩ 5 ++ handled 0 (commitFrame 1) ⟨2,[],[]⟩ 1

def committingLate : List Action := takenOver ++ handled 0 (commitFrame 1) ⟨2,[],[]⟩ 1

def proceeded (past : List Action) : World :=
  ((run sampleOptions past).step sampleOptions (.proceed 0 ⟨2,[],[]⟩)).2

theorem changesUnderOwnLeaseTakenOver :
    versionOf aliceKey (run sampleOptions committing).shared.store = 0 ∧
    versionOf aliceKey (proceeded committing).shared.store = 1 ∧
    latest aliceKey (own 0 (history sampleOptions committing)) = some 1 ∧
    (proceeded committingLate).shared.store = (run sampleOptions committingLate).shared.store := by
  have applied (past : List Action)
      (asks : (askedBy 0 ((run sampleOptions past).step sampleOptions (.proceed 0 ⟨2,[],[]⟩)).1).bind
        (fun x => leaseOf x.effect) = some (aliceKey,1))
      (kept : keptEpoch "db" ((run sampleOptions past).connections 0) = some 1)
      (carried : carriedLease ((run sampleOptions past).connections 0) = some ("db",1))
      (changes : (proceeded past).shared.store ≠ (run sampleOptions past).shared.store) :
      latest aliceKey (own 0 (history sampleOptions past)) = some 1 ∧
      ∃ r, record (run sampleOptions past).shared.store aliceKey = some r ∧ r.holds 1 = true := by
    obtain ⟨x,did,acts⟩ := Option.bind_eq_some_iff.mp asks
    obtain ⟨c,frame,seen,rest,d,db,busy,isOpen,_,carries,changing,_⟩ :=
      changesUnderOwnLease sampleOptions past _ 0 x aliceKey 1 did acts
    rw [busy] at kept carried
    cases carries.symm.trans carried
    simp only [keptEpoch,isOpen,Option.map_some,Option.some.injEq] at kept
    exact changing (.inl kept.symm) changes
  refine ⟨by decide +kernel,by decide +kernel,?_,?_⟩
  · refine (applied committing (by decide +kernel) (by decide +kernel) (by decide +kernel) fun same => ?_).1
    have version := congrArg (versionOf aliceKey) same
    revert version
    decide +kernel
  · by_contra changes
    obtain ⟨r,found,holds⟩ :=
      (applied committingLate (by decide +kernel) (by decide +kernel) (by decide +kernel) changes).2
    have newer : (record (run sampleOptions committingLate).shared.store aliceKey).map (fun r => r.holds 1) =
        some false := by decide +kernel
    rw [found,Option.map_some,holds] at newer
    contradiction

end SqliteRemote.Server
