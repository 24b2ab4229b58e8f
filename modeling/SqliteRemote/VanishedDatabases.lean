import SqliteRemote.FetchSnapshot
import SqliteRemote.OwnLease

/-! Databases that vanish while they are open. The connection keeps its table of open databases
until it closes them, and the store tells a deleted record from a missing one; what the client is
answered depends on which handler asks and on what is left of the record. -/
namespace SqliteRemote.Server
open Rows StoreContract Programs Protocol
open MemoryStore (Store Database record WellformedStore)

def vanished (k : Key) (s : Store) : Bool := ((record s k).map Database.deleted).getD true

def closes (frame : ClientFrame) : Bool :=
  match frame.body with
  | .closeDB _ => true
  | _ => false

/- A request on a database that the connection itself has nothing to object to. -/
def Requests (opts : Options) (d : String) (frame : ClientFrame) : Prop :=
  frame.requestID ≠ 0 ∧
  match frame.body with
  | .fetch req => req.dbID = d ∧ req.asked.length ≤ maxFetchRanges ∧ checkRanges 0 0 req.asked = none
  | .changed req => req.dbID = d
  | .commit req => req.dbID = d ∧ req.commitID.length = commitIDBytes ∧ req.part = 0 ∧ req.more = false ∧
      dataBytes req.blocks ≤ opts.maxCommitBytes
  | .closeDB req => req.dbID = d
  | _ => False

def Rejected (code : ErrorCode) (id : UInt64) (frames : List ServerFrame) : Prop :=
  ∃ e, frames = [⟨id,.error e⟩] ∧ e.code = code

section
variable {s : Store} {k : Key} (gone : vanished k s = true)
include gone

theorem vanishedRecord {r : Database} (found : record s k = some r) : r.deleted = true := by
  rw [vanished,found] at gone
  exact gone

theorem fetchVanished (version : Nat) (first count : UInt64) : s.fetch k version first count = .error .notFound := by
  unfold Store.fetch
  cases found : s.dbs.lookup k with
  | none => rfl
  | some r => simp only [vanishedRecord gone found,if_true]

theorem changesVanished (fromVersion : Nat) : s.changes k fromVersion = .error .notFound := by
  unfold Store.changes
  cases found : s.dbs.lookup k with
  | none => rfl
  | some r => simp only [vanishedRecord gone found,if_true]

theorem unheldVanished (valid : WellformedStore s) {r : Database} (found : record s k = some r) (epoch : Nat) :
    r.holds epoch = false := by
  cases held : r.holds epoch with
  | false => rfl
  | true =>
    have live := MemoryStore.heldLive (valid k r found) held
    rw [vanishedRecord gone found] at live
    contradiction

theorem commitVanished (valid : WellformedStore s) {req : CommitRequest} (key : req.key = k) :
    (s.commit req).1 = .error .notFound ∨ (s.commit req).1 = .error .fenced := by
  subst key
  unfold Store.commit
  cases found : s.dbs.lookup req.key with
  | none => exact .inl rfl
  | some r => exact .inr (by simp only [unheldVanished gone valid found,Bool.not_false,if_true])

theorem releaseVanished (valid : WellformedStore s) (epoch : Nat) :
    (s.release k epoch).1 = .error (if (record s k).isSome then .fenced else .notFound) := by
  unfold Store.release
  rw [record]
  cases found : s.dbs.lookup k with
  | none => rfl
  | some r =>
    simp only [unheldVanished gone valid found,Bool.not_false,if_true]
    rfl

end

theorem rejectedGone {opts : Options} {id : UInt64} {c after : Connection} {trace : List (Asked Effect)} {e : Error}
    (known : e = .notFound ∨ e = .fenced)
    (performed : Performs (fail opts id (Protocol.gone (.declared e)) c) trace after) : Rejected .fenced id (sent trace) := by
  rw [performsFail performed]
  rcases known with rfl | rfl
  · exact ⟨_,rfl,rfl⟩
  · exact ⟨_,rfl,rfl⟩

def AskedVanished (k : Key) (x : Asked Effect) : Prop :=
  ∃ s, vanished k s = true ∧ WellformedStore s ∧ FromStore s x

section
variable {opts : Options} {c after : Connection} {id : UInt64} {trace : List (Asked Effect)} {db : OpenDB}
  (answered : ∀ x ∈ trace, AskedVanished db.key x)
include answered

theorem fetchRejected {req : Fetch} (isOpen : c.dbs.lookup req.dbID = some db)
    (few : req.asked.length ≤ maxFetchRanges) (order : checkRanges 0 0 req.asked = none)
    (performed : Performs (c.fetch opts id req) trace after) : Rejected .fenced id (sent trace) := by
  simp only [Connection.fetch,isOpen,if_neg (Nat.not_lt.mpr few),order] at performed
  cases asked : req.asked with
  | nil => exact absurd asked (askedNonempty req)
  | cons r rest =>
    rw [asked] at performed
    cases performed with
    | ask answer tail =>
      obtain ⟨s,gone,_,_,same⟩ := answered _ List.mem_cons_self
      simp only [call,fetchVanished gone] at same
      subst same
      have rejected := rejectedGone (.inl rfl) tail
      exact rejected

theorem changedRejected {req : Changed} (isOpen : c.dbs.lookup req.dbID = some db)
    (performed : Performs (c.changed opts id req) trace after) : Rejected .fenced id (sent trace) := by
  simp only [Connection.changed,isOpen] at performed
  cases performed with
  | ask answer tail =>
    obtain ⟨s,gone,_,_,same⟩ := answered _ List.mem_cons_self
    simp only [call,changesVanished gone] at same
    subst same
    have rejected := rejectedGone (.inl rfl) tail
    exact rejected

theorem commitRejected {req : Commit} (isOpen : c.dbs.lookup req.dbID = some db)
    (named : req.commitID.length = commitIDBytes) (first : req.part = 0) (last : req.more = false)
    (small : dataBytes req.blocks ≤ opts.maxCommitBytes)
    (performed : Performs (c.commit opts id req) trace after) : Rejected .fenced id (sent trace) := by
  have whole : ¬opts.maxCommitBytes < (PendingCommit.add ⟨req.header,0,[],0⟩ req).size := by
    simpa [PendingCommit.add] using small
  simp only [Connection.commit,isOpen,named,ne_eq,not_true,if_false,Commit.joins,if_pos first,if_neg whole,last,
    Bool.false_eq_true] at performed
  cases performed with
  | ask now tail =>
    cases tail with
    | ask answer tail =>
      obtain ⟨s,gone,valid,_,same⟩ := answered _ (List.mem_cons_of_mem _ List.mem_cons_self)
      simp only [call] at same
      rcases commitVanished gone valid (rfl : (commitRequest opts db.key _ now).key = db.key) with missing | fenced
      · rw [missing] at same
        subst same
        have rejected := rejectedGone (.inl rfl) tail
        exact rejected
      · rw [fenced] at same
        subst same
        have rejected := rejectedGone (.inr rfl) tail
        exact rejected

end

structure Closes (opts : Options) (c : Connection) (id : UInt64) (db : OpenDB) (req : CloseDB)
    (trace : List (Asked Effect)) (after : Connection) (answer : Except Fault Unit) : Prop where
  asks : ⟨.call (.release db.key req.leaseEpoch),answer⟩ ∈ trace
  once : ∀ x ∈ trace, isCall x.effect = true → x = ⟨.call (.release db.key req.leaseEpoch),answer⟩
  ok : answer = .ok () → sent trace = [⟨id,.ok⟩] ∧ after = {c with dbs := c.dbs.erase req.dbID}
  failed : ∀ fault, answer = .error fault → sent trace = [errorFrame opts.platform id (.fault fault)] ∧ after = c

theorem closePerformed {opts : Options} {c after : Connection} {id : UInt64} {trace : List (Asked Effect)} {db : OpenDB}
    {req : CloseDB} (isOpen : c.dbs.lookup req.dbID = some db)
    (performed : Performs (c.closeDB opts id req) trace after) : ∃ answer, Closes opts c id db req trace after answer := by
  simp only [Connection.closeDB,isOpen] at performed
  cases performed with
  | ask answer tail =>
    cases answer with
    | error fault =>
      obtain ⟨rfl,rfl⟩ := replied tail
      refine ⟨.error fault,List.mem_cons_self,?_,?_,?_⟩
      · simp [isCall]
      · intro impossible
        cases impossible
      · rintro _ ⟨⟩
        exact ⟨rfl,rfl⟩
    | ok done =>
      cases tail with
      | ask removed tail =>
        obtain ⟨rfl,rfl⟩ := replied tail
        refine ⟨.ok (),List.mem_cons_self,?_,fun _ => ⟨rfl,rfl⟩,?_⟩
        · simp [isCall]
        · intro fault impossible
          cases impossible

theorem closeAsked {opts : Options} {past during : List Action} {id : Nat} {c after : Connection} {frame : ClientFrame}
    {rid : UInt64} {db : OpenDB} {req : CloseDB} {seen : List (Asked Effect)} {answer : Except Fault Unit}
    (served : Served opts past during id c frame seen after) (closing : Closes opts c rid db req seen after answer)
    {e : Event} (inRun : e ∈ eventsOf opts past during) {x : Asked Effect} (asked : askedBy id e.reply = some x)
    (called : isCall x.effect = true) :
    answer = declared (e.before.shared.store.release db.key req.leaseEpoch).1 ∧ WellformedStore e.before.shared.store := by
  have question := closing.once x ((servedAsked served x).mpr ⟨e,inRun,asked⟩) called
  subst question
  obtain ⟨⟨_,same⟩,valid⟩ := servedFrom inRun asked
  simp only [call] at same
  exact ⟨same,valid⟩

theorem vanishedFencedIff (opts : Options) (past during : List Action) (id : Nat) (c after : Connection)
    (frame : ClientFrame) (d : String) (db : OpenDB) (seen : List (Asked Effect))
    (served : Served opts past during id c frame seen after) (request : Requests opts d frame)
    (isOpen : c.dbs.lookup d = some db)
    (gone : ∀ e ∈ eventsOf opts past during, vanished db.key e.before.shared.store = true) :
    Rejected .fenced frame.requestID (sent seen) ↔
      (closes frame = true → ∀ e ∈ eventsOf opts past during, ∀ x, askedBy id e.reply = some x →
        isCall x.effect = true → (record e.before.shared.store db.key).isSome = true) := by
  have performed := servedPerforms served
  have answered : ∀ x ∈ seen, AskedVanished db.key x := by
    intro x member
    obtain ⟨e,inRun,asked⟩ := (servedAsked served x).mp member
    obtain ⟨answer,valid⟩ := servedFrom inRun asked
    exact ⟨e.before.shared.store,gone e inRun,valid,answer⟩
  obtain ⟨rid,body⟩ := frame
  obtain ⟨numbered,wellformed⟩ := request
  simp only [Connection.handle,if_neg numbered] at performed
  cases body with
  | fetch req =>
    obtain ⟨rfl,few,order⟩ := wellformed
    exact ⟨fun _ closing => (by cases closing),fun _ => fetchRejected answered isOpen few order performed⟩
  | changed req =>
    cases wellformed
    exact ⟨fun _ closing => (by cases closing),fun _ => changedRejected answered isOpen performed⟩
  | commit req =>
    obtain ⟨rfl,named,first,last,small⟩ := wellformed
    exact ⟨fun _ closing => (by cases closing),fun _ => commitRejected answered isOpen named first last small performed⟩
  | closeDB req =>
    cases wellformed
    obtain ⟨answer,closing⟩ := closePerformed isOpen performed
    -- The answer depends on whether a record is left when the store is asked.
    have told : ∀ e ∈ eventsOf opts past during, ∀ x, askedBy id e.reply = some x → isCall x.effect = true →
        answer = .error (.declared (if (record e.before.shared.store db.key).isSome then .fenced else .notFound)) := by
      intro e inRun x asked called
      obtain ⟨same,valid⟩ := closeAsked served closing inRun asked called
      rw [releaseVanished (gone e inRun) valid] at same
      exact same
    refine ⟨fun rejected _ e inRun x asked called => ?_,fun kept => ?_⟩
    · have failure := told e inRun x asked called
      obtain ⟨error,frames,code⟩ := rejected
      rw [(closing.failed _ failure).1] at frames
      cases left : (record e.before.shared.store db.key).isSome with
      | true => rfl
      | false =>
        rw [left] at frames
        cases frames
        contradiction
    · obtain ⟨e,inRun,asked⟩ := (servedAsked served _).mp closing.asks
      have failure := told e inRun _ asked rfl
      rw [kept rfl e inRun _ asked rfl] at failure
      exact ⟨_,(closing.failed _ failure).1,rfl⟩
  | _ => exact wellformed.elim

def claimFrame : ClientFrame := ⟨4,.claimSlot⟩

/- Two users of one owner. The first has the slot and a database open, and the second claims the slot. -/
def purgedOpen : List Action :=
  [.logIn 0 "alice" [1] "owner" none,.logIn 1 "bob" [2] "owner" none] ++ handled 0 claimFrame ⟨0,[],[]⟩ 4 ++
    handled 0 (openFrame false) ⟨1,[7],[]⟩ 5 ++ handled 1 claimFrame ⟨2,[],[]⟩ 5

def deletedOpen : List Action :=
  [.logIn 0 "alice" [1] "" none,.logIn 1 "alice" [2] "" none] ++ handled 0 (openFrame false) ⟨0,[7],[]⟩ 5 ++
    handled 1 ⟨2,.delete ⟨"db",true⟩⟩ ⟨1,[],[]⟩ 5

def closing (id : Nat) : List Action := List.replicate 2 (.proceed id ⟨3,[],[]⟩)

def codeOf (frames : List ServerFrame) : Option ErrorCode :=
  match frames with
  | [⟨_,.error e⟩] => some e.code
  | _ => none

theorem rejectedCode {code : ErrorCode} {id : UInt64} {frames : List ServerFrame} (rejected : Rejected code id frames) :
    codeOf frames = some code := by
  obtain ⟨e,rfl,rfl⟩ := rejected
  rfl

def lookedUp (d : String) (r : Connection × List (Asked Effect) × Connection) :
    Option ErrorCode × Option OpenDB × Option OpenDB :=
  (codeOf (sent r.2.1),r.1.dbs.lookup d,r.2.2.dbs.lookup d)

def aliceDB (renewed : Time) : OpenDB := ⟨aliceKey,1,512,none,renewed⟩

theorem closeRequested : Requests sampleOptions "db" (closeFrame 1) := ⟨by decide,rfl⟩

theorem closeOfPurgedNotFound : ∃ c seen after db,
    Served sampleOptions (purgedOpen ++ [.receive 0 (closeFrame 1) 3]) (closing 0) 0 c (closeFrame 1) seen after ∧
    Requests sampleOptions "db" (closeFrame 1) ∧ c.dbs.lookup "db" = some db ∧
    (∀ e ∈ eventsOf sampleOptions (purgedOpen ++ [.receive 0 (closeFrame 1) 3]) (closing 0),
      vanished db.key e.before.shared.store = true) ∧
    codeOf (sent seen) = some .notFound ∧ ¬Rejected .fenced (closeFrame 1).requestID (sent seen) := by
  have view : (servedAt sampleOptions purgedOpen 0 (closeFrame 1) 3 (closing 0)).map (lookedUp "db") =
      some (some .notFound,some (aliceDB 1),some (aliceDB 1)) := by decide +kernel
  have gone : (eventsOf sampleOptions (purgedOpen ++ [.receive 0 (closeFrame 1) 3]) (closing 0)).all
      (fun e => vanished aliceKey e.before.shared.store) = true := by decide +kernel
  obtain ⟨c,seen,after,served,shown⟩ := servedView view
  simp only [lookedUp,Prod.mk.injEq] at shown
  refine ⟨c,seen,after,aliceDB 1,served,closeRequested,shown.2.1,List.all_eq_true.mp gone,shown.1,fun rejected => ?_⟩
  have fenced := rejectedCode rejected
  rw [shown.1] at fenced
  contradiction

theorem closeOfDeletedFenced : ∃ c seen after,
    Served sampleOptions (deletedOpen ++ [.receive 0 (closeFrame 1) 3]) (closing 0) 0 c (closeFrame 1) seen after ∧
    Rejected .fenced (closeFrame 1).requestID (sent seen) := by
  have view : (servedAt sampleOptions deletedOpen 0 (closeFrame 1) 3 (closing 0)).map (lookedUp "db") =
      some (some .fenced,some (aliceDB 0),some (aliceDB 0)) := by decide +kernel
  have gone : (eventsOf sampleOptions (deletedOpen ++ [.receive 0 (closeFrame 1) 3]) (closing 0)).all
      (fun e => vanished aliceKey e.before.shared.store) = true := by decide +kernel
  have left : (eventsOf sampleOptions (deletedOpen ++ [.receive 0 (closeFrame 1) 3]) (closing 0)).all
      (fun e => (record e.before.shared.store aliceKey).isSome) = true := by decide +kernel
  obtain ⟨c,seen,after,served,shown⟩ := servedView view
  simp only [lookedUp,Prod.mk.injEq] at shown
  exact ⟨c,seen,after,served,(vanishedFencedIff sampleOptions _ _ 0 c after _ "db" (aliceDB 0) seen served closeRequested
    shown.2.1 (List.all_eq_true.mp gone)).mpr (fun _ e member _ _ _ => List.all_eq_true.mp left e member)⟩

theorem releasedIff (s : Store) (k : Key) (epoch : Nat) :
    (s.release k epoch).1 = .ok () ↔ ∃ r, record s k = some r ∧ r.holds epoch = true := by
  unfold Store.release
  rw [record]
  cases found : s.dbs.lookup k with
  | none => simp
  | some r => cases held : r.holds epoch <;> simp [held]

theorem returnedEpoch (opts : Options) {past : List Action} {id : Nat} {c : Connection} {frame : ClientFrame}
    {rest : Handler} {d : String} {db : OpenDB} {epoch : Nat}
    (received : (run opts past).connections id = .working c frame [] rest) (isOpen : c.dbs.lookup d = some db)
    (returned : latest db.key (own id (history opts past)) = some epoch) : epoch = db.epoch := by
  have mine := (mineRun opts past id).2
  rw [received] at mine
  obtain ⟨earlier,trace,leased⟩ := mine
  exact (ownLatest leased isOpen trace (quietUnopened quietNil)).mp returned

theorem closedIff (opts : Options) (past during : List Action) (id : Nat) (c after : Connection) (frame : ClientFrame)
    (d : String) (db : OpenDB) (epoch : Nat) (seen : List (Asked Effect))
    (served : Served opts past during id c frame seen after) (numbered : frame.requestID ≠ 0)
    (body : frame.body = .closeDB ⟨d,epoch⟩) (isOpen : c.dbs.lookup d = some db)
    (returned : latest db.key (own id (history opts past)) = some epoch) :
    after.dbs.lookup d = none ↔
      ∀ e ∈ eventsOf opts past during, ∀ x, askedBy id e.reply = some x → isCall x.effect = true →
        ∃ r, record e.before.shared.store db.key = some r ∧ r.holds db.epoch = true := by
  have same := returnedEpoch opts served.received isOpen returned
  subst same
  have performed := servedPerforms served
  simp only [Connection.handle,if_neg numbered,body] at performed
  obtain ⟨answer,closing⟩ := closePerformed isOpen performed
  have told : ∀ e ∈ eventsOf opts past during, ∀ x, askedBy id e.reply = some x → isCall x.effect = true →
      (answer = .ok () ↔ ∃ r, record e.before.shared.store db.key = some r ∧ r.holds db.epoch = true) := by
    intro e inRun x asked called
    rw [← releasedIff,(closeAsked served closing inRun asked called).1]
    cases (e.before.shared.store.release db.key db.epoch).1 <;> simp [declared]
  refine ⟨fun closed e inRun x asked called => ?_,fun held => ?_⟩
  · refine (told e inRun x asked called).mp ?_
    cases answer with
    | ok done => rfl
    | error fault =>
      rw [(closing.failed fault rfl).2,isOpen] at closed
      contradiction
  · obtain ⟨e,inRun,asked⟩ := (servedAsked served _).mp closing.asks
    rw [(closing.ok ((told e inRun _ asked rfl).mpr (held e inRun _ asked rfl))).2]
    simp

theorem takenOverStaysOpen : ∃ c seen after,
    Served sampleOptions (takenOver ++ [.receive 0 (closeFrame 1) 3]) (closing 0) 0 c (closeFrame 1) seen after ∧
    latest aliceKey (own 0 (history sampleOptions (takenOver ++ [.receive 0 (closeFrame 1) 3]))) = some 1 ∧
    c.dbs.lookup "db" = some (aliceDB 0) ∧ after.dbs.lookup "db" = some (aliceDB 0) ∧
    after.handle sampleOptions (openFrame true) = refuse sampleOptions 1 (.alreadyOpen "db") after := by
  have view : (servedAt sampleOptions takenOver 0 (closeFrame 1) 3 (closing 0)).map (lookedUp "db") =
      some (some .fenced,some (aliceDB 0),some (aliceDB 0)) := by decide +kernel
  have returned : latest aliceKey (own 0 (history sampleOptions (takenOver ++ [.receive 0 (closeFrame 1) 3]))) =
      some 1 := by decide +kernel
  have named : checkDBID "db" = none := by decide +kernel
  obtain ⟨c,seen,after,served,shown⟩ := servedView view
  simp only [lookedUp,Prod.mk.injEq] at shown
  refine ⟨c,seen,after,served,returned,shown.2.1,shown.2.2,?_⟩
  have numbered : ¬((1 : UInt64) = 0) := by decide
  simp only [Connection.handle,openFrame,if_neg numbered,Connection.openDB,named,shown.2.2,Option.isSome_some,if_true]

def openedOnce : List Action := .logIn 0 "alice" [1] "" none :: handled 0 (openFrame false) ⟨0,[7],[]⟩ 5

def heldWhenAsked (id : Nat) (k : Key) (epoch : Nat) (e : Event) : Bool :=
  !(askedBy id e.reply).any (fun x => isCall x.effect) || (record e.before.shared.store k).any (fun r => r.holds epoch)

theorem heldAsked {id : Nat} {k : Key} {epoch : Nat} {e : Event} {x : Asked Effect}
    (held : heldWhenAsked id k epoch e = true) (asked : askedBy id e.reply = some x) (called : isCall x.effect = true) :
    ∃ r, record e.before.shared.store k = some r ∧ r.holds epoch = true := by
  cases found : record e.before.shared.store k with
  | none => simp [heldWhenAsked,asked,called,found] at held
  | some r => exact ⟨r,rfl,by simpa [heldWhenAsked,asked,called,found] using held⟩

def closingHeld : List Action := List.replicate 3 (.proceed 0 ⟨3,[],[]⟩)

theorem closedHeld : ∃ c seen after,
    Served sampleOptions (openedOnce ++ [.receive 0 (closeFrame 1) 3]) closingHeld 0 c (closeFrame 1) seen after ∧
    c.dbs.lookup "db" = some (aliceDB 0) ∧ after.dbs.lookup "db" = none := by
  have view : (servedAt sampleOptions openedOnce 0 (closeFrame 1) 3 closingHeld).map (lookedUp "db") =
      some (none,some (aliceDB 0),none) := by decide +kernel
  have returned : latest aliceKey (own 0 (history sampleOptions (openedOnce ++ [.receive 0 (closeFrame 1) 3]))) =
      some 1 := by decide +kernel
  have held : (eventsOf sampleOptions (openedOnce ++ [.receive 0 (closeFrame 1) 3]) closingHeld).all
      (heldWhenAsked 0 aliceKey 1) = true := by decide +kernel
  obtain ⟨c,seen,after,served,shown⟩ := servedView view
  simp only [lookedUp,Prod.mk.injEq] at shown
  refine ⟨c,seen,after,served,shown.2.1,?_⟩
  exact (closedIff sampleOptions _ _ 0 c after _ "db" (aliceDB 0) 1 seen served (by decide) rfl shown.2.1 returned).mpr
    (fun e member x asked called => heldAsked (List.all_eq_true.mp held e member) asked called)

end SqliteRemote.Server
