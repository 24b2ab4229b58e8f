import SqliteRemote.FetchFrames

/-! What a connection does while it handles a frame: every question it can ask, with what it has
asked before where that matters, how it can end, and what the client has been sent then. Each handler
is walked once; what holds of all connections is read off these relations. -/
namespace SqliteRemote.Server
open Programs Protocol

def frameOf {β : Type} : Effect β → Option ServerFrame
  | .send frame => some frame
  | _ => none

def sent (trace : List (Asked Effect)) : List ServerFrame := trace.filterMap (fun x => frameOf x.effect)

theorem sentAppend (first rest : List (Asked Effect)) : sent (first ++ rest) = sent first ++ sent rest :=
  List.filterMap_append

end SqliteRemote.Server

namespace SqliteRemote.Protocol
open Rows StoreContract Programs
open Server (frameOf sent sentAppend)

def Effect.returned {α : Type} (tells : {β : Type} → Call β → β → Option α) {β : Type} : Effect β → β → Option α
  | .call k => fun answer => answer.toOption.bind (tells k)
  | _ => fun _ => none

def returned {α : Type} (tells : {β : Type} → Call β → β → Option α) (x : Asked Effect) : Option α :=
  x.effect.returned tells x.answer

def Call.opened {β : Type} : Call β → β → Option (Key × OpenResult)
  | .openDB req => fun res => some (req.key,res)
  | _ => fun _ => none

def opened (x : Asked Effect) : Option (Key × OpenResult) := returned Call.opened x

def Effect.removes {β : Type} : Effect β → Bool
  | .holders (.remove _) => true
  | _ => false

def quiet (x : Asked Effect) : Bool := (opened x).isNone && !x.effect.removes

def Quiet (seen : List (Asked Effect)) : Prop := ∀ x ∈ seen, quiet x = true

/- A question that does not reach the state that the connections share. -/
def Effect.isLocal {β : Type} : Effect β → Bool
  | .call _ => false
  | .holders _ => false
  | _ => true

def Effect.fetchCount {β : Type} : Effect β → Option UInt64
  | .call (.fetch _ _ _ count) => some count
  | _ => none

inductive Acts (opts : Options) (c : Connection) (frame : ClientFrame) :
    List (Asked Effect) → ∀ {β : Type}, Effect β → Prop where
  | clock (seen) : Acts opts c frame seen .clock
  | send (seen) (answer : ServerFrame) : Acts opts c frame seen (.send answer)
  | order (seen) (keys : List String) : Acts opts c frame seen (.anyOrder keys)
  | openDB {req : Open} (now : Time) (body : frame.body = .openDB req) (closed : c.dbs.lookup req.dbID = none) :
      Acts opts c frame [⟨.clock,now⟩] (.call (.openDB (openRequest opts c req now)))
  | set {req : Open} (now : Time) (res : OpenResult) (body : frame.body = .openDB req)
      (closed : c.dbs.lookup req.dbID = none) :
      Acts opts c frame [⟨.clock,now⟩,⟨.call (.openDB (openRequest opts c req now)),.ok res⟩]
        (.holders (.set ⟨c.subject,req.dbID⟩ res.lease.epoch))
  | fetch (seen) {req : Fetch} {db : OpenDB} {r : Range} (body : frame.body = .fetch req)
      (isOpen : c.dbs.lookup req.dbID = some db) (listed : r ∈ req.asked)
      (only : ∀ x ∈ seen, x.effect.fetchCount.isSome) :
      Acts opts c frame seen (.call (.fetch db.key req.version r.firstBlock r.count))
  | changes {req : Changed} {db : OpenDB} (body : frame.body = .changed req)
      (isOpen : c.dbs.lookup req.dbID = some db) : Acts opts c frame [] (.call (.changes db.key req.fromVersion))
  | commit {req : Commit} {db : OpenDB} {pending : PendingCommit} (now : Time) (body : frame.body = .commit req)
      (isOpen : c.dbs.lookup req.dbID = some db) (header : pending.header = req.header) :
      Acts opts c frame [⟨.clock,now⟩] (.call (.commit (commitRequest opts db.key pending now)))
  | renew (seen) {dbID : String} {db : OpenDB} (now : Time) (ping : frame.isPing = true)
      (isOpen : c.dbs.lookup dbID = some db) :
      Acts opts c frame seen (.call (.renew db.key db.epoch now opts.leaseTTL))
  | release {req : CloseDB} {db : OpenDB} (body : frame.body = .closeDB req)
      (isOpen : c.dbs.lookup req.dbID = some db) : Acts opts c frame [] (.call (.release db.key req.leaseEpoch))
  | remove {req : CloseDB} {db : OpenDB} (body : frame.body = .closeDB req)
      (isOpen : c.dbs.lookup req.dbID = some db) :
      Acts opts c frame [⟨.call (.release db.key req.leaseEpoch),.ok ()⟩] (.holders (.remove db.key))
  | delete {req : Delete} (now : Time) (body : frame.body = .delete req) (closed : c.dbs.lookup req.dbID = none) :
      Acts opts c frame [⟨.clock,now⟩] (.call (.delete ⟨⟨c.subject,req.dbID⟩,req.takeover,now⟩))
  | revoke {req : Delete} (now : Time) (res : DeleteResult) (body : frame.body = .delete req)
      (closed : c.dbs.lookup req.dbID = none) (deleted : 0 < res.epoch) :
      Acts opts c frame [⟨.clock,now⟩,⟨.call (.delete ⟨⟨c.subject,req.dbID⟩,req.takeover,now⟩),.ok res⟩]
        (.holders (.revoke ⟨c.subject,req.dbID⟩ res.epoch))
  | claimSlot (now : Time) (body : frame.body = .claimSlot) (owned : c.owner ≠ "") :
      Acts opts c frame [⟨.clock,now⟩] (.call (.claimSlot ⟨c.owner,c.subject,now⟩))
  | setSlotLabel {label : String} (body : frame.body = .setSlotLabel label) (owned : c.owner ≠ "") :
      Acts opts c frame [] (.call (.setSlotLabel c.owner c.subject label))
  | deleteSlot (body : frame.body = .deleteSlot) (owned : c.owner ≠ "") :
      Acts opts c frame [] (.call (.deleteSlot c.owner c.subject))
  | purge (seen) (key : Key) (body : frame.body = .claimSlot ∨ frame.body = .deleteSlot) :
      Acts opts c frame seen (.holders (.purge key))

structure Keeps (c after : Connection) : Prop where
  subject : after.subject = c.subject
  instanceID : after.instanceID = c.instanceID
  owner : after.owner = c.owner
  token : after.tokenExpires = c.tokenExpires
  leases : ∀ d db, after.dbs.lookup d = some db → ∃ old, c.dbs.lookup d = some old ∧
    db.key = old.key ∧ db.epoch = old.epoch ∧ db.pageSize = old.pageSize

inductive Ends (opts : Options) (c : Connection) (frame : ClientFrame) : List (Asked Effect) → Connection → Prop where
  | kept {seen : List (Asked Effect)} {after : Connection} (still : Quiet seen) (keeps : Keeps c after) :
      Ends opts c frame seen after
  | closed {req : CloseDB} {db : OpenDB} (answer : ServerFrame) (body : frame.body = .closeDB req)
      (isOpen : c.dbs.lookup req.dbID = some db) :
      Ends opts c frame [⟨.call (.release db.key req.leaseEpoch),.ok ()⟩,⟨.holders (.remove db.key),()⟩,
          ⟨.send answer,()⟩] {c with dbs := c.dbs.erase req.dbID}
  | opened {req : Open} (now : Time) (res : OpenResult) (answer : ServerFrame) (body : frame.body = .openDB req)
      (closed : c.dbs.lookup req.dbID = none) :
      Ends opts c frame [⟨.clock,now⟩,⟨.call (.openDB (openRequest opts c req now)),.ok res⟩,
          ⟨.holders (.set ⟨c.subject,req.dbID⟩ res.lease.epoch),()⟩,⟨.send answer,()⟩]
        (c.put req.dbID ⟨⟨c.subject,req.dbID⟩,res.lease.epoch,res.state.pageSize,none,now⟩)

theorem keepsSelf (c : Connection) : Keeps c c := ⟨rfl,rfl,rfl,rfl,fun _ db found => ⟨db,found,rfl,rfl,rfl⟩⟩

theorem keepsPut {c after : Connection} (keeps : Keeps c after) {d : String} {db new : OpenDB}
    (found : after.dbs.lookup d = some db) (key : new.key = db.key) (epoch : new.epoch = db.epoch)
    (size : new.pageSize = db.pageSize) : Keeps c (after.put d new) := by
  refine ⟨keeps.subject,keeps.instanceID,keeps.owner,keeps.token,?_⟩
  intro other same there
  simp only [Connection.put,lookupInsert] at there
  split at there
  · rename_i here
    subst here
    cases there
    obtain ⟨old,was,oldKey,oldEpoch,oldSize⟩ := keeps.leases other db found
    exact ⟨old,was,key.trans oldKey,epoch.trans oldEpoch,size.trans oldSize⟩
  · exact keeps.leases other same there

theorem keepsErase (c : Connection) (d : String) : Keeps c {c with dbs := c.dbs.erase d} := by
  refine ⟨rfl,rfl,rfl,rfl,?_⟩
  intro other db there
  simp only [lookupErase] at there
  split at there
  · contradiction
  · exact ⟨db,there,rfl,rfl,rfl⟩

theorem quietNil : Quiet [] := fun _ member => absurd member List.not_mem_nil

theorem quietAppend {seen more : List (Asked Effect)} (before : Quiet seen) (rest : Quiet more) :
    Quiet (seen ++ more) :=
  fun y member => (List.mem_append.mp member).elim (before y) (rest y)

theorem quietSnoc {seen : List (Asked Effect)} {x : Asked Effect} (before : Quiet seen)
    (last : quiet x = true) : Quiet (seen ++ [x]) := by
  refine quietAppend before (fun y member => ?_)
  rw [List.mem_singleton.mp member]
  exact last

/- What the loop of a ping has done after some of its rounds. -/
inductive Renewing (opts : Options) (now : Time) (c : Connection) :
    List String → List (Asked Effect) → Connection → Prop where
  | start : Renewing opts now c [] [] c
  | skipped {rounds : List String} {trace : List (Asked Effect)} {reached : Connection} (d : String)
      (earlier : Renewing opts now c rounds trace reached)
      (idle : ∀ db, reached.dbs.lookup d = some db → renewDue opts db now = false) :
      Renewing opts now c (rounds ++ [d]) trace reached
  | refused {rounds : List String} {trace : List (Asked Effect)} {reached : Connection} {d : String} {db : OpenDB}
      (earlier : Renewing opts now c rounds trace reached) (found : reached.dbs.lookup d = some db)
      (due : renewDue opts db now = true) (fault : Fault) : Renewing opts now c (rounds ++ [d])
        (trace ++ [⟨.call (.renew db.key db.epoch now opts.leaseTTL),.error fault⟩]) reached
  | renewed {rounds : List String} {trace : List (Asked Effect)} {reached : Connection} {d : String} {db : OpenDB}
      (earlier : Renewing opts now c rounds trace reached) (found : reached.dbs.lookup d = some db)
      (due : renewDue opts db now = true) : Renewing opts now c (rounds ++ [d])
        (trace ++ [⟨.call (.renew db.key db.epoch now opts.leaseTTL),.ok ()⟩]) (reached.put d {db with renewed := now})

/- Every way in which the handling of a frame can end. -/
inductive Leads (opts : Options) (c : Connection) (frame : ClientFrame) : List (Asked Effect) → Connection → Prop where
  | same {seen : List (Asked Effect)} (still : Quiet seen) (other : frame.isPing = true → frame.requestID = 0) :
      Leads opts c frame seen c
  | marked {seen : List (Asked Effect)} {req : Commit} {db : OpenDB} (pending : Option PendingCommit)
      (still : Quiet seen) (body : frame.body = .commit req) (isOpen : c.dbs.lookup req.dbID = some db) :
      Leads opts c frame seen (c.put req.dbID {db with pending := pending})
  | committed {req : Commit} {db : OpenDB} {pending : PendingCommit} (now : Time) (version : Nat) (answer : ServerFrame)
      (body : frame.body = .commit req) (isOpen : c.dbs.lookup req.dbID = some db) :
      Leads opts c frame [⟨.clock,now⟩,⟨.call (.commit (commitRequest opts db.key pending now)),.ok version⟩,
        ⟨.send answer,()⟩] (c.put req.dbID {db with pending := none, renewed := now})
  | pinged {clientTimeMs : UInt64} {trace : List (Asked Effect)} {after : Connection} (now : Time)
      (order : {order : List String // order.Perm c.dbs.keys}) (answer : ServerFrame)
      (body : frame.body = .ping clientTimeMs) (renewals : Renewing opts now c order.val trace after) :
      Leads opts c frame ([⟨.clock,now⟩,⟨.anyOrder c.dbs.keys,order⟩] ++ trace ++ [⟨.send answer,()⟩]) after
  | closed {req : CloseDB} {db : OpenDB} (answer : ServerFrame) (body : frame.body = .closeDB req)
      (isOpen : c.dbs.lookup req.dbID = some db) :
      Leads opts c frame [⟨.call (.release db.key req.leaseEpoch),.ok ()⟩,⟨.holders (.remove db.key),()⟩,
          ⟨.send answer,()⟩] {c with dbs := c.dbs.erase req.dbID}
  | opened {req : Open} (now : Time) (res : OpenResult) (answer : ServerFrame) (body : frame.body = .openDB req)
      (closed : c.dbs.lookup req.dbID = none) :
      Leads opts c frame [⟨.clock,now⟩,⟨.call (.openDB (openRequest opts c req now)),.ok res⟩,
          ⟨.holders (.set ⟨c.subject,req.dbID⟩ res.lease.epoch),()⟩,⟨.send answer,()⟩]
        (c.put req.dbID ⟨⟨c.subject,req.dbID⟩,res.lease.epoch,res.state.pageSize,none,now⟩)

def ServerBody.isPages : ServerBody → Bool
  | .pages _ => true
  | _ => false

def ClientFrame.isFetch (frame : ClientFrame) : Bool :=
  match frame.body with
  | .fetch _ => true
  | _ => false

def Refused (id : UInt64) (frames : List ServerFrame) : Prop := ∃ e, frames = [⟨id,.error e⟩]

def Once (id : UInt64) (frames : List ServerFrame) : Prop := ∃ body, frames = [⟨id,body⟩] ∧ body.isPages = false

def Paged (id : UInt64) (frames : List ServerFrame) : Prop :=
  ∃ pages, frames = pages.map (pagesFrame id) ∧ Flagged true pages

def accepts (opts : Options) (pending : Option PendingCommit) (req : Commit) : Option PendingCommit :=
  if req.commitID.length ≠ commitIDBytes then none
  else ((req.joins pending).map (fun p => p.add req)).filter (fun p => decide (p.size ≤ opts.maxCommitBytes))

theorem acceptsIff {opts : Options} {pending : Option PendingCommit} {req : Commit} {p : PendingCommit} :
    accepts opts pending req = some p ↔ req.commitID.length = commitIDBytes ∧
      ∃ joined, req.joins pending = some joined ∧ p = joined.add req ∧ p.size ≤ opts.maxCommitBytes := by
  unfold accepts
  split
  · rename_i short
    simp [short]
  · rename_i long
    simp only [Option.filter_eq_some_iff,Option.map_eq_some_iff,decide_eq_true_eq]
    refine ⟨fun found => ?_,fun found => ?_⟩
    · obtain ⟨⟨joined,joins,same⟩,size⟩ := found
      exact ⟨not_not.mp long,joined,joins,same.symm,size⟩
    · obtain ⟨_,joined,joins,same,size⟩ := found
      exact ⟨⟨joined,joins,same.symm⟩,size⟩

def Call.isCommit {β : Type} : Call β → Bool
  | .commit _ => true
  | _ => false

def Effect.failsCommit {β : Type} : Effect β → β → Bool
  | .call k => fun answer => k.isCommit && !answer.isOk
  | _ => fun _ => false

def Joins (opts : Options) (c : Connection) (frame : ClientFrame) : Prop :=
  frame.requestID ≠ 0 ∧ ∃ req db p, frame.body = .commit req ∧ req.more = true ∧ c.dbs.lookup req.dbID = some db ∧
    accepts opts db.pending req = some p

/- A Commit part that does not join it, or that completes a commit which the store refuses. -/
def RefusedPart (opts : Options) (c : Connection) (frame : ClientFrame) (seen : List (Asked Effect)) : Prop :=
  ∃ req, frame.body = .commit req ∧
    ((∀ db, c.dbs.lookup req.dbID = some db → accepts opts db.pending req = none) ∨
      ∃ x ∈ seen, x.effect.failsCommit x.answer = true)

inductive Answered (opts : Options) (c : Connection) (frame : ClientFrame) : List (Asked Effect) → Prop where
  | refused {seen : List (Asked Effect)} (apart : ¬Joins opts c frame) (only : Refused frame.requestID (sent seen)) :
      Answered opts c frame seen
  | once {seen : List (Asked Effect)} (apart : ¬Joins opts c frame) (other : frame.isFetch = false)
      (accepted : ¬RefusedPart opts c frame seen) (only : Once frame.requestID (sent seen)) :
      Answered opts c frame seen
  | paged {seen : List (Asked Effect)} {req : Fetch} (body : frame.body = .fetch req)
      (pages : Paged frame.requestID (sent seen)) : Answered opts c frame seen
  | silent {seen : List (Asked Effect)} (joins : Joins opts c frame) (accepted : ¬RefusedPart opts c frame seen)
      (none : sent seen = []) : Answered opts c frame seen

theorem renewingKeeps {opts : Options} {now : Time} {c after : Connection} {rounds : List String}
    {trace : List (Asked Effect)} (renewing : Renewing opts now c rounds trace after) : Keeps c after ∧ Quiet trace := by
  induction renewing with
  | start => exact ⟨keepsSelf c,quietNil⟩
  | skipped d earlier idle ih => exact ih
  | refused earlier found due fault ih => exact ⟨ih.1,quietSnoc ih.2 rfl⟩
  | renewed earlier found due ih => exact ⟨keepsPut ih.1 found rfl rfl rfl,quietSnoc ih.2 rfl⟩

theorem pingQuiet {opts : Options} {now : Time} {c after : Connection} {keys : List String}
    {order : {order : List String // order.Perm keys}} {trace : List (Asked Effect)} (answer : ServerFrame)
    (renewing : Renewing opts now c order.val trace after) :
    Quiet ([⟨.clock,now⟩,⟨.anyOrder keys,order⟩] ++ trace ++ [⟨.send answer,()⟩]) :=
  quietSnoc (quietAppend (quietSnoc (quietSnoc quietNil rfl) rfl) (renewingKeeps renewing).2) rfl

theorem replied {frame : ServerFrame} {c after : Connection} {actions : List (Asked Effect)}
    (performed : Performs (reply frame c) actions after) : actions = [⟨.send frame,()⟩] ∧ after = c := by
  cases performed with
  | ask answer tail =>
    cases tail with
    | done => exact ⟨rfl,rfl⟩

structure Still (seen : List (Asked Effect)) : Prop where
  quiet : Quiet seen
  unsent : sent seen = []

theorem stillNil : Still [] := ⟨quietNil,rfl⟩

theorem stillSnoc {seen : List (Asked Effect)} {x : Asked Effect} (before : Still seen) (last : quiet x = true)
    (unsent : frameOf x.effect = none) : Still (seen ++ [x]) := by
  refine ⟨quietSnoc before.quiet last,?_⟩
  rw [sentAppend,before.unsent]
  simp only [sent,List.filterMap_cons,unsent,List.filterMap_nil,List.append_nil]

theorem sentLast {seen : List (Asked Effect)} (still : Still seen) (answer : ServerFrame) :
    sent (seen ++ [⟨.send answer,()⟩]) = [answer] := by
  rw [sentAppend,still.unsent]
  rfl

def ClientFrame.plain (frame : ClientFrame) : Bool :=
  match frame.body with
  | .ping _ => false
  | .commit _ => false
  | .fetch _ => false
  | _ => true

section
variable (opts : Options) (c : Connection) (frame : ClientFrame)

/- What handling the frame means for a handler that has already asked what was seen. -/
abbrev Walks (seen : List (Asked Effect)) (p : Handler) : Prop :=
  p.Guarded (Acts opts c frame) (fun seen after => Leads opts c frame seen after ∧ Answered opts c frame seen) seen

variable {opts c frame} {seen : List (Asked Effect)}

theorem notCommit (other : ∀ req, frame.body ≠ .commit req) :
    ¬Joins opts c frame ∧ ∀ seen, ¬RefusedPart opts c frame seen :=
  ⟨fun ⟨_,req,_,_,body,_⟩ => other req body,fun _ ⟨req,body,_⟩ => other req body⟩

theorem plainOther (plain : frame.plain = true) : (frame.isPing = true → frame.requestID = 0) ∧
    frame.isFetch = false ∧ ∀ req, frame.body ≠ .commit req := by
  obtain ⟨id,body⟩ := frame
  cases body <;> simp_all [ClientFrame.plain,ClientFrame.isPing,ClientFrame.isFetch]

theorem walksRefusal (ping : frame.isPing = true → frame.requestID = 0) (apart : ¬Joins opts c frame)
    (failure : Failure) (still : Still seen) : Walks opts c frame seen (fail opts frame.requestID failure c) :=
  ⟨.send seen _,fun _ => ⟨.same (quietSnoc still.quiet rfl) ping,.refused apart ⟨_,sentLast still _⟩⟩⟩

theorem walksFail (plain : frame.plain = true) (failure : Failure) (still : Still seen) :
    Walks opts c frame seen (fail opts frame.requestID failure c) :=
  walksRefusal (plainOther plain).1 (notCommit (plainOther plain).2.2).1 failure still

theorem answeredOnly (plain : frame.plain = true) {body : ServerBody} (page : body.isPages = false)
    (only : sent seen = [⟨frame.requestID,body⟩]) : Answered opts c frame seen :=
  have ⟨_,fetch,other⟩ := plainOther plain
  .once (notCommit other).1 fetch ((notCommit other).2 seen) ⟨body,only,page⟩

theorem walksReply (plain : frame.plain = true) {body : ServerBody} (page : body.isPages = false) (still : Still seen) :
    Walks opts c frame seen (reply ⟨frame.requestID,body⟩ c) :=
  ⟨.send seen _,fun _ => ⟨.same (quietSnoc still.quiet rfl) (plainOther plain).1,
    answeredOnly plain page (sentLast still _)⟩⟩

theorem walksSendAll (ping : frame.isPing = true → frame.requestID = 0) (quiet : Quiet seen) {frames : List ServerFrame}
    (answered : ∀ {later}, sent later = sent seen ++ frames → Answered opts c frame later) :
    Walks opts c frame seen (sendAll c frames) := by
  induction frames generalizing seen with
  | nil => exact ⟨.same quiet ping,answered (List.append_nil _).symm⟩
  | cons answer rest ih =>
    refine ⟨.send seen answer,fun _ => ih (quietSnoc quiet rfl) fun same => answered ?_⟩
    rw [same,sentAppend,List.append_assoc]
    rfl

theorem walksPurgeAll (body : frame.body = .claimSlot ∨ frame.body = .deleteSlot) (still : Still seen)
    {next : Handler} (last : ∀ {seen}, Still seen → Walks opts c frame seen next) (keys : List Key) :
    Walks opts c frame seen (purgeAll next keys) := by
  induction keys generalizing seen with
  | nil => exact last still
  | cons key rest ih => exact ⟨.purge seen key body,fun _ => ih (stillSnoc still rfl rfl)⟩

theorem walksOpen {req : Open} (body : frame.body = .openDB req) :
    Walks opts c frame [] (c.openDB opts frame.requestID req) := by
  have plain : frame.plain = true := by rw [ClientFrame.plain,body]
  unfold Connection.openDB
  cases checkDBID req.dbID with
  | some complaint => exact walksFail plain _ stillNil
  | none =>
    simp only
    split
    · exact walksFail plain _ stillNil
    · rename_i absent
      have closed : c.dbs.lookup req.dbID = none := by simpa using absent
      refine ⟨.clock _,fun now => ⟨.openDB now body closed,fun answer => ?_⟩⟩
      cases answer with
      | error fault => exact walksFail plain _ (stillSnoc (stillSnoc stillNil rfl rfl) rfl rfl)
      | ok res =>
        exact ⟨.set now res body closed,fun _ => ⟨.send _ _,fun _ =>
          ⟨.opened now res _ body closed,answeredOnly plain rfl rfl⟩⟩⟩

theorem walksFetchRuns {req : Fetch} {db : OpenDB} (body : frame.body = .fetch req)
    (isOpen : c.dbs.lookup req.dbID = some db) (still : Still seen) (only : ∀ x ∈ seen, x.effect.fetchCount.isSome)
    {failed : Fault → Handler} {next : List (List Bytes) → Handler}
    (refused : ∀ {seen}, Still seen → ∀ fault, Walks opts c frame seen (failed fault))
    (last : ∀ {seen}, Still seen → ∀ runs, runs.length = req.asked.length → Walks opts c frame seen (next runs))
    {runs : List (List Bytes)} {ranges : List Range} (listed : ∀ r ∈ ranges, r ∈ req.asked)
    (whole : runs.length+ranges.length = req.asked.length) :
    Walks opts c frame seen (fetchRuns db.key req.version failed next runs ranges) := by
  induction ranges generalizing seen runs with
  | nil => exact last still runs whole
  | cons r rest ih =>
    refine ⟨.fetch seen body isOpen (listed r List.mem_cons_self) only,fun answer => ?_⟩
    cases answer with
    | error fault => exact refused (stillSnoc still rfl rfl) fault
    | ok blocks =>
      refine ih (stillSnoc still rfl rfl) ?_ (fun r later => listed r (List.mem_cons_of_mem _ later)) ?_
      · intro x member
        rcases List.mem_append.mp member with earlier | new
        · exact only x earlier
        · rw [List.mem_singleton.mp new]
          rfl
      · rw [List.length_append,List.length_singleton,Nat.add_assoc,Nat.add_comm 1]
        exact whole

theorem pagedRuns (id : UInt64) (pageSize : UInt32) {req : Fetch} {runs : List (List Bytes)}
    (whole : runs.length = req.asked.length) :
    Paged id (pageFrames id (blocksPerFrame opts pageSize) (req.asked.zip runs)) := by
  have some_ : req.asked.zip runs ≠ [] := by
    intro empty
    have length := congrArg List.length empty
    rw [List.length_zip,whole,Nat.min_self] at length
    exact askedNonempty req (List.length_eq_zero_iff.mp length)
  obtain ⟨groups,frames,grouped⟩ := pageFramesGrouped id (blocksPerFramePositive opts pageSize) some_
  exact ⟨groups.flatten,frames,grouped.flagged⟩

theorem walksFetch {req : Fetch} (body : frame.body = .fetch req) :
    Walks opts c frame [] (c.fetch opts frame.requestID req) := by
  have ping : frame.isPing = true → frame.requestID = 0 := by simp [ClientFrame.isPing,body]
  have apart : ¬Joins opts c frame := (notCommit (fun _ other => by rw [body] at other; contradiction)).1
  unfold Connection.fetch
  cases isOpen : c.dbs.lookup req.dbID with
  | none => exact walksRefusal ping apart _ stillNil
  | some db =>
    simp only
    split
    · exact walksRefusal ping apart _ stillNil
    · split
      · exact walksRefusal ping apart _ stillNil
      · refine walksFetchRuns body isOpen stillNil (fun _ member => absurd member List.not_mem_nil)
          (fun still fault => walksRefusal ping apart _ still) (fun still runs whole => ?_)
          (fun _ member => member) (Nat.zero_add _)
        refine walksSendAll ping still.quiet fun same => .paged body ?_
        rw [same,still.unsent]
        exact pagedRuns _ _ whole

theorem walksChanged {req : Changed} (body : frame.body = .changed req) :
    Walks opts c frame [] (c.changed opts frame.requestID req) := by
  have plain : frame.plain = true := by rw [ClientFrame.plain,body]
  unfold Connection.changed
  cases isOpen : c.dbs.lookup req.dbID with
  | none => exact walksFail plain _ stillNil
  | some db =>
    refine ⟨.changes body isOpen,fun answer => ?_⟩
    cases answer with
    | error fault => exact walksFail plain _ (stillSnoc stillNil rfl rfl)
    | ok set => exact walksReply plain rfl (stillSnoc stillNil rfl rfl)

theorem continuesIff (header : Header) (frame : Commit) : continues header frame = true ↔ frame.header = header := by
  simp only [continues,Bool.and_eq_true,beq_iff_eq,Commit.header]
  refine ⟨fun same => ?_,fun same => ?_⟩
  · obtain ⟨⟨⟨id,epoch⟩,base⟩,count⟩ := same
    rw [← id,← epoch,← base,← count]
  · rw [← same]
    exact ⟨⟨⟨rfl,rfl⟩,rfl⟩,rfl⟩

theorem joinsHeader {req : Commit} {pending : Option PendingCommit} {joined : PendingCommit}
    (joins : req.joins pending = some joined) : (joined.add req).header = req.header := by
  unfold Commit.joins at joins
  split at joins
  · cases joins; rfl
  · obtain ⟨_,accepted⟩ := Option.filter_eq_some_iff.mp joins
    simp only [Bool.and_eq_true] at accepted
    exact ((continuesIff _ _).mp accepted.2).symm

section
variable {req : Commit} {db : OpenDB} (body : frame.body = .commit req) (isOpen : c.dbs.lookup req.dbID = some db)
include body isOpen

theorem joinsOpen (joins : Joins opts c frame) : req.more = true ∧ ∃ p, accepts opts db.pending req = some p := by
  obtain ⟨_,other,found,p,is,more,there,accepted⟩ := joins
  rw [body] at is
  cases is
  cases isOpen.symm.trans there
  exact ⟨more,p,accepted⟩

theorem acceptedPart {p : PendingCommit} (accepted : accepts opts db.pending req = some p)
    (passed : ∀ x ∈ seen, x.effect.failsCommit x.answer = false) : ¬RefusedPart opts c frame seen := by
  rintro ⟨other,is,unaccepted | ⟨x,member,failed⟩⟩
  · rw [body] at is
    cases is
    rw [unaccepted db isOpen] at accepted
    contradiction
  · rw [passed x member] at failed
    contradiction

theorem walksMarked {after : OpenDB} (same : ∃ pending, after = {db with pending := pending}) (failure : Failure)
    (apart : ¬Joins opts c frame) (still : Still seen) :
    Walks opts c frame seen (fail opts frame.requestID failure (c.put req.dbID after)) := by
  obtain ⟨pending,rfl⟩ := same
  exact ⟨.send seen _,fun _ => ⟨.marked pending (quietSnoc still.quiet rfl) body isOpen,.refused apart ⟨_,sentLast still _⟩⟩⟩

end

theorem walksCommit {req : Commit} (numbered : frame.requestID ≠ 0) (body : frame.body = .commit req) :
    Walks opts c frame [] (c.commit opts frame.requestID req) := by
  unfold Connection.commit
  cases isOpen : c.dbs.lookup req.dbID with
  | none =>
    refine walksRefusal (by simp [ClientFrame.isPing,body]) ?_ _ stillNil
    rintro ⟨_,other,found,_,is,_,there,_⟩
    rw [body] at is
    cases is
    rw [isOpen] at there
    contradiction
  | some db =>
    have unjoined (unaccepted : accepts opts db.pending req = none) : ¬Joins opts c frame := by
      intro joins
      obtain ⟨_,p,accepted⟩ := joinsOpen body isOpen joins
      rw [unaccepted] at accepted
      contradiction
    simp only
    split
    · rename_i short
      exact walksMarked body isOpen ⟨none,rfl⟩ _ (unjoined (by simp [accepts,short])) stillNil
    rename_i long
    cases joins : req.joins db.pending with
    | none => exact walksMarked body isOpen ⟨none,rfl⟩ _ (unjoined (by simp [accepts,joins])) stillNil
    | some joined =>
      simp only
      split
      · rename_i large
        exact walksMarked body isOpen ⟨none,rfl⟩ _ (unjoined (by simpa [accepts,joins] using fun _ => large)) stillNil
      rename_i fits
      have accepted : accepts opts db.pending req = some (joined.add req) :=
        acceptsIff.mpr ⟨not_not.mp long,joined,joins,rfl,Nat.le_of_not_lt fits⟩
      split
      · rename_i more
        refine ⟨.marked _ quietNil body isOpen,.silent ⟨numbered,req,db,_,body,more,isOpen,accepted⟩ ?_ rfl⟩
        exact acceptedPart body isOpen accepted (fun _ member => absurd member List.not_mem_nil)
      · rename_i last
        have apart : ¬Joins opts c frame := fun joins => last (joinsOpen body isOpen joins).1
        refine ⟨.clock _,fun now => ⟨.commit now body isOpen (joinsHeader joins),fun answer => ?_⟩⟩
        cases answer with
        | error fault => exact walksMarked body isOpen ⟨none,rfl⟩ _ apart (stillSnoc (stillSnoc stillNil rfl rfl) rfl rfl)
        | ok version =>
          refine ⟨.send _ _,fun _ => ⟨.committed now version _ body isOpen,.once apart ?_ ?_ ⟨_,rfl,rfl⟩⟩⟩
          · rw [ClientFrame.isFetch,body]
          · refine acceptedPart body isOpen accepted (fun x member => ?_)
            rcases List.mem_cons.mp member with rfl | member
            · rfl
            rcases List.mem_cons.mp member with rfl | member
            · rfl
            · rw [List.mem_singleton.mp member]
              rfl

theorem walksRenewAll {now : Time} {first : List (Asked Effect)} (ping : frame.isPing = true)
    {next : Connection → Handler} {keys : List String}
    (last : ∀ {trace after}, Renewing opts now c keys trace after → Walks opts c frame (first ++ trace) (next after))
    {rounds : List String} {trace : List (Asked Effect)} {reached : Connection}
    (renewing : Renewing opts now c rounds trace reached) (rest : List String) (whole : rounds ++ rest = keys) :
    Walks opts c frame (first ++ trace) (renewAll opts now next reached rest) := by
  induction rest generalizing rounds trace reached with
  | nil =>
    rw [List.append_nil] at whole
    exact last (whole ▸ renewing)
  | cons d rest ih =>
    have round : (rounds ++ [d]) ++ rest = keys := by rw [List.append_assoc]; exact whole
    unfold renewAll
    cases found : reached.dbs.lookup d with
    | none => exact ih (.skipped d renewing (by simp [found])) round
    | some db =>
      obtain ⟨old,isOpen,key,epoch,_⟩ := (renewingKeeps renewing).1.leases d db found
      simp only
      split
      · rename_i early
        exact ih (.skipped d renewing (by simpa [found] using early)) round
      · rename_i due
        have due : renewDue opts db now = true := by simpa using due
        refine ⟨by rw [key,epoch]; exact .renew _ now ping isOpen,fun answer => ?_⟩
        rw [List.append_assoc]
        cases answer with
        | error fault => exact ih (.refused renewing found due fault) round
        | ok _ => exact ih (.renewed renewing found due) round

theorem renewingUnsent {now : Time} {rounds : List String} {trace : List (Asked Effect)} {after : Connection}
    (renewing : Renewing opts now c rounds trace after) : sent trace = [] := by
  induction renewing with
  | start => rfl
  | skipped d earlier idle ih => exact ih
  | refused earlier found due fault ih => rw [sentAppend,ih]; rfl
  | renewed earlier found due ih => rw [sentAppend,ih]; rfl

theorem walksPing {clientTimeMs : UInt64} (body : frame.body = .ping clientTimeMs) :
    Walks opts c frame [] (c.ping opts frame.requestID clientTimeMs) := by
  have ping : frame.isPing = true := by rw [ClientFrame.isPing,body]
  have ⟨apart,accepted⟩ : ¬Joins opts c frame ∧ ∀ seen, ¬RefusedPart opts c frame seen :=
    notCommit (fun _ other => by rw [body] at other; contradiction)
  refine ⟨.clock _,fun now => ⟨.order _ _,fun order => ?_⟩⟩
  have last {trace : List (Asked Effect)} {after : Connection} (renewing : Renewing opts now c order.val trace after) :
      Walks opts c frame ([⟨.clock,now⟩,⟨.anyOrder c.dbs.keys,order⟩] ++ trace)
        (reply ⟨frame.requestID,.pong clientTimeMs⟩ after) := by
    refine ⟨.send _ _,fun _ => ⟨.pinged now order _ body renewing,.once apart ?_ (accepted _) ⟨.pong clientTimeMs,?_,rfl⟩⟩⟩
    · rw [ClientFrame.isFetch,body]
    · rw [sentAppend,sentAppend,renewingUnsent renewing]
      rfl
  exact walksRenewAll ping last .start order.val (List.nil_append _)

theorem walksClose {req : CloseDB} (body : frame.body = .closeDB req) :
    Walks opts c frame [] (c.closeDB opts frame.requestID req) := by
  have plain : frame.plain = true := by rw [ClientFrame.plain,body]
  unfold Connection.closeDB
  cases isOpen : c.dbs.lookup req.dbID with
  | none => exact walksFail plain _ stillNil
  | some db =>
    refine ⟨.release body isOpen,fun answer => ?_⟩
    cases answer with
    | error fault => exact walksFail plain _ (stillSnoc stillNil rfl rfl)
    | ok _ =>
      exact ⟨.remove body isOpen,fun _ => ⟨.send _ _,fun _ => ⟨.closed _ body isOpen,answeredOnly plain rfl rfl⟩⟩⟩

theorem walksDelete {req : Delete} (body : frame.body = .delete req) :
    Walks opts c frame [] (c.deleteDB opts frame.requestID req) := by
  have plain : frame.plain = true := by rw [ClientFrame.plain,body]
  unfold Connection.deleteDB
  cases checkDBID req.dbID with
  | some complaint => exact walksFail plain _ stillNil
  | none =>
    simp only
    split
    · exact walksFail plain _ stillNil
    · rename_i absent
      have closed : c.dbs.lookup req.dbID = none := by simpa using absent
      refine ⟨.clock _,fun now => ⟨.delete now body closed,fun answer => ?_⟩⟩
      have still {answer : Except Fault DeleteResult} : Still ([] ++ [(⟨.clock,now⟩ : Asked Effect)] ++
          [⟨.call (.delete ⟨⟨c.subject,req.dbID⟩,req.takeover,now⟩),answer⟩]) :=
        stillSnoc (stillSnoc stillNil rfl rfl) (by cases answer <;> rfl) rfl
      cases answer with
      | error fault => exact walksFail plain _ still
      | ok res =>
        simp only
        split
        · rename_i deleted
          exact ⟨.revoke now res body closed deleted,fun _ => walksReply plain rfl (stillSnoc still rfl rfl)⟩
        · exact walksReply plain rfl still

theorem walksClaim (body : frame.body = .claimSlot) : Walks opts c frame [] (c.claimSlot opts frame.requestID) := by
  have plain : frame.plain = true := by rw [ClientFrame.plain,body]
  unfold Connection.claimSlot
  split
  · exact walksFail plain _ stillNil
  · rename_i owned
    refine ⟨.clock _,fun now => ⟨.claimSlot now body owned,fun answer => ?_⟩⟩
    cases answer with
    | error fault => exact walksFail plain _ (stillSnoc (stillSnoc stillNil rfl rfl) rfl rfl)
    | ok res =>
      exact walksPurgeAll (.inl body) (stillSnoc (stillSnoc stillNil rfl rfl) rfl rfl)
        (fun still => walksReply plain rfl still) res.deleted

theorem walksLabel {label : String} (body : frame.body = .setSlotLabel label) :
    Walks opts c frame [] (c.setSlotLabel opts frame.requestID label) := by
  have plain : frame.plain = true := by rw [ClientFrame.plain,body]
  unfold Connection.setSlotLabel
  split
  · exact walksFail plain _ stillNil
  · rename_i owned
    split
    · exact walksFail plain _ stillNil
    · refine ⟨.setSlotLabel body owned,fun answer => ?_⟩
      cases answer with
      | error fault => exact walksFail plain _ (stillSnoc stillNil rfl rfl)
      | ok slot => exact walksReply plain rfl (stillSnoc stillNil rfl rfl)

theorem walksDeleteSlot (body : frame.body = .deleteSlot) :
    Walks opts c frame [] (c.deleteSlot opts frame.requestID) := by
  have plain : frame.plain = true := by rw [ClientFrame.plain,body]
  unfold Connection.deleteSlot
  split
  · exact walksFail plain _ stillNil
  · rename_i owned
    split
    · exact walksFail plain _ stillNil
    · refine ⟨.deleteSlot body owned,fun answer => ?_⟩
      cases answer with
      | error fault => exact walksFail plain _ (stillSnoc stillNil rfl rfl)
      | ok deleted =>
        exact walksPurgeAll (.inr body) (stillSnoc stillNil rfl rfl) (fun still => walksReply plain rfl still) deleted

variable (opts c frame) in
theorem walksHandle : Walks opts c frame [] (c.handle opts frame) := by
  unfold Connection.handle
  split
  · rename_i zero
    have refused : Walks opts c frame [] (fail opts frame.requestID (.complaint .requestIDZero) c) :=
      walksRefusal (fun _ => zero) (fun joins => joins.1 zero) _ stillNil
    rwa [zero] at refused
  · rename_i numbered
    split
    · exact walksOpen (by assumption)
    · exact walksFetch (by assumption)
    · exact walksCommit numbered (by assumption)
    · exact walksChanged (by assumption)
    · exact walksPing (by assumption)
    · exact walksClose (by assumption)
    · exact walksDelete (by assumption)
    · exact walksClaim (by assumption)
    · exact walksDeleteSlot (by assumption)
    · exact walksLabel (by assumption)
    · rename_i body
      exact walksFail (by rw [ClientFrame.plain,body]) _ stillNil
    · rename_i body
      exact walksFail (by rw [ClientFrame.plain,body]) _ stillNil
    · rename_i body
      exact walksFail (by rw [ClientFrame.plain,body]) _ stillNil

theorem acts {β : Type} {e : Effect β} {next : β → Handler}
    (partly : Partly (c.handle opts frame) seen (.ask e next)) : Acts opts c frame seen e :=
  (partlyGuarded _ _ (walksHandle opts c frame) partly).1

theorem leads {after : Connection} (partly : Partly (c.handle opts frame) seen (.done after)) :
    Leads opts c frame seen after :=
  (partlyGuarded _ _ (walksHandle opts c frame) partly).1

theorem handledLeads {after : Connection} (performed : Performs (c.handle opts frame) seen after) :
    (∀ x ∈ seen, ∃ earlier, Acts opts c frame earlier x.effect) ∧ Leads opts c frame seen after :=
  have ⟨asked,ended⟩ := performsGuarded _ _ (walksHandle opts c frame) performed
  ⟨asked,ended.1⟩

theorem actsFetching {β : Type} {e : Effect β} {count : UInt64} (acts : Acts opts c frame seen e)
    (fetches : e.fetchCount = some count) : (∃ req, frame.body = .fetch req ∧ ∃ r ∈ req.asked, r.count = count) ∧
      ∀ x ∈ seen, x.effect.fetchCount.isSome := by
  cases acts with
  | fetch seen body isOpen listed only => exact ⟨⟨_,body,_,listed,Option.some.inj fetches⟩,only⟩
  | _ => contradiction

theorem fetchesUnsent (only : ∀ x ∈ seen, x.effect.fetchCount.isSome) : sent seen = [] := by
  refine List.filterMap_eq_nil_iff.mpr (fun x member => ?_)
  have fetches := only x member
  obtain ⟨effect,answer⟩ := x
  cases effect with
  | send frame => contradiction
  | _ => rfl

theorem oversizedFetches {β : Type} {k : Call β} (oversized : k.oversized opts = true) :
    ∃ count, (Effect.call k).fetchCount = some count ∧ opts.platform.maxSlice < count.toNat := by
  cases k with
  | fetch key version first count => exact ⟨count,rfl,of_decide_eq_true oversized⟩
  | _ => contradiction

/- A call that panics is one for a range of a Fetch, and nothing has been sent before it. -/
theorem panickedUnsent {β : Type} {k : Call β} {next : Except Fault β → Handler}
    (partly : Partly (c.handle opts frame) seen (.ask (.call k) next)) (oversized : k.oversized opts = true) :
    (∀ x ∈ seen, x.effect.fetchCount.isSome) ∧ sent seen = [] ∧
      ∃ req, frame.body = .fetch req ∧ ∃ r ∈ req.asked, opts.platform.maxSlice < r.count.toNat := by
  obtain ⟨count,fetches,large⟩ := oversizedFetches oversized
  obtain ⟨⟨req,body,r,listed,rfl⟩,only⟩ := actsFetching (acts partly) fetches
  exact ⟨only,fetchesUnsent only,req,body,r,listed,large⟩

theorem leadsEnds {after : Connection} (led : Leads opts c frame seen after) : Ends opts c frame seen after := by
  cases led with
  | same still other => exact .kept still (keepsSelf c)
  | marked pending still body isOpen => exact .kept still (keepsPut (keepsSelf c) isOpen rfl rfl rfl)
  | committed now version answer body isOpen =>
    exact .kept (quietSnoc (quietSnoc (quietSnoc quietNil rfl) rfl) rfl) (keepsPut (keepsSelf c) isOpen rfl rfl rfl)
  | pinged now order answer body renewals => exact .kept (pingQuiet answer renewals) (renewingKeeps renewals).1
  | closed answer body isOpen => exact .closed answer body isOpen
  | opened now res answer body closed => exact .opened now res answer body closed

theorem ends {after : Connection} (partly : Partly (c.handle opts frame) seen (.done after)) :
    Ends opts c frame seen after :=
  leadsEnds (leads partly)

end

def NamedDBs (c : Connection) : Prop := ∀ d db, c.dbs.lookup d = some db → db.key = ⟨c.subject,d⟩

theorem namedKept {c after : Connection} (keeps : Keeps c after) (named : NamedDBs c) : NamedDBs after := by
  intro d db found
  obtain ⟨old,was,key,_⟩ := keeps.leases d db found
  rw [key,keeps.subject]
  exact named d old was

theorem namedLoggedIn (subject : String) (instanceID : Bytes) (owner : String) (tokenExpires : Option Time) :
    NamedDBs (.loggedIn subject instanceID owner tokenExpires) := by
  intro d db found
  simp [Connection.loggedIn] at found

theorem namedEnds {opts : Options} {c after : Connection} {frame : ClientFrame} {seen : List (Asked Effect)}
    (ended : Ends opts c frame seen after) (named : NamedDBs c) : NamedDBs after := by
  cases ended with
  | kept still keeps => exact namedKept keeps named
  | closed answer body isOpen => exact namedKept (keepsErase c _) named
  | opened now res answer body closed =>
    intro d db found
    simp only [Connection.put,lookupInsert] at found
    split at found
    · rename_i here
      cases found
      rw [here]
      rfl
    · exact named d db found

end SqliteRemote.Protocol
