import SqliteRemote.MemoryLeases
import SqliteRemote.ServerConfig
import SqliteRemote.ServerRuns

/-! A client that pings keeps its leases. A ping extends a lease only when half of its duration has
passed, so between two pings a lease has at least a ping interval left; commits and other databases
move the extensions but never bring an expiry forward. Time is what the store is called with: the
moments at which the store hears of a key, and at which the pings of a connection are handled. -/
namespace SqliteRemote.Server
open Rows StoreContract Programs Protocol
open MemoryStore (Store Database record WellformedStore lasting HeldStep)

def timedCall {β : Type} : Call β → Option (Key × Time)
  | .openDB req => some (req.key,req.now)
  | .commit req => some (req.key,req.now)
  | .renew key _ now _ => some (key,now)
  | .delete req => some (req.key,req.now)
  | _ => none

def timedEffect {β : Type} : Effect β → Option (Key × Time)
  | .call k => timedCall k
  | _ => none

def reading {β : Type} : Effect β → β → Option Time
  | .clock => fun now => some now
  | _ => fun _ => none

def readings (seen : List (Asked Effect)) : List Time := seen.filterMap (fun x => reading x.effect x.answer)

/- The time of a ping that a connection has handled. A frame with the request ID 0 is refused. -/
def pingTime (frame : ClientFrame) (seen : List (Asked Effect)) : Option Time :=
  if frame.isPing = true ∧ frame.requestID ≠ 0 then (readings seen).head? else none

def pingedAt (id : Nat) (e : Event) : Option Time :=
  match e.op,e.before.connections id with
  | .proceed connection _,.working _ frame seen (.done _) => if connection = id then pingTime frame seen else none
  | _,_ => none

def momentOf (id : Nat) (k : Key) (e : Event) : Option Time :=
  match e.reply.asked with
  | some (_,x) => ((timedEffect x.effect).filter (fun timed => timed.1 == k)).map Prod.snd
  | none => pingedAt id e

def moments (id : Nat) (k : Key) (events : List Event) : List Time := events.filterMap (momentOf id k)

def pings (id : Nat) (events : List Event) : List Time := events.filterMap (pingedAt id)

def loses (k : Key) (e : Event) : Bool := (holderOf e.before k).isSome && (holderOf e.after k).isNone

def openedBy {β : Type} : Call β → β → Option OpenRequest
  | .openDB req => fun _ => some req
  | _ => fun _ => none

/- Another connection takes the database over, or opens it with the instance ID of the lease. -/
def retakes (id : Nat) (k : Key) (e : Event) : Bool :=
  e.reply.asked.any fun (connection,x) => (returned openedBy x).any fun req =>
    connection != id && req.key == k && req.resume.isNone &&
      (req.takeover || bytesEqual (holderOf e.before k) req.instanceID)

def disturbs (id : Nat) (k : Key) (e : Event) : Bool := loses k e || retakes id k e

def extendedCall {β : Type} : Call β → β → Option (Key × Time)
  | .openDB req => fun _ => some (req.key,req.now)
  | .commit req => fun _ => some (req.key,req.now)
  | .renew key _ now _ => fun _ => some (key,now)
  | _ => fun _ => none

def releasedCall {β : Type} : Call β → β → Option Key
  | .release key _ => fun _ => some key
  | _ => fun _ => none

def renewCall {β : Type} : Call β → Option (Key × Nat)
  | .renew key epoch _ _ => some (key,epoch)
  | _ => none

def denied {β : Type} : Effect β → β → Option (Key × Nat)
  | .call k => fun answer => if answer.toOption.isNone then renewCall k else none
  | _ => fun _ => none

section
variable (ttl : Duration) (k : Key) (epoch : Nat) (bound : Time)

structure Sound (x : Asked Effect) : Prop where
  extended : ∀ now, returned extendedCall x = some (k,now) → now+ttl ≤ bound
  renewed : denied x.effect x.answer ≠ some (k,epoch)
  kept : returned releasedCall x ≠ some k

/- The connection has the database open and believes in no later extension than the store. -/
def Keeping (c : Connection) : Prop :=
  ∃ db, c.dbs.lookup k.dbID = some db ∧ db.key = k ∧ db.epoch = epoch ∧ db.renewed+ttl ≤ bound

def Opening (seen : List (Asked Effect)) : Prop := ∃ x ∈ seen, ∃ res, opened x = some (k,res) ∧ res.lease.epoch = epoch

def Alive : Activity → Prop
  | .absent => False
  | .waiting c => Keeping ttl k epoch bound c
  | .working c _ seen _ => (Keeping ttl k epoch bound c ∨ Opening k epoch seen) ∧ ∀ x ∈ seen, Sound ttl k epoch bound x
  | _ => True

end

section
variable {ttl : Duration} {k : Key} {epoch : Nat} {bound later : Time}

theorem soundLater (order : bound ≤ later) {x : Asked Effect} (sound : Sound ttl k epoch bound x) :
    Sound ttl k epoch later x :=
  ⟨fun now extended => Int.le_trans (sound.extended now extended) order,sound.renewed,sound.kept⟩

theorem keepingLater (order : bound ≤ later) {c : Connection} (keeping : Keeping ttl k epoch bound c) :
    Keeping ttl k epoch later c := by
  obtain ⟨db,found,key,same,renewed⟩ := keeping
  exact ⟨db,found,key,same,Int.le_trans renewed order⟩

theorem aliveLater (order : bound ≤ later) {activity : Activity} (alive : Alive ttl k epoch bound activity) :
    Alive ttl k epoch later activity := by
  cases activity with
  | absent => exact alive
  | waiting c => exact keepingLater order alive
  | working c frame seen rest =>
    exact ⟨alive.1.imp_left (keepingLater order),fun x member => soundLater order (alive.2 x member)⟩
  | leaving keys => trivial
  | gone => trivial

theorem keepingPut {c : Connection} {d : String} {new : OpenDB} (keeping : Keeping ttl k epoch bound c)
    (here : d = k.dbID → new.key = k ∧ new.epoch = epoch ∧ new.renewed+ttl ≤ bound) :
    Keeping ttl k epoch bound (c.put d new) := by
  by_cases same : d = k.dbID
  · exact ⟨new,by simp [Connection.put,same],here same⟩
  · obtain ⟨db,found,rest⟩ := keeping
    refine ⟨db,?_,rest⟩
    rw [Connection.put,lookupInsert,if_neg (Ne.symm same)]
    exact found

end

theorem halfLasts {ttl ping now renewed bound : Int} (positive : 0 < ping) (twice : 2*ping ≤ ttl)
    (early : ¬ ttl.tdiv 2 ≤ now-renewed) (lasts : renewed+ttl ≤ bound) : now+ping < bound := by
  rw [Int.tdiv_eq_ediv_of_nonneg (by omega)] at early
  omega

theorem wholeLasts {ttl ping now bound : Int} (positive : 0 < ping) (twice : 2*ping ≤ ttl) (lasts : now+ttl ≤ bound) :
    now+ping < bound := by
  omega

section
variable {opts : Options} {ping : Duration} {k : Key} {epoch : Nat} {bound : Time} (paced : Paced ping opts.leaseTTL)
include paced

theorem undueLasts {db : OpenDB} {now : Time} (undue : renewDue opts db now = false)
    (renewed : db.renewed+opts.leaseTTL ≤ bound) : now+ping < bound :=
  halfLasts paced.positive paced.twice (of_decide_eq_false undue) renewed

theorem renewedLasts {now : Time} (renewed : now+opts.leaseTTL ≤ bound) : now+ping < bound :=
  wholeLasts paced.positive paced.twice renewed

theorem renewingKeeping {now : Time} {c after : Connection} {rounds : List String} {trace : List (Asked Effect)}
    (renewing : Renewing opts now c rounds trace after) (keeping : Keeping opts.leaseTTL k epoch bound c)
    (sound : ∀ x ∈ trace, Sound opts.leaseTTL k epoch bound x) :
    Keeping opts.leaseTTL k epoch bound after ∧ (k.dbID ∈ rounds → now+ping < bound) := by
  induction renewing with
  | start => exact ⟨keeping,fun member => absurd member List.not_mem_nil⟩
  | skipped d earlier idle ih =>
    obtain ⟨kept,lasts⟩ := ih sound
    refine ⟨kept,fun member => ?_⟩
    rcases List.mem_append.mp member with before | here
    · exact lasts before
    · obtain ⟨db,found,_,_,renewed⟩ := kept
      rw [List.mem_singleton.mp here] at found
      exact undueLasts paced (idle db found) renewed
  | @refused rounds trace reached d db earlier found due fault ih =>
    obtain ⟨kept,lasts⟩ := ih (fun x member => sound x (List.mem_append_left _ member))
    refine ⟨kept,fun member => ?_⟩
    rcases List.mem_append.mp member with before | here
    · exact lasts before
    · obtain ⟨db',there,key,same,_⟩ := kept
      rw [List.mem_singleton.mp here] at there
      cases found.symm.trans there
      refine absurd ?_ (sound _ (List.mem_append_right _ List.mem_cons_self)).renewed
      rw [← key,← same]
      rfl
  | @renewed rounds trace reached d db earlier found due ih =>
    obtain ⟨kept,lasts⟩ := ih (fun x member => sound x (List.mem_append_left _ member))
    have last := (sound _ (List.mem_append_right _ List.mem_cons_self)).extended now
    have known : d = k.dbID → db.key = k ∧ db.epoch = epoch := by
      intro same
      obtain ⟨db',there,key,epoch,_⟩ := kept
      rw [← same] at there
      cases found.symm.trans there
      exact ⟨key,epoch⟩
    have extended : d = k.dbID → now+opts.leaseTTL ≤ bound := by
      intro same
      refine last ?_
      rw [← (known same).1]
      rfl
    refine ⟨keepingPut kept (fun same => ⟨(known same).1,(known same).2,extended same⟩),fun member => ?_⟩
    rcases List.mem_append.mp member with before | here
    · exact lasts before
    · exact renewedLasts paced (extended (List.mem_singleton.mp here).symm)

omit paced in
theorem unpingedTime {frame : ClientFrame} (other : frame.isPing = true → frame.requestID = 0)
    (seen : List (Asked Effect)) : pingTime frame seen = none :=
  if_neg (fun both => both.2 (other both.1))

omit paced in
theorem quietUnopening {seen : List (Asked Effect)} (still : Quiet seen) : ¬ Opening k epoch seen := by
  intro opening
  obtain ⟨x,member,res,gave,_⟩ := opening
  have quiet := still x member
  simp [Protocol.quiet,gave] at quiet

theorem leadsKeeping {c after : Connection} {frame : ClientFrame} {seen : List (Asked Effect)}
    (leads : Leads opts c frame seen after) (has : Keeping opts.leaseTTL k epoch bound c ∨ Opening k epoch seen)
    (sound : ∀ x ∈ seen, Sound opts.leaseTTL k epoch bound x) : Keeping opts.leaseTTL k epoch bound after := by
  cases leads with
  | same still other => exact has.resolve_right (quietUnopening still)
  | @marked seen req db pending still body isOpen =>
    have keeping := has.resolve_right (quietUnopening still)
    refine keepingPut keeping (fun here => ?_)
    obtain ⟨db',there,rest⟩ := keeping
    rw [← here,isOpen] at there
    cases there
    exact rest
  | @committed req db pending now version answer body isOpen =>
    have keeping := has.resolve_right (quietUnopening (quietSnoc (quietSnoc (quietSnoc quietNil rfl) rfl) rfl))
    refine keepingPut keeping (fun here => ?_)
    obtain ⟨db',there,key,same,_⟩ := keeping
    rw [← here,isOpen] at there
    cases there
    refine ⟨key,same,?_⟩
    refine (sound _ (List.mem_cons_of_mem _ List.mem_cons_self)).extended now ?_
    rw [← key]
    rfl
  | pinged now order answer body renewals =>
    have keeping := has.resolve_right (quietUnopening (pingQuiet answer renewals))
    have traced := fun x member => sound x (List.mem_append_left _ (List.mem_append_right _ member))
    exact (renewingKeeping paced renewals keeping traced).1
  | @closed req db answer body isOpen =>
    have keeping := has.resolve_right (by simp [Opening,opened,returned,Effect.returned,Call.opened,Except.toOption])
    obtain ⟨db',there,key,rest⟩ := keeping
    refine ⟨db',?_,key,rest⟩
    rw [lookupErase]
    split
    · rename_i here
      rw [here,isOpen] at there
      cases there
      refine absurd ?_ (sound _ List.mem_cons_self).kept
      rw [← key]
      rfl
    · exact there
  | @opened req now res answer body closed =>
    rcases has with keeping | opening
    · refine keepingPut keeping (fun here => ?_)
      obtain ⟨db',there,_⟩ := keeping
      rw [← here,closed] at there
      contradiction
    · obtain ⟨x,member,given,gave,same⟩ := opening
      simp only [List.mem_cons,List.not_mem_nil,or_false] at member
      rcases member with rfl | rfl | rfl | rfl
      · contradiction
      · cases gave
        have renewed : now+opts.leaseTTL ≤ bound :=
          (sound _ (List.mem_cons_of_mem _ List.mem_cons_self)).extended now rfl
        exact ⟨_,AList.lookup_insert _,rfl,same,renewed⟩
      · contradiction
      · contradiction

/- A ping looks at every open database, so what it does not extend lasts until the next one. -/
theorem leadsLasting {c after : Connection} {frame : ClientFrame} {seen : List (Asked Effect)} {t : Time}
    (leads : Leads opts c frame seen after) (has : Keeping opts.leaseTTL k epoch bound c ∨ Opening k epoch seen)
    (sound : ∀ x ∈ seen, Sound opts.leaseTTL k epoch bound x) (timed : pingTime frame seen = some t) :
    t+ping < bound := by
  have unpinged (other : frame.isPing = true → frame.requestID = 0) : t+ping < bound := by
    rw [unpingedTime other] at timed
    contradiction
  cases leads with
  | same still other => exact unpinged other
  | marked pending still body isOpen => exact unpinged (by simp [ClientFrame.isPing,body])
  | committed now version answer body isOpen => exact unpinged (by simp [ClientFrame.isPing,body])
  | closed answer body isOpen => exact unpinged (by simp [ClientFrame.isPing,body])
  | opened now res answer body closed => exact unpinged (by simp [ClientFrame.isPing,body])
  | pinged now order answer body renewals =>
    have keeping := has.resolve_right (quietUnopening (pingQuiet answer renewals))
    have traced := fun x member => sound x (List.mem_append_left _ (List.mem_append_right _ member))
    have listed : k.dbID ∈ order.val := by
      obtain ⟨db,found,_⟩ := keeping
      exact order.property.mem_iff.mpr (AList.mem_keys.mp (AList.lookup_isSome.mp (by rw [found]; rfl)))
    have lasts := (renewingKeeping paced renewals keeping traced).2 listed
    have read : pingTime frame _ = some t := timed
    unfold pingTime at read
    split at read
    · cases read
      exact lasts
    · contradiction

theorem aliveTurn {action : Action} {id : Nat} {before after : Activity} {x : Option (Asked Effect)}
    (turn : Turns opts action id before x after)
    (sane : ∀ c frame seen rest, before = .working c frame seen rest → Partly (c.handle opts frame) seen rest)
    (alive : Alive opts.leaseTTL k epoch bound before) (sound : ∀ y, x = some y → Sound opts.leaseTTL k epoch bound y) :
    Alive opts.leaseTTL k epoch bound after := by
  cases turn with
  | same => exact alive
  | loggedIn => exact alive.elim
  | received c frame sent => exact ⟨.inl alive,fun _ member => absurd member List.not_mem_nil⟩
  | asked c frame seen e next answer =>
    refine ⟨alive.1.imp_right (fun opening => ?_),fun y member => ?_⟩
    · obtain ⟨y,member,rest⟩ := opening
      exact ⟨y,List.mem_append_left _ member,rest⟩
    · rcases List.mem_append.mp member with earlier | last
      · exact alive.2 y earlier
      · exact sound y (congrArg some (List.mem_singleton.mp last).symm)
  | finished c frame seen after => exact leadsKeeping paced (leads (sane _ _ _ _ rfl)) alive.1 alive.2
  | panicked c frame seen next oversized => trivial
  | leaves c => trivial
  | removed key keys => trivial
  | ended => trivial

theorem pingedLasts {e : Event} {id : Nat} {t : Time} (sane : Sane opts e.before)
    (alive : Alive opts.leaseTTL k epoch bound (e.before.connections id)) (pinged : pingedAt id e = some t) :
    t+ping < bound := by
  unfold pingedAt at pinged
  split at pinged
  · rename_i was
    split at pinged
    · rw [was] at alive
      exact leadsLasting paced (leads (sane _ _ _ _ _ was)) alive.1 alive.2 pinged
    · contradiction
  · contradiction

end

def openAsked {β : Type} : Effect β → Option OpenRequest
  | .call (.openDB req) => some req
  | _ => none

def lastingAsked (leaseID : Bytes) {β : Type} : Effect β → Option (Key × Time × Duration)
  | .call k => lasting (opOf leaseID k)
  | _ => none

section
variable {opts : Options} {c : Connection} {frame : ClientFrame} {seen : List (Asked Effect)} {β : Type} {e : Effect β}
  (acts : Acts opts c frame seen e)
include acts

theorem actsOpen {req : OpenRequest} (asks : openAsked e = some req) :
    ∃ r now, req = openRequest opts c r now ∧ c.dbs.lookup r.dbID = none ∧ seen = [⟨.clock,now⟩] := by
  cases acts with
  | openDB now body closed =>
    cases asks
    exact ⟨_,now,rfl,closed,rfl⟩
  | _ => cases asks

theorem actsLasting {leaseID : Bytes} {k : Key} {now : Time} {ttl : Duration}
    (lasts : lastingAsked leaseID e = some (k,now,ttl)) : ttl = opts.leaseTTL ∧ timedEffect e = some (k,now) := by
  cases acts with
  | openDB | commit | renew => cases lasts; exact ⟨rfl,rfl⟩
  | _ => cases lasts

end

inductive Stays (opts : Options) (id : Nat) (k : Key) (e : Event) (db : Database) : Prop where
  | same (after : record e.after.shared.store k = some db)
  | extended {new : Database} {now : Time} (after : record e.after.shared.store k = some new)
      (lease : new.lease = db.lease) (holder : new.holder = db.holder) (moment : momentOf id k e = some now)
      (lasts : new.expiresAt = now+opts.leaseTTL)
  | expired {now : Time} (moment : momentOf id k e = some now) (late : db.expiresAt ≤ now)

section
variable {opts : Options} {e : Event} {id : Nat} {k : Key} {db : Database}

theorem momentCall {j : Nat} {β : Type} {effect : Effect β} {answer : β} {now : Time}
    (asked : e.reply.asked = some (j,⟨effect,answer⟩)) (timed : timedEffect effect = some (k,now)) :
    momentOf id k e = some now := by
  simp [momentOf,asked,timed]

theorem losesLease (found : record e.before.shared.store k = some db) (held : db.holder.isSome)
    (gone : (record e.after.shared.store k).bind Database.holder = none) : loses k e = true := by
  have had : holderOf e.before k = db.holder := by rw [holderOf,found]; rfl
  have lost : holderOf e.after k = none := gone
  simp [loses,had,held,lost]

theorem opensElsewhere {ttl : Duration} {epoch : Nat} {bound : Time} {c : Connection} {frame : ClientFrame}
    {seen : List (Asked Effect)} {rest : Handler} {β : Type} {effect : Effect β} {req : OpenRequest}
    (acts : Acts opts c frame seen effect) (asks : openAsked effect = some req)
    (alive : Alive ttl k epoch bound (.working c frame seen rest)) : req.key ≠ k := by
  intro same
  obtain ⟨r,now,rfl,closed,rfl⟩ := actsOpen acts asks
  rcases alive.1 with ⟨other,open_,_⟩ | ⟨x,member,res,gave,_⟩
  · have named : r.dbID = k.dbID := congrArg Key.dbID same
    rw [← named,closed] at open_
    contradiction
  · rw [List.mem_singleton.mp member] at gave
    contradiction

/- An Open that is granted the lease anew without disturbing came after its end. -/
theorem grantedLate {j : Nat} {req : OpenRequest} {leaseID : Bytes} {result : OpenResult}
    (valid : WellformedStore e.before.shared.store) (found : record e.before.shared.store k = some db)
    (asked : e.reply.asked = some (j,⟨.call (.openDB req),declared (e.before.shared.store.open req leaseID).1⟩))
    (opened : (e.before.shared.store.open req leaseID).1 = .ok result) (other : j ≠ id) (key : req.key = k)
    (fresh : req.resume = none) (held : db.holder.isSome) (untaken : retakes id k e = false) : db.expiresAt ≤ req.now := by
  have had : holderOf e.before k = db.holder := by rw [holderOf,found]; rfl
  have late : db.active req.now = false := by
    cases active : db.active req.now with
    | false => rfl
    | true =>
      rw [opened] at asked
      have polite : req.takeover = false ∧ bytesEqual db.holder req.instanceID = false := by
        simpa [retakes,asked,returned,Effect.returned,declared,Except.toOption,openedBy,key,fresh,had,other] using untaken
      rw [MemoryStore.openHeld valid (key ▸ found) active fresh polite.1 polite.2] at opened
      contradiction
  simpa [Database.active,held] using late

theorem heldStays {ttl : Duration} {epoch : Nat} {bound : Time} (did : Shares opts e.before e.op e.reply e.after.shared)
    (sane : Sane opts e.before) (valid : WellformedStore e.before.shared.store)
    (found : record e.before.shared.store k = some db) (held : db.holder.isSome)
    (alive : Alive ttl k epoch bound (e.before.connections id)) (calm : disturbs id k e = false) :
    Stays opts id k e db := by
  simp only [disturbs,Bool.or_eq_false_iff] at calm
  obtain ⟨unlost,untaken⟩ := calm
  have lose : (record e.after.shared.store k).bind Database.holder ≠ none := by
    intro gone
    rw [losesLease found held gone] at unlost
    contradiction
  obtain ⟨before,action,reply,after⟩ := e
  simp only at did found alive lose valid sane
  generalize shared : after.shared = there at did
  cases did with
  | same => exact .same (by rw [shared]; exact found)
  | registered choice was => cases ‹HolderCall› <;> exact .same (by rw [shared]; exact found)
  | removed choice was => exact .same (by rw [shared]; exact found)
  | swept cutoff limit tie =>
    have step := MemoryStore.heldStep valid (.deleteUnused cutoff limit tie) found held
    have store : record (MemoryStore.step before.shared.store (.deleteUnused cutoff limit tie)).2 k =
        record after.shared.store k := by rw [shared]; rfl
    rw [store] at step
    generalize now_ : record after.shared.store k = out at step lose
    cases step with
    | same => exact .same now_
    | extended asked lease holder until_ => contradiction
    | lost gone => exact absurd gone lose
    | granted asked key fresh opened => contradiction
  | @called j c frame seen β call next choice was =>
    have step := MemoryStore.heldStep valid (opOf choice.leaseID call) found held
    rw [callStep] at step
    have store : record (Server.call before.shared.store choice.leaseID call).2 k = record after.shared.store k := by
      rw [shared]
    rw [store] at step
    have does := acts (sane _ _ _ _ _ was)
    generalize now_ : record after.shared.store k = out at step lose
    cases step with
    | same => exact .same now_
    | extended asked lease holder until_ =>
      obtain ⟨rfl,timed⟩ := actsLasting does asked
      exact .extended now_ lease holder (momentCall rfl timed) until_
    | lost gone => exact absurd gone lose
    | @granted req leaseID result _ asked key fresh opened =>
      cases call with
      | openDB asking =>
        cases asked
        have other : j ≠ id := by
          intro same
          rw [← same,was] at alive
          exact opensElsewhere does rfl alive key
        have answer : (before.shared.store.open req choice.leaseID).1.map Reply.opened = .ok (.opened result) := opened
        cases outcome : (before.shared.store.open req choice.leaseID).1 with
        | error err =>
          rw [outcome] at answer
          contradiction
        | ok res =>
          exact .expired (momentCall rfl (by rw [← key]; rfl))
            (grantedLate valid found rfl outcome other key fresh held untaken)
      | _ => contradiction

theorem localSound {ttl : Duration} {epoch : Nat} {bound : Time} {x : Asked Effect} (apart : x.effect.isLocal = true) :
    Sound ttl k epoch bound x := by
  obtain ⟨effect,answer⟩ := x
  cases effect with
  | clock | send | anyOrder => exact ⟨fun _ was => (nomatch was),fun was => (nomatch was),fun was => (nomatch was)⟩
  | _ => contradiction

theorem extendedLasting {β : Type} {call : Call β} {answer : β} {now : Time} (leaseID : Bytes)
    (extended : extendedCall call answer = some (k,now)) : ∃ ttl, lasting (opOf leaseID call) = some (k,now,ttl) := by
  cases call with
  | openDB | commit | renew => cases extended; exact ⟨_,rfl⟩
  | _ => contradiction

theorem neverDenied {β : Type} {call : Call β} {s : Store} {leaseID : Bytes} (found : record s k = some db)
    (held : db.holder.isSome) : denied (.call call) (declared (Server.call s leaseID call).1) ≠ some (k,db.lease.epoch) := by
  intro refused
  cases call with
  | renew key epoch now ttl =>
    have asked : key = k ∧ epoch = db.lease.epoch := by
      simp only [denied,renewCall] at refused
      split at refused
      · cases refused
        exact ⟨rfl,rfl⟩
      · contradiction
    obtain ⟨rfl,rfl⟩ := asked
    simp [denied,Server.call,MemoryStore.renewHeld found held,declared,Except.toOption] at refused
  | _ => simp [denied,renewCall] at refused

theorem neverReleased {β : Type} {call : Call β} {s : Store} {leaseID : Bytes} {new : Database}
    (after : record (Server.call s leaseID call).2 k = some new)
    (still : new.holder.isSome) :
    returned releasedCall ⟨.call call,declared (Server.call s leaseID call).1⟩ ≠ some k := by
  intro gave
  cases call with
  | release key epoch =>
    have outcome := MemoryStore.releaseStep s key epoch
    simp only [Server.call] at after gave
    generalize s.release key epoch = out at after gave outcome
    cases outcome with
    | refused e => contradiction
    | used there usable =>
      cases gave
      rw [MemoryStore.recordPut,if_pos rfl] at after
      cases after
      contradiction
  | _ => simp [returned,Effect.returned,releasedCall] at gave

theorem soundAsked {x : Asked Effect} {new : Database} (did : Shares opts e.before e.op e.reply e.after.shared)
    (sane : Sane opts e.before) (valid : WellformedStore e.before.shared.store)
    (found : record e.before.shared.store k = some db) (held : db.holder.isSome)
    (asked : e.reply.asked = some (id,x)) (now_ : record e.after.shared.store k = some new) (still : new.holder.isSome) :
    Sound opts.leaseTTL k db.lease.epoch new.expiresAt x := by
  obtain ⟨before,action,reply,after⟩ := e
  simp only at did sane valid found asked now_
  generalize after.shared = there at did now_
  cases did with
  | same action out apart => exact localSound (apart _ asked)
  | registered choice was =>
    cases asked
    exact ⟨fun _ was => (nomatch was),fun was => (nomatch was),fun was => (nomatch was)⟩
  | removed choice was =>
    cases asked
    exact ⟨fun _ was => (nomatch was),fun was => (nomatch was),fun was => (nomatch was)⟩
  | swept cutoff limit tie => contradiction
  | @called j c frame seen β call next choice was =>
    cases asked
    refine ⟨fun now extended => ?_,neverDenied found held,neverReleased now_ still⟩
    cases outcome : (Server.call before.shared.store choice.leaseID call).1 with
    | error err =>
      rw [outcome] at extended
      contradiction
    | ok answer =>
      rw [outcome] at extended
      obtain ⟨ttl,lasts⟩ := extendedLasting choice.leaseID extended
      obtain ⟨rfl,_⟩ := actsLasting (acts (sane _ _ _ _ _ was)) lasts
      have succeeds : (MemoryStore.step before.shared.store (opOf choice.leaseID call)).1 = .ok (replyOf call answer) := by
        rw [callStep,outcome]
        rfl
      have same := MemoryStore.lastingRecord valid lasts succeeds (by rw [callStep]; exact now_)
      exact Int.le_of_eq same.symm

end

def Secure (opts : Options) (ping : Duration) (id : Nat) (k : Key) (lease : Lease) (w : World) (clock beat : Time) : Prop :=
  ∃ db, record w.shared.store k = some db ∧ db.holder.isSome ∧ db.lease = lease ∧ beat+ping < db.expiresAt ∧
    db.expiresAt ≤ clock+opts.leaseTTL ∧ Alive opts.leaseTTL k lease.epoch db.expiresAt (w.connections id)

section
variable {opts : Options} {ping : Duration} {e : Event} {id : Nat} {k : Key} {lease : Lease} {clock beat : Time}
  (stepped : e.before.step opts e.op = (e.reply,e.after))
include stepped

theorem pingedMoment {t : Time} (pinged : pingedAt id e = some t) : momentOf id k e = some t := by
  have silent_ : e.reply.asked = none := by
    unfold pingedAt at pinged
    split at pinged
    · rename_i choice c frame seen after acted was
      split at pinged
      · rename_i same
        subst same
        have does := congrArg (fun out => out.1.asked) stepped
        rw [acted] at does
        simp only [World.step,was] at does
        exact does.symm
      · contradiction
    · contradiction
  rw [momentOf,silent_]
  exact pinged

theorem secureStep (paced : Paced ping opts.leaseTTL) (sane : Sane opts e.before)
    (valid : WellformedStore e.before.shared.store) (calm : disturbs id k e = false)
    (order : clock ≤ (momentOf id k e).getD clock) (secure : Secure opts ping id k lease e.before clock beat) :
    Secure opts ping id k lease e.after ((momentOf id k e).getD clock) ((pingedAt id e).getD beat) ∨
    (pingedAt id e).getD beat+ping < (momentOf id k e).getD clock := by
  obtain ⟨db,found,held,rfl,lasts,recent,alive⟩ := secure
  have did : Shares opts e.before e.op e.reply e.after.shared := by
    have shared := shares opts e.before e.op
    rw [stepped] at shared
    exact shared
  have turn : Turns opts e.op id (e.before.connections id) (askedBy id e.reply) (e.after.connections id) := by
    have turned := turns opts e.before e.op id
    rw [stepped] at turned
    exact turned
  have sound {new : Database} (now_ : record e.after.shared.store k = some new) (still : new.holder.isSome) (y : Asked Effect)
      (asked : askedBy id e.reply = some y) : Sound opts.leaseTTL k db.lease.epoch new.expiresAt y :=
    soundAsked did sane valid found held ((askedByIff id e.reply y).mp asked) now_ still
  have beats : (pingedAt id e).getD beat+ping < db.expiresAt := by
    cases pinged : pingedAt id e with
    | none => exact lasts
    | some t => exact pingedLasts paced sane alive pinged
  cases heldStays did sane valid found held alive calm with
  | same now_ =>
    refine .inl ⟨db,now_,held,rfl,beats,Int.le_trans recent (Int.add_le_add_right order _),?_⟩
    exact aliveTurn paced turn (sane id) alive (sound now_ held)
  | @extended new now now_ same holder moment until_ =>
    rw [moment] at order ⊢
    have longer : db.expiresAt ≤ new.expiresAt := by
      rw [until_]
      exact Int.le_trans recent (Int.add_le_add_right order _)
    have still : new.holder.isSome := by rw [holder]; exact held
    refine .inl ⟨new,now_,still,same,Int.lt_of_lt_of_le beats longer,Int.le_of_eq until_,?_⟩
    exact aliveTurn paced turn (sane id) (aliveLater longer alive) (sound now_ still)
  | expired moment late =>
    rw [moment]
    exact .inr (Int.lt_of_lt_of_le beats late)

theorem overStep (order : clock ≤ (momentOf id k e).getD clock) (soon : ∀ t, pingedAt id e = some t → t ≤ beat+ping)
    (missed : beat+ping < clock) : (pingedAt id e).getD beat+ping < (momentOf id k e).getD clock := by
  cases pinged : pingedAt id e with
  | none => exact Int.lt_of_lt_of_le missed order
  | some t =>
    rw [pingedMoment stepped pinged] at order
    exact absurd (Int.lt_of_lt_of_le missed order) (Int.not_lt.mpr (soon t pinged))

end

section
variable {f : Event → Option Time} {e : Event} {rest : List Event} {a : Time}

theorem sortedNext (sorted : (a :: (e :: rest).filterMap f).Pairwise (· ≤ ·)) :
    a ≤ (f e).getD a ∧ ((f e).getD a :: rest.filterMap f).Pairwise (· ≤ ·) := by
  cases here : f e with
  | none =>
    rw [List.filterMap_cons_none here] at sorted
    exact ⟨Int.le_refl a,sorted⟩
  | some t =>
    rw [List.filterMap_cons_some here] at sorted
    exact ⟨List.rel_of_pairwise_cons sorted List.mem_cons_self,sorted.tail⟩

theorem chainNext {R : Time → Time → Prop} (chain : (a :: (e :: rest).filterMap f).IsChain R) :
    (∀ t, f e = some t → R a t) ∧ ((f e).getD a :: rest.filterMap f).IsChain R := by
  cases here : f e with
  | none =>
    rw [List.filterMap_cons_none here] at chain
    exact ⟨fun t found => (nomatch found),chain⟩
  | some t =>
    rw [List.filterMap_cons_some here] at chain
    obtain ⟨first,more⟩ := List.isChain_cons_cons.mp chain
    refine ⟨fun other found => ?_,more⟩
    cases found
    exact first

theorem lastNext : ((e :: rest).filterMap f).getLastD a = (rest.filterMap f).getLastD ((f e).getD a) := by
  cases here : f e with
  | none => rw [List.filterMap_cons_none here]; rfl
  | some t => rw [List.filterMap_cons_some here]; exact List.getLastD_cons

end

theorem secureRun {opts : Options} {ping : Duration} {id : Nat} {k : Key} {lease : Lease} (paced : Paced ping opts.leaseTTL)
    {later : List Action} {w : World} {clock beat : Time} (sane : Sane opts w) (valid : WellformedStore w.shared.store)
    (inTime : (clock :: moments id k (History.history (World.step opts) w later)).Pairwise (· ≤ ·))
    (pinging : (beat :: pings id (History.history (World.step opts) w later)).IsChain (fun s t => t ≤ s+ping))
    (calm : ∀ e ∈ History.history (World.step opts) w later, disturbs id k e = false)
    (start : Secure opts ping id k lease w clock beat ∨ beat+ping < clock) :
    Secure opts ping id k lease (History.run (World.step opts) w later)
      ((moments id k (History.history (World.step opts) w later)).getLastD clock)
      ((pings id (History.history (World.step opts) w later)).getLastD beat) ∨
    (pings id (History.history (World.step opts) w later)).getLastD beat+ping <
      (moments id k (History.history (World.step opts) w later)).getLastD clock := by
  induction later generalizing w clock beat with
  | nil => exact start
  | cons action later ih =>
    obtain ⟨order,sorted⟩ := sortedNext inTime
    obtain ⟨soon,more⟩ := chainNext pinging
    have here := calm _ List.mem_cons_self
    have next : _ ∨ _ := start.elim (secureStep rfl paced sane valid here order)
      (fun missed => .inr (overStep rfl order soon missed))
    have rest := ih (saneStep opts w action sane) (wellformedShared opts w action valid) sorted more
      (fun e member => calm e (List.mem_cons_of_mem _ member)) next
    rw [moments,pings] at rest ⊢
    rw [History.history,lastNext,lastNext]
    exact rest

theorem askedOpen {opts : Options} {w : World} {action : Action} {id : Nat} {req : OpenRequest} {res : OpenResult}
    (asked : (w.step opts action).1.asked = some (id,⟨.call (.openDB req),.ok res⟩)) :
    ∃ c frame seen next choice, action = .proceed id choice ∧
      w.connections id = .working c frame seen (.ask (.call (.openDB req)) next) ∧
      (w.shared.store.open req choice.leaseID).1 = .ok res := by
  obtain ⟨β,call,c,frame,seen,next,choice,rfl,was,same,_⟩ := toldByStore opts asked (rfl : opened _ = some (req.key,res))
  have opens := congrArg (fun x => openAsked x.effect) same
  have gave := congrArg opened same
  cases call with
  | openDB asking =>
    cases opens
    refine ⟨c,frame,seen,next,choice,rfl,was,?_⟩
    simp only [Server.call] at gave
    cases outcome : (w.shared.store.open req choice.leaseID).1 with
    | error err =>
      rw [outcome] at gave
      cases gave
    | ok given =>
      rw [outcome] at gave
      cases gave
      rfl
  | _ => cases opens

theorem openedRecord {s : Store} (valid : WellformedStore s) {req : OpenRequest} {leaseID : Bytes} {res : OpenResult}
    (named : req.instanceID.isSome) (succeeds : (s.open req leaseID).1 = .ok res) :
    ∃ db, record (s.open req leaseID).2 req.key = some db ∧ db.holder.isSome ∧ db.lease = res.lease ∧
      db.expiresAt = req.now+req.ttl := by
  have outcome := MemoryStore.openStep valid.unheld req leaseID
  generalize s.open req leaseID = out at outcome succeeds
  cases outcome with
  | refused e => contradiction
  | @resumed db r found live asked held same =>
    cases succeeds
    simp only [Database.holds,Bool.and_eq_true] at held
    exact ⟨db.extend (req.now+req.ttl),by rw [MemoryStore.recordPut,if_pos rfl],held.1,rfl,rfl⟩
  | granted | revived | created =>
    cases succeeds
    exact ⟨_,by rw [MemoryStore.recordPut,if_pos rfl],named,rfl,rfl⟩

theorem openedSecure {opts : Options} {ping : Duration} {w : World} {action : Action} {id : Nat} {req : OpenRequest}
    {res : OpenResult} (paced : Paced ping opts.leaseTTL) (sane : Sane opts w) (valid : WellformedStore w.shared.store)
    (asked : (w.step opts action).1.asked = some (id,⟨.call (.openDB req),.ok res⟩)) :
    Secure opts ping id req.key res.lease (w.step opts action).2 req.now req.now := by
  obtain ⟨c,frame,seen,next,choice,rfl,was,succeeds⟩ := askedOpen asked
  obtain ⟨r,now,rfl,closed,rfl⟩ := actsOpen (acts (sane _ _ _ _ _ was)) rfl
  obtain ⟨db,found,held,lease,lasts⟩ := openedRecord valid rfl succeeds
  have after : (w.step opts (.proceed id choice)).2.connections id = .working c frame
      [⟨.clock,now⟩,⟨.call (.openDB (openRequest opts c r now)),.ok res⟩] (next (.ok res)) := by
    simp [World.step,was,Shared.panics,Shared.answer,Server.call,succeeds,declared,World.put]
  refine ⟨db,?_,held,lease,renewedLasts paced (Int.le_of_eq lasts.symm),Int.le_of_eq lasts,?_⟩
  · simpa [World.step,was,Shared.panics,Shared.answer,Server.call] using found
  · rw [after]
    refine ⟨.inr ⟨_,List.mem_cons_of_mem _ List.mem_cons_self,res,rfl,rfl⟩,fun x member => ?_⟩
    simp only [List.mem_cons,List.not_mem_nil,or_false] at member
    rcases member with rfl | rfl
    · exact localSound rfl
    · refine ⟨fun time extended => ?_,fun released => ?_,fun refused => ?_⟩
      · cases extended
        exact Int.le_of_eq lasts.symm
      · cases released
      · cases refused

theorem pingingKeepsLease {cfg : Config} {lib : Library} {platform : Platform} {past later : List Action} {action : Action}
    {id : Nat} {req : OpenRequest} {res : OpenResult} {events : List Event} {now : Time}
    (accepted : cfg.validate lib = none) (unwrapped : 2*cfg.pingInterval < 2^63)
    (opened : ((run (cfg.options platform) past).step (cfg.options platform) action).1.asked =
      some (id,⟨.call (.openDB req),.ok res⟩))
    (since : events =
      History.history (World.step (cfg.options platform)) (run (cfg.options platform) (past ++ [action])) later)
    (inTime : (req.now :: moments id req.key events).Pairwise (· ≤ ·))
    (pinging : (req.now :: pings id events).IsChain (fun s t => t ≤ s+cfg.pingInterval))
    (calm : ∀ e ∈ events, disturbs id req.key e = false)
    (passed : ∀ t ∈ req.now :: moments id req.key events, t ≤ now)
    (soon : now ≤ (pings id events).getLastD req.now+cfg.pingInterval) :
    ∃ db, record (run (cfg.options platform) (past ++ [action] ++ later)).shared.store req.key = some db ∧
      db.lease = res.lease ∧ db.active now = true ∧
      ∀ other leaseID, other.key = req.key → other.now = now → other.resume = none → other.takeover = false →
        bytesEqual db.holder other.instanceID = false →
        (run (cfg.options platform) (past ++ [action] ++ later)).shared.store.open other leaseID =
          (.error ((run (cfg.options platform) (past ++ [action] ++ later)).shared.store.refusal other db),
            (run (cfg.options platform) (past ++ [action] ++ later)).shared.store) := by
  generalize options : cfg.options platform = opts at *
  have paced : Paced cfg.pingInterval opts.leaseTTL := by
    rw [← options]
    exact validPaced accepted unwrapped
  have sane (actions : List Action) : Sane opts (run opts actions) :=
    History.invariantRun _ (saneStep opts) (saneStart opts) actions
  have valid (actions : List Action) : WellformedStore (run opts actions).shared.store :=
    History.invariantRun _ (wellformedShared opts) MemoryStore.wellformedNew actions
  have first : run opts (past ++ [action]) = ((run opts past).step opts action).2 := History.runAppend _ _ past [action]
  have last : run opts (past ++ [action] ++ later) = History.run (World.step opts) (run opts (past ++ [action])) later :=
    History.runAppend _ _ (past ++ [action]) later
  have secure : Secure opts cfg.pingInterval id req.key res.lease (run opts (past ++ [action])) req.now req.now := by
    rw [first]
    exact openedSecure paced (sane past) (valid past) opened
  subst since
  rcases secureRun paced (sane _) (valid _) inTime pinging calm (.inl secure) with secure | missed
  · obtain ⟨db,found,held,lease,lasts,_⟩ := secure
    have active : db.active now = true := by
      simp only [Database.active,held,Bool.true_and,decide_eq_true_eq]
      exact Int.lt_of_le_of_lt soon lasts
    rw [← last] at found
    refine ⟨db,found,lease,active,fun other leaseID key time fresh polite differs => ?_⟩
    rw [← key] at found
    exact MemoryStore.openHeld (valid _) found (by rw [time]; exact active) fresh polite differs leaseID
  · have latest := passed _ List.getLastD_mem_cons
    exact absurd (Int.lt_of_lt_of_le missed (Int.le_trans latest soon)) (Int.lt_irrefl _)

def shortLease : Config :=
  {defaultConfig with addr := ":8080", serverID := "wss://vfs.example/v1/ws", store := storeMemory, leaseTTL := 20*second}

def plainLibrary : Library := ⟨id,fun _ => "",fun _ => none⟩

def plainPlatform : Platform := ⟨id,fun _ => "",2^48/24⟩

def shortOptions : Options := shortLease.options plainPlatform

theorem shortLeaseValid : shortLease.validate plainLibrary = none := by decide +kernel

def opensFirst : List Action :=
  [.logIn 0 "alice" [1] "" none,.logIn 1 "alice" [2] "" none] ++ handled 0 (openFrame false) ⟨0,[7],[]⟩ 1

def openChoice : Choice := ⟨0,[7],[]⟩

def sinceOpen (later : List Action) : List Event :=
  History.history (World.step shortOptions) (run shortOptions (opensFirst ++ [.proceed 0 openChoice])) later

def pingFrame : ClientFrame := ⟨5,.ping 0⟩

/- A ping before half of the lease has passed, one after it, and another instance in between. -/
def pingsOn : List Action :=
  List.replicate 3 (.proceed 0 openChoice) ++ handled 0 pingFrame ⟨9*second,[],["db"]⟩ 4 ++
    handled 1 (openFrame false) ⟨18*second,[8],[]⟩ 4 ++ handled 0 pingFrame ⟨19*second,[],["db"]⟩ 5

def firstOpen : OpenRequest := ⟨aliceKey,"",some [1],512,true,false,none,0,20*second⟩

def firstAnswer : OpenResult := ⟨⟨[7],1⟩,⟨512,0,0,[]⟩,false⟩

theorem firstOpened : ((run shortOptions opensFirst).step shortOptions (.proceed 0 openChoice)).1.asked =
    some (0,⟨.call (.openDB firstOpen),.ok firstAnswer⟩) := rfl

theorem pingingKeepsShortLease : pings 0 (sinceOpen pingsOn) = [9*second,19*second] ∧
    ∃ db, record (run shortOptions (opensFirst ++ [.proceed 0 openChoice] ++ pingsOn)).shared.store aliceKey = some db ∧
      db.lease = ⟨[7],1⟩ ∧ db.active (29*second) = true := by
  have beats : pings 0 (sinceOpen pingsOn) = [9*second,19*second] := by decide +kernel
  have times : moments 0 firstOpen.key (sinceOpen pingsOn) = [9*second,18*second,19*second,19*second] := by decide +kernel
  have since : sinceOpen pingsOn = History.history (World.step (shortLease.options plainPlatform))
      (run (shortLease.options plainPlatform) (opensFirst ++ [.proceed 0 openChoice])) pingsOn := rfl
  have passed : ∀ t ∈ firstOpen.now :: moments 0 firstOpen.key (sinceOpen pingsOn), t ≤ 29*second := by
    rw [times]
    decide
  obtain ⟨db,found,lease,active,_⟩ := pingingKeepsLease shortLeaseValid (by decide) firstOpened since (by rw [times]; decide)
    (by rw [beats]; decide) (by decide +kernel) passed (by rw [beats]; decide)
  exact ⟨beats,db,found,lease,active⟩

def failureOf {β : Type} : Effect β → β → Option Error
  | .call _ => fun answer => match answer with
    | .error (.declared err) => some err
    | _ => none
  | _ => fun _ => none

def otherSize : List Action :=
  List.replicate 3 (.proceed 0 openChoice) ++ handled 1 ⟨1,.openDB ⟨"db",1024,false,false,none⟩⟩ ⟨5*second,[8],[]⟩ 2

theorem otherSizeRefused : shortLease.validate plainLibrary = none ∧
    ((run shortOptions opensFirst).step shortOptions (.proceed 0 openChoice)).1.asked =
      some (0,⟨.call (.openDB firstOpen),.ok firstAnswer⟩) ∧
    moments 0 aliceKey (sinceOpen otherSize) = [5*second] ∧ pings 0 (sinceOpen otherSize) = [] ∧
    (∀ e ∈ sinceOpen otherSize, disturbs 0 aliceKey e = false) ∧
    (sinceOpen otherSize).getLast?.bind (fun e => e.reply.asked.map (fun x =>
        (openAsked x.2.effect,failureOf x.2.effect x.2.answer))) =
      some (some ⟨aliceKey,"",some [2],1024,false,false,none,5*second,20*second⟩,
        some (.badRequest (.otherPageSize 1024 512))) :=
  ⟨shortLeaseValid,firstOpened,by decide +kernel,by decide +kernel,by decide +kernel,by decide +kernel⟩

end SqliteRemote.Server
