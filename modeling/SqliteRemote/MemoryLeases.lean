import SqliteRemote.MemoryInvariant

/-! A lease that somebody holds. An operation leaves its record alone, extends the lease, ends it or
grants it anew; while the lease is active, an Open of another instance that does not take over is
refused. -/
namespace SqliteRemote.MemoryStore
open Rows StoreContract

def lasting : Op → Option (Key × Time × Duration)
  | .openDatabase req _ => some (req.key,req.now,req.ttl)
  | .commit req => some (req.key,req.now,req.ttl)
  | .renew key _ now ttl => some (key,now,ttl)
  | _ => none

inductive HeldStep (k : Key) (db : Database) (op : Op) (reply : Answer) : Option Database → Prop where
  | same : HeldStep k db op reply (some db)
  | extended {new : Database} {now : Time} {ttl : Duration} (asked : lasting op = some (k,now,ttl))
      (lease : new.lease = db.lease) (holder : new.holder = db.holder) (until_ : new.expiresAt = now+ttl) :
      HeldStep k db op reply (some new)
  | lost {after : Option Database} (gone : after.bind Database.holder = none) : HeldStep k db op reply after
  | granted {req : OpenRequest} {id : Bytes} {result : OpenResult} {after : Option Database}
      (asked : op = .openDatabase req id) (key : req.key = k) (fresh : req.resume = none)
      (opened : reply = .ok (.opened result)) : HeldStep k db op reply after

theorem heldStep {s : Store} (valid : WellformedStore s) (op : Op) {k : Key} {db : Database}
    (found : record s k = some db) (held : db.holder.isSome) :
    HeldStep k db op (step s op).1 (record (step s op).2 k) := by
  have did := recordStep valid.unheld op k
  generalize (step s op).1 = reply at did ⊢
  generalize record (step s op).2 k = after at did ⊢
  cases did with
  | idle quiet => rw [found]; exact .same
  | resumed key there live asked again same =>
    cases found.symm.trans there
    exact .extended (by rw [← key]; rfl) rfl rfl rfl
  | granted key there live asked => exact .granted rfl key asked rfl
  | revived key there dead asked size =>
    cases found.symm.trans there
    rw [((valid k db found).empty dead).1] at held
    contradiction
  | created key missing asked size => cases found.symm.trans missing
  | repeated key there usable again =>
    cases found.symm.trans there
    exact .extended (by rw [← key]; rfl) rfl rfl rfl
  | applied key there usable base accepted =>
    cases found.symm.trans there
    exact .extended (by rw [← key]; rfl) rfl rfl rfl
  | renewed there usable =>
    cases found.symm.trans there
    exact .extended rfl rfl rfl rfl
  | released there usable => exact .lost rfl
  | deleted key there live => exact .lost rfl
  | swept listed there live free => exact .lost rfl
  | purged present cause => exact .lost rfl

theorem lastingRecord {s : Store} (valid : WellformedStore s) {op : Op} {k : Key} {now : Time} {ttl : Duration}
    {reply : Reply} {new : Database} (asked : lasting op = some (k,now,ttl)) (succeeds : (step s op).1 = .ok reply)
    (after : record (step s op).2 k = some new) : new.expiresAt = now+ttl := by
  have did := recordStep valid.unheld op k
  rw [succeeds,after] at did
  generalize there : (some new : Option Database) = out at did
  cases did with
  | idle quiet => cases op <;> cases asked <;> exact absurd rfl quiet
  | resumed | granted | revived | created | repeated | applied | renewed => cases asked; cases there; rfl
  | _ => contradiction

def Store.refusal (s : Store) (req : OpenRequest) (db : Database) : Error :=
  if s.slotTaken req.owner req.key.subject then .slotTaken
  else if req.pageSize ≠ 0 ∧ req.pageSize ≠ db.state.pageSize then .badRequest (.otherPageSize req.pageSize db.state.pageSize)
  else .leaseHeld db.grantedAt

theorem openHeld {s : Store} (valid : WellformedStore s) {req : OpenRequest} {db : Database}
    (found : record s req.key = some db) (active : db.active req.now = true) (fresh : req.resume = none)
    (polite : req.takeover = false) (other : bytesEqual db.holder req.instanceID = false) (id : Bytes) :
    s.open req id = (.error (s.refusal req db),s) := by
  have live : db.deleted = false := by
    cases dead : db.deleted with
    | false => rfl
    | true =>
      rw [unheldInactive ((valid _ db found).empty dead).1] at active
      contradiction
  have there : s.dbs.lookup req.key = some db := found
  unfold Store.open Store.refusal
  split
  · rfl
  · simp only [there,live,Bool.false_eq_true,if_false,Store.checkedLease]
    split
    · rfl
    · simp [Store.lease,fresh,Store.grant,active,polite,other]

theorem renewHeld {s : Store} {key : Key} {db : Database} (found : record s key = some db)
    (held : db.holder.isSome) (now : Time) (ttl : Duration) :
    s.renew key db.lease.epoch now ttl = (.ok (),s.put key (db.extend (now+ttl))) := by
  have there : s.dbs.lookup key = some db := found
  have usable : db.holds db.lease.epoch = true := by simp [Database.holds,held]
  simp [Store.renew,there,usable]

end SqliteRemote.MemoryStore
