import SqliteRemote.LeaseRegistry

/-! Who is registered and who is told. Every entry of the registry is that of a connection which has the
database open under the epoch of the entry, so LeaseRevoked goes to such a connection and never to the
one whose request caused it. While nobody claims or deletes a slot, the lease of whoever is told is
fenced in the store by then. -/
namespace SqliteRemote.Server
open Rows StoreContract Programs Protocol
open MemoryStore (Store record WellformedStore Reached)

/- The connection has registered itself for the lease, or is about to take the key out again. -/
def Holds (k : Key) (n : Nat) : Activity → Prop
  | .leaving keys => k ∈ keys
  | activity => Has k n activity

section
variable {opts : Options} {c after : Connection} {frame : ClientFrame} {seen : List (Asked Effect)} {k : Key} {n : Nat}

theorem leasesPutSame {d : String} {db new : OpenDB} (found : c.dbs.lookup d = some db) (key : new.key = db.key)
    (epoch : new.epoch = db.epoch) (leases : Leases c k n) : Leases (c.put d new) k n := by
  obtain ⟨other,old,there,rfl,rfl⟩ := leases
  by_cases here : other = d
  · subst here
    cases found.symm.trans there
    exact ⟨other,new,by simp [Connection.put],key,epoch⟩
  · exact ⟨other,old,by simp [Connection.put,here,there],rfl,rfl⟩

theorem renewingLeases {now : Time} {rounds : List String} {trace : List (Asked Effect)}
    (renewing : Renewing opts now c rounds trace after) (leases : Leases c k n) : Leases after k n := by
  induction renewing with
  | start => exact leases
  | skipped d earlier idle ih => exact ih
  | refused earlier found due fault ih => exact ih
  | renewed earlier found due ih => exact leasesPutSame found rfl rfl ih

theorem leasesOpenKeys (leases : Leases c k n) : k ∈ openKeys c := by
  obtain ⟨d,db,found,rfl,_⟩ := leases
  exact List.mem_map.mpr ⟨⟨d,db⟩,AList.mem_lookup_iff.mp found,rfl⟩

theorem setOpened {rest : Handler} (partly : Partly (c.handle opts frame) seen rest)
    (set : ∃ x ∈ seen, holderCall x.effect = some (.set k n)) :
    (∃ x ∈ seen, (opened x).isSome = true) ∧ ∃ req, frame.body = .openDB req := by
  induction partly with
  | start =>
    obtain ⟨x,member,_⟩ := set
    exact absurd member List.not_mem_nil
  | @more seen β e next earlier answer ih =>
    obtain ⟨x,member,call⟩ := set
    rcases List.mem_append.mp member with before | last
    · obtain ⟨⟨y,there,gave⟩,body⟩ := ih ⟨x,before,call⟩
      exact ⟨⟨y,List.mem_append_left _ there,gave⟩,body⟩
    · obtain rfl := List.mem_singleton.mp last
      have own := acts earlier
      cases own with
      | set now res body closed =>
        exact ⟨⟨_,List.mem_append_left _ (List.mem_cons_of_mem _ List.mem_cons_self),rfl⟩,_,body⟩
      | _ => cases call

theorem quietUnset {rest : Handler} (partly : Partly (c.handle opts frame) seen rest) (still : Quiet seen) :
    ¬∃ x ∈ seen, holderCall x.effect = some (.set k n) := by
  intro set
  obtain ⟨⟨x,member,some⟩,_⟩ := setOpened partly set
  have none_ := still x member
  rw [quiet,Bool.and_eq_true,Option.isNone_iff_eq_none] at none_
  rw [none_.1] at some
  contradiction

theorem endsHolding (partly : Partly (c.handle opts frame) seen (.done after))
    (has : Has k n (.working c frame seen (.done after))) : Leases after k n := by
  cases leads partly with
  | same still other => exact (has.resolve_right (quietUnset partly still)).1
  | marked pending still body isOpen =>
    exact leasesPutSame isOpen rfl rfl (has.resolve_right (quietUnset partly still)).1
  | committed now version answer body isOpen =>
    refine leasesPutSame isOpen rfl rfl (has.resolve_right ?_).1
    simp [holderCall]
  | pinged now order answer body renewals =>
    exact renewingLeases renewals (has.resolve_right (quietUnset partly (pingQuiet answer renewals))).1
  | @closed req db answer body isOpen =>
    rcases has with ⟨⟨d,old,found,key,epoch⟩,stays⟩ | set
    · have other : d ≠ req.dbID := by
        rintro rfl
        cases isOpen.symm.trans found
        refine stays _ (List.mem_cons_of_mem _ List.mem_cons_self) ?_
        rw [← key]
        rfl
      exact ⟨d,old,by simp [other,found],key,epoch⟩
    · simp [holderCall] at set
  | @opened req now res answer body closed =>
    rcases has with ⟨⟨d,old,found,key,epoch⟩,_⟩ | set
    · have other : d ≠ req.dbID := by
        rintro rfl
        cases closed.symm.trans found
      exact ⟨d,old,by simp [Connection.put,other,found],key,epoch⟩
    · simp [holderCall] at set
      exact ⟨req.dbID,⟨⟨c.subject,req.dbID⟩,res.lease.epoch,res.state.pageSize,none,now⟩,by simp [Connection.put],set.1,set.2⟩

end

theorem holdsTurn {opts : Options} {action : Action} {id : Nat} {before after : Activity} {x : Option (Asked Effect)}
    (turn : Turns opts action id before x after)
    (sane : ∀ c frame seen rest, before = .working c frame seen rest → Partly (c.handle opts frame) seen rest)
    {k : Key} {n : Nat} (kept : ∀ y, x = some y → holderCall y.effect ≠ some (.remove k)) (holds : Holds k n before) :
    Holds k n after := by
  cases turn with
  | same => exact holds
  | loggedIn subject instanceID owner tokenExpires => exact holds.elim
  | received c frame sent => exact .inl ⟨holds,fun _ member => absurd member List.not_mem_nil⟩
  | asked c frame seen e next answer =>
    rcases holds with ⟨leases,stays⟩ | ⟨y,member,set⟩
    · refine .inl ⟨leases,fun y member => ?_⟩
      rcases List.mem_append.mp member with earlier | last
      · exact stays y earlier
      · rw [List.mem_singleton.mp last]
        exact kept _ rfl
    · exact .inr ⟨y,List.mem_append_left _ member,set⟩
  | finished c frame seen after => exact endsHolding (sane _ _ _ _ rfl) holds
  | panicked c frame seen next oversized =>
    rcases holds with ⟨leases,_⟩ | ⟨y,member,set⟩
    · exact leasesOpenKeys leases
    · have fetches := (panickedUnsent (sane _ _ _ _ rfl) oversized).1 y member
      rw [holderCallSome set] at fetches
      contradiction
  | leaves c => exact leasesOpenKeys holds
  | removed key keys =>
    refine (List.mem_cons.mp holds).resolve_left ?_
    rintro rfl
    exact kept _ rfl rfl
  | ended => exact absurd holds List.not_mem_nil

theorem registryEntry {w : Shared} {j : Nat} {h : HolderCall} {k : Key} {entry : Holder}
    (found : (w.registry j h).1.holders.lookup k = some entry) :
    h = .set k entry.epoch ∧ entry.owner = j ∨
    w.holders.lookup k = some entry ∧ ¬(h = .remove k ∧ entry.owner = j) := by
  by_cases here : keyOf h = k
  · subst here
    cases h with
    | set key epoch =>
      rw [Shared.registry,lookupSet,keyOf,if_pos rfl] at found
      cases found
      exact .inl ⟨rfl,rfl⟩
    | remove key =>
      rw [Shared.registry,lookupRemove,keyOf,if_pos rfl] at found
      obtain ⟨old,other⟩ := Option.filter_eq_some_iff.mp found
      exact .inr ⟨old,fun own => by simp [own.2] at other⟩
    | revoke key epoch =>
      rw [Shared.registry,lookupRevoke,keyOf,if_pos rfl] at found
      contradiction
    | purge key =>
      rw [Shared.registry,lookupPurge,keyOf,if_pos rfl] at found
      contradiction
  · rw [registryOther w j here] at found
    refine .inr ⟨found,fun own => here ?_⟩
    rw [own.1]
    rfl

theorem registryPush {w : Shared} {j : Nat} {h : HolderCall} {p : Push} (pushed : (w.registry j h).2 = some p) :
    ∃ entry, w.holders.lookup (keyOf h) = some entry ∧ p = entry.revoked (keyOf h) p.newLeaseEpoch ∧
      entry.epoch < p.newLeaseEpoch ∧ (∀ k, h ≠ .remove k) ∧
      ∀ n, updateOf h = some (keyOf h,n) → p.newLeaseEpoch = n := by
  cases h with
  | remove key => contradiction
  | set key epoch =>
    simp only [Shared.registry,Holders.set] at pushed
    split at pushed <;> try contradiction
    rename_i entry found
    split at pushed <;> try contradiction
    rename_i lower
    cases pushed
    exact ⟨entry,found,rfl,lower.2,fun _ => HolderCall.noConfusion,fun n update => by cases update; rfl⟩
  | revoke key epoch =>
    simp only [Shared.registry,Holders.revoke] at pushed
    split at pushed <;> try contradiction
    rename_i entry found
    split at pushed <;> try contradiction
    rename_i lower
    cases pushed
    exact ⟨entry,found,rfl,lower,fun _ => HolderCall.noConfusion,fun n update => by cases update; rfl⟩
  | purge key =>
    simp only [Shared.registry,Holders.purge] at pushed
    split at pushed <;> try contradiction
    rename_i entry found
    cases pushed
    exact ⟨entry,found,rfl,Nat.lt_succ_self _,fun _ => HolderCall.noConfusion,fun n update => by cases update⟩

theorem pushAsked (opts : Options) {w : World} {action : Action} {p : Push} (pushed : (w.step opts action).1.push = some p) :
    ∃ id c frame seen h next, w.connections id = .working c frame seen (.ask (.holders h) next) ∧
      (w.step opts action).1.asked = some (id,⟨.holders h,()⟩) ∧ (w.shared.registry id h).2 = some p := by
  cases action with
  | logIn id subject instanceID owner tokenExpires =>
    simp only [World.step] at pushed
    split at pushed <;> cases pushed
  | receive id frame arrived =>
    simp only [World.step] at pushed
    split at pushed
    · split at pushed <;> cases pushed
    · cases pushed
  | proceed id choice =>
    simp only [World.step] at pushed ⊢
    split at pushed
    · rename_i c frame seen β e next was
      cases e with
      | holders h => exact ⟨id,c,frame,seen,h,next,was,rfl,pushed⟩
      | call k => split at pushed <;> cases pushed
      | _ => cases pushed
    · cases pushed
    · cases pushed
    · cases pushed
    · cases pushed
  | leave id =>
    simp only [World.step] at pushed
    split at pushed <;> cases pushed
  | sweep cutoff limit tie => cases pushed

def PurgesFor (c : Connection) (seen : List (Asked Effect)) {β : Type} (e : Effect β) : Prop :=
  ∀ key, holderCall e = some (.purge key) → c.dbs.entries = [] ∨
    ∃ now res, ⟨.call (.claimSlot ⟨c.owner,c.subject,now⟩),.ok res⟩ ∈ seen ∧ key ∈ res.deleted

section
variable {opts : Options} {c : Connection} {frame : ClientFrame} {seen : List (Asked Effect)}

theorem purgesNone {β : Type} {e : Effect β} (other : holderCall e = none) : PurgesFor c seen e := by
  intro key call
  rw [other] at call
  contradiction

theorem purgesReply (answer : ServerFrame) (after : Connection) :
    (reply answer after).Guarded (PurgesFor c) (fun _ _ => True) seen :=
  ⟨purgesNone rfl,fun _ => trivial⟩

theorem purgesAll {next : Handler} (last : ∀ seen, next.Guarded (PurgesFor c) (fun _ _ => True) seen) {keys : List Key}
    (cause : c.dbs.entries = [] ∨ ∃ now res, ⟨.call (.claimSlot ⟨c.owner,c.subject,now⟩),.ok res⟩ ∈ seen ∧
      ∀ key ∈ keys, key ∈ res.deleted) : (purgeAll next keys).Guarded (PurgesFor c) (fun _ _ => True) seen := by
  induction keys generalizing seen with
  | nil => exact last seen
  | cons key rest ih =>
    refine ⟨fun other call => ?_,fun _ => ih ?_⟩
    · cases call
      refine cause.imp_right ?_
      rintro ⟨now,res,told,listed⟩
      exact ⟨now,res,told,listed _ List.mem_cons_self⟩
    · refine cause.imp_right ?_
      rintro ⟨now,res,told,listed⟩
      exact ⟨now,res,List.mem_append_left _ told,fun other member => listed other (List.mem_cons_of_mem _ member)⟩

theorem purgesClaim (id : UInt64) : (c.claimSlot opts id).Guarded (PurgesFor c) (fun _ _ => True) [] := by
  unfold Connection.claimSlot
  split
  · exact purgesReply _ c
  · refine ⟨purgesNone rfl,fun now => ⟨purgesNone rfl,fun answer => ?_⟩⟩
    cases answer with
    | error fault => exact purgesReply _ c
    | ok res =>
      have told : ⟨.call (.claimSlot ⟨c.owner,c.subject,now⟩),.ok res⟩ ∈
          ([⟨.clock,now⟩,⟨.call (.claimSlot ⟨c.owner,c.subject,now⟩),.ok res⟩] : List (Asked Effect)) :=
        List.mem_cons_of_mem _ List.mem_cons_self
      exact purgesAll (fun _ => purgesReply _ c) (.inr ⟨now,res,told,fun _ member => member⟩)

theorem purgesDeleteSlot (id : UInt64) : (c.deleteSlot opts id).Guarded (PurgesFor c) (fun _ _ => True) [] := by
  unfold Connection.deleteSlot
  split
  · exact purgesReply _ c
  · split
    · exact purgesReply _ c
    · rename_i none_
      refine ⟨purgesNone rfl,fun answer => ?_⟩
      cases answer with
      | error fault => exact purgesReply _ c
      | ok deleted =>
        have empty : c.dbs.entries = [] := List.eq_nil_of_length_eq_zero (Nat.eq_zero_of_not_pos none_)
        exact purgesAll (fun _ => purgesReply _ c) (.inl empty)

theorem purgeActs {β : Type} {e : Effect β} (acts : Acts opts c frame seen e) {key : Key}
    (call : holderCall e = some (.purge key)) : frame.body = .claimSlot ∨ frame.body = .deleteSlot := by
  cases acts with
  | purge seen key body => exact body
  | _ => cases call

theorem purges {key : Key} {next : Unit → Handler}
    (partly : Partly (c.handle opts frame) seen (.ask (.holders (.purge key)) next)) :
    c.dbs.entries = [] ∨
    ∃ now res, ⟨.call (.claimSlot ⟨c.owner,c.subject,now⟩),.ok res⟩ ∈ seen ∧ key ∈ res.deleted := by
  have whole : (c.handle opts frame).Guarded (PurgesFor c) (fun _ _ => True) [] := by
    unfold Connection.handle
    split
    · exact purgesReply _ c
    · rcases purgeActs (acts partly) rfl with body | body
      · rw [body]
        exact purgesClaim _
      · rw [body]
        exact purgesDeleteSlot _
  exact (partlyGuarded _ _ whole partly).1 key rfl

end

theorem claimDeletes {s : Store} {req : ClaimRequest} {key : Key} (listed : key ∈ (s.claimSlot req).1.deleted) :
    key.subject ≠ req.subject := by
  unfold Store.claimSlot at listed
  split at listed
  · split at listed
    · exact absurd listed List.not_mem_nil
    · rename_i old found other
      obtain ⟨db,_,own⟩ := (memKeysWhere _ _ _).mp ((List.perm_insertionSort _ _).mem_iff.mp listed)
      rw [beq_iff_eq.mp (Bool.and_eq_true_iff.mp own).1]
      exact other
  · exact absurd listed List.not_mem_nil

def claimCall {β : Type} : Call β → β → Option (ClaimRequest × ClaimResult)
  | .claimSlot req => fun res => some (req,res)
  | _ => fun _ => none

def claimOf (x : Asked Effect) : Option (ClaimRequest × ClaimResult) := returned claimCall x

theorem claimAnswered {β : Type} (s : Store) (id : Bytes) (call : Call β) {req : ClaimRequest} {res : ClaimResult}
    (told : claimOf ⟨.call call,declared (Server.call s id call).1⟩ = some (req,res)) :
    ∀ key ∈ res.deleted, key.subject ≠ req.subject := by
  cases call with
  | claimSlot other =>
    cases told
    exact fun key => claimDeletes
  | _ => simp [claimOf,returned,Effect.returned,claimCall] at told

structure Tended (opts : Options) (w : World) : Prop where
  sane : Sane opts w
  named : ∀ id, Named (w.connections id)
  entries : ∀ k entry, w.shared.holders.lookup k = some entry → Holds k entry.epoch (w.connections entry.owner)
  claimed : ∀ id c frame seen rest, w.connections id = .working c frame seen rest → ∀ x ∈ seen, ∀ req res,
    claimOf x = some (req,res) → ∀ key ∈ res.deleted, key.subject ≠ req.subject

theorem tendedStart (opts : Options) : Tended opts start := by
  refine ⟨saneStart opts,fun _ => trivial,fun k entry found => ?_,fun id c frame seen rest busy => ?_⟩
  · cases found
  · cases busy

section
variable {opts : Options} {w : World} (tended : Tended opts w) (action : Action)
include tended

theorem entriesStep {k : Key} {entry : Holder}
    (found : (w.step opts action).2.shared.holders.lookup k = some entry) :
    Holds k entry.epoch ((w.step opts action).2.connections entry.owner) := by
  have stays (before : w.shared.holders.lookup k = some entry)
      (kept : (w.step opts action).1.asked ≠ some (entry.owner,⟨.holders (.remove k),()⟩)) :
      Holds k entry.epoch ((w.step opts action).2.connections entry.owner) := by
    have was := tended.entries k entry before
    refine holdsTurn (turns opts w action entry.owner) (tended.sane _) (fun y asked call => kept ?_) was
    rw [← holderCallSome call]
    exact (askedByIff _ _ _).mp asked
  by_cases removes : (w.step opts action).1.asked = some (entry.owner,⟨.holders (.remove k),()⟩)
  · rw [(askedRegistry opts removes).1] at found
    rcases registryEntry found with ⟨other,_⟩ | ⟨_,kept⟩
    · cases other
    · exact absurd ⟨rfl,rfl⟩ kept
  · rcases holdersStep opts w action with unasked | ⟨j,h,asks⟩
    · exact stays (unasked ▸ found) removes
    · rw [(askedRegistry opts asks).1] at found
      rcases registryEntry found with ⟨rfl,rfl⟩ | ⟨before,_⟩
      · have how := asksRegistry opts asks
        generalize (w.step opts action).2.connections entry.owner = after at how
        cases how with
        | working busy => exact .inr ⟨_,List.mem_append_right _ List.mem_cons_self,rfl⟩
        | leaving busy removes => cases removes
      · exact stays before removes

theorem claimedStep {id : Nat} {c : Connection} {frame : ClientFrame} {seen : List (Asked Effect)} {rest : Handler}
    (busy : (w.step opts action).2.connections id = .working c frame seen rest) {x : Asked Effect} (member : x ∈ seen)
    {req : ClaimRequest} {res : ClaimResult} (told : claimOf x = some (req,res)) :
    ∀ key ∈ res.deleted, key.subject ≠ req.subject := by
  have turn := turns opts w action id
  have before := tended.claimed id
  rw [busy] at turn
  generalize w.connections id = activity at turn before
  generalize asked : askedBy id (w.step opts action).1 = y at turn
  cases turn with
  | same => exact before _ _ _ _ rfl x member req res told
  | received => exact absurd member List.not_mem_nil
  | asked c frame seen e next answer =>
    rcases List.mem_append.mp member with earlier | last
    · exact before _ _ _ _ rfl x earlier req res told
    · cases List.mem_singleton.mp last
      obtain ⟨β,call,_,_,_,_,choice,_,_,same,_⟩ := toldByStore opts ((askedByIff _ _ _).mp asked) told
      rw [same] at told
      exact claimAnswered _ _ call told

theorem tendedStep : Tended opts (w.step opts action).2 :=
  ⟨saneStep opts w action tended.sane,fun id => namedTurn (turns opts w action id) (tended.sane id) (tended.named id),
    fun _ _ found => entriesStep tended action found,
    fun _ _ _ _ _ busy _ member _ _ told => claimedStep tended action busy member told⟩

omit action in
theorem tellsOthers {id : Nat} {c : Connection} {frame : ClientFrame} {seen : List (Asked Effect)} {h : HolderCall}
    {next : Unit → Handler} (busy : w.connections id = .working c frame seen (.ask (.holders h) next)) {entry : Holder}
    (found : w.shared.holders.lookup (keyOf h) = some entry) (tells : ∀ k, h ≠ .remove k) : entry.owner ≠ id := by
  rintro rfl
  have partly := tended.sane _ _ _ _ _ busy
  have holds := tended.entries _ _ found
  have named := tended.named entry.owner
  rw [busy] at holds named
  have updates (n : Nat) (update : updateOf h = some (keyOf h,n)) : False := by
    obtain ⟨_,unasked,d,is,closed⟩ := updateActs (acts partly) rfl update
    rcases holds with ⟨leases,_⟩ | ⟨x,member,set⟩
    · rw [is] at leases
      exact leasesNamed named closed _ leases
    · rw [unasked x member] at set
      contradiction
  cases h with
  | remove key => exact tells key rfl
  | set key epoch => exact updates epoch rfl
  | revoke key epoch => exact updates epoch rfl
  | purge key =>
    have unset : ¬∃ x ∈ seen, holderCall x.effect = some (.set key entry.epoch) := by
      intro set
      obtain ⟨_,req,body⟩ := setOpened partly set
      rcases purgeActs (acts partly) rfl with other | other <;> cases body.symm.trans other
    obtain ⟨⟨d,db,isOpen,is,_⟩,_⟩ := holds.resolve_right unset
    rcases purges partly with none_ | ⟨now,res,told,listed⟩
    · have there := AList.mem_lookup_iff.mp isOpen
      rw [none_] at there
      exact absurd there List.not_mem_nil
    · refine tended.claimed _ _ _ _ _ busy _ told _ _ rfl key listed ?_
      have own := (named d db isOpen).symm.trans is
      exact (congrArg Key.subject own).symm

theorem pushStep {p : Push} (pushed : (w.step opts action).1.push = some p) :
    ∃ sender x key entry, (w.step opts action).1.asked = some (sender,x) ∧ entry.owner ≠ sender ∧
      w.shared.holders.lookup key = some entry ∧ Holds key entry.epoch (w.connections entry.owner) ∧
      p = entry.revoked key p.newLeaseEpoch ∧ entry.epoch < p.newLeaseEpoch := by
  obtain ⟨id,c,frame,seen,h,next,busy,asked,told⟩ := pushAsked opts pushed
  obtain ⟨entry,found,is,lower,tells,_⟩ := registryPush told
  exact ⟨id,_,keyOf h,entry,asked,tellsOthers tended busy found tells,found,tended.entries _ _ found,is,lower⟩

end

/- In every run of a server: an entry of the registry belongs to a connection that has the database open
under its epoch, or takes it out just now. A LeaseRevoked goes to the connection of such an entry, not to
the one whose request caused it, and announces a higher epoch than the lease of that connection. -/
theorem registryTended (opts : Options) (actions : List Action) :
    (∀ k entry, (run opts actions).shared.holders.lookup k = some entry →
      Holds k entry.epoch ((run opts actions).connections entry.owner)) ∧
    ∀ e ∈ history opts actions, ∀ p, e.reply.push = some p →
      ∃ sender x key entry, e.reply.asked = some (sender,x) ∧ entry.owner ≠ sender ∧
        e.before.shared.holders.lookup key = some entry ∧ Holds key entry.epoch (e.before.connections entry.owner) ∧
        p = entry.revoked key p.newLeaseEpoch ∧ entry.epoch < p.newLeaseEpoch := by
  have keeps : ∀ w action, Tended opts w → Tended opts (w.step opts action).2 :=
    fun _ action tended => tendedStep tended action
  refine ⟨(History.invariantRun (World.step opts) keeps (tendedStart opts) actions).entries,fun e member p pushed => ?_⟩
  obtain ⟨tended,_⟩ := History.invariantEvent (World.step opts) keeps (tendedStart opts) member
  have whole := History.eventStep (World.step opts) member
  obtain ⟨before,action,reply,after⟩ := e
  simp only [Prod.eq_iff_fst_eq_snd_eq] at whole
  obtain ⟨rfl,rfl⟩ := whole
  exact pushStep tended action pushed

def leavesSlots (frame : ClientFrame) : Bool :=
  match frame.body with
  | .claimSlot => false
  | .deleteSlot => false
  | _ => true

def Action.leavesSlots : Action → Bool
  | .receive _ frame _ => Server.leavesSlots frame
  | _ => true

def keepsEffect {β : Type} : Effect β → Bool
  | .call k => keepsRecords (opOf [] k)
  | _ => true

theorem actsKeeps {opts : Options} {c : Connection} {frame : ClientFrame} {seen : List (Asked Effect)} {β : Type}
    {e : Effect β} (plain : leavesSlots frame = true) (acts : Acts opts c frame seen e) : keepsEffect e = true := by
  unfold leavesSlots at plain
  cases acts with
  | claimSlot now body owned => rw [body] at plain; contradiction
  | deleteSlot body owned => rw [body] at plain; contradiction
  | _ => rfl

theorem keepsAny {β : Type} (k : Call β) (id : Bytes) : keepsRecords (opOf id k) = keepsRecords (opOf [] k) := by
  cases k <;> rfl

theorem issuedReached {β : Type} {s : Store} (valid : WellformedStore s) (id : Bytes) {call : Call β} {k : Key} {n : Nat}
    (gave : issued ⟨.call call,declared (Server.call s id call).1⟩ = some (k,n)) : Reached k n (Server.call s id call).2 := by
  cases call with
  | openDB req =>
    cases asked : req.resume with
    | none => exact (issuedFresh valid id (show ordinaryCall (.openDB req) = true by rw [ordinaryCall,asked]; rfl) gave).1
    | some resume =>
      have outcome := MemoryStore.openStep valid.unheld req id
      simp only [Server.call] at gave ⊢
      generalize s.open req id = out at outcome gave
      cases outcome with
      | refused e => contradiction
      | @resumed db _ found live again held same =>
        cases gave
        exact reachedPut s req.key (db.extend (req.now+req.ttl))
      | granted found live new => cases new.symm.trans asked
      | revived found dead new size => cases new.symm.trans asked
      | created missing new size => cases new.symm.trans asked
  | delete req => exact (issuedFresh valid id rfl gave).1
  | _ => simp [issued,returned,Effect.returned,issuedCall] at gave

/- Without slots no record is lost, so the epochs that connections were given are reached for good. -/
structure Backed (opts : Options) (w : World) : Prop where
  sane : Sane opts w
  valid : WellformedStore w.shared.store
  plain : ∀ id c frame seen rest, w.connections id = .working c frame seen rest → leavesSlots frame = true
  slotless : ∀ owner, w.shared.store.slots.lookup owner = none
  reached : ∀ id k n, Owns k n (w.connections id) → Reached k n w.shared.store

theorem backedStart (opts : Options) : Backed opts start := by
  refine ⟨saneStart opts,MemoryStore.wellformedNew,?_,fun _ => rfl,fun _ _ _ owns => owns.elim⟩
  intro id c frame seen rest busy
  cases busy

section
variable {opts : Options} {w : World} (backed : Backed opts w) (action : Action)
include backed

theorem keptOp : ∃ op, keepsRecords op = true ∧
    (w.step opts action).2.shared.store = (MemoryStore.step w.shared.store op).2 := by
  obtain ⟨op,performed,same⟩ := storeOp opts w action
  refine ⟨op,?_,same⟩
  cases performed with
  | none => rfl
  | called choice was =>
    exact (keepsAny _ _).trans (actsKeeps (backed.plain _ _ _ _ _ was) (acts (backed.sane _ _ _ _ _ was)))
  | swept cutoff limit tie => rfl

theorem reachedStays {k : Key} {n : Nat} (reached : Reached k n w.shared.store) :
    Reached k n (w.step opts action).2.shared.store := by
  obtain ⟨op,keeps,same⟩ := keptOp backed action
  rw [same]
  exact reachedStep backed.valid keeps backed.slotless reached

theorem backedStep (plain : action.leavesSlots = true) : Backed opts (w.step opts action).2 := by
  refine ⟨saneStep opts w action backed.sane,wellformedShared opts w action backed.valid,?_,?_,?_⟩
  · intro id c frame seen rest busy
    have turn := turns opts w action id
    have before := backed.plain id
    rw [busy] at turn
    generalize w.connections id = activity at turn before
    generalize askedBy id (w.step opts action).1 = x at turn
    cases turn with
    | same => exact before _ _ _ _ rfl
    | received c frame sent =>
      obtain ⟨arrived,rfl⟩ := sent
      exact plain
    | asked => exact before _ _ _ _ rfl
  · intro owner
    obtain ⟨op,keeps,same⟩ := keptOp backed action
    rw [same]
    exact slotlessStep backed.valid keeps (backed.slotless owner)
  · intro id k n owns
    rcases ownsTurn (turns opts w action id) (backed.sane id) owns with before | ⟨x,did,gave⟩
    · exact reachedStays backed action (backed.reached id k n before)
    · obtain ⟨β,call,_,_,_,_,choice,rfl,_,rfl,store⟩ := toldByStore opts ((askedByIff id _ x).mp did) gave
      rw [store]
      exact issuedReached backed.valid choice.leaseID gave

theorem pushBacked {p : Push} (pushed : (w.step opts action).1.push = some p) :
    ∃ key entry, w.shared.holders.lookup key = some entry ∧ p = entry.revoked key p.newLeaseEpoch ∧
      Reached key (entry.epoch+1) w.shared.store := by
  obtain ⟨id,c,frame,seen,h,next,busy,_,told⟩ := pushAsked opts pushed
  obtain ⟨entry,found,is,lower,_,announced⟩ := registryPush told
  have partly := backed.sane _ _ _ _ _ busy
  refine ⟨keyOf h,entry,found,is,?_⟩
  have updates (n : Nat) (update : updateOf h = some (keyOf h,n)) : Reached (keyOf h) (entry.epoch+1) w.shared.store := by
    have owns : Owns (keyOf h) n (w.connections id) := by
      rw [busy]
      exact .inr (updateActs (acts partly) rfl update).1
    obtain ⟨db,there,past⟩ := backed.reached id _ n owns
    have same := announced n update
    exact ⟨db,there,by omega⟩
  cases h with
  | remove key => contradiction
  | set key epoch => exact updates epoch rfl
  | revoke key epoch => exact updates epoch rfl
  | purge key =>
    have plain := backed.plain _ _ _ _ _ busy
    unfold leavesSlots at plain
    rcases purgeActs (acts partly) rfl with body | body <;> (rw [body] at plain; contradiction)

end

theorem backedRun {opts : Options} {w : World} (backed : Backed opts w) {actions : List Action}
    (plain : ∀ a ∈ actions, a.leavesSlots = true) {k : Key} {n : Nat} (reached : Reached k n w.shared.store) :
    Backed opts (History.run (World.step opts) w actions) ∧
    Reached k n (History.run (World.step opts) w actions).shared.store := by
  induction actions generalizing w with
  | nil => exact ⟨backed,reached⟩
  | cons action rest ih =>
    exact ih (backedStep backed action (plain action List.mem_cons_self))
      (fun a member => plain a (List.mem_cons_of_mem _ member)) (reachedStays backed action reached)

/- Where nobody claims or deletes a slot: whoever is told has lost the lease in the store, and from then
on nothing that carries its epoch succeeds, neither a commit nor a resume. -/
theorem revokedFenced (opts : Options) {first rest : List Action} {action : Action} {p : Push}
    (plain : ∀ a ∈ first ++ action :: rest, a.leavesSlots = true)
    (pushed : ((run opts first).step opts action).1.push = some p) :
    ∃ key entry, (run opts first).shared.holders.lookup key = some entry ∧ p = entry.revoked key p.newLeaseEpoch ∧
      ∀ op, MemoryStore.Carries key entry.epoch op →
        ∃ err, (MemoryStore.step (run opts (first ++ action :: rest)).shared.store op).1 = .error err := by
  have early : Backed opts (run opts first) := by
    refine History.keptToEnd (World.step opts) (P := Backed opts) (fun e member backed => ?_) (backedStart opts)
    have sent := plain e.op (List.mem_append_left _ (History.eventOp (World.step opts) member))
    have whole : (e.before.step opts e.op).2 = e.after := congrArg Prod.snd (History.eventStep (World.step opts) member)
    rw [← whole]
    exact backedStep backed e.op sent
  obtain ⟨key,entry,found,is,reached⟩ := pushBacked early action pushed
  refine ⟨key,entry,found,is,fun op carries => ?_⟩
  obtain ⟨later,db,there,past⟩ := backedRun early (fun a member => plain a (List.mem_append_right _ member)) reached
  rw [← History.runAppend] at later there
  let store := (run opts (first ++ action :: rest)).shared.store
  have member : ⟨store,op,(MemoryStore.step store op).1,(MemoryStore.step store op).2⟩ ∈
      History.history MemoryStore.step store [op] := List.mem_cons_self
  exact MemoryStore.fencedRefuses later.valid member ⟨db,there,.inl past⟩ carries

theorem revokedFencedTakenOver :
    let first := [.logIn 0 "alice" [1] "" none,.logIn 1 "alice" [2] "" none] ++
      handled 0 (openFrame false) ⟨0,[7],[]⟩ 5 ++ handled 1 (openFrame true) ⟨1,[8],[]⟩ 2
    ((run sampleOptions first).step sampleOptions (.proceed 1 ⟨1,[8],[]⟩)).1.push = some ⟨0,"db",2⟩ ∧
    ∃ key entry, (run sampleOptions first).shared.holders.lookup key = some entry ∧ entry.owner = 0 ∧
      ∀ op, MemoryStore.Carries key entry.epoch op → ∃ err,
        (MemoryStore.step (run sampleOptions
          (first ++ .proceed 1 ⟨1,[8],[]⟩ :: handled 0 (openFrame false) ⟨2,[9],[]⟩ 5)).shared.store op).1 = .error err := by
  intro first
  have pushed : ((run sampleOptions first).step sampleOptions (.proceed 1 ⟨1,[8],[]⟩)).1.push = some ⟨0,"db",2⟩ := by
    decide +kernel
  have plain : ∀ a ∈ first ++ .proceed 1 ⟨1,[8],[]⟩ :: handled 0 (openFrame false) ⟨2,[9],[]⟩ 5, a.leavesSlots = true := by
    decide
  obtain ⟨key,entry,found,is,fenced⟩ := revokedFenced sampleOptions plain pushed
  exact ⟨pushed,key,entry,found,(congrArg Push.connection is).symm,fenced⟩

end SqliteRemote.Server
