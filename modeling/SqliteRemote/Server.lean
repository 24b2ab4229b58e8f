import SqliteRemote.ConnectionHandler
import SqliteRemote.Holders
import SqliteRemote.MemoryInvariant

/-! One server instance over the memory store: connections that handle their frames one at a time,
the store and the registry they share, and the deletion of unused databases. Every question of a
handler is one step, so the steps of several connections interleave in any way the code allows. -/
namespace SqliteRemote.Server
open Rows StoreContract Programs Protocol
open MemoryStore (Store record)

def call {β : Type} (s : Store) (newLeaseID : Bytes) : Call β → Except Error β × Store
  | .openDB req => s.open req newLeaseID
  | .fetch key version first count => (s.fetch key version first count,s)
  | .commit req => s.commit req
  | .changes key fromVersion => (s.changes key fromVersion,s)
  | .renew key epoch now ttl => s.renew key epoch now ttl
  | .release key epoch => s.release key epoch
  | .delete req => s.delete req
  | .claimSlot req =>
      let (result,claimed) := s.claimSlot req
      (.ok result,claimed)
  | .setSlotLabel owner subject label => s.setSlotLabel owner subject label
  | .deleteSlot owner subject => s.deleteSlot owner subject

def opOf {β : Type} (newLeaseID : Bytes) : Call β → Op
  | .openDB req => .openDatabase req newLeaseID
  | .fetch key version first count => .fetch key version first count
  | .commit req => .commit req
  | .changes key fromVersion => .changes key fromVersion
  | .renew key epoch now ttl => .renew key epoch now ttl
  | .release key epoch => .release key epoch
  | .delete req => .delete req
  | .claimSlot req => .claimSlot req
  | .setSlotLabel owner subject label => .setSlotLabel owner subject label
  | .deleteSlot owner subject => .deleteSlot owner subject

/- What the surroundings decide for one question: the time, a new lease ID, the order of a loop
over a map. -/
structure Choice where
  now : Time
  leaseID : Bytes
  order : List String
  deriving DecidableEq, Repr

structure Shared where
  store : Store
  holders : Holders

def Shared.registry (w : Shared) (owner : Nat) : HolderCall → Shared × Option Push
  | .set key epoch =>
      let (holders,push) := w.holders.set key epoch owner
      ({w with holders := holders},push)
  | .remove key => ({w with holders := w.holders.remove key owner},none)
  | .revoke key epoch =>
      let (holders,push) := w.holders.revoke key epoch
      ({w with holders := holders},push)
  | .purge key =>
      let (holders,push) := w.holders.purge key
      ({w with holders := holders},push)

def declared {β : Type} : Except Error β → Except Fault β
  | .ok value => .ok value
  | .error e => .error (.declared e)

structure Answered (β : Type) where
  answer : β
  shared : Shared
  push : Option Push

def Shared.answer (w : Shared) (owner : Nat) (choice : Choice) : {β : Type} → Effect β → Answered β
  | _,.clock => ⟨choice.now,w,none⟩
  | _,.call c =>
      let (result,store) := call w.store choice.leaseID c
      ⟨declared result,{w with store := store},none⟩
  | _,.send _ => ⟨(),w,none⟩
  | _,.holders h =>
      let (shared,push) := w.registry owner h
      ⟨(),shared,push⟩
  | _,.anyOrder keys =>
      ⟨if same : choice.order.Perm keys then ⟨choice.order,same⟩ else ⟨keys,List.Perm.refl keys⟩,w,none⟩

def Shared.panics (w : Shared) (maxSlice : Nat) {β : Type} : Effect β → Bool
  | .call (.fetch key version first count) => w.store.fetchPanics maxSlice key version first count
  | _ => false

inductive Activity where
  | absent
  | waiting (c : Connection)
  | working (c : Connection) (frame : ClientFrame) (seen : List (Asked Effect)) (rest : Handler)
  | leaving (keys : List Key)
  | gone

structure World where
  shared : Shared
  connections : Nat → Activity

inductive Action where
  | logIn (id : Nat) (subject : String) (instanceID : Bytes) (owner : String) (tokenExpires : Option Time)
  | receive (id : Nat) (frame : ClientFrame) (arrived : Time)
  | proceed (id : Nat) (choice : Choice)
  | leave (id : Nat)
  | sweep (cutoff : Time) (limit : Nat) (tie : Key → Nat)

structure Outcome where
  asked : Option (Nat × Asked Effect)
  push : Option Push

def silent : Outcome := ⟨none,none⟩

def World.put (w : World) (id : Nat) (activity : Activity) : World :=
  {w with connections := Function.update w.connections id activity}

def openKeys (c : Connection) : List Key := c.dbs.entries.map (fun e => e.2.key)

def World.step (opts : Options) (w : World) : Action → Outcome × World
  | .logIn id subject instanceID owner tokenExpires =>
      match w.connections id with
      | .absent => (silent,w.put id (.waiting (Connection.loggedIn subject instanceID owner tokenExpires)))
      | _ => (silent,w)
  | .receive id frame arrived =>
      match w.connections id with
      | .waiting c =>
          if frame.isPing || !c.tokenExpired opts arrived then
            (silent,w.put id (.working c frame [] (c.handle opts frame)))
          else (silent,w.put id (.leaving (openKeys c)))
      | _ => (silent,w)
  | .proceed id choice =>
      match w.connections id with
      | .working c frame seen (.ask e next) =>
          -- The deferred calls of serve run while a panic unwinds.
          if w.shared.panics opts.platform.maxSlice e then (silent,w.put id (.leaving (openKeys c)))
          else
            let out := w.shared.answer id choice e
            (⟨some (id,⟨e,out.answer⟩),out.push⟩,
              {w.put id (.working c frame (seen ++ [⟨e,out.answer⟩]) (next out.answer)) with shared := out.shared})
      | .working _ _ _ (.done c) => (silent,w.put id (.waiting c))
      | .leaving (key :: keys) =>
          let out := w.shared.answer id choice (.holders (.remove key))
          (⟨some (id,⟨.holders (.remove key),()⟩),out.push⟩,{w.put id (.leaving keys) with shared := out.shared})
      | .leaving [] => (silent,w.put id .gone)
      | _ => (silent,w)
  | .leave id =>
      match w.connections id with
      | .waiting c => (silent,w.put id (.leaving (openKeys c)))
      | _ => (silent,w)
  | .sweep cutoff limit tie =>
      (silent,{w with shared := {w.shared with store := (w.shared.store.deleteUnused cutoff limit tie).2}})

def World.panics (opts : Options) (w : World) (id : Nat) : Bool :=
  match w.connections id with
  | .working _ _ _ (.ask e _) => w.shared.panics opts.platform.maxSlice e
  | _ => false

def start : World := ⟨⟨MemoryStore.new,∅⟩,fun _ => .absent⟩

end SqliteRemote.Server
