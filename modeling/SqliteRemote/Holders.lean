import SqliteRemote.Rows
import SqliteRemote.StoreContract

/-! The registry of lease holders of one server instance. Each of its calls runs under its lock
and may send LeaseRevoked to the connection that was registered. -/
namespace SqliteRemote.Server
open Rows StoreContract

structure Holder where
  epoch : Nat
  owner : Nat
  deriving DecidableEq, Repr

/- A LeaseRevoked frame on its way to a connection. -/
structure Push where
  connection : Nat
  dbID : String
  newLeaseEpoch : Nat
  deriving DecidableEq, Repr

abbrev Holders := Table Key Holder

def Holder.revoked (previous : Holder) (key : Key) (newEpoch : Nat) : Push := ⟨previous.owner,key.dbID,newEpoch⟩

def Holders.set (h : Holders) (key : Key) (epoch owner : Nat) : Holders × Option Push :=
  (h.insert key ⟨epoch,owner⟩,
    match h.lookup key with
    | some previous =>
        if previous.owner ≠ owner ∧ previous.epoch < epoch then some (previous.revoked key epoch) else none
    | none => none)

def Holders.remove (h : Holders) (key : Key) (owner : Nat) : Holders :=
  match h.lookup key with
  | some current => if current.owner = owner then h.erase key else h
  | none => h

def Holders.purge (h : Holders) (key : Key) : Holders × Option Push :=
  match h.lookup key with
  | some previous => (h.erase key,some (previous.revoked key (previous.epoch+1)))
  | none => (h,none)

def Holders.revoke (h : Holders) (key : Key) (epoch : Nat) : Holders × Option Push :=
  match h.lookup key with
  | some previous => (h.erase key,if previous.epoch < epoch then some (previous.revoked key epoch) else none)
  | none => (h,none)

theorem lookupSet (h : Holders) (key k : Key) (epoch owner : Nat) :
    (h.set key epoch owner).1.lookup k = if k = key then some ⟨epoch,owner⟩ else h.lookup k :=
  lookupInsert h key k _

theorem lookupRemove (h : Holders) (key k : Key) (owner : Nat) :
    (h.remove key owner).lookup k =
      if k = key then (h.lookup k).filter (fun current => current.owner != owner) else h.lookup k := by
  unfold Holders.remove
  by_cases same : k = key
  · subst same
    cases found : h.lookup k with
    | none => simp [found]
    | some current => by_cases own : current.owner = owner <;> simp [own,found,Option.filter]
  · cases h.lookup key with
    | none => simp [same]
    | some current => by_cases own : current.owner = owner <;> simp [own,same]

theorem lookupPurge (h : Holders) (key k : Key) :
    (h.purge key).1.lookup k = if k = key then none else h.lookup k := by
  unfold Holders.purge
  cases found : h.lookup key with
  | none =>
    by_cases same : k = key
    · subst same; simp [found]
    · simp [same]
  | some previous => exact lookupErase h key k

theorem lookupRevoke (h : Holders) (key k : Key) (epoch : Nat) :
    (h.revoke key epoch).1.lookup k = if k = key then none else h.lookup k := by
  unfold Holders.revoke
  cases found : h.lookup key with
  | none =>
    by_cases same : k = key
    · subst same; simp [found]
    · simp [same]
  | some previous => exact lookupErase h key k

end SqliteRemote.Server
