import Mathlib

/-! The storage contract: keys, leases, states, requests, answers and errors, and the checks
that every store shares. Times are instants in nanoseconds. Page counts, block indexes and
the base version of a commit are 64-bit as the client sends them; lease epochs and versions
are counters that an operation advances by one at most, from zero, and that are only compared. -/
namespace SqliteRemote.StoreContract

abbrev Bytes := List UInt8
abbrev Time := Int
abbrev Duration := Int

/- Go's zero time, 1 January of year 1, stands for no time at all. -/
def zeroTime : Time := -62135596800*10^9

-- Go multiplies durations in int64, which wraps around.
def int64 (n : Int) : Int := n.bmod (2^64)

def IsInt64 (n : Int) : Prop := -2^63 ≤ n ∧ n < 2^63
instance (n : Int) : Decidable (IsInt64 n) := by unfold IsInt64; infer_instance

theorem int64Exact {n : Int} (fits : IsInt64 n) : int64 n = n := by
  obtain ⟨low,high⟩ := fits
  exact Int.bmod_eq_of_le (by simpa using low) (by simpa using high)

-- Time.Sub is limited to the durations of 64 bits.
def timeSub (later earlier : Time) : Duration := max (-2^63) (min (later-earlier) (2^63-1))

theorem leTimeSub {d later earlier : Int} (low : -2^63 < d) (high : d < 2^63) :
    d ≤ timeSub later earlier ↔ earlier+d ≤ later := by
  have is : timeSub later earlier = max (-2^63) (min (later-earlier) (2^63-1)) := rfl
  rw [is]
  omega

def minPageSize : UInt32 := 512
def maxPageSize : UInt32 := 65536
def changeWindow : Nat := 1024

structure Key where
  subject : String
  dbID : String
  deriving DecidableEq, Repr

structure Lease where
  id : Bytes
  epoch : Nat
  deriving DecidableEq, Repr

structure State where
  pageSize : UInt32
  pageCount : UInt64
  version : Nat
  lastCommitID : Bytes
  deriving DecidableEq, Repr

structure Resume where
  leaseID : Bytes
  leaseEpoch : Nat
  deriving DecidableEq, Repr

-- A missing instance ID is Go's nil slice: it counts as empty when compared, but a lease
-- granted to it has no holder.
structure OpenRequest where
  key : Key
  owner : String
  instanceID : Option Bytes
  pageSize : UInt32
  create : Bool
  takeover : Bool
  resume : Option Resume
  now : Time
  ttl : Duration
  deriving DecidableEq, Repr

structure OpenResult where
  lease : Lease
  state : State
  revoked : Bool
  deriving DecidableEq, Repr

structure DeleteRequest where
  key : Key
  takeover : Bool
  now : Time
  deriving DecidableEq, Repr

structure DeleteResult where
  epoch : Nat
  revoked : Bool
  deriving DecidableEq, Repr

structure Block where
  index : UInt64
  data : Bytes
  deriving DecidableEq, Repr

structure CommitRequest where
  key : Key
  commitID : Bytes
  leaseEpoch : Nat
  baseVersion : UInt64
  pageCount : UInt64
  blocks : List Block
  now : Time
  ttl : Duration
  deriving DecidableEq, Repr

structure ChangeSet where
  fromVersion : Nat
  toVersion : Nat
  blocks : List UInt64
  complete : Bool
  deriving DecidableEq, Repr

structure Slot where
  subject : String
  label : String
  claimedAt : Time
  deriving DecidableEq, Repr

structure ClaimRequest where
  owner : String
  subject : String
  now : Time
  deriving DecidableEq, Repr

structure ClaimResult where
  slot : Slot
  replaced : Option Slot
  deleted : List Key
  deriving DecidableEq, Repr

inductive Reason where
  | invalidPageSize (size : UInt32)
  | otherPageSize (size has : UInt32)
  | versionAhead (version current : Nat)
  | emptyCommitID
  | blockBytes (index : UInt64) (bytes : Nat) (pageSize : UInt32)
  | blockBeyond (index pageCount : UInt64)
  | blockTwice (index : UInt64)
  | rangeBeyond (first beyond pageCount : UInt64)
  deriving DecidableEq, Repr

def Reason.text : Reason → String
  | .invalidPageSize size => s!"page size {size} is not a power of two from {minPageSize} to {maxPageSize}"
  | .otherPageSize size has => s!"page size {size}, the database has {has}"
  | .versionAhead version current => s!"version {version} is ahead of {current}"
  | .emptyCommitID => "commit id is empty"
  | .blockBytes index bytes pageSize => s!"block {index} has {bytes} bytes, page size is {pageSize}"
  | .blockBeyond index pageCount => s!"block {index} is beyond page count {pageCount}"
  | .blockTwice index => s!"block {index} appears twice"
  | .rangeBeyond first beyond pageCount => s!"blocks {first} to {beyond} are beyond page count {pageCount}"

inductive Error where
  | notFound
  | fenced
  | slotTaken
  | leaseHeld (since : Time)
  | versionConflict (current : Nat)
  | badRequest (reason : Reason)
  deriving DecidableEq, Repr

def validPageSize (size : UInt32) : Bool :=
  decide (minPageSize ≤ size) && decide (size ≤ maxPageSize) && size &&& (size - 1) == 0

def validateBlocks (pageSize : UInt32) (pageCount : UInt64) (seen : List UInt64) : List Block → Option Reason
  | [] => none
  | block :: rest =>
      if block.data.length ≠ pageSize.toNat then some (.blockBytes block.index block.data.length pageSize)
      else if pageCount ≤ block.index then some (.blockBeyond block.index pageCount)
      else if block.index ∈ seen then some (.blockTwice block.index)
      else validateBlocks pageSize pageCount (block.index :: seen) rest

def validateCommit (pageSize : UInt32) (req : CommitRequest) : Option Reason :=
  if req.commitID = [] then some .emptyCommitID
  else validateBlocks pageSize req.pageCount [] req.blocks

def checkRange (first count pageCount : UInt64) : Option Reason :=
  if pageCount < first ∨ pageCount - first < count then some (.rangeBeyond first (first+count) pageCount)
  else none

def zeros (pageSize : UInt32) : Bytes := List.replicate pageSize.toNat 0

def bytesEqual (a b : Option Bytes) : Bool := a.getD [] == b.getD []

/- The calls of the Store interface. What a store draws for itself is part of the call: the
lease ID of an open, and for DeleteUnused the order in which keys of equal expiry come out,
which neither a map iteration with an unstable sort nor ORDER BY determines. -/
inductive Op where
  | openDatabase (req : OpenRequest) (newLeaseID : Bytes)
  | fetch (key : Key) (version : Nat) (first count : UInt64)
  | commit (req : CommitRequest)
  | changes (key : Key) (fromVersion : Nat)
  | renew (key : Key) (epoch : Nat) (now : Time) (ttl : Duration)
  | release (key : Key) (epoch : Nat)
  | delete (req : DeleteRequest)
  | deleteUnused (cutoff : Time) (limit : Nat) (tie : Key → Nat)
  | getSlot (owner : String)
  | claimSlot (req : ClaimRequest)
  | setSlotLabel (owner subject label : String)
  | deleteSlot (owner subject : String)

inductive Reply where
  | opened (result : OpenResult)
  | blocks (data : List Bytes)
  | version (version : Nat)
  | changeSet (set : ChangeSet)
  | done
  | deleted (result : DeleteResult)
  | unused (keys : List Key)
  | slot (slot : Option Slot)
  | claimed (result : ClaimResult)
  | labelled (slot : Slot)
  | purged (keys : List Key)
  deriving DecidableEq, Repr

abbrev Answer := Except Error Reply

def rank (expiry : Key → Time) (tie : Key → Nat) (k : Key) : Time ×ₗ (Nat ×ₗ (String ×ₗ String)) :=
  toLex (expiry k,toLex (tie k,toLex (k.subject,k.dbID)))

def oldestFirst (expiry : Key → Time) (tie : Key → Nat) (keys : List Key) : List Key :=
  keys.insertionSort (fun a b => rank expiry tie a ≤ rank expiry tie b)

def byDBID (keys : List Key) : List Key := keys.insertionSort (fun a b => a.dbID ≤ b.dbID)

theorem rankInjective (expiry : Key → Time) (tie : Key → Nat) : Function.Injective (rank expiry tie) := by
  intro a b same
  simp only [rank,EmbeddingLike.apply_eq_iff_eq,Prod.mk.injEq] at same
  obtain ⟨_,_,subject,dbID⟩ := same
  cases a; cases b
  simp_all

theorem oldestFirstUnique {expiry other : Key → Time} {tie : Key → Nat} {xs ys : List Key}
    (same : xs.Perm ys) (agree : ∀ k ∈ xs, expiry k = other k) :
    oldestFirst expiry tie xs = oldestFirst other tie ys := by
  have total (f : Key → Time) : Std.Total (fun a b => rank f tie a ≤ rank f tie b) :=
    ⟨fun a b => le_total _ _⟩
  have trans (f : Key → Time) : IsTrans Key (fun a b => rank f tie a ≤ rank f tie b) :=
    ⟨fun _ _ _ => le_trans⟩
  have perm : (oldestFirst expiry tie xs).Perm (oldestFirst other tie ys) :=
    ((List.perm_insertionSort _ xs).trans same).trans (List.perm_insertionSort _ ys).symm
  have inLeft : ∀ k ∈ oldestFirst expiry tie xs, rank expiry tie k = rank other tie k := by
    intro k member
    rw [rank,rank,agree k ((List.perm_insertionSort _ xs).mem_iff.mp member)]
  have left : (oldestFirst expiry tie xs).Pairwise (fun a b => rank other tie a ≤ rank other tie b) := by
    refine (List.pairwise_insertionSort (fun a b => rank expiry tie a ≤ rank expiry tie b) xs).imp_of_mem ?_
    intro a b ha hb order
    rwa [← inLeft a ha,← inLeft b hb]
  refine perm.eq_of_pairwise ?_ left (List.pairwise_insertionSort _ ys)
  intro a b _ _ ab ba
  exact rankInjective other tie (le_antisymm ab ba)

theorem byDBIDUnique {subject : String} {xs ys : List Key} (same : xs.Perm ys)
    (one : ∀ k ∈ xs, k.subject = subject) : byDBID xs = byDBID ys := by
  have total : Std.Total (fun a b : Key => a.dbID ≤ b.dbID) := ⟨fun a b => le_total _ _⟩
  have trans : IsTrans Key (fun a b => a.dbID ≤ b.dbID) := ⟨fun _ _ _ => le_trans⟩
  have perm : (byDBID xs).Perm (byDBID ys) :=
    ((List.perm_insertionSort _ xs).trans same).trans (List.perm_insertionSort _ ys).symm
  refine perm.eq_of_pairwise ?_ (List.pairwise_insertionSort _ xs) (List.pairwise_insertionSort _ ys)
  intro a b ha hb ab ba
  have left := one a ((List.perm_insertionSort _ xs).mem_iff.mp ha)
  have right := one b (same.mem_iff.mpr ((List.perm_insertionSort _ ys).mem_iff.mp hb))
  cases a; cases b
  simp only [Key.mk.injEq]
  exact ⟨left.trans right.symm,le_antisymm ab ba⟩

theorem checkRangeAccepts {first count pageCount : UInt64} :
    checkRange first count pageCount = none ↔ first ≤ pageCount ∧ count ≤ pageCount - first := by
  simp [checkRange]

theorem rangeIndex {first count pageCount : UInt64} (inside : checkRange first count pageCount = none) {n : Nat}
    (less : n ≤ count.toNat) :
    (first+UInt64.ofNat n).toNat = first.toNat+n ∧ first.toNat+count.toNat ≤ pageCount.toNat := by
  obtain ⟨low,high⟩ := checkRangeAccepts.mp inside
  have lowNat : first.toNat ≤ pageCount.toNat := UInt64.le_iff_toNat_le.mp low
  have highNat : count.toNat ≤ pageCount.toNat-first.toNat := by
    have := UInt64.le_iff_toNat_le.mp high
    rwa [UInt64.toNat_sub_of_le _ _ low] at this
  have lastNat := UInt64.toNat_lt pageCount
  have size : UInt64.size = 2^64 := rfl
  refine ⟨?_,by omega⟩
  rw [UInt64.toNat_add,UInt64.toNat_ofNat_of_lt' (by omega),Nat.mod_eq_of_lt (by omega)]

theorem validBlocks {pageSize pageCount seen blocks} (ok : validateBlocks pageSize pageCount seen blocks = none) :
    (∀ b ∈ blocks, b.data.length = pageSize.toNat ∧ b.index < pageCount ∧ b.index ∉ seen) ∧
    (blocks.map Block.index).Nodup := by
  induction blocks generalizing seen with
  | nil => simp
  | cons block rest ih =>
    simp only [validateBlocks] at ok
    split at ok <;> try contradiction
    rename_i bytes
    split at ok <;> try contradiction
    rename_i inside
    split at ok <;> try contradiction
    rename_i fresh
    obtain ⟨each,nodup⟩ := ih ok
    have head : block.data.length = pageSize.toNat ∧ block.index < pageCount ∧ block.index ∉ seen :=
      ⟨not_not.mp bytes,UInt64.not_le.mp inside,fresh⟩
    constructor
    · intro b member
      rcases List.mem_cons.mp member with rfl | inRest
      · exact head
      · obtain ⟨size,bound,unseen⟩ := each b inRest
        exact ⟨size,bound,fun old => unseen (List.mem_cons_of_mem _ old)⟩
    · rw [List.map_cons,List.nodup_cons]
      refine ⟨?_,nodup⟩
      intro again
      obtain ⟨b,member,same⟩ := List.mem_map.mp again
      exact (each b member).2.2 (by simp [same])

theorem validCommit {pageSize : UInt32} {req : CommitRequest} (ok : validateCommit pageSize req = none) :
    req.commitID ≠ [] ∧ (∀ b ∈ req.blocks, b.data.length = pageSize.toNat ∧ b.index < req.pageCount) ∧
    (req.blocks.map Block.index).Nodup := by
  unfold validateCommit at ok
  split at ok <;> try contradiction
  rename_i given
  obtain ⟨each,nodup⟩ := validBlocks ok
  exact ⟨given,fun b member => ⟨(each b member).1,(each b member).2.1⟩,nodup⟩

end SqliteRemote.StoreContract
