import SqliteRemote.MemoryFencing
import SqliteRemote.PostgresVersions

/-! Fencing in the PostgreSQL store under calls whose statements interleave. A call that has ended a
lease leaves a row past its epoch or without a holder, the row stays so, and whoever comes with the
epoch afterwards is refused, on whatever server. -/
namespace SqliteRemote.Postgres
open Rows StoreContract Programs RowLocking
open MemoryStore (Database Store record Carries Fenced)

def EndsLease (k : Key) (epoch : Nat) : Op → Reply → Prop
  | .openDatabase req _,.opened result => req.key = k ∧ epoch < result.lease.epoch
  | .release key carried,.done => key = k ∧ carried = epoch
  | .delete req,.deleted result => req.key = k ∧ epoch < result.epoch
  | _,_ => False

def FencedRow (epoch : Nat) (row : Row) : Prop :=
  epoch < row.leaseEpoch ∨ epoch = row.leaseEpoch ∧ row.leaseHolder = none

section
variable {k : Key} {epoch : Nat}

theorem endsAcknowledged {op : Op} {reply : Reply} (ends : EndsLease k epoch op reply) : Acknowledges k op reply := by
  cases op <;> cases reply <;> simp only [EndsLease] at ends <;> refine ⟨?_,fun _ _ _ => Op.noConfusion⟩
  · exact ends.1
  · exact ends.1
  · exact ⟨ends.1,Nat.zero_lt_of_lt ends.2⟩

theorem carriesAcknowledged {op : Op} (carries : Carries k epoch op) (reply : Reply) : Acknowledges k op reply := by
  cases op <;> simp only [Carries] at carries <;> exact ⟨carries.1,fun _ _ _ => Op.noConfusion⟩

theorem endsFenced {s : Store} {op : Op} {reply : Reply} (valid : MemoryStore.WellformedStore s)
    (ends : EndsLease k epoch op reply) (replied : (MemoryStore.step s op).1 = .ok reply) :
    Fenced k epoch (MemoryStore.step s op).2 := by
  have did := MemoryStore.recordStep valid.unheld op k
  rw [replied] at did
  unfold Fenced
  generalize record (MemoryStore.step s op).2 k = after at did ⊢
  cases did with
  | idle quiet => exact absurd (endsAcknowledged ends).1 quiet
  | resumed key found live asked held same => exact ⟨_,rfl,.inl ends.2⟩
  | granted key found live asked => exact ⟨_,rfl,.inl ends.2⟩
  | revived key found dead asked size => exact ⟨_,rfl,.inl ends.2⟩
  | created key missing asked size => exact ⟨_,rfl,.inl ends.2⟩
  | released found held => exact ⟨_,rfl,.inr ⟨ends.2.symm.trans (MemoryStore.holdsHolder held).2.symm,rfl⟩⟩
  | deleted key found live => exact ⟨_,rfl,.inl ends.2⟩
  | purged present cause => cases cause <;> contradiction
  | repeated | applied | renewed | swept => contradiction

theorem fencedStepRefuses {s : Store} {op : Op} {reply : Reply} (valid : MemoryStore.WellformedStore s)
    (fenced : Fenced k epoch s) (carries : Carries k epoch op) : (MemoryStore.step s op).1 ≠ .ok reply := by
  intro replied
  have member : (⟨s,op,_,_⟩ : MemoryStore.Event) ∈ History.history MemoryStore.step s [op] := List.mem_cons_self
  obtain ⟨err,refused⟩ := MemoryStore.fencedRefuses valid member fenced carries
  cases replied.symm.trans refused

theorem endsTruncated {op : Op} {reply : Reply} (ends : EndsLease k epoch op reply) :
    EndsLease k epoch (truncated op) reply := by
  cases op <;> cases reply <;> exact ends

theorem carriesTruncated {op : Op} (carries : Carries k epoch op) : Carries k epoch (truncated op) := by
  cases op <;> exact carries

theorem okReplied {answer : Answer} {reply : Reply} (same : Except.ok reply = answer.mapError Failure.declared) :
    answer = .ok reply := by
  cases answer with
  | error e => cases same
  | ok other => cases same; rfl

theorem fencedKnown {t : Tables} {s : Store} (recorded : Recorded t k (record s k)) :
    Fenced k epoch s ↔ ∃ row, t.row k = some row ∧ FencedRow epoch row := by
  unfold Fenced FencedRow
  cases found : record s k with
  | none =>
    rw [found] at recorded
    cases recorded.represents with
    | absent row _ _ => simp [row]
  | some db =>
    rw [found] at recorded
    cases recorded.represents with
    | present known => simp [known.found,known.same.epoch,known.same.holder]

theorem fencedAdvances {t u : Tables} {row new : Row} (advances : Advances t u k row new) (fenced : FencedRow epoch row) :
    FencedRow epoch new := by
  have grows := advances.epoch
  rcases fenced with past | ⟨same,free⟩
  · exact .inl (by omega)
  · rcases Nat.lt_or_eq_of_le grows with moved | unmoved
    · exact .inl (by omega)
    · exact .inr ⟨same.trans unmoved,advances.released unmoved.symm free⟩

end

section
variable {ops : Nat → Op} {events : List (Event Result)} {w : Calls} {k : Key} {epoch : Nat} {i j : Nat}
  (small : ∀ i req, ops i = .commit req → req.pageCount.toNat < 2^63)
include small

theorem endedState (run : Run engine (fun i => script (ops i)) empty events w) {reply : Reply}
    (ends : EndsLease k epoch (ops i) reply) (returned : Event.returned i (.ok reply) ∈ events) :
    ∃ earlier later v row, events = earlier ++ later ∧ Run engine (fun i => script (ops i)) empty earlier v ∧
      v.committed.row k = some row ∧ FencedRow epoch row := by
  obtain ⟨earlier,later,before,after,split,_,_,came,step,acted⟩ :=
    landedActed small run k returned (endsAcknowledged ends)
  obtain ⟨cur,recorded⟩ := recordedRun small came k
  obtain ⟨s,valid,_,became,replies⟩ := acted cur recorded
  have replied := okReplied (replies _ rfl)
  obtain ⟨row,found,fenced⟩ := (fencedKnown became).mp (endsFenced valid (endsTruncated ends) replied)
  refine ⟨earlier ++ [.moved i],later,after,row,?_,.next came step,found,fenced⟩
  rw [split,List.append_assoc]
  rfl

theorem fencedUnderInterleaving (keeping : Keeping ops k events w) {first later : List (Event Result)} {ended : Reply}
    (split : events = first ++ later) (ends : EndsLease k epoch (ops i) ended) (settled : Event.returned i (.ok ended) ∈ first)
    (carries : Carries k epoch (ops j)) (since : Event.invoked j ∉ first) (reply : Reply) :
    Event.returned j (.ok reply) ∉ events := by
  intro returned
  have run := keepingRun keeping
  obtain ⟨v,keepingFirst⟩ := keepingPart keeping split
  obtain ⟨start,rest,u,row,parts,came,found,fenced⟩ := endedState small (keepingRun keepingFirst) ends settled
  obtain ⟨earlier,after,before,_,landed,invoked,_,reached,_,acted⟩ :=
    landedActed small run k returned (carriesAcknowledged carries reply)
  -- The later call was not there when the first one returned, so its step comes after that state.
  have order : ∃ more, earlier = start ++ more := by
    rcases List.append_eq_append_iff.mp (landed.symm.trans split) with ⟨more,is,_⟩ | ⟨more,is,_⟩
    · exact absurd (is ▸ List.mem_append_left more invoked) since
    · exact ⟨rest ++ more,by rw [is,parts,List.append_assoc]⟩
  obtain ⟨more,is⟩ := order
  obtain ⟨middle,kept⟩ := keepingPart keeping landed
  cases runUnique reached (keepingRun kept)
  have stays := keepingStays kept is came (by rw [found]; rfl)
  obtain ⟨new,there⟩ := Option.isSome_iff_exists.mp (staysThere stays (by rw [found]; rfl))
  have still := fencedAdvances (advancesStays small came stays found there) fenced
  obtain ⟨cur,recorded⟩ := recordedRun small reached k
  obtain ⟨s,valid,rfl,_,replies⟩ := acted cur recorded
  exact fencedStepRefuses valid ((fencedKnown recorded).mpr ⟨new,there,still⟩) (carriesTruncated carries)
    (okReplied (replies _ rfl))

end

def takenOver : Nat → Op
  | 0 => .openDatabase (anOpen true [1] 123) [9]
  | 1 => .openDatabase (anOpen false [2] 20456) [8]
  | 2 => .commit {aCommit [1] 0 2 [aBlock 1] with now := 20789}
  | _ => .getSlot "owner"

def secondLease : Reply := .opened ⟨⟨[8],2⟩,⟨512,0,0,[]⟩,false⟩

theorem fencedUnderInterleavingTakeover : ∃ events w, Keeping takenOver aKey events w ∧
    Event.returned 1 (.ok secondLease) ∈ events.take 15 ∧ Event.invoked 2 ∉ events.take 15 ∧
    Event.returned 2 (.error (.declared .fenced)) ∈ events ∧ ∀ reply, Event.returned 2 (.ok reply) ∉ events := by
  have ran : (scheduleWhile engine (fun i => script (takenOver i)) [0,1,2] (leavesRow aKey)
      ([0,0,0,0,0,0,0,0] ++ [1,1,1,1,1,1,1] ++ [2,2,2,2,2]) ⟨empty,fun _ => none⟩).map (fun out =>
        (out.1.take 15).contains (.returned 1 (.ok secondLease)) && !(out.1.take 15).contains (.invoked 2) &&
          out.1.contains (.returned 2 (.error (.declared .fenced)))) = some true := by
    decide +kernel
  have small : ∀ i req, takenOver i = .commit req → req.pageCount.toNat < 2^63 := by
    intro i req is
    rcases i with _ | _ | _ | i
    all_goals cases is
    decide
  obtain ⟨⟨events,w⟩,did,shown⟩ := Option.map_eq_some_iff.mp ran
  simp only [Bool.and_eq_true,Bool.not_eq_true',List.contains_eq_mem,decide_eq_true_eq,decide_eq_false_iff_not] at shown
  obtain ⟨⟨settled,since⟩,refused⟩ := shown
  have keeping := keepingWhile (scheduleWhileRun (fun _ _ met => met) (by decide)
    (fun _ there => Bool.noConfusion there) did .start).1
  have ends : EndsLease aKey 1 (takenOver 1) secondLease := ⟨rfl,Nat.lt_succ_self 1⟩
  have carries : Carries aKey 1 (takenOver 2) := ⟨rfl,rfl⟩
  exact ⟨events,w,keeping,settled,since,refused,fencedUnderInterleaving small keeping
    (List.take_append_drop 15 events).symm ends settled carries since⟩

end SqliteRemote.Postgres
