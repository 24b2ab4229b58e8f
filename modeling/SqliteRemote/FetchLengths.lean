import SqliteRemote.MemoryVersions
import SqliteRemote.ServerRuns

/-! The count of a fetch. Go makes a slice of it, which panics if it is too long, and the only bound on
it is the page count, which a commit without blocks may set to any number of 64 bits. -/
namespace SqliteRemote.MemoryStore
open Rows StoreContract

section
variable {maxSlice : Nat}

def PagesFit (maxSlice : Nat) (k : Key) (s : Store) : Prop :=
  ∀ db, record s k = some db → db.state.pageCount.toNat ≤ maxSlice

theorem fetchAll {s : Store} {k : Key} {db : Database} (found : record s k = some db) (live : db.deleted = false) :
    ∃ data, s.fetch k db.state.version 0 db.state.pageCount = .ok data := by
  have inside : checkRange 0 db.state.pageCount db.state.pageCount = none := by
    rw [checkRangeAccepts,UInt64.sub_zero]
    exact ⟨UInt64.zero_le,UInt64.le_refl _⟩
  have there : s.dbs.lookup k = some db := found
  rw [Store.fetch,there]
  simp only [live,Bool.false_eq_true,if_false,ne_eq,not_true_eq_false,inside]
  exact ⟨_,rfl⟩

theorem panicsIff {s : Store} {k : Key} {version : Nat} {first count : UInt64} :
    s.fetchPanics maxSlice k version first count = true ↔
      (∃ data, s.fetch k version first count = .ok data) ∧ maxSlice < count.toNat := by
  rw [Store.fetchPanics,Bool.and_eq_true,decide_eq_true_eq]
  cases s.fetch k version first count <;> simp [Except.isOk,Except.toBool]

theorem fetchInside {s : Store} {k : Key} {version : Nat} {first count : UInt64} {data : List Bytes}
    (fits : PagesFit maxSlice k s) (fetched : s.fetch k version first count = .ok data) : count.toNat ≤ maxSlice := by
  obtain ⟨db,found,_,_,inside,_⟩ := fetchRead fetched
  have range := (rangeIndex inside (Nat.zero_le _)).2
  exact Nat.le_trans (by omega) (fits db found)

theorem pagesFitAfter {s : Store} {k : Key} {op : Op} {reply : Answer} {after : Option Database}
    (did : RecordStep s k op reply after) (fits : PagesFit maxSlice k s)
    (applied : ∀ req db, op = .commit req → req.key = k → after = some (db.apply req) →
      reply = .ok (.version (req.baseVersion.toNat+1)) → record s k = some db →
      db.state.version = req.baseVersion.toNat → req.pageCount.toNat ≤ maxSlice) :
    ∀ db, after = some db → db.state.pageCount.toNat ≤ maxSlice := by
  intro db same
  cases did with
  | idle quiet => exact fits db same
  | resumed key found live asked held id => cases same; exact (fits _ found :)
  | granted key found live asked => cases same; exact (fits _ found :)
  | revived key found dead asked size => cases same; exact (fits _ found :)
  | created key missing asked size => cases same; exact Nat.zero_le _
  | repeated key found held again => cases same; exact (fits _ found :)
  | applied key found held base ok => cases same; exact applied _ _ rfl key rfl (by rw [base]) found base
  | renewed found held => cases same; exact (fits _ found :)
  | released found held => cases same; exact (fits _ found :)
  | deleted key found live => cases same; exact Nat.zero_le _
  | swept listed found live free => cases same; exact Nat.zero_le _
  | purged present cause => contradiction

theorem pagesFitRun {ops : List Op} {k : Key}
    (fit : ∀ e ∈ history ops, ∀ req, AppliedAt k req e → req.pageCount.toNat ≤ maxSlice) :
    PagesFit maxSlice k (run new ops) := by
  refine History.keptToEnd step (P := PagesFit maxSlice k) ?_ (fun db found => by simp [record,new] at found)
  intro e member fits
  refine pagesFitAfter (eventRecord wellformedNew member k) fits ?_
  intro req db op key after reply found base
  exact fit e member req ⟨op,key,reply,db,found,base,after⟩

theorem appliedLive {db : Database} {req : CommitRequest} (valid : Wellformed (db.apply req)) :
    (db.apply req).deleted = false := by
  cases dead : (db.apply req).deleted with
  | false => rfl
  | true =>
    have last := appliedLast db req
    rw [(valid.empty dead).2.1] at last
    contradiction

end

theorem fetchPanicsIff (maxSlice : Nat) (ops : List Op) (k : Key) :
    ((∀ n version first count, (run new (ops.take n)).fetchPanics maxSlice k version first count = false) ↔
      ∀ e ∈ history ops, ∀ req, AppliedAt k req e → req.pageCount.toNat ≤ maxSlice) ∧
    (∀ n version first count data, (run new (ops.take n)).fetch k version first count = .ok data →
      ∀ i < count.toNat, (first+UInt64.ofNat i).toNat = first.toNat+i) := by
  refine ⟨⟨fun calm e member req applied => ?_,fun fit n version first count => ?_⟩,?_⟩
  · -- Otherwise the fetch of all pages after the commit panics.
    obtain ⟨i,found⟩ := List.mem_iff_getElem?.mp member
    obtain ⟨_,_,_,db,before,_,after⟩ := applied
    have live := appliedLive ((wellformedEvent wellformedNew member).2 k _ after)
    rw [(History.eventAt step found).2.1] at after
    by_contra large
    have panics := panicsIff.mpr ⟨fetchAll after live,Nat.lt_of_not_le large⟩
    rw [calm] at panics
    contradiction
  · refine Bool.eq_false_iff.mpr fun panics => ?_
    obtain ⟨⟨data,fetched⟩,large⟩ := panicsIff.mp panics
    refine absurd (fetchInside (pagesFitRun fun e member => fit e ?_) fetched) (Nat.not_le.mpr large)
    have parts : history ops = history (ops.take n) ++ History.history step (run new (ops.take n)) (ops.drop n) := by
      have whole := History.historyAppend step new (ops.take n) (ops.drop n)
      rwa [List.take_append_drop] at whole
    rw [parts]
    exact List.mem_append_left _ member
  · intro n version first count data fetched i less
    obtain ⟨db,_,_,_,inside,_⟩ := fetchRead fetched
    exact (rangeIndex inside (Nat.le_of_lt less)).1

def twoPages : List Op := [.openDatabase (sampleOpen [1]) [7],.commit (sampleCommit [10] 1 0 2 [])]

theorem fetchPanicsTwoPages :
    (run new (twoPages.take 2)).fetch sampleKey 1 0 2 = .ok [zeros 512,zeros 512] ∧
    (run new (twoPages.take 2)).fetchPanics 1 sampleKey 1 0 2 = true ∧
    ∀ n version first count, (run new (twoPages.take n)).fetchPanics 2 sampleKey version first count = false := by
  refine ⟨by decide +kernel,by decide +kernel,(fetchPanicsIff 2 twoPages sampleKey).1.mpr fun e member req applied => ?_⟩
  have listed := History.eventOp step member
  rw [applied.1] at listed
  have same : req = sampleCommit [10] 1 0 2 [] := by simpa [twoPages] using listed
  rw [same]
  decide

end SqliteRemote.MemoryStore

namespace SqliteRemote.Server
open StoreContract Programs Protocol

def Activity.isLeaving : Activity → Bool
  | .leaving _ => true
  | _ => false

def Activity.isGone : Activity → Bool
  | .gone => true
  | _ => false

def hugePages : UInt64 := 2^63

def hugeClient : List Action :=
  [.logIn 0 "alice" [1] "" none] ++ handled 0 (openFrame false) ⟨0,[7],[]⟩ 5 ++
    handled 0 ⟨2,.commit ⟨"db",List.replicate 16 9,1,0,hugePages,[],false,0⟩⟩ ⟨1,[],[]⟩ 4

def hugeFetch : ClientFrame := ⟨3,.fetch ⟨"db",1,0,hugePages,[]⟩⟩

theorem hugeFetchPanics :
    ((run sampleOptions (hugeClient ++ handled 0 hugeFetch ⟨2,[],[]⟩ 0)).shared.store.fetch aliceKey 1 0 hugePages).isOk ∧
    ¬ hugePages.toNat ≤ 2^63-1 ∧
    ((run sampleOptions (hugeClient ++ handled 0 hugeFetch ⟨2,[],[]⟩ 1)).connections 0).isLeaving := by
  decide +kernel

end SqliteRemote.Server
