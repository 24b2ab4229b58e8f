import SqliteRemote.FetchSnapshot
import SqliteRemote.ServedFrames

/-! A fetch answered from one state of the store. The handler compares the ranges in 64-bit
arithmetic that wraps, and the store checks each of them against the page count; only together
do the two checks say that the ranges are in order, and then the frames are the blocks asked for. -/
namespace SqliteRemote.Server
open Rows StoreContract Programs Protocol
open MemoryStore (Store Database record)

/- Ranges within the page count and in order, as numbers without bound. -/
structure Fetchable (db : Database) (req : Fetch) : Prop where
  current : req.version = db.state.version
  inside : ∀ r ∈ req.asked, r.firstBlock.toNat+r.count.toNat ≤ db.state.pageCount.toNat
  order : req.asked.IsChain (fun a b => a.firstBlock.toNat+a.count.toNat ≤ b.firstBlock.toNat)

structure Reassembles (db : Database) (r : Range) (group : List Pages) : Prop where
  nonempty : group ≠ []
  consecutive : ∀ i p, group[i]? = some p →
    p.firstBlock.toNat = r.firstBlock.toNat+((group.take i).flatMap Pages.blocks).length
  whole : group.flatMap Pages.blocks = read db r

theorem insideIff {first count pageCount : UInt64} :
    checkRange first count pageCount = none ↔ first.toNat+count.toNat ≤ pageCount.toNat := by
  refine ⟨fun inside => (rangeIndex inside (Nat.zero_le _)).2,fun inside => checkRangeAccepts.mpr ?_⟩
  have low : first ≤ pageCount := UInt64.le_iff_toNat_le.mpr (by omega)
  refine ⟨low,UInt64.le_iff_toNat_le.mpr ?_⟩
  rw [UInt64.toNat_sub_of_le _ _ low]
  omega

theorem fetchLive {s : Store} {key : Key} {db : Database} {version : Nat} {r : Range} (found : record s key = some db)
    (live : db.deleted = false) (current : version = db.state.version)
    (inside : checkRange r.firstBlock r.count db.state.pageCount = none) :
    s.fetch key version r.firstBlock r.count = .ok (read db r) := by
  have found : s.dbs.lookup key = some db := found
  simp only [Store.fetch,found,live,current,inside,Bool.false_eq_true,if_false,ne_eq,not_true]
  rfl

theorem fetchRefused {s : Store} {key : Key} {db : Database} {version : Nat} {r : Range} (found : record s key = some db)
    (outside : ¬(version = db.state.version ∧ checkRange r.firstBlock r.count db.state.pageCount = none)) :
    ∃ e, s.fetch key version r.firstBlock r.count = .error e := by
  cases fetched : s.fetch key version r.firstBlock r.count with
  | error e => exact ⟨e,rfl⟩
  | ok data =>
    obtain ⟨other,there,_,current,inside,_⟩ := MemoryStore.fetchRead fetched
    rw [found] at there
    cases there
    exact absurd ⟨current,inside⟩ outside

theorem fetchRunsFrom {s : Store} {key : Key} {db : Database} {version : Nat} {failed : Fault → Handler}
    {next : List (List Bytes) → Handler} {runs : List (List Bytes)} {ranges : List Range} {trace : List (Asked Effect)}
    {after : Connection} (found : record s key = some db) (live : db.deleted = false)
    (performed : Performs (fetchRuns key version failed next runs ranges) trace after)
    (answered : ∀ x ∈ trace, FromStore s x) :
    ∃ first rest, trace = first ++ rest ∧ sent first = [] ∧
      ((Performs (next (runs ++ ranges.map (read db))) rest after ∧
        ∀ r ∈ ranges, version = db.state.version ∧ checkRange r.firstBlock r.count db.state.pageCount = none) ∨
      (∃ fault, Performs (failed fault) rest after) ∧
        ¬∀ r ∈ ranges, version = db.state.version ∧ checkRange r.firstBlock r.count db.state.pageCount = none) := by
  induction ranges generalizing runs trace with
  | nil => exact ⟨[],trace,rfl,rfl,.inl ⟨by rw [List.map_nil,List.append_nil]; exact performed,by simp⟩⟩
  | cons r ranges ih =>
    cases performed with
    | ask answer tail =>
      obtain ⟨_,same⟩ : ∃ newLeaseID, answer = declared (call s newLeaseID (.fetch key version r.firstBlock r.count)).1 :=
        answered _ List.mem_cons_self
      simp only [call] at same
      by_cases fits : version = db.state.version ∧ checkRange r.firstBlock r.count db.state.pageCount = none
      · rw [fetchLive found live fits.1 fits.2] at same
        subst same
        obtain ⟨first,rest,rfl,silent,how⟩ := ih tail (fun x member => answered x (List.mem_cons_of_mem _ member))
        refine ⟨_ :: first,rest,rfl,silent,?_⟩
        rcases how with ⟨going,all⟩ | ⟨failing,none_⟩
        · rw [List.append_assoc] at going
          exact .inl ⟨going,List.forall_mem_cons.mpr ⟨fits,all⟩⟩
        · exact .inr ⟨failing,fun all => none_ (fun x member => all x (List.mem_cons_of_mem _ member))⟩
      · obtain ⟨e,refused⟩ := fetchRefused found fits
        rw [refused] at same
        subst same
        exact ⟨[_],_,rfl,rfl,.inr ⟨⟨_,tail⟩,fun all => fits (all r List.mem_cons_self)⟩⟩

/- What the handler checks: each range starts no earlier than the wrapped end of the one before. -/
theorem checkRangesIff {number : Nat} {reached : UInt64} {ranges : List Range} :
    checkRanges number reached ranges = none ↔
      (0 < number → ∀ r ∈ ranges.head?, reached ≤ r.firstBlock) ∧
      ranges.IsChain (fun a b => a.firstBlock+a.count ≤ b.firstBlock) := by
  induction ranges generalizing number reached with
  | nil => simp [checkRanges]
  | cons r rest ih =>
    unfold checkRanges
    rw [List.isChain_cons]
    split
    · rename_i back
      refine ⟨fun impossible => by contradiction,fun both => ?_⟩
      have reaches : reached ≤ r.firstBlock := both.1 back.1 r rfl
      exact absurd (UInt64.lt_of_lt_of_le back.2 reaches) (UInt64.lt_irrefl _)
    · rename_i forth
      rw [ih]
      refine ⟨fun later => ⟨fun positive x head => ?_,later.1 (Nat.succ_pos _),later.2⟩,
        fun both => ⟨fun _ => both.2.1,both.2.2⟩⟩
      cases head
      exact UInt64.not_lt.mp (fun back => forth ⟨positive,back⟩)

theorem endUnwrapped {r : Range} {pageCount : UInt64} (inside : r.firstBlock.toNat+r.count.toNat ≤ pageCount.toNat) :
    (r.firstBlock+r.count).toNat = r.firstBlock.toNat+r.count.toNat := by
  rw [UInt64.toNat_add]
  exact Nat.mod_eq_of_lt (Nat.lt_of_le_of_lt inside (UInt64.toNat_lt pageCount))

theorem orderedIff {ranges : List Range} {pageCount : UInt64}
    (inside : ∀ r ∈ ranges, r.firstBlock.toNat+r.count.toNat ≤ pageCount.toNat) :
    ranges.IsChain (fun a b => a.firstBlock+a.count ≤ b.firstBlock) ↔
      ranges.IsChain (fun a b => a.firstBlock.toNat+a.count.toNat ≤ b.firstBlock.toNat) := by
  induction ranges with
  | nil => simp
  | cons r rest ih =>
    rw [List.isChain_cons,List.isChain_cons,ih (fun x member => inside x (List.mem_cons_of_mem _ member))]
    simp only [UInt64.le_iff_toNat_le,endUnwrapped (inside r List.mem_cons_self)]

theorem fetchableIff {db : Database} {req : Fetch} :
    Fetchable db req ↔ checkRanges 0 0 req.asked = none ∧
      ∀ r ∈ req.asked, req.version = db.state.version ∧ checkRange r.firstBlock r.count db.state.pageCount = none := by
  refine ⟨fun fits => ⟨checkRangesIff.mpr ⟨fun none_ => absurd none_ (Nat.lt_irrefl 0),?_⟩,?_⟩,fun both => ?_⟩
  · exact (orderedIff fits.inside).mpr fits.order
  · exact fun r member => ⟨fits.current,insideIff.mpr (fits.inside r member)⟩
  · obtain ⟨order,each⟩ := both
    obtain ⟨r,member⟩ := List.exists_mem_of_ne_nil _ (askedNonempty req)
    have inside : ∀ r ∈ req.asked, r.firstBlock.toNat+r.count.toNat ≤ db.state.pageCount.toNat :=
      fun r member => insideIff.mp (each r member).2
    exact ⟨(each r member).1,inside,(orderedIff inside).mp (checkRangesIff.mp order).2⟩

theorem consecutiveAt {first : UInt64} {pages : List Pages} (consecutive : Consecutive first pages)
    (fits : first.toNat+(pages.flatMap Pages.blocks).length < 2^64) {i : Nat} {p : Pages} (found : pages[i]? = some p) :
    p.firstBlock.toNat = first.toNat+((pages.take i).flatMap Pages.blocks).length := by
  induction consecutive generalizing i with
  | nil => simp at found
  | @cons first q rest start later ih =>
    rw [List.flatMap_cons,List.length_append] at fits
    cases i with
    | zero =>
      cases found
      rw [start]
      rfl
    | succ i =>
      have moved : (first+UInt64.ofNat q.blocks.length).toNat = first.toNat+q.blocks.length := by
        have size : UInt64.size = 2^64 := rfl
        rw [UInt64.toNat_add,UInt64.toNat_ofNat_of_lt' (by omega),Nat.mod_eq_of_lt (by omega)]
      rw [ih (by omega) found,moved,List.take_succ_cons,List.flatMap_cons,List.length_append,Nat.add_assoc]

theorem readLength (db : Database) (r : Range) : (read db r).length = r.count.toNat := by
  rw [read,List.length_map,List.length_range]

theorem groupReassembles {db : Database} {perFrame : Nat} {r : Range} {group : List Pages}
    (inside : r.firstBlock.toNat+r.count.toNat ≤ db.state.pageCount.toNat)
    (grouped : Group perFrame r.firstBlock (read db r) group) : Reassembles db r group := by
  refine ⟨grouped.nonempty,fun i p found => consecutiveAt grouped.consecutive ?_ found,grouped.whole⟩
  rw [grouped.whole,readLength]
  exact Nat.lt_of_le_of_lt inside (UInt64.toNat_lt _)

theorem groupsReassemble {db : Database} {perFrame : Nat} {ranges : List Range} {groups : List (List Pages)}
    (inside : ∀ r ∈ ranges, r.firstBlock.toNat+r.count.toNat ≤ db.state.pageCount.toNat)
    (grouped : List.Forall₂ (fun run group => Group perFrame run.1.firstBlock run.2 group)
      (ranges.map (fun r => (r,read db r))) groups) : List.Forall₂ (Reassembles db) ranges groups := by
  rw [List.forall₂_map_left_iff] at grouped
  have both := (List.forall₂_and_left ranges groups).mpr ⟨inside,grouped⟩
  exact both.imp (fun r group each => groupReassembles each.1 each.2)

theorem rangesFew {req : Fetch} (few : req.ranges.length ≤ maxFetchRanges) : ¬maxFetchRanges < req.asked.length := by
  unfold Fetch.asked
  split
  · simp [maxFetchRanges]
  · exact Nat.not_lt.mpr few

theorem fetchFrom {opts : Options} {c after : Connection} {frame : ClientFrame} {req : Fetch} {s : Store}
    {db : OpenDB} {D : Database} {trace : List (Asked Effect)} (numbered : frame.requestID ≠ 0)
    (body : frame.body = .fetch req) (isOpen : c.dbs.lookup req.dbID = some db) (found : record s db.key = some D)
    (live : D.deleted = false) (few : req.ranges.length ≤ maxFetchRanges)
    (performed : Performs (c.handle opts frame) trace after) (answered : ∀ x ∈ trace, FromStore s x) :
    (Fetchable D req ∧ sent trace = pageFrames frame.requestID (blocksPerFrame opts db.pageSize)
      (req.asked.map (fun r => (r,read D r)))) ∨
    (¬Fetchable D req ∧ Refused frame.requestID (sent trace)) := by
  simp only [Connection.handle,if_neg numbered,body,Connection.fetch,isOpen,if_neg (rangesFew few)] at performed
  rw [fetchableIff]
  cases checked : checkRanges 0 0 req.asked with
  | some complaint =>
    rw [checked] at performed
    refine .inr ⟨fun both => ?_,_,performsFail performed⟩
    exact absurd both.1 (by simp)
  | none =>
    rw [checked] at performed
    obtain ⟨first,rest,rfl,silent,how⟩ := fetchRunsFrom found live performed answered
    rw [sentAppend,silent,List.nil_append]
    rcases how with ⟨going,all⟩ | ⟨⟨fault,failing⟩,outside⟩
    · refine .inl ⟨⟨rfl,all⟩,?_⟩
      rw [performsSendAll going,sentSends,List.nil_append,List.map_prod_left_eq_zip]
    · exact .inr ⟨fun both => outside both.2,_,performsFail failing⟩

theorem fetchReassembles {opts : Options} {c after : Connection} {frame : ClientFrame} {req : Fetch} {s : Store}
    {db : OpenDB} {D : Database} {trace : List (Asked Effect)} (numbered : frame.requestID ≠ 0)
    (body : frame.body = .fetch req) (isOpen : c.dbs.lookup req.dbID = some db) (found : record s db.key = some D)
    (live : D.deleted = false) (few : req.ranges.length ≤ maxFetchRanges)
    (performed : Performs (c.handle opts frame) trace after) (answered : ∀ x ∈ trace, FromStore s x) :
    ((∃ f ∈ sent trace, f.body.isPages = true) ↔ Fetchable D req) ∧
    (Fetchable D req → ∃ groups, sent trace = groups.flatten.map (pagesFrame frame.requestID) ∧
      List.Forall₂ (Reassembles D) req.asked groups ∧ Flagged true groups.flatten) := by
  rcases fetchFrom numbered body isOpen found live few performed answered with ⟨fits,frames⟩ | ⟨misfit,e,frames⟩
  · have some_ : req.asked.map (fun r => (r,read D r)) ≠ [] := by
      rw [Ne,List.map_eq_nil_iff]
      exact askedNonempty req
    obtain ⟨groups,split,grouped⟩ := pageFramesGrouped frame.requestID (blocksPerFramePositive opts db.pageSize) some_
    rw [frames,split]
    refine ⟨⟨fun _ => fits,fun _ => ?_⟩,fun _ => ⟨groups,rfl,groupsReassemble fits.inside grouped.each,grouped.flagged⟩⟩
    obtain ⟨init,final,whole,_⟩ := grouped.flagged
    exact ⟨pagesFrame frame.requestID final,List.mem_map_of_mem (by rw [whole]; simp),rfl⟩
  · refine ⟨⟨fun paged => ?_,fun fits => absurd fits misfit⟩,fun fits => absurd fits misfit⟩
    obtain ⟨f,member,paged⟩ := paged
    rw [frames] at member
    rw [List.mem_singleton.mp member] at paged
    contradiction

def storeAnswers {β : Type} (s : Store) : Effect β → β
  | .call k => declared (call s [] k).1
  | .clock => 0
  | .send _ => ()
  | .holders _ => ()
  | .anyOrder keys => ⟨keys,.refl keys⟩

theorem storeAnswersFrom {s : Store} {x : Asked Effect} (answered : x.answer = storeAnswers s x.effect) :
    FromStore s x := by
  obtain ⟨effect,answer⟩ := x
  cases effect with
  | call k => exact ⟨[],answered⟩
  | _ => trivial

def fetchedStore : Store := (run sampleOptions committedOnce).shared.store

def fetchingConnection : Connection :=
  (Connection.loggedIn "alice" [1] "" none).put "db" ⟨⟨"alice","db"⟩,1,512,none,0⟩

theorem fetchReassemblesTwoRanges : ∃ D groups, record fetchedStore ⟨"alice","db"⟩ = some D ∧
    D.content 0 = pageOne ∧ D.content 1 = zeros 512 ∧
    sent ((fetchingConnection.handle sampleOptions ⟨3,.fetch twoRanges⟩).runWith (storeAnswers fetchedStore)).1 =
      groups.flatten.map (pagesFrame 3) ∧
    groups.flatten.map (pagesFrame 3) = [⟨3,.pages ⟨0,[pageOne],false⟩⟩,⟨3,.pages ⟨1,[zeros 512],true⟩⟩] ∧
    List.Forall₂ (Reassembles D) twoRanges.asked groups ∧ Flagged true groups.flatten := by
  obtain ⟨D,found⟩ : ∃ D, record fetchedStore ⟨"alice","db"⟩ = some D :=
    Option.isSome_iff_exists.mp (by decide +kernel)
  have state : (record fetchedStore ⟨"alice","db"⟩).map (fun D =>
      (D.deleted,D.state.version,D.state.pageCount,D.content 0,D.content 1)) =
      some (false,1,2,pageOne,zeros 512) := by decide +kernel
  rw [found] at state
  simp only [Option.map_some,Option.some.injEq,Prod.mk.injEq] at state
  obtain ⟨live,version,pageCount,written,unwritten⟩ := state
  have fits : Fetchable D twoRanges :=
    ⟨version.symm,by rw [pageCount]; decide,by decide⟩
  have isOpen : fetchingConnection.dbs.lookup twoRanges.dbID = some ⟨⟨"alice","db"⟩,1,512,none,0⟩ := by decide +kernel
  have answered : ∀ x ∈ ((fetchingConnection.handle sampleOptions ⟨3,.fetch twoRanges⟩).runWith
      (storeAnswers fetchedStore)).1, FromStore fetchedStore x :=
    fun x member => storeAnswersFrom (runWithAnswered (storeAnswers fetchedStore) _ x member)
  obtain ⟨groups,frames,each,flagged⟩ := (fetchReassembles (by decide) rfl isOpen found live (by decide)
    (performsRun (storeAnswers fetchedStore) (fetchingConnection.handle sampleOptions ⟨3,.fetch twoRanges⟩)) answered).2 fits
  have pages : sent ((fetchingConnection.handle sampleOptions ⟨3,.fetch twoRanges⟩).runWith (storeAnswers fetchedStore)).1 =
      [⟨3,.pages ⟨0,[pageOne],false⟩⟩,⟨3,.pages ⟨1,[zeros 512],true⟩⟩] := by decide +kernel
  exact ⟨D,groups,found,written,unwritten,frames,frames.symm.trans pages,each,flagged⟩

end SqliteRemote.Server
