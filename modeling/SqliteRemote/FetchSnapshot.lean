import SqliteRemote.FetchLengths
import SqliteRemote.ServedFrames

/-! A Fetch of several ranges. The store is called once for each range and other connections act
between the calls. Every call names the version, and the version of a key that is not removed
completely never comes back, so the blocks of all ranges are those of one state of the key. A call
that panics leaves the request unanswered. -/
namespace SqliteRemote.Server
open Rows StoreContract Programs Protocol
open MemoryStore (Store Database record WellformedStore)

def fetchAsked (key : Key) (version : Nat) (run : Range × List Bytes) : Asked Effect :=
  ⟨.call (.fetch key version run.1.firstBlock run.1.count),.ok run.2⟩

theorem sentFetches (key : Key) (version : Nat) (runs : List (Range × List Bytes)) :
    sent (runs.map (fetchAsked key version)) = [] := by
  rw [sent,List.filterMap_map]
  exact List.filterMap_eq_nil_iff.mpr (fun _ _ => rfl)

def sendAsked (frame : ServerFrame) : Asked Effect := ⟨.send frame,()⟩

theorem sentSends (frames : List ServerFrame) : sent (frames.map sendAsked) = frames := by
  rw [sent,List.filterMap_map]
  exact List.filterMap_some

theorem performsSendAll {c after : Connection} {frames : List ServerFrame} {trace : List (Asked Effect)}
    (performed : Performs (sendAll c frames) trace after) : trace = frames.map sendAsked := by
  induction frames generalizing trace with
  | nil =>
    cases performed with
    | done => rfl
  | cons frame rest ih =>
    cases performed with
    | ask answer tail => rw [ih tail]; rfl

theorem performsFetchRuns {key : Key} {version : Nat} {failed : Fault → Handler} {next : List (List Bytes) → Handler}
    {runs : List (List Bytes)} {ranges : List Range} {trace : List (Asked Effect)} {after : Connection}
    (performed : Performs (fetchRuns key version failed next runs ranges) trace after) :
    (∃ fault first rest, trace = first ++ rest ∧ sent first = [] ∧ Performs (failed fault) rest after) ∨
    (∃ got rest, got.length = ranges.length ∧ trace = (ranges.zip got).map (fetchAsked key version) ++ rest ∧
      Performs (next (runs ++ got)) rest after) := by
  induction ranges generalizing runs trace with
  | nil => exact .inr ⟨[],trace,rfl,rfl,by rw [List.append_nil]; exact performed⟩
  | cons r ranges ih =>
    cases performed with
    | ask answer tail =>
      cases answer with
      | error fault => exact .inl ⟨fault,[_],_,rfl,rfl,tail⟩
      | ok blocks =>
        rcases ih tail with ⟨fault,first,rest,rfl,unsent,failing⟩ | ⟨got,rest,length,rfl,going⟩
        · exact .inl ⟨fault,_ :: first,rest,rfl,unsent,failing⟩
        · refine .inr ⟨blocks :: got,rest,congrArg Nat.succ length,rfl,?_⟩
          rw [List.append_assoc] at going
          exact going

theorem performsFail {opts : Options} {id : UInt64} {failure : Failure} {c after : Connection}
    {trace : List (Asked Effect)} (performed : Performs (fail opts id failure c) trace after) :
    sent trace = [errorFrame opts.platform id failure] := by
  rw [(replied performed).1]
  rfl

structure Paging (opts : Options) (c : Connection) (id : UInt64) (req : Fetch) (trace : List (Asked Effect)) (db : OpenDB)
    (got : List (List Bytes)) : Prop where
  isOpen : c.dbs.lookup req.dbID = some db
  length : got.length = req.asked.length
  whole : trace = (req.asked.zip got).map (fetchAsked db.key req.version) ++
    (pageFrames id (blocksPerFrame opts db.pageSize) (req.asked.zip got)).map sendAsked

section
variable {opts : Options} {c : Connection} {id : UInt64} {req : Fetch} {trace : List (Asked Effect)} {db : OpenDB}
  {got : List (List Bytes)} (paging : Paging opts c id req trace db got)
include paging

theorem pagingFrames : sent trace = pageFrames id (blocksPerFrame opts db.pageSize) (req.asked.zip got) := by
  rw [paging.whole,sentAppend,sentFetches,sentSends,List.nil_append]

theorem pagingAsked (run : Range × List Bytes) (member : run ∈ req.asked.zip got) :
    fetchAsked db.key req.version run ∈ trace := by
  rw [paging.whole]
  exact List.mem_append_left _ (List.mem_map_of_mem member)

theorem pagingRuns : req.asked.zip got ≠ [] := by
  intro none
  rcases List.zip_eq_nil_iff.mp none with empty | empty
  · exact askedNonempty req empty
  · have length := paging.length
    rw [empty] at length
    exact askedNonempty req (List.length_eq_zero_iff.mp length.symm)

end

theorem fetchAnswered {opts : Options} {c after : Connection} {frame : ClientFrame} {req : Fetch}
    {trace : List (Asked Effect)} (body : frame.body = .fetch req)
    (performed : Performs (c.handle opts frame) trace after) :
    (∃ failure, sent trace = [errorFrame opts.platform frame.requestID failure]) ∨
    ∃ db got, Paging opts c frame.requestID req trace db got := by
  unfold Connection.handle at performed
  split at performed
  · rename_i zero
    rw [zero]
    exact .inl ⟨_,performsFail performed⟩
  rw [body] at performed
  simp only [Connection.fetch] at performed
  cases isOpen : c.dbs.lookup req.dbID with
  | none =>
    rw [isOpen] at performed
    exact .inl ⟨_,performsFail performed⟩
  | some db =>
    rw [isOpen] at performed
    simp only at performed
    split at performed
    · exact .inl ⟨_,performsFail performed⟩
    split at performed
    · exact .inl ⟨_,performsFail performed⟩
    rcases performsFetchRuns performed with ⟨fault,first,rest,rfl,unsent,failing⟩ | ⟨got,rest,length,rfl,going⟩
    · refine .inl ⟨gone fault,?_⟩
      rw [sentAppend,unsent]
      exact performsFail failing
    · refine .inr ⟨db,got,isOpen,length,?_⟩
      rw [performsSendAll going]
      rfl

def read (db : Database) (r : Range) : List Bytes :=
  (List.range r.count.toNat).map (fun n => db.content (r.firstBlock+UInt64.ofNat n))

def PagesOf (db : Database) (frame : ServerFrame) : Prop :=
  ∃ p, frame.body = .pages p ∧ ∀ n block, p.blocks[n]? = some block → block = db.content (p.firstBlock+UInt64.ofNat n)

theorem readAt {db : Database} {r : Range} {n : Nat} {block : Bytes} (found : (read db r)[n]? = some block) :
    block = db.content (r.firstBlock+UInt64.ofNat n) := by
  simp only [read,List.getElem?_map,Option.map_eq_some_iff] at found
  obtain ⟨m,there,rfl⟩ := found
  have same : n = m := (List.getElem?_eq_some_iff.mp there).2 ▸ (List.getElem_range _).symm
  rw [same]

theorem pagesOfRead {db : Database} {id : UInt64} {perFrame : Nat} {lastRun : Bool} {r : Range} {start rounds : Nat}
    {frame : ServerFrame} (member : frame ∈ pagesOf id r.firstBlock perFrame lastRun (read db r) start rounds) :
    PagesOf db frame := by
  induction rounds generalizing start with
  | zero => simp [pagesOf] at member
  | succ rounds ih =>
    have this : ∀ stop last, PagesOf db ⟨id,.pages ⟨r.firstBlock+UInt64.ofNat start,
        ((read db r).take stop).drop start,last⟩⟩ := by
      intro stop last
      refine ⟨_,rfl,fun n block found => ?_⟩
      rw [List.getElem?_drop,List.getElem?_take] at found
      split at found <;> try contradiction
      rw [UInt64.add_assoc,← UInt64.ofNat_add]
      exact readAt found
    simp only [pagesOf] at member
    split at member
    · rw [List.mem_singleton.mp member]
      exact this _ _
    · rcases List.mem_cons.mp member with rfl | later
      · exact this _ _
      · exact ih later

theorem pageFramesRead {db : Database} {id : UInt64} {perFrame : Nat} {ranges : List Range} {frame : ServerFrame}
    (member : frame ∈ pageFrames id perFrame (ranges.map (fun r => (r,read db r)))) : PagesOf db frame := by
  induction ranges with
  | nil => simp [pageFrames] at member
  | cons r ranges ih =>
    rcases List.mem_append.mp member with here | later
    · exact pagesOfRead here
    · exact ih later

/- The key has a later version now, or still the contents of the given state. -/
def Follows (db : Database) (now : Option Database) : Prop :=
  ∃ current, now = some current ∧ (db.state.version < current.state.version ∨
    current.deleted = false ∧ current.state = db.state ∧ current.blocks = db.blocks)

theorem followsStep {s : Store} (valid : WellformedStore s) (op : Op) {k : Key} {db : Database}
    (kept : (record s k).isSome → (record (MemoryStore.step s op).2 k).isSome) (follows : Follows db (record s k)) :
    Follows db (record (MemoryStore.step s op).2 k) := by
  obtain ⟨current,found,how⟩ := follows
  obtain ⟨after,there⟩ := Option.isSome_iff_exists.mp (kept (by rw [found]; rfl))
  have did := MemoryStore.recordStep valid.unheld op k
  rw [there] at did
  refine ⟨after,there,?_⟩
  have past : db.state.version ≤ current.state.version := by
    rcases how with later | ⟨_,same,_⟩
    · exact Nat.le_of_lt later
    · rw [same]
  rcases MemoryStore.dataStep did found with same | ⟨req,_,_,_,_,rfl⟩ | ⟨rfl,_⟩
  · rcases how with later | ⟨live,state,blocks⟩
    · exact .inl (same.version ▸ later)
    · obtain ⟨stays,equal⟩ := same.live live
      exact .inr ⟨stays,equal.trans state,same.blocks.trans blocks⟩
  · exact .inl (Nat.lt_succ_of_le past)
  · exact .inl (Nat.lt_succ_of_le past)

theorem readFollows {db current : Database} (follows : Follows db (some current))
    (same : db.state.version = current.state.version) (r : Range) : read current r = read db r := by
  obtain ⟨_,equal,how⟩ := follows
  cases equal
  rcases how with later | ⟨_,state,blocks⟩
  · omega
  · simp only [read,Database.content,state,blocks]

def fetchedCall {β : Type} : Call β → β → Option (Key × Nat × Range × List Bytes)
  | .fetch key version first count => fun data => some (key,version,⟨first,count⟩,data)
  | _ => fun _ => none

def fetched (x : Asked Effect) : Option (Key × Nat × Range × List Bytes) := returned fetchedCall x

theorem fetchedNow (opts : Options) {w : World} {action : Action} {id : Nat} {x : Asked Effect} {k : Key} {version : Nat}
    {r : Range} {data : List Bytes} (asks : (w.step opts action).1.asked = some (id,x))
    (got : fetched x = some (k,version,r,data)) :
    (w.step opts action).2.shared.store = w.shared.store ∧
    ∃ db, record w.shared.store k = some db ∧ db.deleted = false ∧ db.state.version = version ∧ data = read db r := by
  obtain ⟨β,call,c,frame,seen,next,choice,rfl,was,rfl,store⟩ := toldByStore opts asks got
  rw [store]
  cases call with
  | fetch key asked first count =>
    simp only [fetched,returned,Effect.returned,Server.call] at got
    cases answer : w.shared.store.fetch key asked first count with
    | error err => rw [answer] at got; contradiction
    | ok blocks =>
      rw [answer] at got
      cases got
      obtain ⟨db,found,live,current,_,same⟩ := MemoryStore.fetchRead answer
      exact ⟨rfl,db,found,live,current.symm,same⟩
  | _ => simp [fetched,returned,Effect.returned,fetchedCall] at got

section
variable (opts : Options) (id : Nat) (k : Key) (version : Nat)

/- What has been fetched from one version of the key in the current frame is of one state. -/
def OneState (events : List Event) (w : World) (seen : List (Asked Effect)) : Prop :=
  (∃ x ∈ seen, ∃ r data, fetched x = some (k,version,r,data)) →
  ∃ db, (∃ e ∈ events, record e.before.shared.store k = some db) ∧ db.deleted = false ∧ db.state.version = version ∧
    Follows db (record w.shared.store k) ∧
    ∀ x ∈ seen, ∀ r data, fetched x = some (k,version,r,data) → data = read db r

def Reading (events : List Event) (w : World) : Prop :=
  ∀ c frame seen rest, w.connections id = .working c frame seen rest → OneState k version events w seen

variable {opts id k version}

theorem oneStateKept {events : List Event} {e : Event} {w : World} {seen : List (Asked Effect)}
    (follows : ∀ db, Follows db (record e.before.shared.store k) → Follows db (record w.shared.store k))
    (one : OneState k version events e.before seen) : OneState k version (events ++ [e]) w seen := by
  intro some
  obtain ⟨db,⟨first,member,was⟩,live,current,still,each⟩ := one some
  exact ⟨db,⟨first,List.mem_append_left _ member,was⟩,live,current,follows db still,each⟩

theorem oneStateFetched {events : List Event} {e : Event} {w : World} {seen : List (Asked Effect)} {x : Asked Effect}
    {db : Database} {r : Range} {data : List Bytes} (got : fetched x = some (k,version,r,data))
    (found : record e.before.shared.store k = some db) (live : db.deleted = false) (current : db.state.version = version)
    (same : data = read db r) (unmoved : w.shared.store = e.before.shared.store)
    (one : OneState k version events e.before seen) : OneState k version (events ++ [e]) w (seen ++ [x]) := by
  intro _
  by_cases before : ∃ y ∈ seen, ∃ r data, fetched y = some (k,version,r,data)
  · obtain ⟨old,⟨first,member,was⟩,alive,asked,still,each⟩ := one before
    refine ⟨old,⟨first,List.mem_append_left _ member,was⟩,alive,asked,unmoved ▸ still,?_⟩
    intro y inTrace range blocks read
    rcases List.mem_append.mp inTrace with earlier | last
    · exact each y earlier range blocks read
    · rw [List.mem_singleton.mp last,got] at read
      cases read
      rw [found] at still
      rw [same,readFollows still (asked.trans current.symm)]
  · refine ⟨db,⟨e,List.mem_append_right _ List.mem_cons_self,found⟩,live,current,?_,?_⟩
    · rw [unmoved,found]
      exact ⟨db,rfl,.inr ⟨live,rfl,rfl⟩⟩
    · intro y inTrace range blocks read
      rcases List.mem_append.mp inTrace with earlier | last
      · exact absurd ⟨y,earlier,range,blocks,read⟩ before
      · rw [List.mem_singleton.mp last,got] at read
        cases read
        exact same

theorem oneStateOther {events : List Event} {w : World} {seen : List (Asked Effect)} {x : Asked Effect}
    (other : ∀ r data, fetched x ≠ some (k,version,r,data)) (one : OneState k version events w seen) :
    OneState k version events w (seen ++ [x]) := by
  intro some
  have before : ∃ y ∈ seen, ∃ r data, fetched y = Option.some (k,version,r,data) := by
    obtain ⟨y,member,range,blocks,read⟩ := some
    rcases List.mem_append.mp member with earlier | last
    · exact ⟨y,earlier,range,blocks,read⟩
    · rw [List.mem_singleton.mp last] at read
      exact absurd read (other range blocks)
  obtain ⟨db,origin,live,current,still,each⟩ := one before
  refine ⟨db,origin,live,current,still,?_⟩
  intro y member range blocks read
  rcases List.mem_append.mp member with earlier | last
  · exact each y earlier range blocks read
  · rw [List.mem_singleton.mp last] at read
    exact absurd read (other range blocks)

theorem readingStep {events : List Event} {w : World} {action : Action} (valid : WellformedStore w.shared.store)
    (kept : (record w.shared.store k).isSome → (record (w.step opts action).2.shared.store k).isSome)
    (reading : Reading id k version events w) :
    Reading id k version (events ++ [⟨w,action,(w.step opts action).1,(w.step opts action).2⟩])
      (w.step opts action).2 := by
  have follows : ∀ db, Follows db (record w.shared.store k) →
      Follows db (record (w.step opts action).2.shared.store k) := by
    intro db still
    obtain ⟨op,_,same⟩ := storeOp opts w action
    rw [same] at kept ⊢
    exact followsStep valid op kept still
  intro c frame seen rest busy
  have turn := turns opts w action id
  rw [busy] at turn
  generalize was : w.connections id = before at turn
  generalize did : askedBy id (w.step opts action).1 = asked at turn
  cases turn with
  | same => exact oneStateKept follows (reading _ _ _ _ was)
  | received c frame sent =>
    intro some
    obtain ⟨x,member,_⟩ := some
    exact absurd member List.not_mem_nil
  | asked c frame seen e next answer =>
    have asks := (askedByIff id _ _).mp did
    by_cases new : ∃ r data, fetched ⟨e,answer⟩ = some (k,version,r,data)
    · obtain ⟨r,data,got⟩ := new
      obtain ⟨unmoved,db,found,live,current,same⟩ := fetchedNow opts asks got
      exact oneStateFetched got found live current same unmoved (reading _ _ _ _ was)
    · have other : ∀ r data, fetched ⟨e,answer⟩ ≠ some (k,version,r,data) :=
        fun r data got => new ⟨r,data,got⟩
      exact oneStateOther other (oneStateKept follows (reading _ _ _ _ was))

end

theorem readingRun (opts : Options) {past during : List Action} {id : Nat} {idle : Connection} {k : Key} (version : Nat)
    (waits : (run opts past).connections id = .waiting idle)
    (kept : ∀ e ∈ History.history (World.step opts) (run opts past) during,
      (record e.before.shared.store k).isSome → (record e.after.shared.store k).isSome) :
    Reading id k version (History.history (World.step opts) (run opts past) during)
      (History.run (World.step opts) (run opts past) during) := by
  refine (History.invariantSeen (World.step opts)
    (P := fun events w => WellformedStore w.shared.store ∧ Reading id k version events w)
    ⟨wellformedReached opts past,?_⟩ ?_).2
  · intro c frame seen rest busy
    rw [waits] at busy
    contradiction
  · intro seen e member both
    have whole := History.eventStep (World.step opts) member
    have stays := kept e member
    obtain ⟨before,action,reply,after⟩ := e
    simp only [Prod.eq_iff_fst_eq_snd_eq] at whole
    obtain ⟨rfl,rfl⟩ := whole
    exact ⟨wellformedShared opts before action both.1,readingStep both.1 stays both.2⟩

theorem zipRead {db : Database} {ranges : List Range} {got : List (List Bytes)} (length : got.length = ranges.length)
    (each : ∀ run ∈ ranges.zip got, run.2 = read db run.1) :
    ranges.zip got = ranges.map (fun r => (r,read db r)) := by
  induction ranges generalizing got with
  | nil => rfl
  | cons r ranges ih =>
    cases got with
    | nil => simp at length
    | cons blocks got =>
      have here : blocks = read db r := each (r,blocks) List.mem_cons_self
      rw [List.zip_cons_cons,List.map_cons,here,
        ih (Nat.succ.inj length) (fun run member => each run (List.mem_cons_of_mem _ member))]

theorem pagesOfSome (id first : UInt64) (perFrame : Nat) (lastRun : Bool) (blocks : List Bytes) (start rounds : Nat) :
    pagesOf id first perFrame lastRun blocks start (rounds+1) ≠ [] := by
  simp only [pagesOf]
  split <;> simp

theorem pageFramesSome (id : UInt64) (perFrame : Nat) {runs : List (Range × List Bytes)} (some_ : runs ≠ []) :
    pageFrames id perFrame runs ≠ [] := by
  cases runs with
  | nil => exact absurd rfl some_
  | cons run rest => simp [pageFrames,pagesOfSome]

theorem overCases {opts : Options} {w : World} {id : Nat} {c : Connection} {frame : ClientFrame}
    {seen : List (Asked Effect)} {rest : Handler} (busy : w.connections id = .working c frame seen rest)
    (stopped : ∀ choice, (w.step opts (.proceed id choice)).1.asked = none) :
    (∃ after, rest = .done after ∧ w.panics opts id = false) ∨
    ∃ (β : Type) (k : Call β) (next : Except Fault β → Handler), rest = .ask (.call k) next ∧
      k.oversized opts = true ∧ w.panics opts id = true := by
  cases rest with
  | done after => exact .inl ⟨after,rfl,by rw [World.panics,busy]⟩
  | ask e next =>
    have asked := stopped ⟨0,[],[]⟩
    simp only [World.step,busy] at asked
    split at asked <;> try contradiction
    rename_i panics
    cases e with
    | call k => exact .inr ⟨_,k,next,rfl,panicsOversized panics,by rw [World.panics,busy]; exact panics⟩
    | _ => contradiction

def SnapshotAnswer (opts : Options) (events : List Event) (c : Connection) (id : UInt64) (req : Fetch)
    (frames : List ServerFrame) : Prop :=
  (∃ failure, frames = [errorFrame opts.platform id failure]) ∨
  ∃ db D, c.dbs.lookup req.dbID = some db ∧ (∃ e ∈ events, record e.before.shared.store db.key = some D) ∧
    D.deleted = false ∧ D.state.version = req.version ∧
    frames = pageFrames id (blocksPerFrame opts db.pageSize) (req.asked.map (fun r => (r,read D r))) ∧
    ∀ frame ∈ frames, PagesOf D frame

section
variable {opts : Options} {past during : List Action} {id : Nat} {idle c : Connection} {frame : ClientFrame} {req : Fetch}
  {seen : List (Asked Effect)}

theorem snapshotAnswered {after : Connection} (waits : (run opts past).connections id = .waiting idle)
    (finished : (run opts (past ++ during)).connections id = .working c frame seen (.done after))
    (body : frame.body = .fetch req)
    (kept : ∀ db, c.dbs.lookup req.dbID = some db → ∀ e ∈ History.history (World.step opts) (run opts past) during,
      (record e.before.shared.store db.key).isSome → (record e.after.shared.store db.key).isSome) :
    SnapshotAnswer opts (History.history (World.step opts) (run opts past) during) c frame.requestID req (sent seen) := by
  have sane : Sane opts (run opts (past ++ during)) :=
    History.invariantRun (World.step opts) (saneStep opts) (saneStart opts) _
  have performed := partlyPerforms (sane id _ _ _ _ finished) (.done after)
  rw [List.append_nil] at performed
  rcases fetchAnswered body performed with refused | ⟨db,got,paging⟩
  · exact .inl refused
  have reading := readingRun opts req.version waits (kept db paging.isOpen)
  rw [← History.runAppend] at reading
  have asked := pagingAsked paging
  obtain ⟨run,member⟩ := List.exists_mem_of_ne_nil _ (pagingRuns paging)
  obtain ⟨D,origin,live,current,_,each⟩ := reading _ _ _ _ finished ⟨_,asked run member,run.1,run.2,rfl⟩
  have pages : req.asked.zip got = req.asked.map (fun r => (r,read D r)) :=
    zipRead paging.length (fun run member => each _ (asked run member) run.1 run.2 rfl)
  have answer := pagingFrames paging
  rw [pages] at answer
  refine .inr ⟨db,D,paging.isOpen,origin,live,current,answer,?_⟩
  intro frame member
  rw [answer] at member
  exact pageFramesRead member

theorem snapshotSome {events : List Event} {frames : List ServerFrame} {number : UInt64}
    (answer : SnapshotAnswer opts events c number req frames) : frames ≠ [] := by
  rcases answer with ⟨failure,rfl⟩ | ⟨db,D,_,_,_,_,rfl,_⟩
  · simp
  · refine pageFramesSome _ _ (fun none => askedNonempty req ?_)
    exact List.map_eq_nil_iff.mp none

end

theorem fetchOneSnapshotIff (opts : Options) (past during : List Action) (id : Nat) (idle c : Connection)
    (frame : ClientFrame) (req : Fetch) (seen : List (Asked Effect)) (rest : Handler)
    (waits : (run opts past).connections id = .waiting idle)
    (busy : (run opts (past ++ during)).connections id = .working c frame seen rest)
    (stopped : ∀ choice, ((run opts (past ++ during)).step opts (.proceed id choice)).1.asked = none)
    (body : frame.body = .fetch req)
    (kept : ∀ db, c.dbs.lookup req.dbID = some db → ∀ e ∈ History.history (World.step opts) (run opts past) during,
      (record e.before.shared.store db.key).isSome → (record e.after.shared.store db.key).isSome) :
    (SnapshotAnswer opts (History.history (World.step opts) (run opts past) during) c frame.requestID req (sent seen) ↔
      (run opts (past ++ during)).panics opts id = false) ∧
    ((∀ r ∈ req.asked, r.count.toNat ≤ opts.platform.maxSlice) → (run opts (past ++ during)).panics opts id = false) := by
  rcases overCases busy stopped with ⟨after,rfl,calm⟩ | ⟨β,k,next,rfl,oversized,panics⟩
  · exact ⟨⟨fun _ => calm,fun _ => snapshotAnswered waits busy body kept⟩,fun _ => calm⟩
  · have sane : Sane opts (run opts (past ++ during)) :=
      History.invariantRun (World.step opts) (saneStep opts) (saneStart opts) _
    obtain ⟨_,unsent,other,is,r,listed,large⟩ := panickedUnsent (sane id _ _ _ _ busy) oversized
    cases body.symm.trans is
    refine ⟨⟨fun answer => absurd unsent (snapshotSome answer),fun calm => ?_⟩,fun short => ?_⟩
    · rw [panics] at calm
      contradiction
    · exact absurd large (Nat.not_lt.mpr (short r listed))

def waitsOn : Activity → Option Connection
  | .waiting c => some c
  | _ => none

def finishes : Activity → Option (Connection × ClientFrame × List (Asked Effect) × Connection)
  | .working c frame seen (.done after) => some (c,frame,seen,after)
  | _ => none

theorem waitsOnSome {activity : Activity} {c : Connection} (waits : waitsOn activity = some c) :
    activity = .waiting c := by
  cases activity with
  | waiting c => cases waits; rfl
  | _ => contradiction

theorem finishesSome {activity : Activity} {c after : Connection} {frame : ClientFrame} {seen : List (Asked Effect)}
    (done : finishes activity = some (c,frame,seen,after)) : activity = .working c frame seen (.done after) := by
  cases activity with
  | working c frame seen rest =>
    cases rest with
    | done after => cases done; rfl
    | ask e next => contradiction
  | _ => contradiction

def twoRanges : Fetch := ⟨"db",1,0,0,[⟨0,1⟩,⟨1,1⟩]⟩

def committedOnce : List Action :=
  [.logIn 0 "alice" [1] "" none,.logIn 1 "alice" [2] "" none] ++ handled 0 (openFrame false) ⟨0,[7],[]⟩ 5 ++
    handled 0 ⟨2,.commit ⟨"db",List.replicate 16 1,1,0,2,[⟨0,List.replicate 512 1⟩],false,0⟩⟩ ⟨1,[],[]⟩ 4

/- The second instance takes the database over between the two calls of the first. -/
def interruptedFetch : List Action :=
  handled 0 ⟨3,.fetch twoRanges⟩ ⟨2,[],[]⟩ 1 ++ handled 1 (openFrame true) ⟨2,[8],[]⟩ 5 ++
    List.replicate 3 (.proceed 0 ⟨3,[],[]⟩)

def pageOne : Bytes := List.replicate 512 1

theorem fetchOneSnapshotInterrupted : ∃ c after seen, ∃ D : Database,
    (run sampleOptions (committedOnce ++ interruptedFetch)).connections 0 =
      .working c ⟨3,.fetch twoRanges⟩ seen (.done after) ∧
    sent seen = [⟨3,.pages ⟨0,[pageOne],false⟩⟩,⟨3,.pages ⟨1,[zeros 512],true⟩⟩] ∧
    D.state.version = 1 ∧ D.content 0 = pageOne ∧ D.content 1 = zeros 512 := by
  have waits : (waitsOn ((run sampleOptions committedOnce).connections 0)).isSome = true := by decide +kernel
  have done : (finishes ((run sampleOptions (committedOnce ++ interruptedFetch)).connections 0)).map
      (fun x => ((x.1.dbs.lookup "db").map (fun db => db.key),x.2.1,sent x.2.2.1)) =
      some (some aliceKey,⟨3,.fetch twoRanges⟩,
        [⟨3,.pages ⟨0,[pageOne],false⟩⟩,⟨3,.pages ⟨1,[zeros 512],true⟩⟩]) := by decide +kernel
  have present : ∀ e ∈ History.history (World.step sampleOptions) (run sampleOptions committedOnce) interruptedFetch,
      (record e.before.shared.store aliceKey).isSome → (record e.after.shared.store aliceKey).isSome := by
    decide +kernel
  obtain ⟨idle,waiting⟩ := Option.isSome_iff_exists.mp waits
  obtain ⟨⟨c,frame,seen,after⟩,finished,fields⟩ := Option.map_eq_some_iff.mp done
  simp only [Prod.mk.injEq] at fields
  obtain ⟨opened,rfl,pages⟩ := fields
  obtain ⟨db,isOpen,key⟩ := Option.map_eq_some_iff.mp opened
  have busy := finishesSome finished
  have stopped : ∀ choice, ((run sampleOptions (committedOnce ++ interruptedFetch)).step sampleOptions
      (.proceed 0 choice)).1.asked = none := by
    intro choice
    simp only [World.step,busy]
    rfl
  have kept : ∀ other, c.dbs.lookup twoRanges.dbID = some other →
      ∀ e ∈ History.history (World.step sampleOptions) (run sampleOptions committedOnce) interruptedFetch,
        (record e.before.shared.store other.key).isSome → (record e.after.shared.store other.key).isSome := by
    intro other found
    cases isOpen.symm.trans found
    rw [key]
    exact present
  obtain ⟨answered,short⟩ := fetchOneSnapshotIff sampleOptions committedOnce interruptedFetch 0 idle c _ twoRanges seen _
    (waitsOnSome waiting) busy stopped rfl kept
  rcases answered.mpr (short (by decide)) with ⟨failure,alone⟩ | ⟨other,D,_,_,_,version,_,each⟩
  · rw [alone] at pages
    exact absurd (congrArg List.length pages) (by decide : ¬1 = 2)
  · rw [pages] at each
    have block (frame : ServerFrame) (listed : frame ∈ [(⟨3,.pages ⟨0,[pageOne],false⟩⟩ : ServerFrame),
        ⟨3,.pages ⟨1,[zeros 512],true⟩⟩]) {first : UInt64} {data : Bytes} {last : Bool}
        (body : frame.body = .pages ⟨first,[data],last⟩) : D.content first = data := by
      obtain ⟨p,same,content⟩ := each frame listed
      cases body.symm.trans same
      have here := content 0 data rfl
      rw [here]
      simp
    exact ⟨c,after,seen,D,busy,pages,version,block _ List.mem_cons_self rfl,
      block _ (List.mem_cons_of_mem _ List.mem_cons_self) rfl⟩

def hugeRanges : ClientFrame := ⟨3,.fetch ⟨"db",1,0,0,[⟨0,1⟩,⟨1,hugePages-1⟩]⟩⟩

/- The first range is fetched, the call for the second panics, and nothing is sent. -/
theorem hugeRangesUnanswered :
    (own 0 (History.history (World.step sampleOptions) (run sampleOptions hugeClient)
      (handled 0 hugeRanges ⟨2,[],[]⟩ 4))).filterMap (fun x => (fetched x).map (fun got => got.2.2)) =
        [(⟨0,1⟩,[zeros 512])] ∧
    (run sampleOptions (hugeClient ++ handled 0 hugeRanges ⟨2,[],[]⟩ 1)).panics sampleOptions 0 = true ∧
    sent (own 0 (History.history (World.step sampleOptions) (run sampleOptions hugeClient)
      (handled 0 hugeRanges ⟨2,[],[]⟩ 4))) = [] ∧
    ((run sampleOptions (hugeClient ++ handled 0 hugeRanges ⟨2,[],[]⟩ 4)).connections 0).isGone := by
  decide +kernel

end SqliteRemote.Server
