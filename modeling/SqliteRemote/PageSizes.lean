import SqliteRemote.FetchSnapshot

/-! The page size of an open database. A connection keeps the page size that its Open was answered
and splits the frames of a fetch by it; the store reads the blocks in the page size of the record,
which another connection can have deleted and created anew. -/
namespace SqliteRemote.Server
open Rows StoreContract Programs Protocol
open MemoryStore (Store Database record Wellformed WellformedStore)

def opens (d : String) (frame : ClientFrame) : Bool :=
  match frame.body with
  | .openDB req => req.dbID == d
  | _ => false

def openedSize : ServerFrame → Option UInt32
  | ⟨_,.opened o⟩ => some o.pageSize
  | _ => none

def toldSizes (d : String) (frame : ClientFrame) (seen : List (Asked Effect)) : List UInt32 :=
  if opens d frame then (sent seen).filterMap openedSize else []

def toldNow (d : String) (x : Option (Asked Effect)) : Activity → List UInt32
  | .working _ frame _ _ => toldSizes d frame x.toList
  | _ => []

def toldAt (id : Nat) (d : String) (e : Event) : List UInt32 :=
  toldNow d (askedBy id e.reply) (e.before.connections id)

/- The page size that the latest Opened answer for the database reported on the connection. -/
def reported (id : Nat) (d : String) (events : List Event) : Option UInt32 := (events.flatMap (toldAt id d)).getLast?

theorem toldAppend (d : String) (frame : ClientFrame) (first rest : List (Asked Effect)) :
    toldSizes d frame (first ++ rest) = toldSizes d frame first ++ toldSizes d frame rest := by
  unfold toldSizes
  split
  · rw [sentAppend,List.filterMap_append]
  · rfl

theorem toldNothing (d : String) (frame : ClientFrame) : toldSizes d frame [] = [] := by
  unfold toldSizes
  split <;> rfl

theorem toldNone {d : String} {frame : ClientFrame} (seen : List (Asked Effect)) (other : opens d frame = false) :
    toldSizes d frame seen = [] := by
  rw [toldSizes,other]
  rfl

theorem openPerformed {opts : Options} {c after : Connection} {id : UInt64} {req : Open} {trace : List (Asked Effect)}
    (performed : Performs (c.openDB opts id req) trace after) :
    (after = c ∧ ∃ failure, sent trace = [errorFrame opts.platform id failure]) ∨
    ∃ o db, after = c.put req.dbID db ∧ sent trace = [⟨id,.opened o⟩] ∧ o.pageSize = db.pageSize := by
  have refused {failure : Failure} {rest : List (Asked Effect)} (ends : Performs (fail opts id failure c) rest after) :
      after = c ∧ ∃ failure, sent rest = [errorFrame opts.platform id failure] :=
    ⟨(replied ends).2,_,performsFail ends⟩
  unfold Connection.openDB at performed
  split at performed
  · exact .inl (refused performed)
  split at performed
  · exact .inl (refused performed)
  cases performed with
  | ask now tail =>
    cases tail with
    | ask answer tail =>
      cases answer with
      | error fault =>
        have failed := refused tail
        exact .inl failed
      | ok res =>
        cases tail with
        | ask registered tail =>
          obtain ⟨rfl,rfl⟩ := replied tail
          exact .inr ⟨_,_,rfl,rfl,rfl⟩

theorem toldRefused {d : String} {frame : ClientFrame} {seen : List (Asked Effect)} {platform : Platform} {id : UInt64}
    {failure : Failure} (refused : sent seen = [errorFrame platform id failure]) : toldSizes d frame seen = [] := by
  unfold toldSizes
  split
  · rw [refused]
    rfl
  · rfl

theorem openedSizes {opts : Options} {c after : Connection} {frame : ClientFrame} {req : Open}
    {seen : List (Asked Effect)} (body : frame.body = .openDB req)
    (performed : Performs (c.handle opts frame) seen after) {db : OpenDB} (found : after.dbs.lookup req.dbID = some db) :
    toldSizes req.dbID frame seen = [db.pageSize] ∨
    toldSizes req.dbID frame seen = [] ∧ ∃ old, c.dbs.lookup req.dbID = some old ∧ old.pageSize = db.pageSize := by
  unfold Connection.handle at performed
  split at performed
  · rw [(replied performed).2] at found
    exact .inr ⟨toldRefused (performsFail performed),db,found,rfl⟩
  rw [body] at performed
  rcases openPerformed performed with ⟨rfl,_,refused⟩ | ⟨o,new,rfl,answer,size⟩
  · exact .inr ⟨toldRefused refused,db,found,rfl⟩
  · simp only [Connection.put,AList.lookup_insert,Option.some.injEq] at found
    subst found
    refine .inl ?_
    simp [toldSizes,opens,body,answer,openedSize,size]

theorem handledSizes {opts : Options} {c after : Connection} {frame : ClientFrame} {seen : List (Asked Effect)}
    (performed : Performs (c.handle opts frame) seen after) {d : String} {db : OpenDB}
    (found : after.dbs.lookup d = some db) :
    toldSizes d frame seen = [db.pageSize] ∨
    toldSizes d frame seen = [] ∧ ∃ old, c.dbs.lookup d = some old ∧ old.pageSize = db.pageSize := by
  cases here : opens d frame with
  | true =>
    unfold opens at here
    split at here <;> try contradiction
    rename_i req body
    cases beq_iff_eq.mp here
    exact openedSizes body performed found
  | false =>
    refine .inr ⟨toldNone seen here,?_⟩
    cases leadsEnds (handledLeads performed).2 with
    | kept still keeps =>
      obtain ⟨old,was,_,_,size⟩ := keeps.leases d db found
      exact ⟨old,was,size.symm⟩
    | closed answer body isOpen =>
      obtain ⟨old,was,_,_,size⟩ := (keepsErase c _).leases d db found
      exact ⟨old,was,size.symm⟩
    | @opened req now res answer body closed =>
      have other : d ≠ req.dbID := by
        rintro rfl
        simp [opens,body] at here
      simp only [Connection.put,lookupInsert,if_neg other] at found
      exact ⟨db,found,rfl⟩

def Informed (c : Connection) (told : String → List UInt32) : Prop :=
  ∀ d db, c.dbs.lookup d = some db → (told d).getLast? = some db.pageSize

def Told (told : String → List UInt32) : Activity → Prop
  | .waiting c => Informed c told
  | .working c frame seen _ => ∃ earlier, (∀ d, told d = earlier d ++ toldSizes d frame seen) ∧ Informed c earlier
  | _ => True

theorem informedHandled {opts : Options} {c after : Connection} {frame : ClientFrame} {seen : List (Asked Effect)}
    {earlier : String → List UInt32} (performed : Performs (c.handle opts frame) seen after)
    (informed : Informed c earlier) : Informed after (fun d => earlier d ++ toldSizes d frame seen) := by
  intro d db found
  rcases handledSizes performed found with last | ⟨none_,old,was,size⟩
  · simp only [last,List.getLast?_append,List.getLast?_singleton]
    rfl
  · simp only [none_,List.append_nil]
    rw [← size]
    exact informed d old was

theorem toldTurn {opts : Options} {action : Action} {id : Nat} {before after : Activity} {x : Option (Asked Effect)}
    {told : String → List UInt32} (turn : Turns opts action id before x after)
    (sane : ∀ c frame seen rest, before = .working c frame seen rest → Partly (c.handle opts frame) seen rest)
    (informed : Told told before) : Told (fun d => told d ++ toldNow d x before) after := by
  cases turn with
  | same =>
    have unchanged : (fun d => told d ++ toldNow d none before) = told := by
      funext d
      cases before <;> simp [toldNow,toldNothing]
    rw [unchanged]
    exact informed
  | loggedIn subject instanceID owner tokenExpires =>
    intro d db found
    simp [Connection.loggedIn] at found
  | received c frame sent => exact ⟨told,fun d => by simp [toldNow,toldNothing],informed⟩
  | asked c frame seen e next answer =>
    obtain ⟨earlier,whole,informed⟩ := informed
    refine ⟨earlier,fun d => ?_,informed⟩
    rw [toldAppend,← List.append_assoc,← whole]
    rfl
  | finished c frame seen final =>
    obtain ⟨earlier,whole,informed⟩ := informed
    have performed := partlyPerforms (sane _ _ _ _ rfl) (.done final)
    rw [List.append_nil] at performed
    have total : (fun d => told d ++ toldNow d none (.working c frame seen (.done final))) =
        fun d => earlier d ++ toldSizes d frame seen := by
      funext d
      rw [whole]
      simp [toldNow,toldNothing]
    rw [total]
    exact informedHandled performed informed
  | panicked c frame seen next oversized => trivial
  | leaves c => trivial
  | removed key keys => trivial
  | ended => trivial

theorem toldRun (opts : Options) (actions : List Action) (id : Nat) :
    Told (fun d => (history opts actions).flatMap (toldAt id d)) ((run opts actions).connections id) := by
  refine (History.invariantSeen (World.step opts)
    (P := fun events w => Sane opts w ∧ Told (fun d => events.flatMap (toldAt id d)) (w.connections id))
    ⟨saneStart opts,trivial⟩ ?_).2
  intro events e member both
  obtain ⟨sane,informed⟩ := both
  have whole := History.eventStep (World.step opts) member
  have later := saneStep opts e.before e.op sane
  have turn := turns opts e.before e.op id
  rw [whole] at later turn
  refine ⟨later,?_⟩
  have next := toldTurn turn (fun c frame seen rest busy => sane id c frame seen rest busy) informed
  simp only [List.flatMap_append,List.flatMap_singleton]
  exact next

theorem reportedKept (opts : Options) {past : List Action} {id : Nat} {c : Connection} {frame : ClientFrame}
    {rest : Handler} (received : (run opts past).connections id = .working c frame [] rest) {d : String} {db : OpenDB}
    (isOpen : c.dbs.lookup d = some db) : reported id d (history opts past) = some db.pageSize := by
  have informed := toldRun opts past id
  rw [received] at informed
  obtain ⟨earlier,whole,kept⟩ := informed
  have told : (history opts past).flatMap (toldAt id d) = earlier d ++ toldSizes d frame [] := whole d
  rw [reported,told,toldNothing,List.append_nil]
  exact kept d db isOpen

theorem contentLength {D : Database} (valid : Wellformed D) (i : UInt64) :
    (D.content i).length = D.state.pageSize.toNat := by
  unfold Database.content
  cases stored : D.blocks i with
  | none => simp [zeros]
  | some data => exact (valid.stored i data stored).2

theorem fetchedRecord {opts : Options} {past during : List Action} {id : Nat} {e : Event} {k : Key} {version : Nat}
    {run : Range × List Bytes} (member : e ∈ eventsOf opts past during)
    (asked : askedBy id e.reply = some (fetchAsked k version run)) :
    ∃ D, record e.before.shared.store k = some D ∧ run.2.length = run.1.count.toNat ∧
      ∀ b ∈ run.2, b.length = D.state.pageSize.toNat := by
  obtain ⟨⟨_,same⟩,valid⟩ := servedFrom member asked
  simp only [call] at same
  cases fetched : e.before.shared.store.fetch k version run.1.firstBlock run.1.count with
  | error err =>
    rw [fetched] at same
    cases same
  | ok data =>
    rw [fetched] at same
    cases same
    obtain ⟨D,found,_,_,_,read⟩ := MemoryStore.fetchRead fetched
    refine ⟨D,found,by rw [read,List.length_map,List.length_range],fun b inside => ?_⟩
    rw [read] at inside
    obtain ⟨n,_,rfl⟩ := List.mem_map.mp inside
    exact contentLength (valid k D found) _

theorem fetchAskedInjective {k : Key} {version : Nat} {run other : Range × List Bytes}
    (same : fetchAsked k version run = fetchAsked k version other) : run = other := by
  obtain ⟨⟨first,count⟩,blocks⟩ := run
  obtain ⟨⟨first',count'⟩,blocks'⟩ := other
  cases same
  rfl

theorem pagingOnly {opts : Options} {c : Connection} {id : UInt64} {req : Fetch} {trace : List (Asked Effect)}
    {db : OpenDB} {got : List (List Bytes)} (paging : Paging opts c id req trace db got) {run : Range × List Bytes}
    (member : fetchAsked db.key req.version run ∈ trace) : run ∈ req.asked.zip got := by
  rw [paging.whole] at member
  rcases List.mem_append.mp member with fetch | send
  · obtain ⟨other,there,same⟩ := List.mem_map.mp fetch
    rw [← fetchAskedInjective same]
    exact there
  · obtain ⟨frame,_,same⟩ := List.mem_map.mp send
    have frames : some frame = none := congrArg (fun x : Asked Effect => frameOf x.effect) same
    contradiction

theorem fetchedSizesIff (opts : Options) (past during : List Action) (id : Nat) (c after : Connection)
    (frame : ClientFrame) (req : Fetch) (db : OpenDB) (seen : List (Asked Effect))
    (served : Served opts past during id c frame seen after) (body : frame.body = .fetch req)
    (isOpen : c.dbs.lookup req.dbID = some db) (paged : ∃ f ∈ sent seen, f.body.isPages = true) :
    reported id req.dbID (history opts past) = some db.pageSize ∧
    (∀ f ∈ sent seen, ∀ p, f.body = .pages p → p.blocks.length ≤ blocksPerFrame opts db.pageSize) ∧
    ((∀ f ∈ sent seen, ∀ p, f.body = .pages p → ∀ b ∈ p.blocks, b.length = db.pageSize.toNat) ↔
      ∀ e ∈ eventsOf opts past during, ∀ run, askedBy id e.reply = some (fetchAsked db.key req.version run) →
        run.1.count ≠ 0 → ∃ D, record e.before.shared.store db.key = some D ∧ D.state.pageSize = db.pageSize) := by
  refine ⟨reportedKept opts served.received isOpen,?_⟩
  rcases fetchAnswered body (servedPerforms served) with ⟨failure,refused⟩ | ⟨other,got,paging⟩
  · obtain ⟨f,member,pages⟩ := paged
    rw [refused] at member
    rw [List.mem_singleton.mp member] at pages
    contradiction
  have found := paging.isOpen
  rw [isOpen] at found
  cases found
  obtain ⟨groups,frames,grouped⟩ := pageFramesGrouped frame.requestID (blocksPerFramePositive opts db.pageSize)
    (pagingRuns paging)
  rw [pagingFrames paging,frames]
  have page {f : ServerFrame} {p : Pages} (member : f ∈ groups.flatten.map (pagesFrame frame.requestID))
      (is : f.body = .pages p) : p ∈ groups.flatten := by
    obtain ⟨q,there,rfl⟩ := List.mem_map.mp member
    cases is
    exact there
  refine ⟨fun f member p is => (groupedBlocks grouped.each (page member is)).1,fun all e inRun run asked counted => ?_,
    fun all f member p is b inside => ?_⟩
  · obtain ⟨D,record,length,sizes⟩ := fetchedRecord inRun asked
    have among := pagingOnly paging ((servedAsked served _).mpr ⟨e,inRun,asked⟩)
    have positive : 0 < run.2.length := by
      rw [length]
      exact Nat.pos_of_ne_zero fun zero => counted (UInt64.toNat_inj.mp zero)
    obtain ⟨b,inside⟩ := List.exists_mem_of_length_pos positive
    obtain ⟨p,there,block⟩ := groupedCovers grouped.each among inside
    refine ⟨D,record,UInt32.toNat_inj.mp ?_⟩
    rw [← sizes b inside]
    exact all _ (List.mem_map_of_mem there) p rfl b block
  · obtain ⟨_,run,among,blocks⟩ := groupedBlocks grouped.each (page member is)
    obtain ⟨e,inRun,asked⟩ := (servedAsked served _).mp (pagingAsked paging run among)
    obtain ⟨D,record,length,sizes⟩ := fetchedRecord inRun asked
    have counted : run.1.count ≠ 0 := by
      intro zero
      rw [zero] at length
      exact List.ne_nil_of_mem (blocks b inside) (List.eq_nil_of_length_eq_zero length)
    obtain ⟨D',record',size⟩ := all e inRun run asked counted
    rw [record] at record'
    cases record'
    rw [sizes b (blocks b inside),size]

/- The second instance deletes the database and creates it anew with another page size. -/
def recreated : List Action :=
  [.logIn 0 "alice" [1] "" none,.logIn 1 "alice" [2] "" none] ++ handled 0 (openFrame false) ⟨0,[7],[]⟩ 5 ++
    handled 1 ⟨2,.delete ⟨"db",true⟩⟩ ⟨1,[],[]⟩ 5 ++
    handled 1 ⟨3,.openDB ⟨"db",1024,true,false,none⟩⟩ ⟨2,[8],[]⟩ 5 ++
    handled 1 ⟨4,.commit ⟨"db",List.replicate 16 1,3,1,1,[],false,0⟩⟩ ⟨3,[],[]⟩ 4

def firstBlockFrame (version : Nat) : ClientFrame := ⟨5,.fetch ⟨"db",version,0,1,[]⟩⟩

def fetching : List Action := List.replicate 2 (.proceed 0 ⟨4,[],[]⟩)

def blockSizes (frames : List ServerFrame) : List (List Nat) :=
  frames.filterMap fun
    | ⟨_,.pages p⟩ => some (p.blocks.map List.length)
    | _ => none

def sizesSeen (r : Connection × List (Asked Effect) × Connection) : List (List Nat) × Option UInt32 :=
  (blockSizes (sent r.2.1),(r.1.dbs.lookup "db").map OpenDB.pageSize)

theorem blockSizesPages {frames : List ServerFrame} {sizes : List Nat} (listed : sizes ∈ blockSizes frames) :
    ∃ f ∈ frames, ∃ p, f.body = .pages p ∧ p.blocks.map List.length = sizes := by
  obtain ⟨⟨id,body⟩,member,shown⟩ := List.mem_filterMap.mp listed
  cases body with
  | pages p => exact ⟨_,member,p,rfl,Option.some.inj shown⟩
  | _ => contradiction

theorem fetchesOtherSize : ∃ c seen after f p b,
    Served sampleOptions (recreated ++ [.receive 0 (firstBlockFrame 2) 4]) fetching 0 c (firstBlockFrame 2) seen after ∧
    reported 0 "db" (history sampleOptions (recreated ++ [.receive 0 (firstBlockFrame 2) 4])) = some 512 ∧
    (c.dbs.lookup "db").map OpenDB.pageSize = some 512 ∧
    f ∈ sent seen ∧ f.body = .pages p ∧ b ∈ p.blocks ∧ b.length = 1024 := by
  have view : (servedAt sampleOptions recreated 0 (firstBlockFrame 2) 4 fetching).map sizesSeen =
      some ([[1024]],some 512) := by decide +kernel
  have told : reported 0 "db" (history sampleOptions (recreated ++ [.receive 0 (firstBlockFrame 2) 4])) = some 512 := by
    decide +kernel
  obtain ⟨c,seen,after,served,shown⟩ := servedView view
  simp only [sizesSeen,Prod.mk.injEq] at shown
  obtain ⟨f,member,p,body,lengths⟩ := blockSizesPages (shown.1 ▸ List.mem_singleton_self [1024])
  obtain ⟨b,inside,size⟩ := List.mem_map.mp (lengths ▸ List.mem_singleton_self 1024)
  exact ⟨c,seen,after,f,p,b,served,told,shown.2,member,body,inside,size⟩

theorem fetchesOwnSize : ∃ c seen after,
    Served sampleOptions (committedOnce ++ [.receive 0 (firstBlockFrame 1) 4]) fetching 0 c (firstBlockFrame 1) seen after ∧
    (∃ f ∈ sent seen, f.body.isPages = true) ∧
    ∀ f ∈ sent seen, ∀ p, f.body = .pages p → ∀ b ∈ p.blocks, b.length = 512 := by
  have view : (servedAt sampleOptions committedOnce 0 (firstBlockFrame 1) 4 fetching).map
      (fun r => (blockSizes (sent r.2.1),r.1.dbs.lookup "db")) = some ([[512]],some ⟨aliceKey,1,512,none,1⟩) := by
    decide +kernel
  have sizes : (eventsOf sampleOptions (committedOnce ++ [.receive 0 (firstBlockFrame 1) 4]) fetching).all
      (fun e => (record e.before.shared.store aliceKey).any (fun D => D.state.pageSize == 512)) = true := by decide +kernel
  obtain ⟨c,seen,after,served,shown⟩ := servedView view
  simp only [Prod.mk.injEq] at shown
  obtain ⟨f,member,p,body,_⟩ := blockSizesPages (shown.1 ▸ List.mem_singleton_self [512])
  have paged : ∃ f ∈ sent seen, f.body.isPages = true := ⟨f,member,by rw [body]; rfl⟩
  have sizesIff := fetchedSizesIff sampleOptions _ _ 0 c after _ _ _ seen served rfl shown.2 paged
  refine ⟨c,seen,after,served,paged,sizesIff.2.2.mpr ?_⟩
  intro e inRun run _ _
  have size := List.all_eq_true.mp sizes e inRun
  cases found : record e.before.shared.store aliceKey with
  | none => simp [found] at size
  | some D => exact ⟨D,rfl,by simpa [found] using size⟩

end SqliteRemote.Server
