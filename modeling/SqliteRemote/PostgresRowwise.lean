import SqliteRemote.PostgresRelease

/-! The operations row by row. A DELETE of several rows comes to them one after another, in an order that
is the same for all statements, and locks and deletes each row it still finds. By itself each operation
does the same as before. -/
namespace SqliteRemote.Postgres
open Rows StoreContract Programs RowLocking

/- The order in which a statement comes to the rows of a table. -/
structure RowOrder where
  keys : LinearOrder Key
  owners : LinearOrder String

def sortChosen {α : Type} (order : LinearOrder α) (rows : List (Chosen α)) : List (Chosen α) :=
  @List.insertionSort (Chosen α) (fun a b => order.le a.id b.id) (fun a b => order.toDecidableLE a.id b.id) rows

section
variable {α : Type}

def eachRow {β γ : Type} (statement : γ → Query β) (next : List β → Program Query α) : List β → List γ → Program Query α
  | seen,[] => next seen
  | seen,row :: rest => .ask (statement row) fun answer => eachRow statement next (seen ++ [answer]) rest

def purgeEach (next : List (Key × Bool) → Program Query α) : List (Chosen Key) → Program Query α :=
  eachRow (fun row => .purgeRows [row]) (fun gone => next gone.flatten) []

def releaseEach (condition : Slot → Bool) (next : Unit → Program Query α) : List (Chosen String) → Program Query α :=
  eachRow (fun owner => .releaseSlots ⟨[owner],condition⟩) (fun _ => next ()) []

variable (order : RowOrder)

def rowwise : Program Query α → Program Query α
  | .done a => .done a
  | .ask (.purgeRows rows) next => purgeEach (fun gone => rowwise (next gone)) (sortChosen order.keys rows)
  | .ask (.releaseSlots unused) next =>
      releaseEach unused.condition (fun none_ => rowwise (next none_)) (sortChosen order.owners unused.owners)
  | .ask q next => .ask q fun a => rowwise (next a)

def committed (next : Unit → Operation) : Except Failure Unit → Operation
  | .ok none_ => next none_
  | .error f => .done (.error f)

/- A statement outside a transaction that comes to several rows holds their locks to its end. -/
def rowwiseScript : Operation → Operation
  | .done r => .done r
  | .ask (.auto (.releaseSlots unused)) next =>
      .ask (.tx false (releaseEach unused.condition (fun none_ => .done (.ok none_)) (sortChosen order.owners unused.owners)))
        (committed fun none_ => rowwiseScript (next none_))
  | .ask (.auto q) next => .ask (.auto q) fun a => rowwiseScript (next a)
  | .ask (.tx snapshot body) next => .ask (.tx snapshot (rowwise order body)) fun r => rowwiseScript (next r)

end

def Query.many {α : Type} : Query α → Bool
  | .purgeRows _ => true
  | .releaseSlots _ => true
  | _ => false

section
variable (order : RowOrder)

theorem rowwiseAsk {α β : Type} {q : Query β} (one : q.many = false) (next : β → Program Query α) :
    rowwise order (.ask q next) = .ask q (fun a => rowwise order (next a)) := by
  cases q
  all_goals first | rfl | contradiction

theorem rowwiseAuto {β : Type} {q : Query β} (one : q.many = false) (next : β → Operation) :
    rowwiseScript order (.ask (.auto q) next) = .ask (.auto q) (fun a => rowwiseScript order (next a)) := by
  cases q
  all_goals first | rfl | contradiction

theorem rowwiseRelease (unused : Unused) (next : Unit → Operation) :
    rowwiseScript order (.ask (.auto (.releaseSlots unused)) next) =
      .ask (.tx false (releaseEach unused.condition (fun none_ => .done (.ok none_)) (sortChosen order.owners unused.owners)))
        (committed fun none_ => rowwiseScript order (next none_)) := rfl

theorem rowwiseTx {β : Type} (reply : β → Reply) (body : Body β) :
    rowwiseScript order (inTx reply body) = inTx reply (rowwise order body) := rfl

end

def Single (row : Lock) (needs : List (Lock × Mode)) : Prop :=
  needs = [] ∨ ∃ mode, mode ≠ .share ∧ needs = [(row,mode)]

theorem singleRow (key : Key) {mode : Mode} (alone : mode ≠ .share) (row : Option Row) :
    Single (.database key) (lockRow key mode row) := by
  unfold lockRow
  split
  · exact .inr ⟨mode,alone,rfl⟩
  · exact .inl rfl

theorem singleOwner (owner : String) {mode : Mode} (alone : mode ≠ .share) (slot : Option Slot) :
    Single (.slot owner) (lockOwner owner mode slot) := by
  unfold lockOwner
  split
  · exact .inr ⟨mode,alone,rfl⟩
  · exact .inl rfl

theorem singleInsert (lock : Lock) (present : Bool) : Single lock (insertRow lock present) := by
  unfold insertRow
  cases present with
  | false => exact .inr ⟨.exclusive,by decide,rfl⟩
  | true => exact .inr ⟨.watch,by decide,rfl⟩

def Confined {α : Type} (row : Lock) : Program Query α → Prop
  | .done _ => True
  | .ask q next => q.many = false ∧ (∀ t, Single row (q.needs t)) ∧ ∀ a, Confined row (next a)

theorem confinedRead {α β : Type} {row : Lock} {q : Query β} {next : β → Program Query α} (one : q.many = false)
    (reads : ∀ t, q.needs t = []) (rest : ∀ a, Confined row (next a)) : Confined row (.ask q next) :=
  ⟨one,fun t => .inl (reads t),rest⟩

theorem rowwiseConfined (order : RowOrder) {α : Type} {row : Lock} {body : Program Query α} (confined : Confined row body) :
    rowwise order body = body := by
  induction body with
  | done a => rfl
  | ask q next ih =>
    rw [rowwiseAsk order confined.1]
    exact congrArg (Program.ask q) (funext fun a => ih a (confined.2.2 a))

-- The database whose row the statement locks or writes, or whose parts and log it writes under that lock.
def Query.works {α : Type} : Query α → Option Key
  | .lockDatabase key => some key
  | .createDatabase key _ => some key
  | .grantLease key _ _ _ _ => some key
  | .extendLease key _ _ => some key
  | .releaseLease key _ => some key
  | .putBlocks key _ => some key
  | .deleteBlocksFrom key _ => some key
  | .applyCommit key _ _ _ => some key
  | .recordChange key _ _ => some key
  | .pruneChanges key _ => some key
  | .deleteDatabase key => some key
  | .deleteChanges key => some key
  | .reviveDatabase key _ => some key
  | .purgeDatabase key => some key
  | _ => none

theorem worksSingle {α : Type} {key : Key} {q : Query α} (works : q.works = some key) :
    q.many = false ∧ ∀ t, Single (.database key) (q.needs t) := by
  cases q
  all_goals try contradiction
  all_goals
    cases works
    refine ⟨rfl,fun t => ?_⟩
    first | exact singleInsert _ _ | exact singleRow _ (by decide) _

def Works {α : Type} (key : Key) : Program Query α → Prop
  | .done _ => True
  | .ask q next => q.works = some key ∧ ∀ a, Works key (next a)

theorem worksConfined {α : Type} {key : Key} {body : Program Query α} (works : Works key body) :
    Confined (.database key) body := by
  induction body with
  | done a => trivial
  | ask q next ih =>
    obtain ⟨one,single⟩ := worksSingle works.1
    exact ⟨one,single,fun a => ih a (works.2 a)⟩

theorem worksMust {α β : Type} {key : Key} {q : Query (Option β)} {next : β → Body α} (works : q.works = some key)
    (rest : ∀ a, Works key (next a)) : Works key (must q next) := by
  refine ⟨works,fun found => ?_⟩
  cases found with
  | none => trivial
  | some a => exact rest a

section
variable (req : OpenRequest) (id : Bytes)

theorem worksResumeOrGrant (row : Row) : Works req.key (resumeOrGrant req id row) := by
  unfold resumeOrGrant
  split
  · split
    · trivial
    · exact ⟨rfl,fun _ => trivial⟩
  · simp only [grantLease]
    split
    · trivial
    · exact worksMust rfl (fun _ => trivial)

theorem worksOpenRow (row : Row) : Works req.key (openRow req id row) := by
  unfold openRow reviveDatabase
  repeat' split
  all_goals try trivial
  · exact worksMust rfl (worksResumeOrGrant req id)
  · exact worksResumeOrGrant req id row

theorem worksOpen : Works req.key (openDatabase req id) := by
  refine ⟨rfl,fun found => ?_⟩
  cases found with
  | some row => exact worksOpenRow req id row
  | none =>
    simp only [createDatabase]
    split
    · trivial
    split
    · trivial
    refine ⟨rfl,fun made => ?_⟩
    cases made with
    | some row => exact worksOpenRow req id row
    | none => exact worksMust rfl (worksOpenRow req id)

end

theorem worksCommit (req : CommitRequest) : Works req.key (commitBody req) := by
  have recorded (version : Nat) :
      Works req.key (recordChange req.key version req.blocks (.done (.ok version)) : Body Nat) := by
    refine ⟨rfl,fun _ => ?_⟩
    split
    · trivial
    · exact ⟨rfl,fun _ => trivial⟩
  have applied : Works req.key (applyCommit req) := by
    have rest : Works req.key
        (.ask (.deleteBlocksFrom req.key req.pageCount.toInt64) fun _ =>
          must (.applyCommit req.key req.pageCount.toInt64 req.commitID (req.now+req.ttl)) fun version =>
            recordChange req.key version req.blocks (.done (.ok version)) : Body Nat) :=
      ⟨rfl,fun _ => worksMust rfl recorded⟩
    unfold applyCommit putBlocks
    split
    · exact rest
    · exact ⟨rfl,fun _ => rest⟩
  refine ⟨rfl,fun found => ?_⟩
  cases found with
  | none => trivial
  | some row =>
    simp only
    split
    · trivial
    split
    · exact ⟨rfl,fun _ => trivial⟩
    split
    · trivial
    split
    · trivial
    · exact applied

theorem worksRemove {β : Type} (key : Key) {next : Nat → Body β} (rest : ∀ epoch, Works key (next epoch)) :
    Works key (remove key next) :=
  ⟨rfl,fun _ => ⟨rfl,fun _ => worksMust rfl rest⟩⟩

theorem worksDelete (req : DeleteRequest) : Works req.key (deleteBody req) := by
  refine ⟨rfl,fun found => ?_⟩
  cases found with
  | none => trivial
  | some row =>
    simp only
    split
    · trivial
    split
    · trivial
    · exact worksRemove req.key (fun _ => trivial)

theorem confinedSweep (cutoff : Time) (key : Key) : Confined (.database key) (sweepBody cutoff key) := by
  obtain ⟨one,single⟩ := worksSingle (q := .lockDatabase key) rfl
  refine ⟨one,single,fun found => ?_⟩
  cases found with
  | none => trivial
  | some row =>
    simp only
    split
    · trivial
    refine confinedRead rfl (fun _ => rfl) (fun held => ?_)
    split
    · exact worksConfined ⟨rfl,fun _ => trivial⟩
    · exact worksConfined (worksRemove key (fun _ => trivial))

theorem confinedUpdate (req : ClaimRequest) (slot : Slot) (gone : List (Key × Bool)) : Confined (.slot req.owner)
    (must (.updateSlot req.owner ⟨req.subject,"",timestamp req.now⟩) fun updated =>
      .done (.ok ⟨updated,some slot,keysOf gone⟩) : Body ClaimResult) := by
  refine ⟨rfl,fun _ => singleOwner _ (by decide) _,fun found => ?_⟩
  cases found <;> trivial

theorem confinedFetch (row : Lock) (key : Key) (version : Nat) (first count : UInt64) :
    Confined row (fetchBody key version first count) := by
  refine confinedRead rfl (fun _ => rfl) (fun found => ?_)
  cases found with
  | none => trivial
  | some found =>
    simp only
    split
    · trivial
    split
    · trivial
    split
    · trivial
    · exact confinedRead rfl (fun _ => rfl) (fun _ => trivial)

theorem confinedChanges (row : Lock) (key : Key) (fromVersion : Nat) : Confined row (changesBody key fromVersion) := by
  refine confinedRead rfl (fun _ => rfl) (fun found => ?_)
  cases found with
  | none => trivial
  | some found =>
    simp only
    split
    · trivial
    split
    · trivial
    split
    · trivial
    refine confinedRead rfl (fun _ => rfl) (fun oldest => ?_)
    split
    · trivial
    · exact confinedRead rfl (fun _ => rfl) (fun _ => trivial)

/- The same rows, in whatever order the tables keep them. -/
structure SameTables (t u : Tables) : Prop where
  rows : ∀ k, SameRows t u k
  slots : ∀ owner, u.slots.lookup owner = t.slots.lookup owner

theorem sameRefl (t : Tables) : SameTables t t := ⟨fun _ => ⟨rfl,fun _ _ => rfl,fun _ => rfl⟩,fun _ => rfl⟩

theorem sameSlot {t u : Tables} (same : SameTables t u) (owner : String) (slot : Slot) :
    SameTables ((Write.slot owner slot).apply t) ((Write.slot owner slot).apply u) := by
  refine ⟨fun k => ⟨?_,fun idx n => ?_,fun v => ?_⟩,fun o => ?_⟩
  · rw [rowApply,rowApply]
    exact (same.rows k).row
  · rw [partApply,partApply]
    exact (same.rows k).part idx n
  · rw [changeApply,changeApply]
    exact (same.rows k).change v
  · rw [slotApply,slotApply]
    simp only [same.slots o]

theorem samePurge (t : Tables) {keys others : List Key} (same : ∀ k, k ∈ keys ↔ k ∈ others) :
    SameTables (engine.applyAll (keys.map Write.purge) t) (engine.applyAll (others.map Write.purge) t) := by
  have either {γ : Type} {k : Key} (f : Tables → Option γ)
      (one : ∀ u key, f ((Write.purge key).apply u) = if k = key then none else f u) :
      f (engine.applyAll (others.map Write.purge) t) = f (engine.applyAll (keys.map Write.purge) t) := by
    rw [purgeAll f one,purgeAll f one]
    simp only [same k]
  refine ⟨fun k => ⟨either (fun u => u.row k) (fun u _ => rowApply u k _),
    fun idx n => either (fun u => u.part k idx n) (fun u _ => partApply u k idx n _),
    fun v => either (fun u => u.change k v) (fun u _ => changeApply u k v _)⟩,fun owner => ?_⟩
  rw [purgeSlots,purgeSlots]

theorem sameDropped (t : Tables) {owners others : List String} (same : ∀ o, o ∈ owners ↔ o ∈ others) :
    SameTables (engine.applyAll (owners.map Write.dropSlot) t) (engine.applyAll (others.map Write.dropSlot) t) := by
  obtain ⟨rows,slots⟩ := dropSlots owners t
  obtain ⟨otherRows,otherSlots⟩ := dropSlots others t
  refine ⟨fun k => ⟨?_,fun idx n => ?_,fun v => ?_⟩,fun owner => ?_⟩
  · rw [(otherRows k).row,(rows k).row]
  · rw [(otherRows k).part,(rows k).part]
  · rw [(otherRows k).change,(rows k).change]
  · rw [otherSlots,slots]
    simp only [same owner]

theorem execEachRow {α β γ : Type} {statement : γ → Query β} {next : List β → Program Query α} {rows : List γ}
    (apart : rows.Pairwise fun a b => ∀ u, (statement b).answer (engine.after (statement a) u) = (statement b).answer u ∧
      (statement b).writes (engine.after (statement a) u) = (statement b).writes u) (seen : List β) (t : Tables) :
    execBody engine (eachRow statement next seen rows) t =
      execBody engine (next (seen ++ rows.map fun row => (statement row).answer t))
        (engine.applyAll (rows.flatMap fun row => (statement row).writes t) t) := by
  induction rows generalizing seen t with
  | nil => rw [List.map_nil,List.append_nil]; rfl
  | cons row rest ih =>
    obtain ⟨others,apart⟩ := List.pairwise_cons.mp apart
    have answers : rest.map (fun other => (statement other).answer (engine.after (statement row) t)) =
        rest.map (fun other => (statement other).answer t) :=
      List.map_congr_left (fun other member => (others other member t).1)
    have writes : rest.flatMap (fun other => (statement other).writes (engine.after (statement row) t)) =
        rest.flatMap (fun other => (statement other).writes t) :=
      List.flatMap_congr (fun other member => (others other member t).2)
    have first : execBody engine (eachRow statement next seen (row :: rest)) t =
        execBody engine (eachRow statement next (seen ++ [(statement row).answer t]) rest)
          (engine.after (statement row) t) := rfl
    rw [first,ih apart,answers,writes,afterWrites,← applyAllAppend,List.append_assoc]
    rfl

theorem remainingApart {a b : Chosen Key} (differ : a.id ≠ b.id) (u : Tables) :
    (engine.after (.purgeRows [a]) u).chosenRow b = u.chosenRow b := by
  have unlisted : b.id ∉ u.remaining [a] := by
    intro member
    obtain ⟨_,listed,same⟩ := List.mem_map.mp member
    rw [List.mem_singleton.mp (List.mem_filter.mp listed).1] at same
    exact differ same
  have row : (engine.after (.purgeRows [a]) u).row b.id = u.row b.id :=
    (purgeAll (fun u => u.row b.id) (fun u _ => rowApply u b.id _) _ u).trans (if_neg unlisted)
  have kept : (engine.after (.purgeRows [a]) u).deletions (.database b.id) = u.deletions (.database b.id) :=
    congrArg Chosen.deletions (purgeOthers unlisted u)
  rw [Tables.chosenRow,Tables.chosenRow,row,kept]

theorem releasableApart {condition : Slot → Bool} {a b : Chosen String} (differ : a.id ≠ b.id) (u : Tables) :
    (engine.after (.releaseSlots ⟨[a],condition⟩) u).chosenSlot b = u.chosenSlot b := by
  have unlisted : b.id ∉ u.releasable ⟨[a],condition⟩ := by
    intro member
    obtain ⟨_,listed,same⟩ := List.mem_map.mp member
    rw [List.mem_singleton.mp (List.mem_filter.mp listed).1] at same
    exact differ same
  have slot : (engine.after (.releaseSlots ⟨[a],condition⟩) u).slots.lookup b.id = u.slots.lookup b.id :=
    ((dropSlots (u.releasable ⟨[a],condition⟩) u).2 b.id).trans (if_neg unlisted)
  have kept : (engine.after (.releaseSlots ⟨[a],condition⟩) u).deletions (.slot b.id) = u.deletions (.slot b.id) :=
    dropOthers unlisted u
  rw [Tables.chosenSlot,Tables.chosenSlot,slot,kept]

theorem flatPurges (t : Tables) (rows : List (Chosen Key)) :
    rows.flatMap (fun row => (Query.purgeRows [row]).writes t) = (t.remaining rows).map Write.purge := by
  induction rows with
  | nil => rfl
  | cons row rest ih =>
    have split : t.remaining (row :: rest) = t.remaining [row] ++ t.remaining rest := by
      rw [Tables.remaining,Tables.remaining,Tables.remaining,← List.map_append,← List.filter_append]
      rfl
    rw [List.flatMap_cons,ih,split,List.map_append]
    rfl

theorem flatReleases (t : Tables) (condition : Slot → Bool) (owners : List (Chosen String)) :
    owners.flatMap (fun owner => (Query.releaseSlots ⟨[owner],condition⟩).writes t) =
      (t.releasable ⟨owners,condition⟩).map Write.dropSlot := by
  induction owners with
  | nil => rfl
  | cons owner rest ih =>
    have split : t.releasable ⟨owner :: rest,condition⟩ =
        t.releasable ⟨[owner],condition⟩ ++ t.releasable ⟨rest,condition⟩ := by
      rw [Tables.releasable,Tables.releasable,Tables.releasable,← List.map_append,← List.filter_append]
      rfl
    rw [List.flatMap_cons,ih,split,List.map_append]
    rfl

section
variable (order : RowOrder)

theorem permSortChosen {α : Type} (order : LinearOrder α) (rows : List (Chosen α)) : (sortChosen order rows).Perm rows :=
  @List.perm_insertionSort (Chosen α) _ (fun a b => order.toDecidableLE a.id b.id) rows

theorem subjectRowsOnce (t : Tables) (subject : String) : ((t.subjectRows subject).map Chosen.id).Nodup := by
  rw [Tables.subjectRows,List.map_map]
  exact (List.map_id _).symm ▸ keysWhereNodup _ _

theorem unusedOnce (t : Tables) (cutoff : Time) : (((Query.unusedSlots cutoff).answer t).owners.map Chosen.id).Nodup := by
  simp only [Query.answer,List.map_map]
  exact (List.map_id _).symm ▸ keysWhereNodup _ _

/- PurgeSubject row by row deletes the same rows and answers them in another order. -/
theorem execRowwisePurge (t : Tables) (subject : String) {β : Type} (next : List (Key × Bool) → Body β) :
    ∃ gone u, execBody engine (rowwise order (purgeSubject subject next)) t = execBody engine (rowwise order (next gone)) u ∧
      gone.Perm (t.purgedKeys subject) ∧ SameTables (t.purged subject) u := by
  have perm := permSortChosen order.keys (t.subjectRows subject)
  have once : ((sortChosen order.keys (t.subjectRows subject)).map Chosen.id).Nodup := by
    exact (perm.map Chosen.id).nodup_iff.mpr (subjectRowsOnce t subject)
  have each : execBody engine (rowwise order (purgeSubject subject next)) t = execBody engine
      (eachRow (fun row => .purgeRows [row]) (fun gone => rowwise order (next gone.flatten)) []
        (sortChosen order.keys (t.subjectRows subject))) t := rfl
  have apart : (sortChosen order.keys (t.subjectRows subject)).Pairwise fun a b => ∀ u,
      (Query.purgeRows [b]).answer (engine.after (.purgeRows [a]) u) = (Query.purgeRows [b]).answer u ∧
      (Query.purgeRows [b]).writes (engine.after (.purgeRows [a]) u) = (Query.purgeRows [b]).writes u := by
    refine (List.pairwise_map.mp once).imp (fun differ u => ?_)
    simp only [Query.answer,Query.writes,Tables.remaining,List.filterMap_cons,List.filterMap_nil,List.filter_cons,
      List.filter_nil,remainingApart differ,and_self]
  rw [each,execEachRow apart,flatPurges]
  refine ⟨_,_,rfl,?_,?_⟩
  · have flat (rows : List (Chosen Key)) : (rows.map fun row => (Query.purgeRows [row]).answer t).flatten =
        (Query.purgeRows rows).answer t := by
      induction rows with
      | nil => rfl
      | cons row rest ih =>
        rw [List.map_cons,List.flatten_cons,ih]
        simp only [Query.answer,← List.filterMap_append,List.singleton_append]
    rw [List.nil_append,flat,← answerPurgeRows]
    exact perm.filterMap _
  · have same : (t.remaining (sortChosen order.keys (t.subjectRows subject))).Perm (t.remaining (t.subjectRows subject)) :=
      (perm.filter _).map _
    refine samePurge t (fun key => ?_)
    rw [same.mem_iff,remainingAtOnce]

theorem keysOfPerm {t : Tables} {subject : String} {gone : List (Key × Bool)} (perm : gone.Perm (t.purgedKeys subject)) :
    keysOf gone = keysOf (t.purgedKeys subject) := by
  have one : ∀ key ∈ (gone.filter (fun entry => !entry.2)).map (fun entry => entry.1), key.subject = subject := by
    intro key listed
    obtain ⟨entry,member,rfl⟩ := List.mem_map.mp listed
    obtain ⟨key,among,row⟩ := List.mem_filterMap.mp (perm.mem_iff.mp (List.mem_filter.mp member).1)
    obtain ⟨_,_,rfl⟩ := Option.map_eq_some_iff.mp row
    exact ((memSubjectKeys t subject key).mp among).2
  exact byDBIDUnique ((perm.filter _).map _) one

def Alike {β : Type} (a b : β × Tables) : Prop := b.1 = a.1 ∧ SameTables a.2 b.2

theorem alikeRefl {β : Type} (a : β × Tables) : Alike a a := ⟨rfl,sameRefl a.2⟩

theorem alikeClaimRow {t : Tables} {req : ClaimRequest} {slot : Slot} (found : t.slots.lookup req.owner = some slot) :
    Alike (execBody engine (claimRow req slot) t) (execBody engine (rowwise order (claimRow req slot)) t) := by
  rw [execClaimRow found,claimRow]
  split
  · exact alikeRefl _
  obtain ⟨gone,u,ran,perm,same⟩ := execRowwisePurge order t slot.subject (fun purged =>
    must (.updateSlot req.owner ⟨req.subject,"",timestamp req.now⟩) fun updated =>
      (.done (.ok ⟨updated,some slot,keysOf purged⟩) : Body ClaimResult))
  have still : u.slots.lookup req.owner = some slot := by rw [same.slots,purgedSlots,found]
  have after : engine.after (.updateSlot req.owner ⟨req.subject,"",timestamp req.now⟩) u =
      (Write.slot req.owner ⟨req.subject,"",timestamp req.now⟩).apply u := by
    simp [Engine.after,engine,Query.writes,still,Engine.applyAll]
  have updated : execBody engine (rowwise order (must (.updateSlot req.owner ⟨req.subject,"",timestamp req.now⟩)
      fun updated => (.done (.ok ⟨updated,some slot,keysOf gone⟩) : Body ClaimResult))) u =
      (.ok ⟨⟨req.subject,"",timestamp req.now⟩,some slot,keysOf gone⟩,
        (Write.slot req.owner ⟨req.subject,"",timestamp req.now⟩).apply u) := by
    rw [must,rowwiseAsk order rfl,execAsk,after]
    simp only [Query.answer,still]
    rfl
  rw [ran,updated,keysOfPerm perm]
  exact ⟨rfl,sameSlot same _ _⟩

theorem alikeClaim (t : Tables) (req : ClaimRequest) :
    Alike (execBody engine (claimBody req) t) (execBody engine (rowwise order (claimBody req)) t) := by
  rw [claimBody,rowwiseAsk order rfl,execAsk,execAsk]
  have after : engine.after (.lockSlot req.owner) t = t := rfl
  have answer : (Query.lockSlot req.owner).answer t = t.slots.lookup req.owner := rfl
  rw [after,answer]
  cases found : t.slots.lookup req.owner with
  | some slot => exact alikeClaimRow order found
  | none =>
    simp only
    rw [rowwiseAsk order rfl,execAsk,execAsk]
    simp only [Query.answer,found]
    exact alikeRefl _

theorem alikeDeleteSlot (t : Tables) (owner subject : String) :
    Alike (execBody engine (deleteSlotBody owner subject) t)
      (execBody engine (rowwise order (deleteSlotBody owner subject)) t) := by
  let last : Body (List Key) := purgeSubject subject fun purged => .done (.ok (keysOf purged))
  have purge (u : Tables) : Alike (execBody engine last u) (execBody engine (rowwise order last) u) := by
    obtain ⟨gone,v,ran,perm,same⟩ := execRowwisePurge order u subject
      (fun purged => (.done (.ok (keysOf purged)) : Body (List Key)))
    have ends : execBody engine (rowwise order (.done (.ok (keysOf gone)) : Body (List Key))) v = (.ok (keysOf gone),v) := rfl
    rw [ran,execPurge,execDone,ends,keysOfPerm perm]
    exact ⟨rfl,same⟩
  rw [deleteSlotBody,rowwiseAsk order rfl,execAsk,execAsk]
  have after : engine.after (.lockSlot owner) t = t := rfl
  rw [after]
  cases (Query.lockSlot owner).answer t with
  | none => exact purge t
  | some slot =>
    simp only
    split
    · exact alikeRefl _
    · rw [rowwiseAsk order rfl,execAsk,execAsk]
      exact purge _

theorem alikeTx {β : Type} (reply : β → Reply) {body : Body β} {t : Tables}
    (alike : Alike (execBody engine body t) (execBody engine (rowwise order body) t)) :
    Alike (exec engine (inTx reply body) t) (exec engine (rowwiseScript order (inTx reply body)) t) := by
  have settled (b : Body β) : exec engine (inTx reply b) t =
      ((settle t (execBody engine b t)).1.map reply,(settle t (execBody engine b t)).2) := rfl
  obtain ⟨value,same⟩ := alike
  rw [rowwiseTx,settled,settled]
  revert value same
  rcases execBody engine body t with ⟨a,u⟩
  rcases execBody engine (rowwise order body) t with ⟨b,v⟩
  rintro rfl same
  cases b with
  | ok b => exact ⟨rfl,same⟩
  | error f => exact ⟨rfl,sameRefl t⟩

theorem rowwiseOpen (req : OpenRequest) (id : Bytes) : rowwise order (openBody req id) = openBody req id := by
  have database := rowwiseConfined order (worksConfined (worksOpen req id))
  unfold openBody
  split
  · rw [rowwiseAsk order rfl]
    refine congrArg (Program.ask _) (funext fun found => ?_)
    cases found with
    | none => exact database
    | some slot =>
      simp only
      split
      · rfl
      · exact database
  · exact database

theorem rowwiseWhyNoRow (key : Key) (rows : Nat) : rowwiseScript order (whyNoRow key rows) = whyNoRow key rows := by
  unfold whyNoRow
  split <;> rfl

theorem alikeRelease (cutoff : Time) (removed : List Key) (t : Tables) :
    Alike (exec engine (sweepEnd cutoff removed none) t)
      (exec engine (rowwiseScript order (sweepEnd cutoff removed none)) t) := by
  have perm := permSortChosen order.owners ((Query.unusedSlots cutoff).answer t).owners
  have once : ((sortChosen order.owners ((Query.unusedSlots cutoff).answer t).owners).map Chosen.id).Nodup := by
    exact (perm.map Chosen.id).nodup_iff.mpr (unusedOnce t cutoff)
  have apart : (sortChosen order.owners ((Query.unusedSlots cutoff).answer t).owners).Pairwise fun a b => ∀ u,
      (Query.releaseSlots ⟨[b],t.unusedSlot cutoff⟩).answer (engine.after (.releaseSlots ⟨[a],t.unusedSlot cutoff⟩) u) =
        (Query.releaseSlots ⟨[b],t.unusedSlot cutoff⟩).answer u ∧
      (Query.releaseSlots ⟨[b],t.unusedSlot cutoff⟩).writes (engine.after (.releaseSlots ⟨[a],t.unusedSlot cutoff⟩) u) =
        (Query.releaseSlots ⟨[b],t.unusedSlot cutoff⟩).writes u := by
    refine (List.pairwise_map.mp once).imp (fun differ u => ⟨rfl,?_⟩)
    simp only [Query.writes,Tables.releasable,List.filter_cons,List.filter_nil,releasableApart differ]
  have atOnce : exec engine (sweepEnd cutoff removed none) t = (.ok (.unused removed),
    engine.applyAll ((t.releasable ((Query.unusedSlots cutoff).answer t)).map Write.dropSlot) t) := rfl
  have byRow : exec engine (rowwiseScript order (sweepEnd cutoff removed none)) t =
      exec engine (.ask (.tx false (eachRow (fun owner => .releaseSlots ⟨[owner],t.unusedSlot cutoff⟩)
        (fun _ => .done (.ok ())) [] (sortChosen order.owners ((Query.unusedSlots cutoff).answer t).owners)))
        (committed fun _ => .done (.ok (.unused removed)))) t := rfl
  have same : (t.releasable ⟨sortChosen order.owners ((Query.unusedSlots cutoff).answer t).owners,t.unusedSlot cutoff⟩).Perm
      (t.releasable ((Query.unusedSlots cutoff).answer t)) := (perm.filter _).map _
  rw [atOnce,byRow,exec,execWork,execEachRow apart,flatReleases]
  exact ⟨rfl,sameDropped t (fun owner => same.mem_iff.symm)⟩

theorem alikeSweep (cutoff : Time) (keys removed : List Key) (t : Tables) :
    Alike (exec engine (sweepAll cutoff (sweepEnd cutoff) removed keys) t)
      (exec engine (rowwiseScript order (sweepAll cutoff (sweepEnd cutoff) removed keys)) t) := by
  induction keys generalizing removed t with
  | nil => exact alikeRelease order cutoff removed t
  | cons key rest ih =>
    have tx (b : Body Bool) (next : Except Failure Bool → Operation) : exec engine (.ask (.tx false b) next) t =
      exec engine (next (settle t (execBody engine b t)).1) (settle t (execBody engine b t)).2 := rfl
    have split : rowwiseScript order (.ask (.tx false (sweepBody cutoff key)) (sweepNext cutoff removed key rest)) =
      .ask (.tx false (rowwise order (sweepBody cutoff key))) fun r =>
        rowwiseScript order (sweepNext cutoff removed key rest r) := rfl
    rw [sweepCons,split,tx,tx,rowwiseConfined order (confinedSweep cutoff key)]
    rcases (settle t (execBody engine (sweepBody cutoff key) t)).1 with f | _ | _
    · exact alikeRefl _
    · exact ih removed _
    · exact ih (removed ++ [key]) _

theorem alikeConfined {β : Type} (reply : β → Reply) {row : Lock} {body : Body β} (confined : Confined row body) (t : Tables) :
    Alike (exec engine (inTx reply body) t) (exec engine (rowwiseScript order (inTx reply body)) t) := by
  refine alikeTx order reply ?_
  rw [rowwiseConfined order confined]
  exact alikeRefl _

theorem alikeStep (t : Tables) (op : Op) : Alike (step t op) (exec engine (rowwiseScript order (script op)) t) := by
  have unchanged {op : Op} (same : rowwiseScript order (script op) = script op) :
      Alike (step t op) (exec engine (rowwiseScript order (script op)) t) := by
    rw [same]
    exact alikeRefl _
  cases op with
  | openDatabase req id =>
    refine alikeTx order .opened ?_
    rw [rowwiseOpen]
    exact alikeRefl _
  | fetch key version first count =>
    have body := rowwiseConfined order (confinedFetch (.database key) key version first count)
    exact unchanged (congrArg (fun body : Body (List Bytes) =>
      (.ask (.tx true body) fun r => .done (r.map .blocks) : Operation)) body)
  | commit req => exact alikeConfined order .version (worksConfined (worksCommit req)) t
  | changes key fromVersion => exact alikeConfined order .changeSet (confinedChanges (.database key) key fromVersion) t
  | renew key epoch now ttl => exact unchanged (congrArg (Program.ask _) (funext (rowwiseWhyNoRow order key)))
  | release key epoch => exact unchanged (congrArg (Program.ask _) (funext (rowwiseWhyNoRow order key)))
  | delete req => exact alikeConfined order .deleted (worksConfined (worksDelete req)) t
  | deleteUnused cutoff limit tie =>
    rw [step,sweepScript,rowwiseAuto order rfl]
    exact alikeSweep order cutoff _ [] t
  | getSlot owner => exact unchanged rfl
  | claimSlot req => exact alikeTx order .claimed (alikeClaim order t req)
  | setSlotLabel owner subject label =>
    refine unchanged (congrArg (Program.ask _) (funext fun found => ?_))
    cases found <;> rfl
  | deleteSlot owner subject => exact alikeTx order .purged (alikeDeleteSlot order t owner subject)

end

end SqliteRemote.Postgres
