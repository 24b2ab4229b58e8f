import Mathlib.Data.List.Induction
import SqliteRemote.ConnectionActs

/-! Commits in parts. What is pending for an open database is a function of the Commit frames
handled for it since it was opened, so whether the store is called, and with what, can be read
off these frames alone. -/
namespace SqliteRemote.Protocol
open Rows StoreContract Programs

def Call.commits {β : Type} : Call β → Option CommitRequest
  | .commit req => some req
  | _ => none

def Effect.commits {β : Type} : Effect β → Option CommitRequest
  | .call c => c.commits
  | _ => none

def ServerFrame.isError (frame : ServerFrame) : Bool :=
  match frame.body with
  | .error _ => true
  | _ => false

def Effect.fails {β : Type} : Effect β → Bool
  | .send frame => frame.isError
  | _ => false

def commits (actions : List (Asked Effect)) : List CommitRequest := actions.filterMap (fun x => x.effect.commits)

def refused (actions : List (Asked Effect)) : Bool := actions.any (fun x => x.effect.fails)

def Handled.opens (h : Handled) (d : String) : Bool :=
  (h.before.dbs.lookup d).isNone && (h.after.dbs.lookup d).isSome

def Handled.part (counted : ClientFrame → Bool) (d : String) (h : Handled) : Option Commit :=
  match h.frame.body with
  | .commit req => if counted h.frame && req.dbID == d then some req else none
  | _ => none

/- The Commit frames for d since it was last opened and since the last one with part 0. -/
def collect (counted : ClientFrame → Bool) (d : String) (parts : List Handled) (h : Handled) : List Handled :=
  if h.opens d then []
  else match h.part counted d with
  | none => parts
  | some req => if req.part = 0 then [h] else parts ++ [h]

def partsOf (counted : ClientFrame → Bool) (d : String) (seen : List Handled) : List Handled :=
  seen.foldl (collect counted d) []

def partFrames (counted : ClientFrame → Bool) (d : String) (parts : List Handled) : List Commit :=
  parts.filterMap (Handled.part counted d)

/- Parts 0, 1, and so on of one commit, more to come after each but the last. -/
structure InOrder (opts : Options) (frames : List Commit) (header : Header) : Prop where
  number : ∀ (i : Nat) req, frames[i]? = some req → req.part.toNat = i
  id : ∀ req ∈ frames, req.commitID.length = commitIDBytes
  same : ∀ req ∈ frames, req.header = header
  size : ∀ i, dataBytes ((frames.take i).flatMap Commit.blocks) ≤ opts.maxCommitBytes

structure Complete (opts : Options) (frames : List Commit) (header : Header) (blocks : List Block) : Prop where
  nonempty : frames ≠ []
  order : InOrder opts frames header
  more : ∀ (i : Nat) req, frames[i]? = some req → (req.more = true ↔ i+1 < frames.length)
  whole : blocks = frames.flatMap Commit.blocks

def Calls (h : Handled) (key : Key) (header : Header) (blocks : List Block) : Prop :=
  ∃ req ∈ commits h.actions, req.key = key ∧
    (⟨req.commitID,req.leaseEpoch,req.baseVersion,req.pageCount⟩ : Header) = header ∧ req.blocks = blocks

def absorb (opts : Options) (pending : Option PendingCommit) (req : Commit) : Option PendingCommit :=
  if req.more then accepts opts pending req else none

def completed (opts : Options) (pending : Option PendingCommit) (req : Commit) : Option PendingCommit :=
  if req.more then none else accepts opts pending req

def Fresh (frames : List Commit) : Prop := ∀ (i : Nat) req, frames[i]? = some req → req.part = 0 → i = 0

def gathered (header : Header) (frames : List Commit) : PendingCommit :=
  ⟨header,UInt32.ofNat frames.length,frames.flatMap Commit.blocks,dataBytes (frames.flatMap Commit.blocks)⟩

theorem dataBytesAppend (first rest : List Block) : dataBytes (first ++ rest) = dataBytes first+dataBytes rest := by
  simp [dataBytes]

theorem gatheredAdd (header : Header) (frames : List Commit) (req : Commit) :
    (gathered header frames).add req = gathered header (frames ++ [req]) := by
  simp [gathered,PendingCommit.add,dataBytesAppend]

theorem inOrderSnoc {opts : Options} {frames : List Commit} {req : Commit} {header : Header} :
    InOrder opts (frames ++ [req]) header ↔ InOrder opts frames header ∧ req.part.toNat = frames.length ∧
      req.commitID.length = commitIDBytes ∧ req.header = header ∧
      (gathered header (frames ++ [req])).size ≤ opts.maxCommitBytes := by
  have last : (frames ++ [req])[frames.length]? = some req := by simp
  refine ⟨fun all => ?_,fun both => ?_⟩
  · refine ⟨⟨?_,?_,?_,?_⟩,all.number _ _ last,?_,?_,?_⟩
    · intro i other found
      have inside : i < frames.length := (List.getElem?_eq_some_iff.mp found).1
      exact all.number i other (by rw [List.getElem?_append_left inside]; exact found)
    · exact fun other member => all.id other (List.mem_append_left _ member)
    · exact fun other member => all.same other (List.mem_append_left _ member)
    · intro i
      rcases Nat.le_total i frames.length with short | long
      · have := all.size i
        rwa [List.take_append_of_le_length short] at this
      · have := all.size frames.length
        rw [List.take_left] at this
        rwa [List.take_of_length_le long]
    · exact all.id req (by simp)
    · exact all.same req (by simp)
    · have := all.size (frames.length+1)
      rwa [List.take_of_length_le (by simp)] at this
  · obtain ⟨init,number,id,same,size⟩ := both
    refine ⟨?_,?_,?_,?_⟩
    · intro i other found
      rcases Nat.lt_or_ge i frames.length with inside | beyond
      · rw [List.getElem?_append_left inside] at found
        exact init.number i other found
      · have bound := (List.getElem?_eq_some_iff.mp found).1
        rw [List.length_append,List.length_singleton] at bound
        have here : i = frames.length := by omega
        rw [here,last] at found
        cases found
        rw [here]
        exact number
    · intro other member
      rcases List.mem_append.mp member with there | here
      · exact init.id other there
      · rw [List.mem_singleton.mp here]; exact id
    · intro other member
      rcases List.mem_append.mp member with there | here
      · exact init.same other there
      · rw [List.mem_singleton.mp here]; exact same
    · intro i
      rcases Nat.lt_or_ge frames.length i with long | short
      · rw [List.take_of_length_le (by rw [List.length_append,List.length_singleton]; omega)]
        exact size
      · rw [List.take_append_of_le_length short]
        exact init.size i

theorem joinsFirst {req : Commit} (first : req.part = 0) (pending : Option PendingCommit) :
    req.joins pending = some (gathered req.header []) := by
  simp [Commit.joins,first,gathered,dataBytes]

theorem joinsNext {req : Commit} (later : req.part ≠ 0) (p joined : PendingCommit) :
    req.joins (some p) = some joined ↔ joined = p ∧ req.part = p.nextPart ∧ req.header = p.header := by
  simp only [Commit.joins,if_neg later,Option.filter_eq_some_iff,Option.some.injEq,Bool.and_eq_true,beq_iff_eq,
    continuesIff]
  refine ⟨fun found => ?_,fun found => ?_⟩
  · obtain ⟨rfl,number,same⟩ := found
    exact ⟨rfl,number,same⟩
  · obtain ⟨rfl,number,same⟩ := found
    exact ⟨rfl,number,same⟩

theorem nextNumber {req : Commit} {n : Nat} (later : req.part ≠ 0) (reached : n ≤ 2^32) :
    req.part = UInt32.ofNat n ↔ req.part.toNat = n := by
  refine ⟨fun same => ?_,fun same => ?_⟩
  · rcases Nat.lt_or_eq_of_le reached with below | wrapped
    · rw [same,UInt32.toNat_ofNat_of_lt' below]
    · subst wrapped
      exact absurd same later
  · rw [← same,UInt32.ofNat_toNat]

theorem acceptedFirst (opts : Options) (req : Commit) (p : PendingCommit) :
    accepts opts none req = some p ↔ InOrder opts [req] p.header ∧ p = gathered p.header [req] := by
  have empty : InOrder opts [] p.header := ⟨by simp,by simp,by simp,by simp [dataBytes]⟩
  rw [acceptsIff,← List.nil_append [req],inOrderSnoc]
  refine ⟨fun found => ?_,fun found => ?_⟩
  · obtain ⟨id,joined,joins,same,size⟩ := found
    rcases Classical.em (req.part = 0) with first | later
    · rw [joinsFirst first] at joins
      cases joins
      rw [gatheredAdd] at same
      subst same
      exact ⟨⟨empty,by rw [first]; rfl,id,rfl,size⟩,rfl⟩
    · simp [Commit.joins,later] at joins
  · obtain ⟨⟨_,number,id,same,size⟩,whole⟩ := found
    have first : req.part = 0 := UInt32.toNat_inj.mp (by simpa using number)
    refine ⟨id,gathered req.header [],joinsFirst first _,?_,by rw [whole]; exact size⟩
    rw [gatheredAdd,same]
    exact whole

theorem acceptedNext {opts : Options} {frames : List Commit} {req : Commit} {header : Header} {p : PendingCommit}
    (later : req.part ≠ 0) (order : InOrder opts frames header) (reached : frames.length ≤ 2^32) :
    accepts opts (some (gathered header frames)) req = some p ↔
      InOrder opts (frames ++ [req]) header ∧ p = gathered header (frames ++ [req]) := by
  rw [acceptsIff,inOrderSnoc]
  refine ⟨fun found => ?_,fun found => ?_⟩
  · obtain ⟨id,joined,joins,same,size⟩ := found
    obtain ⟨rfl,number,header⟩ := (joinsNext later _ _).mp joins
    rw [gatheredAdd] at same
    subst same
    exact ⟨⟨order,(nextNumber later reached).mp number,id,header,size⟩,rfl⟩
  · obtain ⟨⟨_,number,id,header,size⟩,rfl⟩ := found
    refine ⟨id,_,(joinsNext later _ _).mpr ⟨rfl,(nextNumber later reached).mpr number,header⟩,?_,size⟩
    rw [gatheredAdd]

theorem orderBound {opts : Options} {frames : List Commit} {req : Commit} {header : Header}
    (order : InOrder opts (frames ++ [req]) header) : (frames ++ [req]).length ≤ 2^32 := by
  have number := order.number frames.length req (by simp)
  have below := req.part.toNat_lt
  rw [List.length_append,List.length_singleton]
  omega

theorem acceptedInOrder (opts : Options) (frames : List Commit) (req : Commit) (p : PendingCommit)
    (fresh : Fresh (frames ++ [req])) :
    accepts opts (frames.foldl (absorb opts) none) req = some p ↔
      InOrder opts (frames ++ [req]) p.header ∧ (∀ f ∈ frames, f.more = true) ∧
        p = gathered p.header (frames ++ [req]) := by
  induction frames using List.reverseRecOn generalizing req p with
  | nil => simpa using acceptedFirst opts req p
  | append_singleton init last ih =>
    have later : req.part ≠ 0 := by
      intro first
      have := fresh (init ++ [last]).length req (by simp) first
      simp at this
    have freshInit : Fresh (init ++ [last]) := by
      intro i other found
      have inside := (List.getElem?_eq_some_iff.mp found).1
      exact fresh i other (by rw [List.getElem?_append_left inside]; exact found)
    simp only [List.foldl_append,List.foldl_cons,List.foldl_nil]
    refine ⟨fun accepted => ?_,fun found => ?_⟩
    · cases kept : absorb opts (init.foldl (absorb opts) none) last with
      | none =>
        rw [kept] at accepted
        simp [accepts,Commit.joins,later] at accepted
      | some q =>
        rw [kept] at accepted
        unfold absorb at kept
        split at kept <;> try contradiction
        rename_i more
        obtain ⟨order,all,whole⟩ := (ih last q freshInit).mp kept
        rw [whole] at accepted
        obtain ⟨next,rfl⟩ := (acceptedNext later order (orderBound order)).mp accepted
        refine ⟨next,fun f member => ?_,rfl⟩
        rcases List.mem_append.mp member with there | here
        · exact all f there
        · rw [List.mem_singleton.mp here]; exact more
    · obtain ⟨next,all,whole⟩ := found
      have order := (inOrderSnoc.mp next).1
      have kept : absorb opts (init.foldl (absorb opts) none) last = some (gathered p.header (init ++ [last])) := by
        rw [absorb,if_pos (all last (by simp))]
        exact (ih last _ freshInit).mpr ⟨order,fun f member => all f (List.mem_append_left _ member),rfl⟩
      rw [kept]
      exact (acceptedNext later order (orderBound order)).mpr ⟨next,whole⟩

def entry (c : Connection) (d : String) : Option (Key × Option PendingCommit) :=
  (c.dbs.lookup d).map (fun db => (db.key,db.pending))

theorem entryPut (c : Connection) (d e : String) (db : OpenDB) :
    entry (c.put e db) d = if d = e then some (db.key,db.pending) else entry c d := by
  simp only [entry,Connection.put,lookupInsert]
  split <;> rfl

theorem lookupEntry {c : Connection} {d : String} {db : OpenDB} (found : c.dbs.lookup d = some db) :
    entry c d = some (db.key,db.pending) := by simp [entry,found]

structure CommitHandled (opts : Options) (c : Connection) (db : OpenDB) (req : Commit)
    (actions : List (Asked Effect)) (after : Connection) : Prop where
  subject : after.subject = c.subject
  here : entry after req.dbID = some (db.key,absorb opts db.pending req)
  elsewhere : ∀ d, d ≠ req.dbID → entry after d = entry c d
  called : ∃ now, commits actions = ((completed opts db.pending req).map (commitRequest opts db.key · now)).toList
  accepted : (absorb opts db.pending req).isSome → refused actions = false

theorem putHandled {opts : Options} {c : Connection} {db new : OpenDB} {req : Commit} {actions : List (Asked Effect)}
    (key : new.key = db.key) (kept : absorb opts db.pending req = new.pending)
    (called : ∃ now, commits actions = ((completed opts db.pending req).map (commitRequest opts db.key · now)).toList)
    (accepted : new.pending.isSome → refused actions = false) :
    CommitHandled opts c db req actions (c.put req.dbID new) := by
  refine ⟨rfl,?_,fun d other => ?_,called,kept ▸ accepted⟩
  · rw [entryPut,if_pos rfl,key,kept]
  · rw [entryPut,if_neg other]

theorem clearedHandled {opts : Options} {c : Connection} {db : OpenDB} {req : Commit} {frame : ServerFrame}
    {actions : List (Asked Effect)} {after : Connection} (unaccepted : accepts opts db.pending req = none)
    (performed : Performs (reply frame (c.put req.dbID {db with pending := none})) actions after) :
    CommitHandled opts c db req actions after := by
  obtain ⟨rfl,rfl⟩ := replied performed
  refine putHandled rfl (by simp [absorb,unaccepted]) ⟨0,?_⟩ (fun kept => Bool.noConfusion kept)
  simp [completed,unaccepted,commits,Effect.commits]

theorem commitPerformed {opts : Options} {c : Connection} {id : UInt64} {db : OpenDB} {req : Commit}
    {actions : List (Asked Effect)} {after : Connection} (found : c.dbs.lookup req.dbID = some db)
    (performed : Performs (c.commit opts id req) actions after) : CommitHandled opts c db req actions after := by
  simp only [Connection.commit,found] at performed
  split at performed
  · rename_i short
    exact clearedHandled (by simp [accepts,short]) performed
  rename_i long
  cases joins : req.joins db.pending with
  | none =>
    rw [joins] at performed
    exact clearedHandled (by simp [accepts,joins]) performed
  | some joined =>
    rw [joins] at performed
    simp only at performed
    split at performed
    · rename_i large
      refine clearedHandled ?_ performed
      simp only [accepts,if_neg long,joins,Option.map_some,Option.filter_eq_none_iff,Option.some.injEq]
      intro p same
      subst same
      simpa using large
    rename_i fits
    have accepted : accepts opts db.pending req = some (joined.add req) :=
      acceptsIff.mpr ⟨not_not.mp long,joined,joins,rfl,Nat.le_of_not_lt fits⟩
    split at performed
    · rename_i more
      cases performed with
      | done =>
        refine putHandled rfl (by simp [absorb,more,accepted]) ⟨0,?_⟩ (fun _ => rfl)
        simp [completed,more,commits]
    · rename_i last
      cases performed with
      | ask now tail =>
        cases tail with
        | ask answer tail =>
          have unfinished : absorb opts db.pending req = none := by simp [absorb,last]
          cases answer with
          | error fault =>
            obtain ⟨rfl,rfl⟩ := replied tail
            refine putHandled rfl unfinished ⟨now,?_⟩ (fun kept => Bool.noConfusion kept)
            simp [completed,last,accepted,commits,Effect.commits,Call.commits]
          | ok version =>
            obtain ⟨rfl,rfl⟩ := replied tail
            refine putHandled rfl unfinished ⟨now,?_⟩ (fun kept => Bool.noConfusion kept)
            simp [completed,last,accepted,commits,Effect.commits,Call.commits]

def NotCommit {β : Type} (e : Effect β) : Prop := e.commits = none

def Moves (c after : Connection) : Prop :=
  after.subject = c.subject ∧ ∀ d, entry after d = entry c d ∨ entry after d = none ∨
    entry c d = none ∧ entry after d = some (⟨c.subject,d⟩,none)

theorem renewingEntry {opts : Options} {now : Time} {c after : Connection} {rounds : List String}
    {trace : List (Asked Effect)} (renewing : Renewing opts now c rounds trace after) (d : String) :
    entry after d = entry c d := by
  induction renewing with
  | start => rfl
  | skipped _ _ _ ih => exact ih
  | refused _ _ _ _ ih => exact ih
  | renewed _ found _ ih =>
    rw [entryPut]
    split
    · rename_i same
      subst same
      rw [← ih,lookupEntry found]
    · exact ih

theorem movesSelf (c : Connection) : Moves c c := ⟨rfl,fun _ => .inl rfl⟩

section
variable {opts : Options} {c after : Connection} {frame : ClientFrame} (other : ∀ req, frame.body ≠ .commit req)
include other

theorem actsNotCommit {seen : List (Asked Effect)} {β : Type} {e : Effect β} (acts : Acts opts c frame seen e) :
    NotCommit e := by
  cases acts with
  | commit now body isOpen header => exact absurd body (other _)
  | _ => rfl

theorem leadsMoves {seen : List (Asked Effect)} (leads : Leads opts c frame seen after) : Moves c after := by
  cases leads with
  | same still unpinged => exact movesSelf c
  | marked pending still body isOpen => exact absurd body (other _)
  | committed now version answer body isOpen => exact absurd body (other _)
  | pinged now order answer body renewals => exact ⟨(renewingKeeps renewals).1.subject,fun d => .inl (renewingEntry renewals d)⟩
  | closed answer body isOpen =>
    refine ⟨rfl,fun d => ?_⟩
    simp only [entry,lookupErase]
    split
    · exact .inr (.inl rfl)
    · exact .inl rfl
  | opened now res answer body closed =>
    refine ⟨rfl,fun d => ?_⟩
    rw [entryPut]
    split
    · rename_i same
      subst same
      exact .inr (.inr ⟨by simp [entry,closed],rfl⟩)
    · exact .inl rfl

end

/- The request ID 0 is refused before the frame is looked at, so such a frame is no part. -/
def numbered (frame : ClientFrame) : Bool := frame.requestID != 0

theorem uncommitted {actions : List (Asked Effect)} (each : ∀ x ∈ actions, NotCommit x.effect) : commits actions = [] := by
  simp only [commits,List.filterMap_eq_nil_iff]
  exact each

section
variable {counted : ClientFrame → Bool} {d : String} {seen : List Handled} {h : Handled} {req : Commit}

theorem partsSnoc : partsOf counted d (seen ++ [h]) = collect counted d (partsOf counted d seen) h := by
  simp [partsOf]

theorem partsSame (still : h.opens d = false) (other : h.part counted d = none) :
    partsOf counted d (seen ++ [h]) = partsOf counted d seen := by
  simp [partsSnoc,collect,still,other]

theorem partsOpened (opened : h.opens d = true) : partsOf counted d (seen ++ [h]) = [] := by
  simp [partsSnoc,collect,opened]

def earlier (req : Commit) (parts : List Handled) : List Handled := if req.part = 0 then [] else parts

theorem partsNext (still : h.opens d = false) (here : h.part counted d = some req) :
    partsOf counted d (seen ++ [h]) = earlier req (partsOf counted d seen) ++ [h] := by
  simp only [partsSnoc,collect,still,here,Bool.false_eq_true,if_false,earlier]
  split <;> rfl

theorem framesNext (here : h.part counted d = some req) (parts : List Handled) :
    partFrames counted d (parts ++ [h]) = partFrames counted d parts ++ [req] := by
  simp [partFrames,here]

theorem freshParts (counted : ClientFrame → Bool) (d : String) (seen : List Handled) :
    Fresh (partFrames counted d (partsOf counted d seen)) := by
  induction seen using List.reverseRecOn with
  | nil => simp [Fresh,partsOf,partFrames]
  | append_singleton seen h ih =>
    cases opened : h.opens d with
    | true => simp [Fresh,partsOpened opened,partFrames]
    | false =>
      cases here : h.part counted d with
      | none => rwa [partsSame opened here]
      | some req =>
        rw [partsNext opened here,framesNext here]
        intro i other found first
        unfold earlier at found
        split at found
        · have bound := (List.getElem?_eq_some_iff.mp found).1
          simpa [partFrames] using bound
        · rename_i later
          rcases Nat.lt_or_ge i (partFrames counted d (partsOf counted d seen)).length with inside | beyond
          · rw [List.getElem?_append_left inside] at found
            exact ih i other found first
          · have bound := (List.getElem?_eq_some_iff.mp found).1
            rw [List.length_append,List.length_singleton] at bound
            have place : i = (partFrames counted d (partsOf counted d seen)).length := by omega
            rw [place,List.getElem?_concat_length] at found
            cases found
            exact absurd first later

theorem acceptsEarlier (opts : Options) (req : Commit) (parts : List Handled) :
    accepts opts ((partFrames counted d parts).foldl (absorb opts) none) req =
      accepts opts ((partFrames counted d (earlier req parts)).foldl (absorb opts) none) req := by
  unfold earlier
  split
  · rename_i first
    simp only [accepts,joinsFirst first]
  · rfl

end

/- An open database has pending what the parts handled since its opening have gathered. -/
structure Tracks (opts : Options) (subject : String) (seen : List Handled) (c : Connection) : Prop where
  owner : c.subject = subject
  key : ∀ d key pending, entry c d = some (key,pending) → key = ⟨subject,d⟩
  pending : ∀ d key pending, entry c d = some (key,pending) →
    pending = (partFrames numbered d (partsOf numbered d seen)).foldl (absorb opts) none
  unrefused : ∀ d key p, entry c d = some (key,some p) → ∀ part ∈ partsOf numbered d seen, refused part.actions = false

theorem entrySome (c : Connection) (d : String) : (entry c d).isSome = (c.dbs.lookup d).isSome := by
  simp [entry]

theorem stillOpen {h : Handled} {d : String} (same : entry h.after d = entry h.before d) : h.opens d = false := by
  have sides : (h.after.dbs.lookup d).isSome = (h.before.dbs.lookup d).isSome := by
    rw [← entrySome,← entrySome,same]
  unfold Handled.opens
  rw [sides]
  cases h.before.dbs.lookup d <;> rfl

theorem otherTracked {opts : Options} {subject : String} {seen : List Handled} {c after : Connection}
    {frame : ClientFrame} {actions : List (Asked Effect)} (tracks : Tracks opts subject seen c)
    (unopened : ∀ d req, Handled.part numbered d ⟨c,frame,actions,after⟩ = some req →
      c.dbs.lookup d = none ∧ after = c) (moves : Moves c after) :
    Tracks opts subject (seen ++ [⟨c,frame,actions,after⟩]) after := by
  obtain ⟨owner,each⟩ := moves
  have other {d : String} {value : Key × Option PendingCommit} (found : entry after d = some value) :
      Handled.part numbered d ⟨c,frame,actions,after⟩ = none := by
    cases part : Handled.part numbered d ⟨c,frame,actions,after⟩ with
    | none => rfl
    | some req =>
      obtain ⟨missing,same⟩ := unopened d req part
      simp [entry,same,missing] at found
  have origin {d : String} {key : Key} {pending : Option PendingCommit} (found : entry after d = some (key,pending)) :
      (entry c d = some (key,pending) ∧
        partsOf numbered d (seen ++ [⟨c,frame,actions,after⟩]) = partsOf numbered d seen) ∨
      (key = ⟨subject,d⟩ ∧ pending = none ∧ partsOf numbered d (seen ++ [⟨c,frame,actions,after⟩]) = []) := by
    rcases each d with same | closed | ⟨absent,opened⟩
    · exact .inl ⟨same ▸ found,partsSame (stillOpen same) (other found)⟩
    · rw [closed] at found; contradiction
    · refine .inr ?_
      cases opened.symm.trans found
      refine ⟨by rw [tracks.owner],rfl,partsOpened ?_⟩
      have before : (c.dbs.lookup d).isSome = false := by rw [← entrySome,absent]; rfl
      have now : (after.dbs.lookup d).isSome = true := by rw [← entrySome,opened]; rfl
      simp only [Handled.opens,now,Bool.and_true]
      simpa using before
  refine ⟨owner.trans tracks.owner,?_,?_,?_⟩
  · intro d key pending found
    rcases origin found with ⟨old,_⟩ | ⟨new,_⟩
    · exact tracks.key d key pending old
    · exact new
  · intro d key pending found
    rcases origin found with ⟨old,parts⟩ | ⟨_,fresh,parts⟩
    · rw [parts]
      exact tracks.pending d key pending old
    · rw [parts]
      exact fresh
  · intro d key p found
    rcases origin found with ⟨old,parts⟩ | ⟨_,fresh,_⟩
    · rw [parts]
      exact tracks.unrefused d key p old
    · contradiction

theorem commitTracked {opts : Options} {subject : String} {seen : List Handled} {c after : Connection}
    {frame : ClientFrame} {req : Commit} {db : OpenDB} {actions : List (Asked Effect)}
    (tracks : Tracks opts subject seen c) (body : frame.body = .commit req) (id : numbered frame = true)
    (found : c.dbs.lookup req.dbID = some db) (handled : CommitHandled opts c db req actions after) :
    Tracks opts subject (seen ++ [⟨c,frame,actions,after⟩]) after := by
  have opened := lookupEntry found
  have here : Handled.part numbered req.dbID ⟨c,frame,actions,after⟩ = some req := by
    simp [Handled.part,body,id]
  have still : Handled.opens ⟨c,frame,actions,after⟩ req.dbID = false := by
    simp [Handled.opens,found]
  have apart {d : String} (other : d ≠ req.dbID) :
      partsOf numbered d (seen ++ [⟨c,frame,actions,after⟩]) = partsOf numbered d seen := by
    refine partsSame (stillOpen (handled.elsewhere d other)) ?_
    simp [Handled.part,body,Ne.symm other]
  refine ⟨handled.subject.trans tracks.owner,?_,?_,?_⟩
  · intro d key pending now
    rcases Classical.em (d = req.dbID) with rfl | other
    · cases handled.here.symm.trans now
      exact tracks.key _ _ _ opened
    · exact tracks.key d key pending ((handled.elsewhere d other) ▸ now)
  · intro d key pending now
    rcases Classical.em (d = req.dbID) with rfl | other
    · cases handled.here.symm.trans now
      rw [partsNext still here,framesNext here,List.foldl_append]
      simp only [List.foldl_cons,List.foldl_nil,absorb]
      rw [tracks.pending _ _ _ opened,acceptsEarlier]
    · rw [apart other]
      exact tracks.pending d key pending ((handled.elsewhere d other) ▸ now)
  · intro d key p now
    rcases Classical.em (d = req.dbID) with rfl | other
    · have absorbed : absorb opts db.pending req = some p := (Prod.mk.inj (Option.some.inj (handled.here.symm.trans now))).2
      rw [partsNext still here]
      intro part member
      rcases List.mem_append.mp member with old | new
      · unfold earlier at old
        split at old
        · exact absurd old List.not_mem_nil
        · rename_i later
          cases pending : db.pending with
          | none => simp [absorb,accepts,Commit.joins,later,pending] at absorbed
          | some q => rw [pending] at opened; exact tracks.unrefused _ _ _ opened part old
      · rw [List.mem_singleton.mp new]
        exact handled.accepted (by simp [absorbed])
    · rw [apart other]
      exact tracks.unrefused d key p ((handled.elsewhere d other) ▸ now)

/- A frame is a part for an open database, or it leaves pending commits alone and commits nothing. -/
theorem handledCases {opts : Options} {c after : Connection} {frame : ClientFrame} {actions : List (Asked Effect)}
    (performed : Performs (c.handle opts frame) actions after) :
    (∃ req db, frame.body = .commit req ∧ numbered frame = true ∧ c.dbs.lookup req.dbID = some db ∧
      CommitHandled opts c db req actions after) ∨
    (Moves c after ∧ commits actions = [] ∧
      ∀ d req, Handled.part numbered d ⟨c,frame,actions,after⟩ = some req → c.dbs.lookup d = none ∧ after = c) := by
  rcases Classical.em (∃ req, frame.body = .commit req ∧ numbered frame = true) with ⟨req,body,id⟩ | none
  · have given : frame.requestID ≠ 0 := by simpa [numbered] using id
    simp only [Connection.handle,if_neg given,body] at performed
    cases found : c.dbs.lookup req.dbID with
    | some db => exact .inl ⟨req,db,body,id,found,commitPerformed found performed⟩
    | none =>
      simp only [Connection.commit,found] at performed
      obtain ⟨rfl,rfl⟩ := replied performed
      refine .inr ⟨movesSelf _,rfl,fun d other part => ⟨?_,rfl⟩⟩
      simp only [Handled.part,body] at part
      split at part <;> try contradiction
      rename_i same
      simp only [Bool.and_eq_true,beq_iff_eq] at same
      rw [← same.2]
      exact found
  · have unnumbered : ∀ req, frame.body = .commit req → numbered frame = false := by
      intro req body
      cases id : numbered frame with
      | false => rfl
      | true => exact absurd ⟨req,body,id⟩ none
    have partless : ∀ d req, Handled.part numbered d ⟨c,frame,actions,after⟩ ≠ some req := by
      intro d req part
      unfold Handled.part at part
      split at part
      · rename_i req body
        simp [unnumbered _ body] at part
      · contradiction
    have rest : Moves c after ∧ commits actions = [] := by
      by_cases zero : frame.requestID = 0
      · simp only [Connection.handle,if_pos zero] at performed
        obtain ⟨rfl,rfl⟩ := replied performed
        exact ⟨movesSelf _,rfl⟩
      · have other : ∀ req, frame.body ≠ .commit req :=
          fun req body => none ⟨req,body,by simpa [numbered] using zero⟩
        obtain ⟨asked,leads⟩ := handledLeads performed
        exact ⟨leadsMoves other leads,uncommitted (fun x member => (asked x member).elim (fun _ => actsNotCommit other))⟩
    exact .inr ⟨rest.1,rest.2,fun d req part => absurd part (partless d req)⟩

theorem tracked {opts : Options} {start c : Connection} {seen : List Handled} (fresh : start.dbs = ∅)
    (served : Serves opts start seen c) : Tracks opts start.subject seen c := by
  induction served with
  | idle => exact ⟨rfl,by simp [entry,fresh],by simp [entry,fresh],by simp [entry,fresh]⟩
  | @next c after seen frame actions earlier arrived admitted performed ih =>
    rcases handledCases performed with ⟨req,db,body,id,found,handled⟩ | ⟨moves,_,parts⟩
    · exact commitTracked ih body id found handled
    · exact otherTracked ih parts moves

theorem servedLast {opts : Options} {start c : Connection} {seen : List Handled} {h : Handled}
    (served : Serves opts start (seen ++ [h]) c) :
    Serves opts start seen h.before ∧ Performs (h.before.handle opts h.frame) h.actions h.after := by
  generalize whole : seen ++ [h] = all at served
  cases served with
  | idle => simp at whole
  | next earlier arrived admitted performed =>
    obtain ⟨rfl,same⟩ := List.append_inj' whole rfl
    cases same
    exact ⟨earlier,performed⟩

theorem moreIff (frames : List Commit) (req : Commit) :
    (∀ (i : Nat) f, (frames ++ [req])[i]? = some f → (f.more = true ↔ i+1 < (frames ++ [req]).length)) ↔
      (∀ f ∈ frames, f.more = true) ∧ req.more = false := by
  refine ⟨fun all => ⟨fun f member => ?_,?_⟩,fun both i f found => ?_⟩
  · obtain ⟨i,inside,rfl⟩ := List.mem_iff_getElem.mp member
    refine (all i _ ?_).mpr (by simpa using inside)
    rw [List.getElem?_append_left inside,List.getElem?_eq_getElem inside]
  · have last := all frames.length req (by simp)
    simpa using last
  · obtain ⟨each,last⟩ := both
    rcases Nat.lt_or_ge i frames.length with inside | beyond
    · rw [List.getElem?_append_left inside] at found
      simp [each f (List.mem_of_getElem? found),inside]
    · have bound := (List.getElem?_eq_some_iff.mp found).1
      rw [List.length_append,List.length_singleton] at bound
      have place : i = frames.length := by omega
      rw [place,List.getElem?_concat_length] at found
      cases found
      simp [last,place]

theorem completedIff (opts : Options) (frames : List Commit) (req : Commit) (header : Header) (blocks : List Block)
    (fresh : Fresh (frames ++ [req])) :
    (∃ p, completed opts (frames.foldl (absorb opts) none) req = some p ∧ p.header = header ∧ p.blocks = blocks) ↔
      Complete opts (frames ++ [req]) header blocks := by
  refine ⟨fun found => ?_,fun complete => ?_⟩
  · obtain ⟨p,done,rfl,rfl⟩ := found
    unfold completed at done
    split at done <;> try contradiction
    rename_i last
    obtain ⟨order,all,whole⟩ := (acceptedInOrder opts frames req p fresh).mp done
    refine ⟨by simp,order,(moreIff frames req).mpr ⟨all,by simpa using last⟩,?_⟩
    rw [whole]
    rfl
  · obtain ⟨all,last⟩ := (moreIff frames req).mp complete.more
    refine ⟨gathered header (frames ++ [req]),?_,rfl,complete.whole.symm⟩
    unfold completed
    rw [if_neg (by simp [last])]
    exact (acceptedInOrder opts frames req _ fresh).mpr ⟨complete.order,all,rfl⟩

section
variable {opts : Options} {subject : String} {seen : List Handled} {h : Handled} {db : OpenDB} {req : Commit}

theorem commitsOnce (handled : CommitHandled opts h.before db req h.actions h.after) :
    (commits h.actions).length ≤ 1 ∧ ∀ made ∈ commits h.actions, made.key = db.key := by
  obtain ⟨now,called⟩ := handled.called
  rw [called]
  cases completed opts db.pending req with
  | none => simp
  | some p => simp [commitRequest]

theorem callsIff (handled : CommitHandled opts h.before db req h.actions h.after) (key : Key) (header : Header)
    (blocks : List Block) : Calls h key header blocks ↔
      db.key = key ∧ ∃ p, completed opts db.pending req = some p ∧ p.header = header ∧ p.blocks = blocks := by
  obtain ⟨now,called⟩ := handled.called
  unfold Calls
  rw [called]
  simp only [Option.mem_toList,Option.map_eq_some_iff]
  refine ⟨fun calls => ?_,fun completes => ?_⟩
  · obtain ⟨_,⟨p,done,rfl⟩,toKey,header,blocks⟩ := calls
    exact ⟨toKey,p,done,header,blocks⟩
  · obtain ⟨toKey,p,done,header,blocks⟩ := completes
    exact ⟨_,⟨p,done,rfl⟩,toKey,header,blocks⟩

theorem completedTracked (tracks : Tracks opts subject seen h.before)
    (found : h.before.dbs.lookup req.dbID = some db) :
    completed opts db.pending req = completed opts ((partFrames numbered req.dbID
      (earlier req (partsOf numbered req.dbID seen))).foldl (absorb opts) none) req := by
  simp only [completed]
  rw [tracks.pending _ _ _ (lookupEntry found),acceptsEarlier]

theorem completedUnrefused {p : PendingCommit} (tracks : Tracks opts subject seen h.before)
    (found : h.before.dbs.lookup req.dbID = some db) (done : completed opts db.pending req = some p) :
    ∀ part ∈ earlier req (partsOf numbered req.dbID seen), refused part.actions = false := by
  intro part inside
  unfold earlier at inside
  split at inside
  · exact absurd inside List.not_mem_nil
  · rename_i later
    have opened := lookupEntry found
    cases stored : db.pending with
    | none => simp [completed,accepts,Commit.joins,later,stored] at done
    | some q =>
      rw [stored] at opened
      exact tracks.unrefused _ _ _ opened part inside

end

theorem committedParts (opts : Options) (subject owner : String) (instanceID : Bytes) (tokenExpires : Option Time)
    (seen : List Handled) (h : Handled) (c : Connection)
    (served : Serves opts (.loggedIn subject instanceID owner tokenExpires) (seen ++ [h]) c) :
    (commits h.actions).length ≤ 1 ∧ (∀ req ∈ commits h.actions, req.key.subject = subject) ∧
    ∀ d header blocks, Calls h ⟨subject,d⟩ header blocks ↔
      (h.part numbered d).isSome ∧ (h.before.dbs.lookup d).isSome ∧
      Complete opts (partFrames numbered d (partsOf numbered d (seen ++ [h]))) header blocks ∧
      ∀ part ∈ (partsOf numbered d (seen ++ [h])).dropLast, refused part.actions = false := by
  obtain ⟨before,performed⟩ := servedLast served
  have tracks : Tracks opts subject seen h.before := tracked rfl before
  rcases handledCases performed with ⟨req,db,body,id,found,handled⟩ | ⟨_,none,parts⟩
  · have here : h.part numbered req.dbID = some req := by simp [Handled.part,body,id]
    have still : h.opens req.dbID = false := by simp [Handled.opens,found]
    have key := tracks.key _ _ _ (lookupEntry found)
    have list : partsOf numbered req.dbID (seen ++ [h]) = earlier req (partsOf numbered req.dbID seen) ++ [h] :=
      partsNext still here
    have fresh : Fresh (partFrames numbered req.dbID (earlier req (partsOf numbered req.dbID seen)) ++ [req]) := by
      have all := freshParts numbered req.dbID (seen ++ [h])
      rwa [list,framesNext here] at all
    obtain ⟨once,toKey⟩ := commitsOnce handled
    refine ⟨once,fun made member => by rw [toKey made member,key],fun d header blocks => ?_⟩
    rw [callsIff handled]
    refine ⟨fun calls => ?_,fun complete => ?_⟩
    · obtain ⟨named,p,done,isHeader,isBlocks⟩ := calls
      have same : d = req.dbID := congrArg Key.dbID (named.symm.trans key)
      subst same
      refine ⟨by simp [here],by simp [found],?_,?_⟩
      · rw [list,framesNext here]
        rw [completedTracked tracks found] at done
        exact (completedIff opts _ req _ _ fresh).mp ⟨p,done,isHeader,isBlocks⟩
      · rw [list,List.dropLast_concat]
        exact completedUnrefused tracks found done
    · obtain ⟨isPart,_,complete,_⟩ := complete
      have same : d = req.dbID := by
        simp only [Handled.part,body] at isPart
        split at isPart <;> try contradiction
        rename_i both
        simp only [Bool.and_eq_true,beq_iff_eq] at both
        exact both.2.symm
      subst same
      rw [list,framesNext here] at complete
      rw [completedTracked tracks found]
      exact ⟨key,(completedIff opts _ req header blocks fresh).mpr complete⟩
  · refine ⟨by simp [none],by simp [none],fun d header blocks => ⟨fun calls => ?_,fun complete => ?_⟩⟩
    · obtain ⟨made,member,_⟩ := calls
      rw [none] at member
      exact absurd member List.not_mem_nil
    · obtain ⟨isPart,isOpen,_⟩ := complete
      obtain ⟨req,here⟩ := Option.isSome_iff_exists.mp isPart
      rw [(parts d req here).1] at isOpen
      contradiction

def sampleOptions : Options := ⟨1000000,60,10,0,⟨id,fun _ => "",2^48/24⟩⟩
def sampleStart : Connection := .loggedIn "alice" [1] "" none
def sampleID : Bytes := List.replicate 16 9
def sampleHeader : Header := ⟨sampleID,1,0,2⟩
def samplePart (part : UInt32) (more : Bool) (blocks : List Block) : ClientBody :=
  .commit ⟨"db",sampleID,1,0,2,blocks,more,part⟩

def sampleCall {β : Type} : Call β → Except Fault β
  | .openDB _ => .ok ⟨⟨[7],1⟩,⟨512,0,0,[]⟩,false⟩
  | .commit _ => .ok 1
  | _ => .error .unknown

def sampleAnswers {β : Type} : Effect β → β
  | .clock => 0
  | .call c => sampleCall c
  | .send _ => ()
  | .holders _ => ()
  | .anyOrder keys => ⟨keys,.refl keys⟩

def openedFrame : ClientFrame := ⟨1,.openDB ⟨"db",512,true,false,none⟩⟩

theorem sampleServed (frames : List ClientFrame) :
    Serves sampleOptions sampleStart (serve sampleAnswers sampleOptions [] sampleStart frames).1
      (serve sampleAnswers sampleOptions [] sampleStart frames).2 :=
  servesAnswered sampleAnswers (.idle sampleStart) frames

def unnumberedFrames : List ClientFrame :=
  [openedFrame,⟨2,samplePart 0 true [⟨0,[1]⟩]⟩,⟨0,samplePart 1 false [⟨1,[2]⟩]⟩,⟨3,samplePart 1 false [⟨1,[3]⟩]⟩]

/- Part 1 is refused for its request ID 0, and the next part 1 still completes the commit. -/
theorem unnumberedPartSkipped : ∃ seen h c,
    Serves sampleOptions sampleStart (seen ++ [h]) c ∧ (seen ++ [h]).map Handled.frame = unnumberedFrames ∧
    (∃ part ∈ partsOf (fun _ => true) "db" seen, refused part.actions = true) ∧
    Calls h ⟨"alice","db"⟩ sampleHeader [⟨0,[1]⟩,⟨1,[3]⟩] ∧
    ¬ Complete sampleOptions (partFrames (fun _ => true) "db" (partsOf (fun _ => true) "db" (seen ++ [h])))
      sampleHeader [⟨0,[1]⟩,⟨1,[3]⟩] := by
  refine ⟨(serve sampleAnswers sampleOptions [] sampleStart (unnumberedFrames.take 3)).1,_,_,
    sampleServed unnumberedFrames,rfl,?_,⟨_,List.mem_singleton_self _,rfl,rfl,rfl⟩,fun complete => ?_⟩
  · exact List.any_eq_true.mp rfl
  · have twice : (1 : UInt32).toNat = 2 := complete.order.number 2 _ rfl
    contradiction

def twoPartFrames : List ClientFrame :=
  [openedFrame,⟨2,samplePart 0 true [⟨0,[1]⟩]⟩,⟨3,samplePart 1 false [⟨1,[3]⟩]⟩]

theorem committedTwoParts : ∃ seen h c,
    Serves sampleOptions sampleStart (seen ++ [h]) c ∧ (seen ++ [h]).map Handled.frame = twoPartFrames ∧
    Complete sampleOptions (partFrames numbered "db" (partsOf numbered "db" (seen ++ [h])))
      sampleHeader [⟨0,[1]⟩,⟨1,[3]⟩] := by
  refine ⟨(serve sampleAnswers sampleOptions [] sampleStart (twoPartFrames.take 2)).1,_,_,
    sampleServed twoPartFrames,rfl,?_⟩
  exact (((committedParts sampleOptions "alice" "" [1] none _ _ _ (sampleServed twoPartFrames)).2.2 "db" sampleHeader
    [⟨0,[1]⟩,⟨1,[3]⟩]).mp ⟨_,List.mem_singleton_self _,rfl,rfl,rfl⟩).2.2.1

end SqliteRemote.Protocol
