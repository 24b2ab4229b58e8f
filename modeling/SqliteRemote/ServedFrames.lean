import SqliteRemote.Answers
import SqliteRemote.ServerRuns

/-! One frame in a run of the server. From the moment a connection has received a frame to the end
of its handling, all that the connection asks belongs to the frame, and every call is answered by
the store as it is at that moment, whatever the other connections do in between. -/
namespace SqliteRemote.Server
open Rows StoreContract Programs Protocol
open MemoryStore (Store WellformedStore)

def answeredFrom {β : Type} (s : Store) : Effect β → β → Prop
  | .call k => fun answer => ∃ newLeaseID, answer = declared (call s newLeaseID k).1
  | _ => fun _ => True

def FromStore (s : Store) (x : Asked Effect) : Prop := answeredFrom s x.effect x.answer

def isCall {β : Type} : Effect β → Bool
  | .call _ => true
  | _ => false

def Action.receives (id : Nat) : Action → Bool
  | .receive connection _ _ => connection == id
  | _ => false

theorem uncalledFrom {β : Type} (s : Store) {e : Effect β} (answer : β) (uncalled : isCall e = false) :
    FromStore s ⟨e,answer⟩ := by
  cases e with
  | call k => contradiction
  | _ => trivial

theorem askedFrom (opts : Options) {w : World} {action : Action} {id : Nat} {x : Asked Effect}
    (asks : askedBy id (w.step opts action).1 = some x) : FromStore w.shared.store x := by
  have asks := (askedByIff id _ _).mp asks
  have shared := shares opts w action
  generalize (w.step opts action).2.shared = after at shared
  generalize (w.step opts action).1 = out at shared asks
  cases shared with
  | same action out apart =>
    have alone := apart _ asks
    obtain ⟨effect,answer⟩ := x
    refine uncalledFrom _ _ ?_
    cases effect <;> first | rfl | contradiction
  | called choice was =>
    cases asks
    exact ⟨choice.leaseID,rfl⟩
  | registered choice was => cases asks; trivial
  | removed choice was => cases asks; trivial
  | swept cutoff limit tie => contradiction

theorem wellformedReached (opts : Options) (actions : List Action) : WellformedStore (run opts actions).shared.store :=
  History.invariantRun (World.step opts) (fun w action => wellformedShared opts w action) MemoryStore.wellformedNew actions

section
variable (id : Nat) (c : Connection) (frame : ClientFrame)

/- A connection that has not received another frame: what it has asked is what it has seen. -/
def Handling (events : List Event) : Activity → Prop
  | .working client request seen _ => client = c ∧ request = frame ∧ own id events = seen
  | .absent => False
  | _ => True

variable {id c frame} {opts : Options}

theorem handlingTurn {events : List Event} {e : Event} {before after : Activity}
    (undisturbed : e.op.receives id = false)
    (turn : Turns opts e.op id before (askedBy id e.reply) after)
    (handling : Handling id c frame events before) : Handling id c frame (events ++ [e]) after := by
  generalize asked : askedBy id e.reply = x at turn
  have grown : own id (events ++ [e]) = own id events ++ x.toList := by rw [ownSnoc,asked]
  cases turn with
  | same =>
    cases before with
    | working client request seen rest =>
      obtain ⟨rfl,rfl,rfl⟩ := handling
      exact ⟨rfl,rfl,by rw [grown]; exact List.append_nil _⟩
    | _ => exact handling
  | loggedIn => exact handling.elim
  | received client request sent =>
    obtain ⟨arrived,op⟩ := sent
    rw [op] at undisturbed
    simp [Action.receives] at undisturbed
  | asked client request seen e next answer =>
    obtain ⟨rfl,rfl,rfl⟩ := handling
    exact ⟨rfl,rfl,grown⟩
  | _ => trivial

structure Served (opts : Options) (past during : List Action) (id : Nat) (c : Connection) (frame : ClientFrame)
    (seen : List (Asked Effect)) (after : Connection) : Prop where
  received : (run opts past).connections id = .working c frame [] (c.handle opts frame)
  undisturbed : ∀ a ∈ during, a.receives id = false
  finished : ∃ client request, (run opts (past ++ during)).connections id = .working client request seen (.done after)

abbrev eventsOf (opts : Options) (past during : List Action) : List Event :=
  History.history (World.step opts) (run opts past) during

variable {past during : List Action} {seen : List (Asked Effect)} {after : Connection}

theorem servedHandling (served : Served opts past during id c frame seen after) :
    own id (eventsOf opts past during) = seen ∧
    (run opts (past ++ during)).connections id = .working c frame seen (.done after) := by
  obtain ⟨client,request,finished⟩ := served.finished
  have handling : Handling id c frame (eventsOf opts past during)
      ((History.run (World.step opts) (run opts past) during).connections id) := by
    refine History.invariantSeen (World.step opts)
      (P := fun events w => Handling id c frame events (w.connections id)) ?_ ?_
    · rw [served.received]
      exact ⟨rfl,rfl,rfl⟩
    · intro events e member handling
      have turn := turns opts e.before e.op id
      rw [History.eventStep (World.step opts) member] at turn
      exact handlingTurn (served.undisturbed _ (History.eventOp (World.step opts) member)) turn handling
  rw [← History.runAppend,finished] at handling
  obtain ⟨rfl,rfl,same⟩ := handling
  exact ⟨same,finished⟩

theorem servedPerforms (served : Served opts past during id c frame seen after) :
    Performs (c.handle opts frame) seen after := by
  have sane : Sane opts (run opts (past ++ during)) :=
    History.invariantRun (World.step opts) (saneStep opts) (saneStart opts) _
  have performed := partlyPerforms (sane id _ _ _ _ (servedHandling served).2) (.done after)
  rwa [List.append_nil] at performed

theorem servedAsked (served : Served opts past during id c frame seen after) (x : Asked Effect) :
    x ∈ seen ↔ ∃ e ∈ eventsOf opts past during, askedBy id e.reply = some x := by
  rw [← (servedHandling served).1,own,List.mem_filterMap]

theorem servedFrom {e : Event} {x : Asked Effect} (member : e ∈ eventsOf opts past during)
    (asked : askedBy id e.reply = some x) :
    FromStore e.before.shared.store x ∧ WellformedStore e.before.shared.store := by
  have asks : askedBy id (e.before.step opts e.op).1 = some x := by
    rw [History.eventStep (World.step opts) member]
    exact asked
  refine ⟨askedFrom opts asks,?_⟩
  exact (History.invariantEvent (World.step opts) (fun w action => wellformedShared opts w action)
    (wellformedReached opts past) member).1

end

def servedAt (opts : Options) (past : List Action) (id : Nat) (frame : ClientFrame) (arrived : Time)
    (during : List Action) : Option (Connection × List (Asked Effect) × Connection) :=
  match (run opts past).connections id, (run opts (past ++ [.receive id frame arrived] ++ during)).connections id with
  | .waiting c, .working _ _ seen (.done after) =>
      if (frame.isPing || !c.tokenExpired opts arrived) && during.all (fun a => !a.receives id) then some (c,seen,after)
      else none
  | _, _ => none

theorem servedAtSome {opts : Options} {past during : List Action} {id : Nat} {frame : ClientFrame} {arrived : Time}
    {c after : Connection} {seen : List (Asked Effect)}
    (runs : servedAt opts past id frame arrived during = some (c,seen,after)) :
    Served opts (past ++ [.receive id frame arrived]) during id c frame seen after := by
  unfold servedAt at runs
  split at runs
  · rename_i client _ _ trace final waits finished
    split at runs <;> try contradiction
    rename_i admitted
    simp only [Bool.and_eq_true,List.all_eq_true,Bool.not_eq_true'] at admitted
    cases runs
    refine ⟨?_,admitted.2,_,_,finished⟩
    have last : run opts (past ++ [.receive id frame arrived]) =
        ((run opts past).step opts (.receive id frame arrived)).2 := History.runAppend (World.step opts) start past _
    rw [last]
    simp only [World.step,waits,admitted.1,if_true,putSame]
  · contradiction

theorem servedView {opts : Options} {past during : List Action} {id : Nat} {frame : ClientFrame} {arrived : Time}
    {α : Type} {f : Connection × List (Asked Effect) × Connection → α} {a : α}
    (view : (servedAt opts past id frame arrived during).map f = some a) : ∃ c seen after,
      Served opts (past ++ [.receive id frame arrived]) during id c frame seen after ∧ f (c,seen,after) = a := by
  obtain ⟨⟨c,seen,after⟩,runs,shown⟩ := Option.map_eq_some_iff.mp view
  exact ⟨c,seen,after,servedAtSome runs,shown⟩

end SqliteRemote.Server
