import Mathlib.Data.Fintype.Card
import Mathlib.Data.Set.Finite.List
import Mathlib.Logic.Relation
import SqliteRemote.RowLocking

/-! Row locks taken one at a time and in one order. A call waits for another if its next statement
needs a lock that conflicts with one the other holds. Where every transaction takes each lock after the
locks it has, or has the row to itself already, no calls wait for each other in a circle, so some call
can always go on. -/
namespace SqliteRemote.LockOrder
open Programs RowLocking

section
variable {Q : Type → Type} {σ W L F ρ : Type} (E : Engine Q σ W L)

def wants (s : σ) : Residual Q σ W L F ρ → List (L × Mode)
  | .outside (.ask (.auto q) _) => E.needs q s
  | .inside snapshot tx (.ask q _) _ => E.needs q (tx.seen E snapshot s)
  | _ => []

structure WaitsOn (w : World Q σ W L F ρ) (row : L) (i j : Nat) : Prop where
  other : j ≠ i
  waits : ∃ call mode, w.calls i = some call ∧ (row,mode) ∈ wants E w.committed call ∧
    ∃ holder held, w.calls j = some holder ∧ (row,held) ∈ holder.locks ∧ held.conflicts mode = true

def Waits (w : World Q σ W L F ρ) (i j : Nat) : Prop := ∃ row, WaitsOn E w row i j

/- A cycle of calls, each waiting for a lock that the next one holds. -/
def Deadlocked (w : World Q σ W L F ρ) : Prop := ∃ i, Relation.TransGen (Waits E w) i i

def Owned (locks : List (L × Mode)) (row : L) : Prop := (row,Mode.exclusive) ∈ locks ∨ (row,Mode.remove) ∈ locks

variable (lt : L → L → Prop)

def Below (locks : List (L × Mode)) (row : L) : Prop := ∀ held ∈ locks, held.2 = .watch ∨ lt held.1 row

/- A transaction body with some locks. Each statement locks at most one row, which the transaction
has to itself or which comes after the rows it has locked. -/
def Climbs {α : Type} : List (L × Mode) → Program Q α → Prop
  | _,.done _ => True
  | locks,.ask q next => ∀ s, (E.needs q s).length ≤ 1 ∧
      (∀ need ∈ E.needs q s, Owned locks need.1 ∨ Below lt locks need.1) ∧
      Climbs (E.needs q s ++ locks) (next (E.answer q s))

def ClimbsAll : Script Q F ρ → Prop
  | .done _ => True
  | .ask (.auto q) next => ∀ s, (E.needs q s).length ≤ 1 ∧ ClimbsAll (next (E.answer q s))
  | .ask (.tx _ body) next => Climbs E lt [] body ∧ ∀ r, ClimbsAll (next r)

inductive Climbing : Residual Q σ W L F ρ → Prop where
  | outside {p : Script Q F ρ} (climbs : ClimbsAll E lt p) : Climbing (.outside p)
  | inside {β : Type} {snapshot : Bool} {tx : Tx σ W L} {body : Program Q (Except F β)} {next : Except F β → Script Q F ρ}
      (climbs : Climbs E lt tx.locks body) (rest : ∀ r, ClimbsAll E lt (next r)) : Climbing (.inside snapshot tx body next)
  | finished {r : ρ} : Climbing (.finished r)

variable {E lt} {scripts : Nat → Script Q F ρ} {w after : World Q σ W L F ρ}

theorem climbingStep {e : Event ρ} (climbs : ∀ i, ClimbsAll E lt (scripts i))
    (climbing : ∀ i call, w.calls i = some call → Climbing E lt call) (step : Step E scripts w e after) :
    ∀ i call, after.calls i = some call → Climbing E lt call := by
  have own : ∃ c new, after = {w with committed := c}.put e.caller new ∧ Climbing E lt new := by
    cases step with
    | invoke i fresh => exact ⟨_,_,rfl,.outside (climbs i)⟩
    | auto i at_ free =>
      cases climbing i _ at_ with
      | outside rest => exact ⟨_,_,rfl,.outside (rest w.committed).2⟩
    | begin i at_ =>
      cases climbing i _ at_ with
      | outside rest => exact ⟨_,_,rfl,.inside rest.1 rest.2⟩
    | query i at_ free =>
      cases climbing i _ at_ with
      | inside body rest => exact ⟨_,_,rfl,.inside (body _).2.2 rest⟩
    | commit i at_ =>
      cases climbing i _ at_ with
      | inside body rest => exact ⟨_,_,rfl,.outside (rest _)⟩
    | rollback i at_ =>
      cases climbing i _ at_ with
      | inside body rest => exact ⟨_,_,rfl,.outside (rest _)⟩
    | finish i at_ => exact ⟨_,_,rfl,.finished⟩
  obtain ⟨c,new,rfl,mine⟩ := own
  intro j call there
  rcases putCalls there with ⟨_,rfl⟩ | ⟨_,old⟩
  · exact mine
  · exact climbing j call old

theorem climbingRun {start : σ} {events : List (Event ρ)} (climbs : ∀ i, ClimbsAll E lt (scripts i))
    (run : Run E scripts start events w) : ∀ i call, w.calls i = some call → Climbing E lt call := by
  induction run with
  | start => exact fun _ _ there => by contradiction
  | next _ step ih => exact climbingStep climbs ih step

theorem ownedConflict {locks : List (L × Mode)} {row : L} (owned : Owned locks row) :
    ∃ mode, (row,mode) ∈ locks ∧ ∀ held : Mode, held ≠ .watch → mode.conflicts held = true ∧ held.conflicts mode = true := by
  rcases owned with mine | mine
  all_goals
    refine ⟨_,mine,fun held sees => ?_⟩
    cases held <;> simp_all [Mode.conflicts]

theorem conflictHolds {held mode : Mode} (conflict : held.conflicts mode = true) : held ≠ .watch := by
  rintro rfl
  contradiction

theorem waitsLater (compatible : w.Compatible) (climbing : ∀ i call, w.calls i = some call → Climbing E lt call)
    {i j k : Nat} {row later : L} (first : WaitsOn E w row i j) (second : WaitsOn E w later j k) : lt row later := by
  obtain ⟨_,_,_,_,_,holder,held,at_,locked,conflict⟩ := first
  obtain ⟨other,call,mode,again,wanted,third,theirs,there,theirLock,blocks⟩ := second
  cases at_.symm.trans again
  cases climbing j holder at_ with
  | outside climbs => exact absurd locked List.not_mem_nil
  | finished => exact absurd locked List.not_mem_nil
  | @inside _ snapshot tx body next climbs rest =>
    cases body with
    | done r => exact absurd wanted List.not_mem_nil
    | ask q body =>
      rcases (climbs (tx.seen E snapshot w.committed)).2.1 _ wanted with owned | below
      · obtain ⟨own,mine,conflicts⟩ := ownedConflict owned
        have both := compatible j k _ third (Ne.symm other) at_ there _ mine _ theirLock rfl
        obtain ⟨left,right⟩ := conflicts theirs (conflictHolds blocks)
        rcases both with none_ | none_
        · exact absurd (left.symm.trans none_) Bool.noConfusion
        · exact absurd (right.symm.trans none_) Bool.noConfusion
      · exact (below _ locked).resolve_left (conflictHolds conflict)

theorem chainLater (trans : ∀ a b c, lt a b → lt b c → lt a c) (compatible : w.Compatible)
    (climbing : ∀ i call, w.calls i = some call → Climbing E lt call) {i j : Nat}
    (chain : Relation.TransGen (Waits E w) i j) :
    ∃ first last x y, WaitsOn E w first i x ∧ WaitsOn E w last y j ∧ (first = last ∨ lt first last) := by
  induction chain with
  | single waits =>
    obtain ⟨row,on⟩ := waits
    exact ⟨row,row,_,_,on,on,.inl rfl⟩
  | tail _ waits ih =>
    obtain ⟨first,last,x,y,head,on,order⟩ := ih
    obtain ⟨row,next⟩ := waits
    have step := waitsLater compatible climbing on next
    refine ⟨first,row,x,_,head,next,.inr ?_⟩
    rcases order with rfl | before
    · exact step
    · exact trans _ _ _ before step

theorem undeadlocked (irrefl : ∀ a, ¬lt a a) (trans : ∀ a b c, lt a b → lt b c → lt a c) (compatible : w.Compatible)
    (climbing : ∀ i call, w.calls i = some call → Climbing E lt call) : ¬Deadlocked E w := by
  rintro ⟨i,cycle⟩
  obtain ⟨first,last,x,y,head,tail,order⟩ := chainLater trans compatible climbing cycle
  have round := waitsLater compatible climbing tail head
  rcases order with rfl | before
  · exact irrefl _ round
  · exact irrefl _ (trans _ _ _ before round)

theorem goesOn {i : Nat} {call : Residual Q σ W L F ρ} (at_ : w.calls i = some call) (unfinished : ∀ r, call ≠ .finished r)
    (alone : ∀ j, ¬Waits E w i j) : ∃ e after, Step E scripts w e after ∧ e.caller = i := by
  have free : w.free i (wants E w.committed call) := by
    intro j holder differ there held locked need needed same
    cases conflict : held.2.conflicts need.2 with
    | false => rfl
    | true =>
      refine absurd ⟨need.1,differ,call,need.2,at_,needed,holder,held.2,there,?_,conflict⟩ (alone j)
      rw [← same]
      exact locked
  cases call with
  | finished r => exact absurd rfl (unfinished r)
  | outside p =>
    cases p with
    | done r => exact ⟨_,_,.finish i at_,rfl⟩
    | ask work next =>
      cases work with
      | auto q => exact ⟨_,_,.auto i at_ free,rfl⟩
      | tx snapshot body => exact ⟨_,_,.begin i at_,rfl⟩
  | inside snapshot tx body next =>
    cases body with
    | ask q body => exact ⟨_,_,.query i at_ free,rfl⟩
    | done r =>
      cases r with
      | ok b => exact ⟨_,_,.commit i at_,rfl⟩
      | error f => exact ⟨_,_,.rollback i at_,rfl⟩

theorem holderUnfinished {call : Residual Q σ W L F ρ} {lock : L × Mode} (locked : lock ∈ call.locks) :
    ∀ r, call ≠ .finished r := by
  rintro r rfl
  exact absurd locked List.not_mem_nil

theorem someGoesOn {start : σ} {events : List (Event ρ)} (run : Run E scripts start events w) (live : ¬Deadlocked E w)
    {i : Nat} {call : Residual Q σ W L F ρ} (at_ : w.calls i = some call) (unfinished : ∀ r, call ≠ .finished r) :
    ∃ e after, Step E scripts w e after ∧ (w.calls e.caller).isSome := by
  let Invoked := {j // j ∈ events.map Event.caller}
  let behind : Invoked → Invoked → Prop := fun a b => Relation.TransGen (Waits E w) b.1 a.1
  have invoked {j : Nat} {other : Residual Q σ W L F ρ} (there : w.calls j = some other) : j ∈ events.map Event.caller :=
    List.mem_map.mpr ⟨_,runInvoked run there,rfl⟩
  have finite : Finite Invoked := List.finite_toSet (events.map Event.caller)
  have transitive : IsTrans Invoked behind := ⟨fun _ _ _ near far => far.trans near⟩
  have irreflexive : Std.Irrefl behind := ⟨fun a cycle => live ⟨a.1,cycle⟩⟩
  have order := Finite.wellFounded_of_trans_of_irrefl behind
  obtain ⟨⟨j,_⟩,⟨other,there,busy⟩,last⟩ := order.has_min
    {a : Invoked | ∃ other, w.calls a.1 = some other ∧ ∀ r, other ≠ .finished r} ⟨⟨i,invoked at_⟩,call,at_,unfinished⟩
  have alone : ∀ k, ¬Waits E w j k := by
    rintro k ⟨row,waits⟩
    obtain ⟨_,_,_,_,holder,held,holds,locked,_⟩ := waits.waits
    exact last ⟨k,invoked holds⟩ ⟨holder,holds,holderUnfinished locked⟩ (.single ⟨row,waits⟩)
  obtain ⟨e,after,step,mover⟩ := goesOn there busy alone
  refine ⟨e,after,step,?_⟩
  rw [mover,there]
  rfl

end
end SqliteRemote.LockOrder
