import Mathlib.Algebra.BigOperators.Group.Finset.Basic
import Mathlib.Logic.Hydra
import SqliteRemote.RowLocking

/-! Calls that end. Every step of a call leaves it a smaller part of its script, so the calls that are
running have only finitely many steps left between them, however they are interleaved. -/
namespace SqliteRemote.Finishing
open Programs RowLocking Relation

section
variable {Q : Type → Type} {σ W L F ρ : Type}

inductive Nears : Residual Q σ W L F ρ → Residual Q σ W L F ρ → Prop where
  | auto {β : Type} {q : Q β} {next : β → Script Q F ρ} (b : β) : Nears (.outside (next b)) (.outside (.ask (.auto q) next))
  | begin {β : Type} {snapshot : Bool} {body : Program Q (Except F β)} {next : Except F β → Script Q F ρ} (tx : Tx σ W L) :
      Nears (.inside snapshot tx body next) (.outside (.ask (.tx snapshot body) next))
  | query {β γ : Type} {snapshot : Bool} {tx : Tx σ W L} {q : Q γ} {body : γ → Program Q (Except F β)}
      {next : Except F β → Script Q F ρ} (c : γ) (extended : Tx σ W L) :
      Nears (.inside snapshot extended (body c) next) (.inside snapshot tx (.ask q body) next)
  | close {β : Type} {snapshot : Bool} {tx : Tx σ W L} {r : Except F β} {next : Except F β → Script Q F ρ} :
      Nears (.outside (next r)) (.inside snapshot tx (.done r) next)
  | finish {r : ρ} : Nears (.finished r) (.outside (.done r))

theorem finishedEnds (r : ρ) : Acc Nears (Residual.finished r : Residual Q σ W L F ρ) :=
  ⟨_,fun _ nears => by cases nears⟩

theorem insideEnds {β : Type} {next : Except F β → Script Q F ρ} {snapshot : Bool}
    (rest : ∀ r, Acc Nears (Residual.outside (next r) : Residual Q σ W L F ρ)) (body : Program Q (Except F β)) :
    ∀ tx : Tx σ W L, Acc Nears (Residual.inside snapshot tx body next) := by
  induction body with
  | done r =>
    refine fun tx => ⟨_,fun left nears => ?_⟩
    cases nears
    exact rest r
  | ask q body ih =>
    refine fun tx => ⟨_,fun left nears => ?_⟩
    cases nears with
    | query c extended => exact ih c extended

theorem outsideEnds (p : Script Q F ρ) : Acc Nears (Residual.outside p : Residual Q σ W L F ρ) := by
  induction p with
  | done r =>
    refine ⟨_,fun left nears => ?_⟩
    cases nears
    exact finishedEnds r
  | ask work next ih =>
    refine ⟨_,fun left nears => ?_⟩
    cases nears with
    | auto b => exact ih b
    | begin tx => exact insideEnds ih _ tx

theorem nearsEnds : WellFounded (Nears : Residual Q σ W L F ρ → Residual Q σ W L F ρ → Prop) := by
  refine ⟨fun left => ?_⟩
  cases left with
  | outside p => exact outsideEnds p
  | inside snapshot tx body next => exact insideEnds (fun r => outsideEnds (next r)) body tx
  | finished r => exact finishedEnds r

end

section
variable {Q : Type → Type} {σ W L F ρ : Type} (E : Engine Q σ W L) (scripts : Nat → Script Q F ρ)

def Goes (w after : World Q σ W L F ρ) : Prop := ∃ e, Step E scripts w e after ∧ (w.calls e.caller).isSome

def left (ids : Finset Nat) (w : World Q σ W L F ρ) : Multiset (Residual Q σ W L F ρ) :=
  ∑ i ∈ ids, (w.calls i).elim 0 fun call => {call}

variable {E scripts} {w after : World Q σ W L F ρ}

theorem stepNears {e : Event ρ} (step : Step E scripts w e after) (made : (w.calls e.caller).isSome) :
    ∃ c old new, w.calls e.caller = some old ∧ after = {w with committed := c}.put e.caller new ∧ Nears new old := by
  cases step with
  | invoke i fresh =>
    rw [show (Event.invoked i : Event ρ).caller = i from rfl,fresh] at made
    contradiction
  | auto i at_ free => exact ⟨_,_,_,at_,rfl,.auto _⟩
  | begin i at_ => exact ⟨_,_,_,at_,rfl,.begin _⟩
  | query i at_ free => exact ⟨_,_,_,at_,rfl,.query _ _⟩
  | commit i at_ => exact ⟨_,_,_,at_,rfl,.close⟩
  | rollback i at_ => exact ⟨_,_,_,at_,rfl,.close⟩
  | finish i at_ => exact ⟨_,_,_,at_,rfl,.finish⟩

theorem leftPut {ids : Finset Nat} {i : Nat} {old new : Residual Q σ W L F ρ} (member : i ∈ ids)
    (at_ : w.calls i = some old) (nears : Nears new old) : CutExpand Nears (left ids (w.put i new)) (left ids w) := by
  have others : ∑ j ∈ ids.erase i, ((w.put i new).calls j).elim 0 (fun call => ({call} : Multiset (Residual Q σ W L F ρ))) =
      ∑ j ∈ ids.erase i, (w.calls j).elim 0 fun call => {call} := by
    refine Finset.sum_congr rfl fun j there => ?_
    rw [putAt,if_neg (Finset.ne_of_mem_erase there)]
  rw [left,left,← Finset.add_sum_erase _ _ member,← Finset.add_sum_erase _ _ member,others,putAt,if_pos rfl,at_]
  exact cutExpand_single_add nears _

theorem listedPut {ids : Finset Nat} {i : Nat} {new : Residual Q σ W L F ρ} (member : i ∈ ids)
    (listed : ∀ j, (w.calls j).isSome → j ∈ ids) : ∀ j, ((w.put i new).calls j).isSome → j ∈ ids := by
  intro j there
  rcases putSome there with rfl | old
  · exact member
  · exact listed j old

theorem listedEnds {ids : Finset Nat} (listed : ∀ j, (w.calls j).isSome → j ∈ ids) :
    Acc (fun later earlier => Goes E scripts earlier later) w := by
  have wf : WellFounded (CutExpand (Nears : Residual Q σ W L F ρ → Residual Q σ W L F ρ → Prop)) := nearsEnds.cutExpand
  generalize is : left ids w = m
  induction m using wf.induction generalizing w with
  | _ m ih =>
    subst is
    refine ⟨_,fun after goes => ?_⟩
    obtain ⟨e,step,made⟩ := goes
    obtain ⟨c,old,new,at_,rfl,nears⟩ := stepNears step made
    have member := listed e.caller made
    let moved : World Q σ W L F ρ := {w with committed := c}
    have smaller : CutExpand Nears (left ids (moved.put e.caller new)) (left ids moved) := leftPut member at_ nears
    exact ih _ smaller (listedPut member listed) rfl

/- The calls of a run, without new ones, take only finitely many steps. -/
theorem runEnds {start : σ} {events : List (Event ρ)} (run : Run E scripts start events w) :
    ¬∃ worlds : Nat → World Q σ W L F ρ, worlds 0 = w ∧ ∀ n, Goes E scripts (worlds n) (worlds (n+1)) := by
  rintro ⟨worlds,begins,goes⟩
  have listed : ∀ j, (w.calls j).isSome → j ∈ (events.map Event.caller).toFinset := by
    intro j there
    obtain ⟨call,at_⟩ := Option.isSome_iff_exists.mp there
    exact List.mem_toFinset.mpr (List.mem_map.mpr ⟨_,runInvoked run at_,rfl⟩)
  exact (acc_iff_isEmpty_descending_chain.mp (listedEnds listed)).false ⟨worlds,begins,goes⟩

theorem goesRun {start : σ} {events : List (Event ρ)} {later : World Q σ W L F ρ} (run : Run E scripts start events w)
    (goes : ReflTransGen (Goes E scripts) w later) : ∃ more, Run E scripts start (events ++ more) later := by
  induction goes with
  | refl => exact ⟨[],(List.append_nil events).symm ▸ run⟩
  | tail _ next ih =>
    obtain ⟨more,reached⟩ := ih
    obtain ⟨e,step,_⟩ := next
    exact ⟨more ++ [e],List.append_assoc events more [e] ▸ .next reached step⟩

end
end SqliteRemote.Finishing
