import Mathlib.Data.List.Basic

/-! Programs that ask their surroundings. A program ends with a value or asks one typed
question and goes on with the answer, so whatever else happens between two questions is left
to the surroundings. -/
namespace SqliteRemote.Programs
universe u

inductive Program (ε : Type → Type u) (α : Type) : Type (max 1 u) where
  | done (a : α)
  | ask {β : Type} (e : ε β) (next : β → Program ε α)

structure Asked (ε : Type → Type u) : Type (max 1 u) where
  {kind : Type}
  effect : ε kind
  answer : kind

inductive Performs {ε : Type → Type u} {α : Type} : Program ε α → List (Asked ε) → α → Prop where
  | done (a : α) : Performs (.done a) [] a
  | ask {β : Type} {e : ε β} {next : β → Program ε α} (answer : β) {rest : List (Asked ε)} {a : α}
      (tail : Performs (next answer) rest a) : Performs (.ask e next) (⟨e,answer⟩ :: rest) a

def Program.runWith {ε : Type → Type u} {α : Type} (answers : {β : Type} → ε β → β) :
    Program ε α → List (Asked ε) × α
  | .done a => ([],a)
  | .ask e next =>
      let (rest,a) := (next (answers e)).runWith answers
      (⟨e,answers e⟩ :: rest,a)

theorem performsRun {ε : Type → Type u} {α : Type} (answers : {β : Type} → ε β → β) (p : Program ε α) :
    Performs p (p.runWith answers).1 (p.runWith answers).2 := by
  induction p with
  | done a => exact .done a
  | ask e next ih => exact .ask _ (ih (answers e))

theorem runWithAnswered {ε : Type → Type u} {α : Type} (answers : {β : Type} → ε β → β) (p : Program ε α) :
    ∀ x ∈ (p.runWith answers).1, x.answer = answers x.effect := by
  induction p with
  | done a => exact fun _ member => absurd member List.not_mem_nil
  | ask e next ih => exact List.forall_mem_cons.mpr ⟨rfl,ih (answers e)⟩

inductive Partly {ε : Type → Type u} {α : Type} (p : Program ε α) : List (Asked ε) → Program ε α → Prop where
  | start : Partly p [] p
  | more {seen : List (Asked ε)} {β : Type} {e : ε β} {next : β → Program ε α}
      (earlier : Partly p seen (.ask e next)) (answer : β) : Partly p (seen ++ [⟨e,answer⟩]) (next answer)

def Program.first {ε : Type → Type u} {α : Type} (answers : {β : Type} → ε β → β) (seen : List (Asked ε)) :
    Nat → Program ε α → List (Asked ε) × Program ε α
  | n+1, .ask e next => (next (answers e)).first answers (seen ++ [⟨e,answers e⟩]) n
  | _, rest => (seen,rest)

theorem partlyFirst {ε : Type → Type u} {α : Type} (answers : {β : Type} → ε β → β) {p rest : Program ε α}
    {seen : List (Asked ε)} (n : Nat) (partly : Partly p seen rest) :
    Partly p (rest.first answers seen n).1 (rest.first answers seen n).2 := by
  induction n generalizing seen rest with
  | zero =>
    unfold Program.first
    exact partly
  | succ n ih =>
    cases rest with
    | done a => exact partly
    | ask e next => exact ih (.more partly (answers e))

theorem partlyPerforms {ε : Type → Type u} {α : Type} {p rest : Program ε α} {seen tail : List (Asked ε)} {a : α}
    (partly : Partly p seen rest) (performed : Performs rest tail a) : Performs p (seen ++ tail) a := by
  induction partly generalizing tail with
  | start => exact performed
  | more earlier answer ih =>
    rw [List.append_assoc]
    exact ih (.ask answer performed)

section
variable {ε : Type → Type u} {α : Type} (ok : List (Asked ε) → ∀ {β : Type}, ε β → Prop)
  (post : List (Asked ε) → α → Prop)

/- Whatever the answers, every question is ok and the result satisfies post after what was asked
and answered before it. -/
def Program.Guarded (seen : List (Asked ε)) : Program ε α → Prop
  | .done a => post seen a
  | .ask e next => ok seen e ∧ ∀ answer, (next answer).Guarded (seen ++ [⟨e,answer⟩])

theorem performsGuarded {p : Program ε α} {seen trace : List (Asked ε)} {a : α} (guarded : p.Guarded ok post seen)
    (performed : Performs p trace a) : (∀ x ∈ trace, ∃ earlier, ok earlier x.effect) ∧ post (seen ++ trace) a := by
  induction performed generalizing seen with
  | done a => exact ⟨fun _ member => absurd member List.not_mem_nil,by rw [List.append_nil]; exact guarded⟩
  | ask answer tail ih =>
    obtain ⟨each,result⟩ := ih (guarded.2 answer)
    rw [List.append_assoc] at result
    refine ⟨fun x member => ?_,result⟩
    rcases List.mem_cons.mp member with rfl | later
    · exact ⟨seen,guarded.1⟩
    · exact each x later

theorem partlyGuarded {p rest : Program ε α} {seen : List (Asked ε)} (guarded : p.Guarded ok post [])
    (partly : Partly p seen rest) : rest.Guarded ok post seen := by
  induction partly with
  | start => exact guarded
  | more earlier answer ih => exact ih.2 answer

end

theorem guardedPartly {ε : Type → Type u} {α : Type} {p rest : Program ε α} {seen : List (Asked ε)}
    (partly : Partly p seen rest) :
    rest.Guarded (fun seen _ e => ∃ next, Partly p seen (.ask e next)) (fun seen a => Partly p seen (.done a)) seen := by
  induction rest generalizing seen with
  | done a => exact partly
  | ask e next ih => exact ⟨⟨next,partly⟩,fun answer => ih answer (.more partly answer)⟩

section
universe v
variable {ε : Type → Type u} {φ : Type → Type v} {α γ : Type} (wrap : {β : Type} → ε β → φ β)

def Program.within : Program ε α → (α → Program φ γ) → Program φ γ
  | .done a, next => next a
  | .ask e rest, next => .ask (wrap e) (fun answer => (rest answer).within next)

def Asked.within (x : Asked ε) : Asked φ := ⟨wrap x.effect,x.answer⟩

theorem guardedWithin {okInner : List (Asked ε) → ∀ {β : Type}, ε β → Prop} {postInner : List (Asked ε) → α → Prop}
    {ok : List (Asked φ) → ∀ {β : Type}, φ β → Prop} {post : List (Asked φ) → γ → Prop} {before : List (Asked φ)}
    {next : α → Program φ γ}
    (asks : ∀ seen {β : Type} (e : ε β), okInner seen e → ok (before ++ seen.map (Asked.within wrap)) (wrap e))
    (ends : ∀ seen a, postInner seen a → (next a).Guarded ok post (before ++ seen.map (Asked.within wrap)))
    {p : Program ε α} {seen : List (Asked ε)} (guarded : p.Guarded okInner postInner seen) :
    (p.within wrap next).Guarded ok post (before ++ seen.map (Asked.within wrap)) := by
  induction p generalizing seen with
  | done a => exact ends seen a guarded
  | ask e rest ih =>
    refine ⟨asks seen e guarded.1,fun answer => ?_⟩
    have later := ih answer (guarded.2 answer)
    rw [List.map_append,← List.append_assoc] at later
    exact later

end

end SqliteRemote.Programs
