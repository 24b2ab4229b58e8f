import SqliteRemote.Serializing

/-! Calls that count on rows they do not hold. Between the statement that shows it a row and the one
that locks it, a call depends on nobody deleting the row. The rows it has locked stay, where every
deletion locks its row. So if no step deletes a row that another call counts on, every call ends as its
script does when it finds all the rows it looks for. -/
namespace SqliteRemote.ExpectedRows
open Programs RowLocking Serializing

section
variable {Q : Type → Type} {σ W L F ρ : Type}

structure Presence (E : Engine Q σ W L) where
  has : σ → L → Prop
  deletes : W → L → Prop
  keeps : ∀ {w : W} {row : L} {s : σ}, ¬deletes w row → has s row → has (E.apply w s) row
  grows : ∀ {w : W} {row : L} {s t : σ}, (has s row → has t row) → has (E.apply w s) row → has (E.apply w t) row

variable {E : Engine Q σ W L} (P : Presence E)

theorem keepsAll {writes : List W} {row : L} {s : σ} (spared : ∀ w ∈ writes, ¬P.deletes w row) (there : P.has s row) :
    P.has (E.applyAll writes s) row := by
  induction writes generalizing s with
  | nil => exact there
  | cons w rest ih =>
    have first := P.keeps (spared w List.mem_cons_self) there
    exact ih (fun v member => spared v (List.mem_cons_of_mem _ member)) first

theorem growsAll {writes : List W} {row : L} {s t : σ} (more : P.has s row → P.has t row)
    (there : P.has (E.applyAll writes s) row) : P.has (E.applyAll writes t) row := by
  induction writes generalizing s t with
  | nil => exact more there
  | cons w rest ih => exact ih (P.grows more) there

theorem deletedBy {writes : List W} {row : L} {s : σ} (there : P.has s row) (gone : ¬P.has (E.applyAll writes s) row) :
    ∃ w ∈ writes, P.deletes w row := by
  by_contra none_
  refine gone (keepsAll P (fun w member deletes => none_ ⟨w,member,deletes⟩) there)

theorem seenGrows {tx : Tx σ W L} {snapshot : Bool} {row : L} {s t : σ} (more : P.has s row → P.has t row)
    (there : P.has (tx.seen E snapshot s) row) : P.has (tx.seen E snapshot t) row := by
  unfold Tx.seen at there ⊢
  cases snapshot with
  | false => exact growsAll P more there
  | true =>
    cases view : tx.view with
    | none =>
      rw [view] at there
      exact more there
    | some seen =>
      rw [view] at there
      exact there

theorem seenExtend {tx : Tx σ W L} {snapshot : Bool} {β : Type} {q : Q β} {t : σ}
    (reads : snapshot = true → E.writes q (tx.seen E snapshot t) = []) :
    (tx.extend E snapshot t q).seen E snapshot t = E.after q (tx.seen E snapshot t) := by
  cases snapshot with
  | false => exact applyAllAppend E tx.writes _ t
  | true =>
    rw [afterUnwritten (reads rfl)]
    rfl

variable (awaits : {β : Type} → Program Q (Except F β) → L → Prop)

/- A transaction of the script, after others that commit, must find the row in its first statement. -/
def Counts (row : L) : Script Q F ρ → Prop
  | .done _ => False
  | .ask (.auto _) _ => False
  | .ask (.tx _ body) next => awaits body row ∨ ∃ b, Counts row (next (.ok b))

def CountsOn (row : L) : Residual Q σ W L F ρ → Prop
  | .outside p => Counts awaits row p
  | .inside _ _ body next => awaits body row ∨ ∃ b, Counts awaits row (next (.ok b))
  | .finished _ => False

def Undisturbed (w : World Q σ W L F ρ) (e : Event ρ) : Prop :=
  ∀ call row, w.calls e.caller = some call → P.has w.committed row → ¬P.has (call.lands E w.committed) row →
    ∀ j other, j ≠ e.caller → w.calls j = some other → ¬CountsOn awaits row other

/- A transaction body ends well if it finds the rows it has locked and the rows it awaits. It locks
what it deletes, and spares the rows that are needed after it. -/
def Sure {β : Type} (ok : Except F β → Prop) (needed : L → Prop) : (L → Prop) → Program Q (Except F β) → Prop
  | _,.done r => ok r
  | held,.ask q next => ∀ s, (∀ row, held row → P.has s row) → (∀ row, awaits (.ask q next) row → P.has s row) →
      (∀ w ∈ E.writes q s, ∀ row, P.deletes w row → (row,Mode.remove) ∈ E.needs q s ∧ ¬needed row) ∧
      (∀ row, awaits (next (E.answer q s)) row → P.has (E.after q s) row) ∧
      Sure ok needed (fun row => (held row ∨ (row,Mode.exclusive) ∈ E.needs q s) ∧ P.has (E.after q s) row)
        (next (E.answer q s))

def Steadfast (ok : ρ → Prop) : Script Q F ρ → Prop
  | .done r => ok r
  | .ask (.auto q) next => ∀ s,
      (∀ w ∈ E.writes q s, ∀ row, P.deletes w row → P.has s row → (row,Mode.remove) ∈ E.needs q s) ∧
      (∀ row, Counts awaits row (next (E.answer q s)) → P.has (E.after q s) row) ∧ Steadfast ok (next (E.answer q s))
  | .ask (.tx snapshot body) next => (snapshot = true → ReadOnly E body) ∧ ∃ allowed,
      Sure P awaits allowed (fun row => ∃ b, Counts awaits row (next (.ok b))) (fun _ => False) body ∧
      (∀ r, allowed r → Steadfast ok (next r)) ∧ ∀ f row, allowed (.error f) → ¬Counts awaits row (next (.error f))

inductive Holds (ok : ρ → Prop) (t : σ) : Residual Q σ W L F ρ → Prop where
  | outside {p : Script Q F ρ} (steadfast : Steadfast P awaits ok p) (there : ∀ row, Counts awaits row p → P.has t row) :
      Holds ok t (.outside p)
  | inside {β : Type} {snapshot : Bool} {tx : Tx σ W L} {body : Program Q (Except F β)} {next : Except F β → Script Q F ρ}
      {allowed : Except F β → Prop} {held : L → Prop} (reads : snapshot = true → ReadOnly E body)
      (sure : Sure P awaits allowed (fun row => ∃ b, Counts awaits row (next (.ok b))) held body)
      (locked : ∀ row, held row → (row,Mode.exclusive) ∈ tx.locks ∧ P.has (tx.seen E snapshot t) row)
      (awaited : ∀ row, awaits body row → P.has (tx.seen E snapshot t) row)
      (later : ∀ row, (∃ b, Counts awaits row (next (.ok b))) → P.has t row)
      (deleting : ∀ w ∈ tx.writes, ∀ row, P.deletes w row →
        (row,Mode.remove) ∈ tx.locks ∧ ¬∃ b, Counts awaits row (next (.ok b)))
      (rest : ∀ r, allowed r → Steadfast P awaits ok (next r))
      (failed : ∀ f row, allowed (.error f) → ¬Counts awaits row (next (.error f))) :
      Holds ok t (.inside snapshot tx body next)
  | finished {r : ρ} (fine : ok r) : Holds ok t (.finished r)

variable {P awaits} {ok : ρ → Prop} {t : σ}

theorem sureMore {β : Type} {allowed : Except F β → Prop} {needed held more : L → Prop} {body : Program Q (Except F β)}
    (within : ∀ row, held row → more row) (sure : Sure P awaits allowed needed held body) :
    Sure P awaits allowed needed more body := by
  induction body generalizing held more with
  | done r => exact sure
  | ask q next ih =>
    intro s there awaited
    obtain ⟨deleting,seen,rest⟩ := sure s (fun row mine => there row (within row mine)) awaited
    refine ⟨deleting,seen,ih _ (fun row mine => ⟨?_,mine.2⟩) rest⟩
    exact mine.1.imp_left (within row)

theorem holdsKept {u : σ} {call : Residual Q σ W L F ρ} (holds : Holds P awaits ok t call)
    (stay : ∀ row, P.has t row → CountsOn awaits row call ∨ (row,Mode.exclusive) ∈ call.locks → P.has u row) :
    Holds P awaits ok u call := by
  cases holds with
  | outside steadfast there => exact .outside steadfast (fun row counts => stay row (there row counts) (.inl counts))
  | inside reads sure locked awaited later deleting rest failed =>
    refine .inside reads sure (fun row mine => ?_) (fun row waits => ?_) (fun row counts => ?_) deleting rest failed
    · obtain ⟨lock,there⟩ := locked row mine
      exact ⟨lock,seenGrows P (fun before => stay row before (.inr lock)) there⟩
    · exact seenGrows P (fun before => stay row before (.inl (.inl waits))) (awaited row waits)
    · exact stay row (later row counts) (.inl (.inr counts))
  | finished fine => exact .finished fine

section
variable {β : Type} {snapshot : Bool} {tx : Tx σ W L}

theorem holdsBegin {body : Program Q (Except F β)} {next : Except F β → Script Q F ρ}
    (holds : Holds P awaits ok t (.outside (.ask (.tx snapshot body) next))) :
    Holds P awaits ok t (.inside snapshot .fresh body next) := by
  have fresh : (Tx.fresh : Tx σ W L).seen E snapshot t = t := by
    cases snapshot <;> rfl
  cases holds with
  | outside steadfast there =>
    obtain ⟨reads,allowed,sure,rest,failed⟩ := steadfast
    refine .inside reads sure (fun _ mine => False.elim mine) (fun row waits => ?_) (fun row counts => there row (.inr counts))
      (fun _ member => absurd member List.not_mem_nil) rest failed
    rw [fresh]
    exact there row (.inl waits)

theorem holdsQuery {γ : Type} {q : Q γ} {body : γ → Program Q (Except F β)} {next : Except F β → Script Q F ρ}
    (holds : Holds P awaits ok t (.inside snapshot tx (.ask q body) next)) :
    Holds P awaits ok t (.inside snapshot (tx.extend E snapshot t q) (body (E.answer q (tx.seen E snapshot t))) next) := by
  cases holds with
  | inside reads sure locked awaited later deleting rest failed =>
    have seen := seenExtend (fun is => (reads is (tx.seen E snapshot t)).1)
    obtain ⟨deletes,found,sure⟩ := sure _ (fun row mine => (locked row mine).2) awaited
    refine .inside (fun is => (reads is _).2) sure (fun row mine => ?_) (fun row waits => ?_) later
      (fun w member row gone => ?_) rest failed
    · rw [seen]
      refine ⟨List.mem_append.mpr ?_,mine.2⟩
      rcases mine.1 with old | new
      · exact .inr (locked row old).1
      · exact .inl new
    · rw [seen]
      exact found row waits
    · rcases List.mem_append.mp member with old | new
      · exact (deleting w old row gone).imp_left (List.mem_append_right _)
      · exact (deletes w new row gone).imp_left (List.mem_append_left _)

theorem holdsCommit {b : β} {next : Except F β → Script Q F ρ}
    (holds : Holds P awaits ok t (.inside snapshot tx (.done (.ok b)) next)) :
    Holds P awaits ok (E.applyAll tx.writes t) (.outside (next (.ok b))) := by
  cases holds with
  | inside reads sure locked awaited later deleting rest failed =>
    refine .outside (rest _ sure) (fun row counts => ?_)
    exact keepsAll P (fun w member gone => (deleting w member row gone).2 ⟨b,counts⟩) (later row ⟨b,counts⟩)

theorem holdsRollback {f : F} {next : Except F β → Script Q F ρ}
    (holds : Holds P awaits ok t (.inside snapshot tx (.done (.error f)) next)) :
    Holds P awaits ok t (.outside (next (.error f))) := by
  cases holds with
  | inside reads sure locked awaited later deleting rest failed =>
    exact .outside (rest _ sure) (fun row counts => absurd counts (failed f row sure))

end

theorem holdsAuto {β : Type} {q : Q β} {next : β → Script Q F ρ}
    (holds : Holds P awaits ok t (.outside (.ask (.auto q) next))) :
    Holds P awaits ok (E.after q t) (.outside (next (E.answer q t))) := by
  cases holds with
  | outside steadfast there =>
    obtain ⟨_,found,rest⟩ := steadfast t
    exact .outside rest found

theorem holdsFinish {r : ρ} (holds : Holds P awaits ok t (.outside (.done r))) : ok r := by
  cases holds with
  | outside steadfast there => exact steadfast

section
variable {scripts : Nat → Script Q F ρ} {w after : World Q σ W L F ρ} {e : Event ρ}

theorem lockedStays {oks : Nat → ρ → Prop} (compatible : w.Compatible)
    (holds : ∀ i call, w.calls i = some call → Holds P awaits (oks i) w.committed call) (step : Step E scripts w e after)
    {j : Nat} {other : Residual Q σ W L F ρ} (differ : j ≠ e.caller) (there : w.calls j = some other) {row : L}
    (locked : (row,Mode.exclusive) ∈ other.locks) (has : P.has w.committed row) : P.has after.committed row := by
  by_contra gone
  cases step with
  | @auto i _ q next at_ free =>
    obtain ⟨v,written,deletes⟩ := deletedBy P has gone
    cases holds i _ at_ with
    | outside steadfast _ =>
      have needs := (steadfast w.committed).1 v written row deletes has
      have conflict := free j other differ there _ locked _ needs rfl
      contradiction
  | @commit i _ snapshot tx b next at_ =>
    obtain ⟨v,written,deletes⟩ := deletedBy P has gone
    cases holds i _ at_ with
    | inside reads sure held awaited later deleting rest failed =>
      have conflict := compatible j i other _ differ there at_ _ locked _ (deleting v written row deletes).1 rfl
      simp [Mode.conflicts] at conflict
  | _ => exact gone has

theorem holdsOwn {oks : Nat → ρ → Prop} (steadfast : ∀ i, Steadfast P awaits (oks i) (scripts i))
    (uncounted : ∀ i row, ¬Counts awaits row (scripts i))
    (holds : ∀ i call, w.calls i = some call → Holds P awaits (oks i) w.committed call) (step : Step E scripts w e after) :
    ∃ c new, after = {w with committed := c}.put e.caller new ∧ Holds P awaits (oks e.caller) c new := by
  cases step with
  | invoke i fresh => exact ⟨_,_,rfl,.outside (steadfast i) (fun row counts => absurd counts (uncounted i row))⟩
  | auto i at_ free => exact ⟨_,_,rfl,holdsAuto (holds i _ at_)⟩
  | begin i at_ => exact ⟨_,_,rfl,holdsBegin (holds i _ at_)⟩
  | query i at_ free => exact ⟨_,_,rfl,holdsQuery (holds i _ at_)⟩
  | commit i at_ => exact ⟨_,_,rfl,holdsCommit (holds i _ at_)⟩
  | rollback i at_ => exact ⟨_,_,rfl,holdsRollback (holds i _ at_)⟩
  | finish i at_ => exact ⟨_,_,rfl,.finished (holdsFinish (holds i _ at_))⟩

theorem holdsStep {oks : Nat → ρ → Prop} (steadfast : ∀ i, Steadfast P awaits (oks i) (scripts i))
    (uncounted : ∀ i row, ¬Counts awaits row (scripts i)) (compatible : w.Compatible)
    (holds : ∀ i call, w.calls i = some call → Holds P awaits (oks i) w.committed call)
    (undisturbed : Undisturbed P awaits w e) (step : Step E scripts w e after) :
    ∀ i call, after.calls i = some call → Holds P awaits (oks i) after.committed call := by
  have others (j : Nat) (other : Residual Q σ W L F ρ) (differ : j ≠ e.caller) (there : w.calls j = some other) :
      Holds P awaits (oks j) after.committed other := by
    refine holdsKept (holds j other there) (fun row has kept => ?_)
    rcases kept with counts | locked
    · by_contra gone
      obtain ⟨mover,at_,lands⟩ := landed E step (fun same => gone (same ▸ has))
      exact undisturbed mover row at_ has (lands ▸ gone) j other differ there counts
    · exact lockedStays compatible holds step differ there locked has
  obtain ⟨c,new,rfl,own⟩ := holdsOwn steadfast uncounted holds step
  intro j call there
  rcases putCalls there with ⟨rfl,rfl⟩ | ⟨differ,old⟩
  · exact own
  · exact others j call differ old

theorem holdsRun {oks : Nat → ρ → Prop} {start : σ} {events : List (Event ρ)}
    (steadfast : ∀ i, Steadfast P awaits (oks i) (scripts i)) (uncounted : ∀ i row, ¬Counts awaits row (scripts i))
    (run : RunWhile E (Undisturbed P awaits) scripts start events w) :
    (∀ i call, w.calls i = some call → Holds P awaits (oks i) w.committed call) ∧
    ∀ i r, Event.returned i r ∈ events → oks i r := by
  induction run with
  | start => exact ⟨fun _ _ there => by contradiction,fun _ _ member => absurd member List.not_mem_nil⟩
  | next earlier undisturbed step ih =>
    obtain ⟨holds,returned⟩ := ih
    refine ⟨holdsStep steadfast uncounted (compatibleRun (earlier.run E)) holds undisturbed step,fun i r member => ?_⟩
    rcases List.mem_append.mp member with old | new
    · exact returned i r old
    · cases List.mem_singleton.mp new
      cases step with
      | finish _ at_ => exact holdsFinish (holds i _ at_)

end

end
end SqliteRemote.ExpectedRows
