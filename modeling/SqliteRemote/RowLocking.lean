import SqliteRemote.Programs

/-! Transactions of statements over shared rows. A statement is answered from the committed
state and the transaction's own writes, waits for the row locks it needs and keeps them to the
end of its transaction; its writes are shared when the transaction commits. A statement outside
a transaction commits by itself. The sequential meaning of the same scripts is exec. -/
namespace SqliteRemote.RowLocking
open Programs

-- The watcher of a row waits for one who removes it, and holds nothing itself.
inductive Mode where
  | share
  | exclusive
  | remove
  | watch
  deriving DecidableEq, Repr

def Mode.conflicts : (held need : Mode) → Bool
  | .watch,_ => false
  | .remove,.watch => true
  | _,.watch => false
  | .share,.share => false
  | _,_ => true

structure Engine (Q : Type → Type) (σ W L : Type) where
  answer : {β : Type} → Q β → σ → β
  writes : {β : Type} → Q β → σ → List W
  apply : W → σ → σ
  needs : {β : Type} → Q β → σ → List (L × Mode)

-- A transaction ends with a commit if its body ends with a value and with a rollback if it
-- ends with an error. A snapshot transaction reads the state of its first statement throughout.
inductive Work (Q : Type → Type) (F : Type) : Type → Type 1 where
  | auto {β : Type} (q : Q β) : Work Q F β
  | tx {β : Type} (snapshot : Bool) (body : Program Q (Except F β)) : Work Q F (Except F β)

abbrev Script (Q : Type → Type) (F α : Type) := Program (Work Q F) α

section
variable {Q : Type → Type} {σ W L F : Type} (E : Engine Q σ W L)

def Engine.applyAll (writes : List W) (s : σ) : σ := writes.foldl (fun s w => E.apply w s) s

theorem applyAllAppend (first second : List W) (s : σ) :
    E.applyAll (first ++ second) s = E.applyAll second (E.applyAll first s) := List.foldl_append

theorem applyAllKeeps {γ : Type} (f : σ → γ) {writes : List W} (keeps : ∀ w ∈ writes, ∀ s, f (E.apply w s) = f s)
    (s : σ) : f (E.applyAll writes s) = f s := by
  induction writes generalizing s with
  | nil => rfl
  | cons w rest ih =>
    have tail := ih (fun v member => keeps v (List.mem_cons_of_mem _ member)) (E.apply w s)
    exact tail.trans (keeps w List.mem_cons_self s)

def Engine.after {β : Type} (q : Q β) (s : σ) : σ := E.applyAll (E.writes q s) s

def execBody {α : Type} : Program Q α → σ → α × σ
  | .done a,s => (a,s)
  | .ask q next,s => execBody (next (E.answer q s)) (E.after q s)

def settle {β : Type} (before : σ) : Except F β × σ → Except F β × σ
  | (.ok b,after) => (.ok b,after)
  | (.error e,_) => (.error e,before)

def execWork {β : Type} : Work Q F β → σ → β × σ
  | .auto q,s => (E.answer q s,E.after q s)
  | .tx _ body,s => settle s (execBody E body s)

def exec {α : Type} : Script Q F α → σ → α × σ
  | .done a,s => (a,s)
  | .ask w next,s => exec (next (execWork E w s).1) (execWork E w s).2

/- A transaction that only reads, in a state that other transactions change before each of its
statements. The batches are the transactions that commit before the first statement, before
the second, and so on. -/
def readCommitted {τ α : Type} (commit : σ → τ → σ) : Program Q α → List (List τ) → σ → α
  | .done a,_,_ => a
  | .ask q next,batches,s =>
      let seen := (batches.headD []).foldl commit s
      readCommitted commit (next (E.answer q seen)) batches.tail seen

theorem readCommittedAsk {τ α β : Type} (commit : σ → τ → σ) (q : Q β) (next : β → Program Q α) (batch : List τ)
    (rest : List (List τ)) (s : σ) : readCommitted E commit (.ask q next) (batch :: rest) s =
      readCommitted E commit (next (E.answer q (batch.foldl commit s))) rest (batch.foldl commit s) := rfl

structure Tx (σ W L : Type) where
  writes : List W
  locks : List (L × Mode)
  view : Option σ

def Tx.fresh : Tx σ W L := ⟨[],[],none⟩

inductive Residual (Q : Type → Type) (σ W L F ρ : Type) : Type 1 where
  | outside (p : Script Q F ρ)
  | inside {β : Type} (snapshot : Bool) (tx : Tx σ W L) (body : Program Q (Except F β))
      (next : Except F β → Script Q F ρ)
  | finished (r : ρ)

def Residual.locks {ρ : Type} : Residual Q σ W L F ρ → List (L × Mode)
  | .inside _ tx _ _ => tx.locks
  | _ => []

structure World (Q : Type → Type) (σ W L F ρ : Type) where
  committed : σ
  calls : Nat → Option (Residual Q σ W L F ρ)

variable {ρ : Type}

def entered : Script Q F ρ → Option (Residual Q σ W L F ρ)
  | .ask (.tx snapshot body) next => some (.inside snapshot .fresh body next)
  | _ => none

def World.free (w : World Q σ W L F ρ) (i : Nat) (needs : List (L × Mode)) : Prop :=
  ∀ j r, j ≠ i → w.calls j = some r → ∀ held ∈ r.locks, ∀ need ∈ needs,
    held.1 = need.1 → held.2.conflicts need.2 = false

def World.put (w : World Q σ W L F ρ) (i : Nat) (r : Residual Q σ W L F ρ) : World Q σ W L F ρ :=
  {w with calls := Function.update w.calls i (some r)}

theorem putAt (w : World Q σ W L F ρ) (i j : Nat) (residual : Residual Q σ W L F ρ) :
    (w.put i residual).calls j = if j = i then some residual else w.calls j :=
  Function.update_apply w.calls i (some residual) j

theorem putSome {w : World Q σ W L F ρ} {i j : Nat} {residual : Residual Q σ W L F ρ}
    (there : ((w.put i residual).calls j).isSome) : j = i ∨ (w.calls j).isSome := by
  rw [putAt] at there
  split at there
  · exact .inl (by assumption)
  · exact .inr there

/- What a statement of a transaction reads: its snapshot, or the committed rows with its own
writes over them. -/
def Tx.seen (tx : Tx σ W L) (snapshot : Bool) (committed : σ) : σ :=
  if snapshot then tx.view.getD committed else E.applyAll tx.writes committed

def Tx.extend {β : Type} (tx : Tx σ W L) (snapshot : Bool) (committed : σ) (q : Q β) : Tx σ W L :=
  let s := tx.seen E snapshot committed
  ⟨tx.writes ++ E.writes q s,E.needs q s ++ tx.locks,if snapshot then some s else none⟩

inductive Event (ρ : Type) where
  | invoked (i : Nat)
  | moved (i : Nat)
  | returned (i : Nat) (r : ρ)
  deriving DecidableEq

def Event.caller : Event ρ → Nat
  | .invoked i => i
  | .moved i => i
  | .returned i _ => i

inductive Step (scripts : Nat → Script Q F ρ) : World Q σ W L F ρ → Event ρ → World Q σ W L F ρ → Prop where
  | invoke {w : World Q σ W L F ρ} (i : Nat) (fresh : w.calls i = none) :
      Step scripts w (.invoked i) (w.put i (.outside (scripts i)))
  | auto {w : World Q σ W L F ρ} (i : Nat) {β : Type} {q : Q β} {next : β → Script Q F ρ}
      (at_ : w.calls i = some (.outside (.ask (.auto q) next)))
      (free : w.free i (E.needs q w.committed)) :
      Step scripts w (.moved i)
        ({w with committed := E.after q w.committed}.put i (.outside (next (E.answer q w.committed))))
  | begin {w : World Q σ W L F ρ} (i : Nat) {β : Type} {snapshot : Bool} {body : Program Q (Except F β)}
      {next : Except F β → Script Q F ρ} (at_ : w.calls i = some (.outside (.ask (.tx snapshot body) next))) :
      Step scripts w (.moved i) (w.put i (.inside snapshot .fresh body next))
  | query {w : World Q σ W L F ρ} (i : Nat) {β γ : Type} {snapshot : Bool} {tx : Tx σ W L} {q : Q γ}
      {body : γ → Program Q (Except F β)} {next : Except F β → Script Q F ρ}
      (at_ : w.calls i = some (.inside snapshot tx (.ask q body) next))
      (free : w.free i (E.needs q (tx.seen E snapshot w.committed))) :
      Step scripts w (.moved i) (w.put i (.inside snapshot (tx.extend E snapshot w.committed q)
        (body (E.answer q (tx.seen E snapshot w.committed))) next))
  | commit {w : World Q σ W L F ρ} (i : Nat) {β : Type} {snapshot : Bool} {tx : Tx σ W L} {b : β}
      {next : Except F β → Script Q F ρ} (at_ : w.calls i = some (.inside snapshot tx (.done (.ok b)) next)) :
      Step scripts w (.moved i)
        ({w with committed := E.applyAll tx.writes w.committed}.put i (.outside (next (.ok b))))
  | rollback {w : World Q σ W L F ρ} (i : Nat) {β : Type} {snapshot : Bool} {tx : Tx σ W L} {e : F}
      {next : Except F β → Script Q F ρ} (at_ : w.calls i = some (.inside snapshot tx (.done (.error e)) next)) :
      Step scripts w (.moved i) (w.put i (.outside (next (.error e))))
  | finish {w : World Q σ W L F ρ} (i : Nat) {r : ρ} (at_ : w.calls i = some (.outside (.done r))) :
      Step scripts w (.returned i r) (w.put i (.finished r))

inductive Run (scripts : Nat → Script Q F ρ) (start : σ) : List (Event ρ) → World Q σ W L F ρ → Prop where
  | start : Run scripts start [] ⟨start,fun _ => none⟩
  | next {events : List (Event ρ)} {w after : World Q σ W L F ρ} {e : Event ρ}
      (earlier : Run scripts start events w) (step : Step E scripts w e after) :
      Run scripts start (events ++ [e]) after

inductive RunWhile (ok : World Q σ W L F ρ → Event ρ → Prop) (scripts : Nat → Script Q F ρ) (start : σ) :
    List (Event ρ) → World Q σ W L F ρ → Prop where
  | start : RunWhile ok scripts start [] ⟨start,fun _ => none⟩
  | next {events : List (Event ρ)} {w after : World Q σ W L F ρ} {e : Event ρ}
      (earlier : RunWhile ok scripts start events w) (met : ok w e) (step : Step E scripts w e after) :
      RunWhile ok scripts start (events ++ [e]) after

def Residual.commits : Residual Q σ W L F ρ → Bool
  | .inside _ _ (.done (.ok _)) _ => true
  | .outside (.ask (.auto _) _) => true
  | _ => false

theorem uncommitted {scripts : Nat → Script Q F ρ} {w after : World Q σ W L F ρ} {e : Event ρ}
    (step : Step E scripts w e after) (waits : ∀ call, w.calls e.caller = some call → call.commits = false) :
    after.committed = w.committed := by
  cases step with
  | auto i at_ free => cases waits _ at_
  | commit i at_ => cases waits _ at_
  | _ => rfl

def Residual.lands : Residual Q σ W L F ρ → σ → σ
  | .inside _ tx (.done (.ok _)) _,s => E.applyAll tx.writes s
  | .outside (.ask (.auto q) _),s => E.after q s
  | _,s => s

theorem landed {scripts : Nat → Script Q F ρ} {w after : World Q σ W L F ρ} {e : Event ρ}
    (step : Step E scripts w e after) (changed : after.committed ≠ w.committed) :
    ∃ call, w.calls e.caller = some call ∧ after.committed = call.lands E w.committed := by
  cases step with
  | auto i at_ free => exact ⟨_,at_,rfl⟩
  | commit i at_ => exact ⟨_,at_,rfl⟩
  | _ => exact absurd rfl changed

theorem RunWhile.run {ok : World Q σ W L F ρ → Event ρ → Prop} {scripts : Nat → Script Q F ρ} {start : σ}
    {events : List (Event ρ)} {w : World Q σ W L F ρ} (whole : RunWhile E ok scripts start events w) :
    Run E scripts start events w := by
  induction whole with
  | start => exact .start
  | next _ _ step ih => exact .next ih step

theorem putCalls {w : World Q σ W L F ρ} {i j : Nat} {residual other : Residual Q σ W L F ρ}
    (at_ : (w.put i residual).calls j = some other) : j = i ∧ other = residual ∨ j ≠ i ∧ w.calls j = some other := by
  rw [putAt] at at_
  split at at_
  · rename_i same
    exact .inl ⟨same,(Option.some.inj at_).symm⟩
  · rename_i differ
    exact .inr ⟨differ,at_⟩

/- Of two locks on one row that two calls hold, the later one did not conflict with the other. -/
def World.Compatible (w : World Q σ W L F ρ) : Prop :=
  ∀ i j a b, i ≠ j → w.calls i = some a → w.calls j = some b → ∀ left ∈ a.locks, ∀ right ∈ b.locks, left.1 = right.1 →
    left.2.conflicts right.2 = false ∨ right.2.conflicts left.2 = false

theorem compatiblePut {w : World Q σ W L F ρ} {c : σ} {i : Nat} {residual : Residual Q σ W L F ρ} (compatible : w.Compatible)
    (own : ∀ held ∈ residual.locks, ∀ j other, j ≠ i → w.calls j = some other → ∀ theirs ∈ other.locks, theirs.1 = held.1 →
      theirs.2.conflicts held.2 = false ∨ held.2.conflicts theirs.2 = false) :
    ({w with committed := c}.put i residual).Compatible := by
  intro j k a b differ left right mine mineHeld theirs theirsHeld same
  rcases putCalls left with ⟨rfl,rfl⟩ | ⟨_,oldLeft⟩
  · rcases putCalls right with ⟨again,_⟩ | ⟨notRight,oldRight⟩
    · exact absurd again.symm differ
    · exact (own mine mineHeld k b notRight oldRight theirs theirsHeld same.symm).symm
  · rcases putCalls right with ⟨rfl,rfl⟩ | ⟨_,oldRight⟩
    · exact own theirs theirsHeld j a differ oldLeft mine mineHeld same
    · exact compatible j k a b differ oldLeft oldRight mine mineHeld theirs theirsHeld same

variable {E}

theorem compatibleStep {scripts : Nat → Script Q F ρ} {w after : World Q σ W L F ρ} {e : Event ρ}
    (step : Step E scripts w e after) (compatible : w.Compatible) : after.Compatible := by
  cases step with
  | query i at_ free =>
    refine compatiblePut compatible ?_
    intro held member j other differ there theirs theirsHeld same
    rcases List.mem_append.mp member with new | old
    · exact .inl (free j other differ there theirs theirsHeld held new same)
    · exact compatible j i other _ differ there at_ theirs theirsHeld held old same
  | _ => exact compatiblePut compatible (fun _ held => absurd held List.not_mem_nil)

theorem compatibleRun {scripts : Nat → Script Q F ρ} {start : σ} {events : List (Event ρ)} {w : World Q σ W L F ρ}
    (run : Run E scripts start events w) : w.Compatible := by
  induction run with
  | start => exact fun _ _ _ _ _ at_ => nomatch at_
  | next _ step ih => exact compatibleStep step ih

theorem runInvoked {scripts : Nat → Script Q F ρ} {start : σ} {events : List (Event ρ)} {w : World Q σ W L F ρ}
    (run : Run E scripts start events w) {i : Nat} {residual : Residual Q σ W L F ρ} (at_ : w.calls i = some residual) :
    Event.invoked i ∈ events := by
  induction run generalizing residual with
  | start => contradiction
  | @next events w after e earlier step ih =>
    cases step with
    | invoke j fresh =>
      rcases putCalls at_ with ⟨rfl,_⟩ | ⟨_,old⟩
      · exact List.mem_append_right _ List.mem_cons_self
      · exact List.mem_append_left _ (ih old)
    | auto j there | begin j there | query j there | commit j there | rollback j there | finish j there =>
      rcases putCalls at_ with ⟨rfl,_⟩ | ⟨_,old⟩
      · exact List.mem_append_left _ (ih there)
      · exact List.mem_append_left _ (ih old)

variable (E)

section
variable [DecidableEq L] (scripts : Nat → Script Q F ρ) (ids : List Nat)

def World.unlocked (w : World Q σ W L F ρ) (i : Nat) (needs : List (L × Mode)) : Bool :=
  ids.all (fun j => j == i || ((w.calls j).map Residual.locks).all (fun locks => locks.all (fun held =>
    needs.all (fun need => held.1 != need.1 || !held.2.conflicts need.2))))

/- The next step of call i, if it need not wait; the calls are the listed ones. -/
def advance (w : World Q σ W L F ρ) (i : Nat) : Option (Event ρ × World Q σ W L F ρ) :=
  match w.calls i with
  | none => some (.invoked i,w.put i (.outside (scripts i)))
  | some (.outside (.done r)) => some (.returned i r,w.put i (.finished r))
  | some (.outside (.ask (.auto q) next)) =>
      if w.unlocked ids i (E.needs q w.committed) then
        some (.moved i,{w with committed := E.after q w.committed}.put i (.outside (next (E.answer q w.committed))))
      else none
  | some (.outside (.ask (.tx snapshot body) next)) => some (.moved i,w.put i (.inside snapshot .fresh body next))
  | some (.inside snapshot tx (.ask q body) next) =>
      if w.unlocked ids i (E.needs q (tx.seen E snapshot w.committed)) then
        some (.moved i,w.put i (.inside snapshot (tx.extend E snapshot w.committed q)
          (body (E.answer q (tx.seen E snapshot w.committed))) next))
      else none
  | some (.inside _ tx (.done (.ok b)) next) =>
      some (.moved i,{w with committed := E.applyAll tx.writes w.committed}.put i (.outside (next (.ok b))))
  | some (.inside _ _ (.done (.error e)) next) => some (.moved i,w.put i (.outside (next (.error e))))
  | some (.finished _) => none

def schedule : List Nat → World Q σ W L F ρ → Option (List (Event ρ) × World Q σ W L F ρ)
  | [],w => some ([],w)
  | i :: rest,w => (advance E scripts ids w i).bind fun (e,after) =>
      (schedule rest after).map fun (events,final) => (e :: events,final)

def scheduleWhile (check : World Q σ W L F ρ → Nat → Bool) :
    List Nat → World Q σ W L F ρ → Option (List (Event ρ) × World Q σ W L F ρ)
  | [],w => some ([],w)
  | i :: rest,w =>
      if check w i then (advance E scripts ids w i).bind fun (e,after) =>
        (scheduleWhile check rest after).map fun (events,final) => (e :: events,final)
      else none

variable {E scripts ids}

theorem unlockedFree {w : World Q σ W L F ρ} {i : Nat} {needs : List (L × Mode)}
    (listed : ∀ j, (w.calls j).isSome → j ∈ ids) (unlocked : w.unlocked ids i needs = true) : w.free i needs := by
  intro j r differ at_ held member need needed same
  have clear := List.all_eq_true.mp unlocked j (listed j (by rw [at_]; rfl))
  simp only [at_,Option.map_some,Option.all_some,Bool.or_eq_true,beq_iff_eq,differ,false_or] at clear
  have other := List.all_eq_true.mp (List.all_eq_true.mp clear held member) need needed
  simpa [same] using other

theorem advanceStep {w after : World Q σ W L F ρ} {i : Nat} {e : Event ρ}
    (listed : ∀ j, (w.calls j).isSome → j ∈ ids) (moved : advance E scripts ids w i = some (e,after)) :
    Step E scripts w e after := by
  unfold advance at moved
  split at moved
  · cases moved
    exact .invoke i (by assumption)
  · cases moved
    exact .finish i (by assumption)
  · split at moved <;> try contradiction
    cases moved
    exact .auto i (by assumption) (unlockedFree listed (by assumption))
  · cases moved
    exact .begin i (by assumption)
  · split at moved <;> try contradiction
    cases moved
    exact .query i (by assumption) (unlockedFree listed (by assumption))
  · cases moved
    exact .commit i (by assumption)
  · cases moved
    exact .rollback i (by assumption)
  · contradiction

theorem advanceCalls {w after : World Q σ W L F ρ} {i j : Nat} {e : Event ρ}
    (moved : advance E scripts ids w i = some (e,after)) (there : (after.calls j).isSome) :
    j = i ∨ (w.calls j).isSome := by
  unfold advance at moved
  repeat' split at moved
  all_goals try contradiction
  all_goals
    cases moved
    exact putSome there

theorem advanceListed {w after : World Q σ W L F ρ} {i : Nat} {e : Event ρ}
    (moved : advance E scripts ids w i = some (e,after)) (here : i ∈ ids) (listed : ∀ j, (w.calls j).isSome → j ∈ ids) :
    ∀ j, (after.calls j).isSome → j ∈ ids := by
  intro j there
  rcases advanceCalls moved there with same | old
  · exact same ▸ here
  · exact listed j old

theorem advanceCaller {w after : World Q σ W L F ρ} {i : Nat} {e : Event ρ}
    (moved : advance E scripts ids w i = some (e,after)) : e.caller = i := by
  unfold advance at moved
  repeat' split at moved
  all_goals try contradiction
  all_goals
    cases moved
    rfl

theorem scheduleRun {start : σ} {order : List Nat} {w final : World Q σ W L F ρ} {before events : List (Event ρ)}
    (within : ∀ i ∈ order, i ∈ ids) (listed : ∀ j, (w.calls j).isSome → j ∈ ids)
    (ran : schedule E scripts ids order w = some (events,final)) (earlier : Run E scripts start before w) :
    Run E scripts start (before ++ events) final ∧ ∀ j, (final.calls j).isSome → j ∈ ids := by
  induction order generalizing w before events with
  | nil =>
    cases ran
    rw [List.append_nil]
    exact ⟨earlier,listed⟩
  | cons i rest ih =>
    rw [schedule] at ran
    obtain ⟨⟨e,after⟩,moved,ran⟩ := Option.bind_eq_some_iff.mp ran
    obtain ⟨⟨more,last⟩,ran,same⟩ := Option.map_eq_some_iff.mp ran
    cases same
    have next := Run.next earlier (advanceStep listed moved)
    have still := advanceListed moved (within i List.mem_cons_self) listed
    have whole := ih (fun j member => within j (List.mem_cons_of_mem _ member)) still ran next
    rwa [List.append_assoc] at whole

theorem scheduled {start : σ} {order : List Nat} {events : List (Event ρ)} (within : ∀ i ∈ order, i ∈ ids)
    (ran : (schedule E scripts ids order ⟨start,fun _ => none⟩).map Prod.fst = some events) :
    ∃ w, schedule E scripts ids order ⟨start,fun _ => none⟩ = some (events,w) ∧ Run E scripts start events w := by
  obtain ⟨⟨recorded,w⟩,did,same⟩ := Option.map_eq_some_iff.mp ran
  cases same
  exact ⟨w,did,(scheduleRun within (fun _ there => Bool.noConfusion there) did .start).1⟩

theorem scheduledShown {γ : Type} {start : σ} {order : List Nat} (shown : List (Event ρ) → World Q σ W L F ρ → γ) {x : γ}
    (within : ∀ i ∈ order, i ∈ ids)
    (ran : (schedule E scripts ids order ⟨start,fun _ => none⟩).map (fun out => shown out.1 out.2) = some x) :
    ∃ events w, Run E scripts start events w ∧ shown events w = x := by
  obtain ⟨⟨events,w⟩,did,same⟩ := Option.map_eq_some_iff.mp ran
  exact ⟨events,w,(scheduleRun within (fun _ there => Bool.noConfusion there) did .start).1,same⟩

theorem scheduleWhileRun {ok : World Q σ W L F ρ → Event ρ → Prop} {check : World Q σ W L F ρ → Nat → Bool} {start : σ}
    {order : List Nat} {w final : World Q σ W L F ρ} {before events : List (Event ρ)}
    (met : ∀ w e, check w e.caller = true → ok w e) (within : ∀ i ∈ order, i ∈ ids)
    (listed : ∀ j, (w.calls j).isSome → j ∈ ids) (ran : scheduleWhile E scripts ids check order w = some (events,final))
    (earlier : RunWhile E ok scripts start before w) :
    RunWhile E ok scripts start (before ++ events) final ∧ ∀ j, (final.calls j).isSome → j ∈ ids := by
  induction order generalizing w before events with
  | nil =>
    cases ran
    rw [List.append_nil]
    exact ⟨earlier,listed⟩
  | cons i rest ih =>
    rw [scheduleWhile] at ran
    split at ran <;> try contradiction
    rename_i passed
    obtain ⟨⟨e,after⟩,moved,ran⟩ := Option.bind_eq_some_iff.mp ran
    obtain ⟨⟨more,last⟩,ran,same⟩ := Option.map_eq_some_iff.mp ran
    cases same
    have next := RunWhile.next earlier (met w e (by rw [advanceCaller moved]; exact passed)) (advanceStep listed moved)
    have still := advanceListed moved (within i List.mem_cons_self) listed
    have whole := ih (fun j member => within j (List.mem_cons_of_mem _ member)) still ran next
    rwa [List.append_assoc] at whole

theorem scheduledWhile {ok : World Q σ W L F ρ → Event ρ → Prop} {check : World Q σ W L F ρ → Nat → Bool} {start : σ}
    {order : List Nat} {events : List (Event ρ)} (met : ∀ w e, check w e.caller = true → ok w e)
    (within : ∀ i ∈ order, i ∈ ids)
    (ran : (scheduleWhile E scripts ids check order ⟨start,fun _ => none⟩).map Prod.fst = some events) :
    ∃ w, RunWhile E ok scripts start events w := by
  obtain ⟨⟨recorded,w⟩,did,same⟩ := Option.map_eq_some_iff.mp ran
  cases same
  exact ⟨w,(scheduleWhileRun met within (fun _ there => Bool.noConfusion there) did .start).1⟩

theorem scheduledStep {γ : Type} {start : σ} {order : List Nat} {i : Nat} {events : List (Event ρ)}
    (shown : World Q σ W L F ρ → World Q σ W L F ρ → γ) {x : γ} (within : ∀ j ∈ order, j ∈ ids)
    (ran : (schedule E scripts ids order ⟨start,fun _ => none⟩).bind (fun out =>
      (advance E scripts ids out.2 i).map (fun moved => (out.1,shown out.2 moved.2))) = some (events,x)) :
    ∃ w e after, Run E scripts start events w ∧ Step E scripts w e after ∧ shown w after = x := by
  obtain ⟨⟨recorded,w⟩,did,next⟩ := Option.bind_eq_some_iff.mp ran
  obtain ⟨⟨e,after⟩,moved,same⟩ := Option.map_eq_some_iff.mp next
  cases same
  obtain ⟨run,listed⟩ := scheduleRun within (fun _ there => Bool.noConfusion there) did .start
  exact ⟨w,e,after,run,advanceStep listed moved,rfl⟩

theorem scheduledWhileStep {γ : Type} {ok : World Q σ W L F ρ → Event ρ → Prop} {check : World Q σ W L F ρ → Nat → Bool}
    {start : σ} {order : List Nat} {i : Nat} {events : List (Event ρ)} {e : Event ρ}
    (shown : World Q σ W L F ρ → World Q σ W L F ρ → γ) {x : γ} (met : ∀ w e, check w e.caller = true → ok w e)
    (within : ∀ j ∈ order, j ∈ ids) (here : i ∈ ids)
    (ran : (scheduleWhile E scripts ids check order ⟨start,fun _ => none⟩).bind (fun out =>
      (advance E scripts ids out.2 i).map (fun moved => (out.1,moved.1,shown out.2 moved.2))) = some (events,e,x)) :
    ∃ w after, RunWhile E ok scripts start events w ∧ Step E scripts w e after ∧
      (∀ j, (after.calls j).isSome → j ∈ ids) ∧ shown w after = x := by
  obtain ⟨⟨recorded,w⟩,did,next⟩ := Option.bind_eq_some_iff.mp ran
  obtain ⟨⟨e,after⟩,moved,same⟩ := Option.map_eq_some_iff.mp next
  cases same
  obtain ⟨run,listed⟩ := scheduleWhileRun met within (fun _ there => Bool.noConfusion there) did .start
  exact ⟨w,after,run,advanceStep listed moved,advanceListed moved here listed,rfl⟩

end

end

section
variable {Q : Type → Type} {σ W L F ρ : Type} {E : Engine Q σ W L}

def Residual.moved (E : Engine Q σ W L) (s : σ) : Residual Q σ W L F ρ → σ × Residual Q σ W L F ρ
  | .outside (.ask (.auto q) next) => (E.after q s,.outside (next (E.answer q s)))
  | .outside (.ask (.tx snapshot body) next) => (s,.inside snapshot .fresh body next)
  | .inside snapshot tx (.ask q body) next =>
      (s,.inside snapshot (tx.extend E snapshot s q) (body (E.answer q (tx.seen E snapshot s))) next)
  | .inside _ tx (.done (.ok b)) next => (E.applyAll tx.writes s,.outside (next (.ok b)))
  | .inside _ _ (.done (.error f)) next => (s,.outside (next (.error f)))
  | .outside (.done r) => (s,.finished r)
  | .finished r => (s,.finished r)

theorem stepMoved {scripts : Nat → Script Q F ρ} {w after : World Q σ W L F ρ} {e : Event ρ} (step : Step E scripts w e after) :
    (∃ i, e = .invoked i ∧ after = w.put i (.outside (scripts i))) ∨
    ∃ call, w.calls e.caller = some call ∧
      after = {w with committed := (call.moved E w.committed).1}.put e.caller (call.moved E w.committed).2 ∧
      ∀ i, e ≠ .invoked i := by
  cases step with
  | invoke i fresh => exact .inl ⟨i,rfl,rfl⟩
  | auto i at_ | begin i at_ | query i at_ | commit i at_ | rollback i at_ | finish i at_ =>
    exact .inr ⟨_,at_,rfl,by intro j same; cases same⟩

theorem stepUnique {scripts : Nat → Script Q F ρ} {w first second : World Q σ W L F ρ} {e : Event ρ}
    (one : Step E scripts w e first) (other : Step E scripts w e second) : first = second := by
  rcases stepMoved one with ⟨i,rfl,rfl⟩ | ⟨call,at_,rfl,moved⟩
  · rcases stepMoved other with ⟨j,same,rfl⟩ | ⟨_,_,_,moved⟩
    · cases same
      rfl
    · exact absurd rfl (moved i)
  · rcases stepMoved other with ⟨i,same,_⟩ | ⟨call,there,rfl,_⟩
    · exact absurd same (moved i)
    · cases at_.symm.trans there
      rfl

theorem runUnique {scripts : Nat → Script Q F ρ} {start : σ} {events : List (Event ρ)} {first second : World Q σ W L F ρ}
    (one : Run E scripts start events first) (other : Run E scripts start events second) : first = second := by
  induction one generalizing second with
  | start =>
    generalize none_ : ([] : List (Event ρ)) = events at other
    cases other with
    | start => rfl
    | next earlier step => exact absurd none_.symm (List.append_ne_nil_of_right_ne_nil _ (List.cons_ne_nil _ _))
  | @next events w after e earlier step ih =>
    generalize all : events ++ [e] = whole at other
    cases other with
    | start => exact absurd all (List.append_ne_nil_of_right_ne_nil _ (List.cons_ne_nil _ _))
    | next before also =>
      obtain ⟨same,last⟩ := List.append_inj' all rfl
      cases same
      cases last
      cases ih before
      exact stepUnique step also

end
end SqliteRemote.RowLocking
