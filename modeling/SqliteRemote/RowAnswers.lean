import SqliteRemote.LockedRows

/-! What calls return that change a part of the state only under the lock of its row. A call lands
with the step that makes its change, if only its return is left; what it returns then fits the part
as it was before that step and as it is after it. A call may also return without having landed, with
one of its idle results. -/
namespace SqliteRemote.RowAnswers
open Programs RowLocking Serializing LockedRows

/- How a call may move the part, given the result it then returns if nothing else is left of it, and
the results it may return without having moved it. -/
structure Conduct (γ ρ : Type) where
  moves : γ → Option ρ → γ → Prop
  idle : ρ → Prop

section
variable {Q : Type → Type} {σ W L F ρ γ : Type} {E : Engine Q σ W L} (P : Portion E γ)

/- A transaction body that owns the row, with the part as it has left it so far: when it commits with
a value, the part is as wanted for this value. -/
def Yields {β : Type} (wanted : β → γ → Prop) : γ → Program Q (Except F β) → Prop
  | x,.done (.ok b) => wanted b x
  | _,.done (.error _) => True
  | x,.ask q next => ∀ s, P.of s = x → Yields wanted (P.of (E.after q s)) (next (E.answer q s))

def Reaches {β : Type} (idle : β → Prop) (moves : γ → β → γ → Prop) : Program Q (Except F β) → Prop
  | .done (.ok b) => idle b
  | .done (.error _) => True
  | .ask q next => ∀ s, Spares P (E.writes q s) ∧ Reaches idle moves (next (E.answer q s)) ∨
      Owned P (E.needs q s) ∧ Yields P (moves (P.of s)) (P.of (E.after q s)) (next (E.answer q s))

def Lands (c : Conduct γ ρ) (x y : γ) (p : Script Q F ρ) (rest : Prop) : Prop :=
  (∃ r, p = .done r ∧ c.moves x (some r) y) ∨ c.moves x none y ∧ rest

def Answers (c : Conduct γ ρ) : Script Q F ρ → Prop
  | .done r => c.idle r
  | .ask (.auto q) next => ∀ s, Spares P (E.writes q s) ∧ Answers c (next (E.answer q s)) ∨
      Owned P (E.needs q s) ∧
        Lands c (P.of s) (P.of (E.after q s)) (next (E.answer q s)) (Answers c (next (E.answer q s)))
  | .ask (.tx true body) next => ReadOnly E body ∧ ∀ r, Answers c (next r)
  | .ask (.tx false body) next => Reaches P (fun b => Answers c (next (.ok b)))
      (fun x b y => Lands c x y (next (.ok b)) (Answers c (next (.ok b)))) body ∧ ∀ f, Answers c (next (.error f))

/- What holds of a call in a committed state; landed are the results of which it is known that the
call has landed with them. -/
inductive Stands (c : Conduct γ ρ) (landed : ρ → Prop) (s : σ) : Residual Q σ W L F ρ → Prop where
  | outside {p : Script Q F ρ} (answers : Answers P c p) : Stands c landed s (.outside p)
  | landed {r : ρ} (known : landed r) : Stands c landed s (.outside (.done r))
  | reading {β : Type} {tx : Tx σ W L} {body : Program Q (Except F β)} {next : Except F β → Script Q F ρ}
      (unwritten : tx.writes = []) (reads : ReadOnly E body) (rest : ∀ r, Answers P c (next r)) :
      Stands c landed s (.inside true tx body next)
  | apart {β : Type} {tx : Tx σ W L} {body : Program Q (Except F β)} {next : Except F β → Script Q F ρ}
      (spares : Spares P tx.writes) (reaches : Reaches P (fun b => Answers P c (next (.ok b)))
        (fun x b y => Lands c x y (next (.ok b)) (Answers P c (next (.ok b)))) body)
      (fails : ∀ f, Answers P c (next (.error f))) : Stands c landed s (.inside false tx body next)
  | holding {β : Type} {tx : Tx σ W L} {body : Program Q (Except F β)} {next : Except F β → Script Q F ρ}
      (owned : Owned P tx.locks)
      (yields : Yields P (fun b y => Lands c (P.of s) y (next (.ok b)) (Answers P c (next (.ok b))))
        (P.of (E.applyAll tx.writes s)) body)
      (fails : ∀ f, Answers P c (next (.error f))) : Stands c landed s (.inside false tx body next)
  | finished {r : ρ} (known : c.idle r ∨ landed r) : Stands c landed s (.finished r)

variable {P}

section
variable {c : Conduct γ ρ} {landed : ρ → Prop}

theorem standsKept {more : ρ → Prop} (within : ∀ r, landed r → more r) {s t : σ} {call : Residual Q σ W L F ρ}
    (stands : Stands P c landed s call) (still : P.of t = P.of s ∨ ¬Owned P call.locks) : Stands P c more t call := by
  cases stands with
  | outside answers => exact .outside answers
  | landed known => exact .landed (within _ known)
  | reading unwritten reads rest => exact .reading unwritten reads rest
  | apart spares reaches fails => exact .apart spares reaches fails
  | holding owned yields fails =>
    rcases still with same | unowned
    · refine .holding owned ?_ fails
      rw [same,aloneAll same]
      exact yields
    · exact absurd owned unowned
  | finished known => exact .finished (known.imp_right (within _))

theorem standsBegin {β : Type} {snapshot : Bool} {body : Program Q (Except F β)} {next : Except F β → Script Q F ρ}
    {s : σ} (answers : Answers P c (.ask (.tx snapshot body) next)) :
    Stands P c landed s (.inside snapshot .fresh body next) := by
  cases snapshot with
  | true => exact .reading rfl answers.1 answers.2
  | false => exact .apart sparesNone answers.1 answers.2

theorem standsQuery {β δ : Type} {snapshot : Bool} {tx : Tx σ W L} {q : Q δ} {body : δ → Program Q (Except F β)}
    {next : Except F β → Script Q F ρ} {s : σ} (stands : Stands P c landed s (.inside snapshot tx (.ask q body) next)) :
    Stands P c landed s (.inside snapshot (tx.extend E snapshot s q) (body (E.answer q (tx.seen E snapshot s))) next) := by
  cases stands with
  | reading unwritten reads rest =>
    obtain ⟨silent,reads⟩ := reads (tx.seen E true s)
    have still : (tx.extend E true s q).writes = [] := by
      change tx.writes ++ E.writes q (tx.seen E true s) = []
      rw [unwritten,silent]
      rfl
    exact .reading still reads rest
  | apart spares reaches fails =>
    have unmoved : P.of (tx.seen E false s) = P.of s := sparesAll spares s
    rcases reaches (tx.seen E false s) with ⟨more,reaches⟩ | ⟨owned,yields⟩
    · exact .apart (sparesAppend spares more) reaches fails
    · refine .holding (ownedMore (fun _ member => List.mem_append_left _ member) owned) ?_ fails
      rw [extendApplied,← unmoved]
      exact yields
  | holding owned yields fails =>
    refine .holding (ownedMore (fun _ member => List.mem_append_right _ member) owned) ?_ fails
    rw [extendApplied]
    exact yields _ rfl

theorem standsFails {β : Type} {snapshot : Bool} {tx : Tx σ W L} {f : F} {next : Except F β → Script Q F ρ} {s : σ}
    (stands : Stands P c landed s (.inside snapshot tx (.done (.error f)) next)) : Answers P c (next (.error f)) := by
  cases stands with
  | reading _ _ rest => exact rest _
  | apart _ _ fails => exact fails f
  | holding _ _ fails => exact fails f

theorem standsCommit {β : Type} {snapshot : Bool} {tx : Tx σ W L} {b : β} {next : Except F β → Script Q F ρ} {s : σ}
    (stands : Stands P c landed s (.inside snapshot tx (.done (.ok b)) next)) :
    P.of (E.applyAll tx.writes s) = P.of s ∧ Answers P c (next (.ok b)) ∨ Owned P tx.locks ∧
      Lands c (P.of s) (P.of (E.applyAll tx.writes s)) (next (.ok b)) (Answers P c (next (.ok b))) := by
  cases stands with
  | reading unwritten _ rest =>
    rw [unwritten]
    exact .inl ⟨rfl,rest _⟩
  | apart spares reaches _ => exact .inl ⟨sparesAll spares s,reaches⟩
  | holding owned yields _ => exact .inr ⟨owned,yields⟩

theorem standsOutside {p : Script Q F ρ} {s : σ} (stands : Stands P c landed s (.outside p)) :
    Answers P c p ∨ ∃ r, p = .done r ∧ landed r := by
  cases stands with
  | outside answers => exact .inl answers
  | landed known => exact .inr ⟨_,rfl,known⟩

theorem standsAuto {β : Type} {q : Q β} {next : β → Script Q F ρ} {s : σ}
    (stands : Stands P c landed s (.outside (.ask (.auto q) next))) :
    P.of (E.after q s) = P.of s ∧ Answers P c (next (E.answer q s)) ∨ Owned P (E.needs q s) ∧
      Lands c (P.of s) (P.of (E.after q s)) (next (E.answer q s)) (Answers P c (next (E.answer q s))) := by
  rcases standsOutside stands with answers | ⟨r,is,_⟩
  · rcases answers s with ⟨spares,rest⟩ | owning
    · exact .inl ⟨sparesAll spares s,rest⟩
    · exact .inr owning
  · contradiction

theorem standsLanded {x y : γ} {p : Script Q F ρ} {s : σ} (lands : Lands c x y p (Answers P c p))
    (known : ∀ r, c.moves x (some r) y → landed r) : Stands P c landed s (.outside p) := by
  rcases lands with ⟨r,rfl,moved⟩ | ⟨_,rest⟩
  · exact .landed (known r moved)
  · exact .outside rest

end

theorem landsMoves {c : Conduct γ ρ} {x y : γ} {p : Script Q F ρ} {rest : Prop} (lands : Lands c x y p rest) :
    ∃ a, c.moves x a y := by
  rcases lands with ⟨r,_,moved⟩ | ⟨moved,_⟩
  · exact ⟨_,moved⟩
  · exact ⟨_,moved⟩

section
variable (P)

structure Landing (c : Conduct γ ρ) (scripts : Nat → Script Q F ρ) (start : σ) (events : List (Event ρ)) (i : Nat) (r : ρ)
    (earlier later : List (Event ρ)) (before after : World Q σ W L F ρ) : Prop where
  split : events = earlier ++ Event.moved i :: later
  invoked : Event.invoked i ∈ earlier
  run : Run E scripts start earlier before
  step : Step E scripts before (.moved i) after
  moves : c.moves (P.of before.committed) (some r) (P.of after.committed)

def Landed (c : Conduct γ ρ) (scripts : Nat → Script Q F ρ) (start : σ) (events : List (Event ρ)) (i : Nat) (r : ρ) : Prop :=
  ∃ earlier later before after, Landing P c scripts start events i r earlier later before after

end

section
variable {conduct : Nat → Conduct γ ρ} {scripts : Nat → Script Q F ρ} {start : σ} {events : List (Event ρ)}
  {w after : World Q σ W L F ρ} {e : Event ρ}

theorem landingMore {c : Conduct γ ρ} {i : Nat} {r : ρ} {earlier later : List (Event ρ)} {before : World Q σ W L F ρ}
    (landing : Landing P c scripts start events i r earlier later before after) (e : Event ρ) :
    Landing P c scripts start (events ++ [e]) i r earlier (later ++ [e]) before after := by
  refine {landing with split := ?_}
  rw [landing.split,List.append_assoc]
  rfl

theorem landedMore {c : Conduct γ ρ} {i : Nat} {r : ρ} (landed : Landed P c scripts start events i r) (e : Event ρ) :
    Landed P c scripts start (events ++ [e]) i r := by
  obtain ⟨earlier,later,before,after,landing⟩ := landed
  exact ⟨earlier,later ++ [e],before,after,landingMore landing e⟩

theorem landedNow {c : Conduct γ ρ} {i : Nat} {call : Residual Q σ W L F ρ} (run : Run E scripts start events w)
    (at_ : w.calls i = some call) (step : Step E scripts w (.moved i) after) {r : ρ}
    (moves : c.moves (P.of w.committed) (some r) (P.of after.committed)) :
    Landed P c scripts start (events ++ [.moved i]) i r :=
  ⟨events,[],w,after,rfl,runInvoked run at_,run,step,moves⟩

theorem movedAlone {known : Nat → ρ → Prop} (compatible : w.Compatible)
    (stands : ∀ i call, w.calls i = some call → Stands P (conduct i) (known i) w.committed call)
    (step : Step E scripts w e after) :
    P.of after.committed = P.of w.committed ∨
      (∃ a, (conduct e.caller).moves (P.of w.committed) a (P.of after.committed)) ∧
      ∀ j other, j ≠ e.caller → w.calls j = some other → ¬Owned P other.locks := by
  cases step with
  | @auto i _ q next at_ free =>
    rcases standsAuto (stands i _ at_) with ⟨same,_⟩ | ⟨⟨mode,owns,needed⟩,lands⟩
    · exact .inl same
    · refine .inr ⟨landsMoves lands,fun j other differ there owned => ?_⟩
      obtain ⟨held,also,member⟩ := owned
      have clear := free j other differ there _ member _ needed rfl
      exact Bool.noConfusion (clear.symm.trans (owningConflicts also owns))
  | @commit i _ snapshot tx b next at_ =>
    rcases standsCommit (stands i _ at_) with ⟨same,_⟩ | ⟨⟨mode,owns,locked⟩,lands⟩
    · exact .inl same
    · refine .inr ⟨landsMoves lands,fun j other differ there owned => ?_⟩
      obtain ⟨held,also,member⟩ := owned
      rcases compatible j i other _ differ there at_ _ member _ locked rfl with clear | clear
      · exact Bool.noConfusion (clear.symm.trans (owningConflicts also owns))
      · exact Bool.noConfusion (clear.symm.trans (owningConflicts owns also))
  | _ => exact .inl rfl

theorem standsOwn (answers : ∀ i, Answers P (conduct i) (scripts i)) (run : Run E scripts start events w)
    (stands : ∀ i call, w.calls i = some call →
      Stands P (conduct i) (Landed P (conduct i) scripts start events i) w.committed call)
    (step : Step E scripts w e after) :
    ∃ new, after.calls = Function.update w.calls e.caller (some new) ∧ Stands P (conduct e.caller)
      (Landed P (conduct e.caller) scripts start (events ++ [e]) e.caller) after.committed new := by
  have whole := step
  cases step with
  | invoke i fresh => exact ⟨_,rfl,.outside (answers i)⟩
  | @auto i _ q next at_ free =>
    refine ⟨_,rfl,?_⟩
    rcases standsAuto (stands i _ at_) with ⟨_,rest⟩ | ⟨_,lands⟩
    · exact .outside rest
    · exact standsLanded lands (fun r moved => landedNow run at_ whole moved)
  | begin i at_ =>
    refine ⟨_,rfl,?_⟩
    rcases standsOutside (stands i _ at_) with rest | ⟨r,is,_⟩
    · exact standsBegin rest
    · contradiction
  | query i at_ free =>
    exact ⟨_,rfl,standsQuery (standsKept (fun _ known => landedMore known _) (stands i _ at_) (.inl rfl))⟩
  | commit i at_ =>
    refine ⟨_,rfl,?_⟩
    rcases standsCommit (stands i _ at_) with ⟨_,rest⟩ | ⟨_,lands⟩
    · exact .outside rest
    · exact standsLanded lands (fun r moved => landedNow run at_ whole moved)
  | rollback i at_ => exact ⟨_,rfl,.outside (standsFails (stands i _ at_))⟩
  | finish i at_ =>
    refine ⟨_,rfl,.finished ?_⟩
    rcases standsOutside (stands i _ at_) with idle | ⟨r,is,known⟩
    · exact .inl idle
    · cases is
      exact .inr (landedMore known _)

theorem standsStep (answers : ∀ i, Answers P (conduct i) (scripts i)) (run : Run E scripts start events w)
    (stands : ∀ i call, w.calls i = some call →
      Stands P (conduct i) (Landed P (conduct i) scripts start events i) w.committed call)
    (step : Step E scripts w e after) : ∀ i call, after.calls i = some call →
      Stands P (conduct i) (Landed P (conduct i) scripts start (events ++ [e]) i) after.committed call := by
  intro j call there
  obtain ⟨new,calls,own⟩ := standsOwn answers run stands step
  rw [calls,Function.update_apply] at there
  split at there
  · rename_i same
    cases there
    rw [same]
    exact own
  · rename_i differ
    refine standsKept (fun _ known => landedMore known _) (stands j call there) ?_
    rcases movedAlone (compatibleRun run) stands step with same | ⟨_,unowned⟩
    · exact .inl same
    · exact .inr (unowned j call differ there)

theorem standsRun (answers : ∀ i, Answers P (conduct i) (scripts i)) (run : Run E scripts start events w) :
    ∀ i call, w.calls i = some call →
      Stands P (conduct i) (Landed P (conduct i) scripts start events i) w.committed call := by
  induction run with
  | start => exact fun _ _ there => by contradiction
  | next earlier step ih => exact standsStep answers earlier ih step

theorem eachMoves (answers : ∀ i, Answers P (conduct i) (scripts i)) (run : Run E scripts start events w)
    (step : Step E scripts w e after) : P.of after.committed = P.of w.committed ∨
      ∃ a, (conduct e.caller).moves (P.of w.committed) a (P.of after.committed) :=
  (movedAlone (compatibleRun run) (standsRun answers run) step).imp_right And.left

theorem returnedLanded (answers : ∀ i, Answers P (conduct i) (scripts i)) (run : Run E scripts start events w) {i : Nat} {r : ρ}
    (returned : Event.returned i r ∈ events) : (conduct i).idle r ∨ ∃ earlier later before after,
      Landing P (conduct i) scripts start events i r earlier later before after ∧ Event.returned i r ∈ later := by
  induction run with
  | start => exact absurd returned List.not_mem_nil
  | @next events w after e before step ih =>
    rcases List.mem_append.mp returned with old | new
    · refine (ih old).imp_right (fun found => ?_)
      obtain ⟨earlier,later,begun,ended,landing,there⟩ := found
      exact ⟨earlier,later ++ [e],begun,ended,landingMore landing e,List.mem_append_left _ there⟩
    · cases List.mem_singleton.mp new
      cases step with
      | finish _ at_ =>
        rcases standsOutside (standsRun answers before i _ at_) with idle | ⟨s,is,known⟩
        · exact .inl idle
        · cases is
          obtain ⟨earlier,later,begun,ended,landing⟩ := known
          exact .inr ⟨earlier,_,begun,ended,landingMore landing _,List.mem_append_right _ List.mem_cons_self⟩

end

section
variable {β : Type} {wanted : β → γ → Prop} {idle : β → Prop} {moves : γ → β → γ → Prop}

theorem quietReaches {body : Program Q (Except F β)} (quiet : LockedRows.Quiet P body) (any : ∀ b, idle b) :
    Reaches P idle moves body := by
  induction body with
  | done r =>
    cases r with
    | ok b => exact any b
    | error f => trivial
  | ask q next ih => exact fun s => .inl ⟨(quiet s).1,ih _ (quiet s).2⟩

theorem quietYields {body : Program Q (Except F β)} (quiet : LockedRows.Quiet P body) {x : γ} (already : ∀ b, wanted b x) :
    Yields P wanted x body := by
  induction body generalizing x with
  | done r =>
    cases r with
    | ok b => exact already b
    | error f => trivial
  | ask q next ih =>
    intro s is
    refine ih _ (quiet s).2 ?_
    rw [Engine.after,sparesAll (quiet s).1,is]
    exact already

theorem reachesAsk {δ : Type} {q : Q δ} {next : δ → Program Q (Except F β)} (spares : ∀ s, Spares P (E.writes q s))
    (rest : ∀ a, Reaches P idle moves (next a)) : Reaches P idle moves (.ask q next) :=
  fun s => .inl ⟨spares s,rest _⟩

theorem aloneYields {body : Program Q (Except F β)} (alone : Alone P body) {s : σ} {x : γ} (is : P.of s = x)
    (ends : ∀ b after, execBody E body s = (.ok b,after) → wanted b (P.of after)) : Yields P wanted x body := by
  induction body generalizing s x with
  | done r =>
    cases r with
    | ok b => exact is ▸ ends b s rfl
    | error f => trivial
  | ask q next ih =>
    intro t same
    obtain ⟨answers,moved⟩ := alone.1 t s (same.trans is.symm)
    rw [answers]
    exact ih _ (alone.2 _) moved.symm ends

end

end
end SqliteRemote.RowAnswers
