import SqliteRemote.Serializing

/-! A part of the state that goes with a row, and calls that change it only under the lock of the row. A
write leaves the part alone or does to it what depends on nothing else. A call that reads from a
snapshot returns what it would return in one of the states between its invocation and its return. -/
namespace SqliteRemote.LockedRows
open Programs RowLocking Serializing

section
variable {Q : Type → Type} {σ W L F ρ γ : Type} {E : Engine Q σ W L}

/- A part of the state that goes with a row. What a write does to it depends on nothing else. -/
structure Portion (E : Engine Q σ W L) (γ : Type) where
  of : σ → γ
  row : L
  alone : ∀ (w : W) {s t : σ}, of s = of t → of (E.apply w s) = of (E.apply w t)

def owning : Mode → Bool
  | .exclusive => true
  | .remove => true
  | _ => false

theorem owningConflicts {a b : Mode} (first : owning a = true) (second : owning b = true) : a.conflicts b = true := by
  cases a <;> cases b <;> first | rfl | contradiction

variable (P : Portion E γ)

def Spares (writes : List W) : Prop := ∀ w ∈ writes, ∀ s, P.of (E.apply w s) = P.of s

def Owned (locks : List (L × Mode)) : Prop := ∃ mode, owning mode = true ∧ (P.row,mode) ∈ locks

variable {P}

theorem aloneAll {writes : List W} {s t : σ} (same : P.of s = P.of t) :
    P.of (E.applyAll writes s) = P.of (E.applyAll writes t) := by
  induction writes generalizing s t with
  | nil => exact same
  | cons w rest ih => exact ih (P.alone w same)

theorem sparesAll {writes : List W} (spares : Spares P writes) (s : σ) : P.of (E.applyAll writes s) = P.of s :=
  applyAllKeeps E P.of spares s

theorem sparesNone : Spares P ([] : List W) := fun _ member => absurd member List.not_mem_nil

theorem sparesAppend {first second : List W} (left : Spares P first) (right : Spares P second) :
    Spares P (first ++ second) := by
  intro w member
  rcases List.mem_append.mp member with old | new
  · exact left w old
  · exact right w new

theorem ownedMore {locks more : List (L × Mode)} (within : ∀ lock ∈ locks, lock ∈ more) (owned : Owned P locks) :
    Owned P more := by
  obtain ⟨mode,owns,member⟩ := owned
  exact ⟨mode,owns,within _ member⟩

theorem extendApplied {δ : Type} {tx : Tx σ W L} {q : Q δ} {s : σ} :
    E.applyAll (tx.extend E false s q).writes s = E.after q (tx.seen E false s) := applyAllAppend E _ _ s

def Quiet {α : Type} (P : Portion E γ) : Program Q α → Prop
  | .done _ => True
  | .ask q next => ∀ s, Spares P (E.writes q s) ∧ Quiet P (next (E.answer q s))

def Alone {α : Type} (P : Portion E γ) : Program Q α → Prop
  | .done _ => True
  | .ask q next => (∀ s t, P.of s = P.of t → E.answer q s = E.answer q t ∧ P.of (E.after q s) = P.of (E.after q t)) ∧
      ∀ a, Alone P (next a)

section
variable (E)

def Since (scripts : Nat → Script Q F ρ) (start : σ) (events : List (Event ρ)) (i : Nat) (s : σ) : Prop :=
  ∃ earlier later w, events = earlier ++ later ∧ Event.invoked i ∈ earlier ∧ Run E scripts start earlier w ∧ w.committed = s

/- Where a call stands that reads from one snapshot: before its first statement, or with a rest that
returns what the whole body returns from its snapshot. -/
inductive Reads {β : Type} (since : σ → Prop) (body : Program Q (Except F β)) (finish : Except F β → ρ) :
    Residual Q σ W L F ρ → Prop where
  | outside : Reads since body finish (.outside (.ask (.tx true body) fun r => .done (finish r)))
  | begun {tx : Tx σ W L} (unread : tx.view = none) :
      Reads since body finish (.inside true tx body fun r => .done (finish r))
  | reading {tx : Tx σ W L} {rest : Program Q (Except F β)} {view : σ} (seen : since view) (viewed : tx.view = some view)
      (reads : ReadOnly E rest) (same : (execBody E rest view).1 = (execBody E body view).1) :
      Reads since body finish (.inside true tx rest fun r => .done (finish r))
  | ended {view : σ} (seen : since view) : Reads since body finish (.outside (.done (finish (execBody E body view).1)))
  | finished {view : σ} (seen : since view) : Reads since body finish (.finished (finish (execBody E body view).1))

end

section
variable {scripts : Nat → Script Q F ρ} {start : σ} {events : List (Event ρ)} {w : World Q σ W L F ρ} {i : Nat}
  {β : Type} {body : Program Q (Except F β)} {finish : Except F β → ρ}

theorem sinceMore {s : σ} (since : Since E scripts start events i s) (e : Event ρ) :
    Since E scripts start (events ++ [e]) i s := by
  obtain ⟨earlier,later,w,rfl,invoked,run,is⟩ := since
  exact ⟨earlier,later ++ [e],w,List.append_assoc _ _ _,invoked,run,is⟩

theorem sinceNow (run : Run E scripts start events w) {call : Residual Q σ W L F ρ} (at_ : w.calls i = some call) :
    Since E scripts start events i w.committed :=
  ⟨events,[],w,(List.append_nil events).symm,runInvoked run at_,run,rfl⟩

theorem readsMore {since more : σ → Prop} (within : ∀ s, since s → more s) {call : Residual Q σ W L F ρ}
    (reads : Reads E since body finish call) : Reads E more body finish call := by
  cases reads with
  | outside => exact .outside
  | begun unread => exact .begun unread
  | reading seen viewed reads same => exact .reading (within _ seen) viewed reads same
  | ended seen => exact .ended (within _ seen)
  | finished seen => exact .finished (within _ seen)

theorem readsBegin {since : σ → Prop} {p : Script Q F ρ} {call : Residual Q σ W L F ρ}
    (reads : Reads E since body finish (.outside p)) (begins : entered p = some call) : Reads E since body finish call := by
  cases reads with
  | outside =>
    cases begins
    exact .begun rfl
  | ended seen => contradiction

theorem readsQuery {δ α : Type} {since : σ → Prop} {snapshot : Bool} {tx : Tx σ W L} {q : Q δ}
    {rest : δ → Program Q (Except F α)} {next : Except F α → Script Q F ρ} {s : σ} (now : since s) (only : ReadOnly E body)
    (reads : Reads E since body finish (.inside snapshot tx (.ask q rest) next)) :
    Reads E since body finish
      (.inside snapshot (tx.extend E snapshot s q) (rest (E.answer q (tx.seen E snapshot s))) next) := by
  cases reads with
  | begun unread =>
    have seen : tx.seen E true s = s := by
      rw [Tx.seen,unread]
      rfl
    obtain ⟨silent,reads⟩ := only s
    rw [seen]
    refine .reading now (congrArg Option.some seen) reads ?_
    rw [execBody,afterUnwritten silent]
  | @reading _ _ view before viewed reads same =>
    have seen : tx.seen E true s = view := by
      rw [Tx.seen,viewed]
      rfl
    obtain ⟨silent,reads⟩ := reads view
    rw [seen]
    refine .reading before (congrArg Option.some seen) reads ?_
    rw [execBody,afterUnwritten silent] at same
    exact same

theorem readsEnd {α : Type} {since : σ → Prop} {snapshot : Bool} {tx : Tx σ W L} {r : Except F α}
    {next : Except F α → Script Q F ρ} {s : σ} (now : since s)
    (reads : Reads E since body finish (.inside snapshot tx (.done r) next)) :
    Reads E since body finish (.outside (next r)) := by
  cases reads with
  | begun unread =>
    have ended : Reads E since (.done r) finish (.outside (.done (finish (execBody E (.done r) s).1))) := .ended now
    exact ended
  | @reading _ _ view before viewed reads same =>
    have ended : Reads E since body finish (.outside (.done (finish (execBody E body view).1))) := .ended before
    rw [← same] at ended
    exact ended

theorem readsRun (is : scripts i = .ask (.tx true body) fun r => .done (finish r)) (only : ReadOnly E body)
    (run : Run E scripts start events w) {call : Residual Q σ W L F ρ} (at_ : w.calls i = some call) :
    Reads E (Since E scripts start events i) body finish call := by
  induction run generalizing call with
  | start => contradiction
  | @next events w after e earlier step ih =>
    have before {old : Residual Q σ W L F ρ} (there : w.calls i = some old) :
        Reads E (Since E scripts start (events ++ [e]) i) body finish old :=
      readsMore (fun _ since => sinceMore since e) (ih there)
    have now {old : Residual Q σ W L F ρ} (there : w.calls i = some old) :
        Since E scripts start (events ++ [e]) i w.committed := sinceMore (sinceNow earlier there) e
    cases step with
    | invoke j fresh =>
      rcases putCalls at_ with ⟨rfl,rfl⟩ | ⟨_,old⟩
      · rw [is]
        exact .outside
      · exact before old
    | auto j there free =>
      rcases putCalls at_ with ⟨rfl,rfl⟩ | ⟨_,old⟩
      · cases ih there
      · exact before old
    | begin j there =>
      rcases putCalls at_ with ⟨rfl,rfl⟩ | ⟨_,old⟩
      · exact readsBegin (before there) rfl
      · exact before old
    | query j there free =>
      rcases putCalls at_ with ⟨rfl,rfl⟩ | ⟨_,old⟩
      · exact readsQuery (now there) only (before there)
      · exact before old
    | commit j there =>
      rcases putCalls at_ with ⟨rfl,rfl⟩ | ⟨_,old⟩
      · exact readsEnd (now there) (before there)
      · exact before old
    | rollback j there =>
      rcases putCalls at_ with ⟨rfl,rfl⟩ | ⟨_,old⟩
      · exact readsEnd (now there) (before there)
      · exact before old
    | finish j there =>
      rcases putCalls at_ with ⟨rfl,rfl⟩ | ⟨_,old⟩
      · cases before there with
        | ended seen => exact .finished seen
      · exact before old

theorem readFrom (is : scripts i = .ask (.tx true body) fun r => .done (finish r)) (only : ReadOnly E body)
    (run : Run E scripts start events w) {r : ρ} (returned : Event.returned i r ∈ events) :
    ∃ earlier later view, events = earlier ++ later ∧ Event.invoked i ∈ earlier ∧ Event.returned i r ∈ later ∧
      Run E scripts start earlier view ∧ r = finish (execBody E body view.committed).1 := by
  induction run with
  | start => exact absurd returned List.not_mem_nil
  | next before step ih =>
    rcases List.mem_append.mp returned with old | new
    · obtain ⟨earlier,later,view,rfl,invoked,there,rest⟩ := ih old
      exact ⟨earlier,_,view,List.append_assoc _ _ _,invoked,List.mem_append_left _ there,rest⟩
    · cases List.mem_singleton.mp new
      cases step with
      | finish _ at_ =>
        cases readsRun is only before at_ with
        | ended seen =>
          obtain ⟨earlier,later,view,rfl,invoked,ran,rfl⟩ := seen
          exact ⟨earlier,_,view,List.append_assoc _ _ _,invoked,List.mem_append_right _ List.mem_cons_self,ran,rfl⟩

end

end
end SqliteRemote.LockedRows
