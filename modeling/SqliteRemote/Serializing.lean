import Mathlib.Data.List.Induction
import SqliteRemote.RowLocking

/-! Calls that all take the same row lock before they write run as if one after another. A call
takes its place in the order when its transaction ends, or at the statement that decides it if
it takes no lock, or at its first statement if it reads from a snapshot. Until then the rest of
the call does what the whole call would do; afterwards there is nothing left to do but to
return. -/
namespace SqliteRemote.Serializing
open Programs RowLocking

section
variable {Q : Type → Type} {σ W L F ρ : Type} (E : Engine Q σ W L) (lock : L) (Later : σ → σ → Prop)

def Quiet (r : ρ) : σ → Script Q F ρ → Prop
  | _,.done result => result = r
  | now,.ask (.auto q) next => ∀ u, Later now u → E.writes q u = [] ∧ Quiet r u (next (E.answer q u))
  | _,.ask (.tx _ _) _ => False

/- A transaction body before it holds the lock. Each statement takes the lock, or decides the
outcome, or leaves a rest that does what the whole does. -/
def Decides {β : Type} (whole : Program Q (Except F β)) : σ → Program Q (Except F β) → Prop
  | _,.done _ => False
  | now,.ask q next => ∀ u, Later now u →
      (lock,Mode.exclusive) ∈ E.needs q u ∨
      E.writes q u = [] ∧ ((∃ v, next (E.answer q u) = .done v) ∨
        (∀ x, Later u x → execBody E (next (E.answer q u)) x = execBody E whole x) ∧
          Decides whole u (next (E.answer q u)))

def ReadOnly {α : Type} : Program Q α → Prop
  | .done _ => True
  | .ask q next => ∀ u, E.writes q u = [] ∧ ReadOnly (next (E.answer q u))

def Orderly (now : σ) : Script Q F ρ → Prop
  | .done _ => False
  | .ask (.auto q) next => ∀ u, Later now u → (E.writes q u = [] ∨ (lock,Mode.exclusive) ∈ E.needs q u) ∧
      ∃ r, Quiet E Later r (E.after q u) (next (E.answer q u))
  | .ask (.tx false body) next => Decides E lock Later body now body ∧ ∀ v u, ∃ r, Quiet E Later r u (next v)
  | .ask (.tx true body) next => (∀ v, body ≠ .done v) ∧ ReadOnly E body ∧ ∀ v u, ∃ r, Quiet E Later r u (next v)

inductive Pending (script : Script Q F ρ) (now : σ) : Residual Q σ W L F ρ → Prop where
  | outside (orderly : Orderly E lock Later now script) : Pending script now (.outside script)
  | waiting {β : Type} {whole body : Program Q (Except F β)} {next : Except F β → Script Q F ρ} {tx : Tx σ W L}
      (is : script = .ask (.tx false whole) next) (unwritten : tx.writes = [])
      (rest : ∀ u, Later now u → execBody E body u = execBody E whole u) (decides : Decides E lock Later whole now body)
      (quiet : ∀ v u, ∃ r, Quiet E Later r u (next v)) : Pending script now (.inside false tx body next)
  | holding {β : Type} {whole body : Program Q (Except F β)} {next : Except F β → Script Q F ρ} {tx : Tx σ W L}
      (is : script = .ask (.tx false whole) next) (locked : (lock,Mode.exclusive) ∈ tx.locks)
      (rest : execBody E body (E.applyAll tx.writes now) = execBody E whole now)
      (quiet : ∀ v u, ∃ r, Quiet E Later r u (next v)) : Pending script now (.inside false tx body next)
  | snapshot {β : Type} {whole : Program Q (Except F β)} {next : Except F β → Script Q F ρ} {tx : Tx σ W L}
      (is : script = .ask (.tx true whole) next) (unwritten : tx.writes = []) (unread : tx.view = none)
      (asks : ∀ v, whole ≠ .done v) (reads : ReadOnly E whole) (quiet : ∀ v u, ∃ r, Quiet E Later r u (next v)) :
      Pending script now (.inside true tx whole next)

/- A call that has its place, with the result it will return. -/
inductive Settled (now : σ) (r : ρ) : Residual Q σ W L F ρ → Prop where
  | outside {script : Script Q F ρ} (quiet : Quiet E Later r now script) : Settled now r (.outside script)
  | decided {β : Type} {v : Except F β} {next : Except F β → Script Q F ρ} {tx : Tx σ W L} (unwritten : tx.writes = [])
      (quiet : Quiet E Later r now (next v)) : Settled now r (.inside false tx (.done v) next)
  | snapshot {β : Type} {view : σ} {body : Program Q (Except F β)} {next : Except F β → Script Q F ρ} {tx : Tx σ W L}
      (unwritten : tx.writes = []) (viewed : tx.view = some view) (reads : ReadOnly E body)
      (quiet : Quiet E Later r now (next (execBody E body view).1)) : Settled now r (.inside true tx body next)
  | finished : Settled now r (.finished r)

inductive Serial (scripts : Nat → Script Q F ρ) (start : σ) : List (Nat × ρ) → σ → Prop where
  | start : Serial scripts start [] start
  | next {order : List (Nat × ρ)} {s after : σ} {r : ρ} (earlier : Serial scripts start order s) (i : Nat)
      (ran : exec E (scripts i) s = (r,after)) : Serial scripts start (order ++ [(i,r)]) after

end

def Precedes {ρ : Type} (events : List (Event ρ)) (i j : Nat) : Prop :=
  ∃ earlier later, events = earlier ++ later ∧ (∃ r, Event.returned i r ∈ earlier) ∧ Event.invoked j ∈ later

theorem precedesLast {ρ : Type} {events : List (Event ρ)} {e : Event ρ} {i j : Nat}
    (before : Precedes (events ++ [e]) i j) :
    Precedes events i j ∨ e = .invoked j ∧ ∃ r, Event.returned i r ∈ events := by
  obtain ⟨earlier,later,is,⟨r,returned⟩,invoked⟩ := before
  cases later using List.reverseRecOn with
  | nil => exact absurd invoked List.not_mem_nil
  | append_singleton later last _ =>
    rw [← List.append_assoc] at is
    obtain ⟨whole,same⟩ := List.append_inj' is rfl
    obtain rfl : e = last := List.singleton_inj.mp same
    rcases List.mem_append.mp invoked with old | new
    · exact .inl ⟨earlier,later,whole,⟨r,returned⟩,old⟩
    · refine .inr ⟨(List.mem_singleton.mp new).symm,r,?_⟩
      rw [whole]
      exact List.mem_append_left _ returned

section
variable {Q : Type → Type} {σ W L F ρ : Type} {E : Engine Q σ W L} {lock : L} {Later : σ → σ → Prop}
  (refl : ∀ u, Later u u) (trans : ∀ u v x, Later u v → Later v x → Later u x)

theorem afterUnwritten {β : Type} {q : Q β} {u : σ} (unwritten : E.writes q u = []) : E.after q u = u := by
  rw [Engine.after,unwritten]
  rfl

include refl in
theorem quietExec {r : ρ} {now : σ} {script : Script Q F ρ} (quiet : Quiet E Later r now script) :
    exec E script now = (r,now) := by
  induction script generalizing now with
  | done result => exact congrArg (fun result => (result,now)) quiet
  | ask w next ih =>
    cases w with
    | auto q =>
      obtain ⟨unwritten,rest⟩ := quiet now (refl now)
      have ran := ih (E.answer q now) rest
      rw [exec,execWork,afterUnwritten unwritten]
      exact ran
    | tx snapshot body => exact False.elim quiet

include trans in
theorem quietLater {r : ρ} {now u : σ} {script : Script Q F ρ} (quiet : Quiet E Later r now script)
    (later : Later now u) : Quiet E Later r u script := by
  cases script with
  | done result => exact quiet
  | ask w next =>
    cases w with
    | auto q => exact fun x after => quiet x (trans _ _ _ later after)
    | tx snapshot body => exact False.elim quiet

include trans in
theorem decidesLater {β : Type} {whole body : Program Q (Except F β)} {now u : σ}
    (decides : Decides E lock Later whole now body) (later : Later now u) : Decides E lock Later whole u body := by
  cases body with
  | done v => exact decides
  | ask q next => exact fun x after => decides x (trans _ _ _ later after)

include trans in
theorem orderlyLater {now u : σ} {script : Script Q F ρ} (orderly : Orderly E lock Later now script)
    (later : Later now u) : Orderly E lock Later u script := by
  cases script with
  | done r => exact orderly
  | ask w next =>
    cases w with
    | auto q => exact fun x after => orderly x (trans _ _ _ later after)
    | tx snapshot body =>
      cases snapshot with
      | false => exact ⟨decidesLater trans orderly.1 later,orderly.2⟩
      | true => exact orderly

theorem readOnlyExec {α : Type} {body : Program Q α} (reads : ReadOnly E body) (u : σ) :
    (execBody E body u).2 = u := by
  induction body with
  | done a => rfl
  | ask q next ih =>
    obtain ⟨unwritten,rest⟩ := reads u
    rw [execBody,afterUnwritten unwritten]
    exact ih _ rest

include trans in
theorem settledLater {now u : σ} {r : ρ} {residual : Residual Q σ W L F ρ} (settled : Settled E Later now r residual)
    (later : Later now u) : Settled E Later u r residual := by
  cases settled with
  | outside quiet => exact .outside (quietLater trans quiet later)
  | decided unwritten quiet => exact .decided unwritten (quietLater trans quiet later)
  | snapshot unwritten viewed reads quiet => exact .snapshot unwritten viewed reads (quietLater trans quiet later)
  | finished => exact .finished

def Holds (lock : L) (residual : Residual Q σ W L F ρ) : Prop := (lock,Mode.exclusive) ∈ residual.locks

include trans in
theorem pendingLater {script : Script Q F ρ} {now u : σ} {residual : Residual Q σ W L F ρ}
    (pending : Pending E lock Later script now residual) (later : Later now u)
    (frozen : Holds lock residual → u = now) : Pending E lock Later script u residual := by
  cases pending with
  | outside orderly => exact .outside (orderlyLater trans orderly later)
  | waiting is unwritten rest decides quiet =>
    exact .waiting is unwritten (fun x after => rest x (trans _ _ _ later after)) (decidesLater trans decides later) quiet
  | holding is locked rest quiet =>
    cases frozen locked
    exact .holding is locked rest quiet
  | snapshot is unwritten unread asks reads quiet => exact .snapshot is unwritten unread asks reads quiet

/- A run so far with the order of the calls that have their place. -/
structure Linearized (E : Engine Q σ W L) (lock : L) (Later : σ → σ → Prop) (scripts : Nat → Script Q F ρ) (start : σ)
    (events : List (Event ρ)) (w : World Q σ W L F ρ) (order : List (Nat × ρ)) : Prop where
  serial : Serial E scripts start order w.committed
  once : (order.map Prod.fst).Nodup
  called : ∀ i, w.calls i = none → i ∉ order.map Prod.fst
  stage : ∀ i residual, w.calls i = some residual → (∃ r, (i,r) ∈ order ∧ Settled E Later w.committed r residual) ∨
    i ∉ order.map Prod.fst ∧ Pending E lock Later (scripts i) w.committed residual
  returned : ∀ i r, Event.returned i r ∈ events → (i,r) ∈ order
  realTime : ∀ before j r after, order = before ++ (j,r) :: after → ∀ i, Precedes events i j → i ∈ before.map Prod.fst

theorem putNone {w : World Q σ W L F ρ} {i j : Nat} {residual : Residual Q σ W L F ρ}
    (at_ : (w.put i residual).calls j = none) : j ≠ i ∧ w.calls j = none := by
  rw [putAt] at at_
  split at at_ <;> try contradiction
  rename_i differ
  exact ⟨differ,at_⟩

variable {scripts : Nat → Script Q F ρ} {start : σ} {events : List (Event ρ)} {w : World Q σ W L F ρ}
  {order : List (Nat × ρ)}

theorem keepOrder {i : Nat} {e : Event ρ} {residual : Residual Q σ W L F ρ}
    (linear : Linearized E lock Later scripts start events w order)
    (stage : (∃ r, (i,r) ∈ order ∧ Settled E Later w.committed r residual) ∨
      i ∉ order.map Prod.fst ∧ Pending E lock Later (scripts i) w.committed residual)
    (first : ∀ j, e = .invoked j → j ∉ order.map Prod.fst)
    (returned : ∀ j r, e = .returned j r → (j,r) ∈ order) :
    Linearized E lock Later scripts start (events ++ [e]) (w.put i residual) order := by
  refine ⟨linear.serial,linear.once,fun j none => linear.called j (putNone none).2,?_,?_,?_⟩
  · intro j other at_
    rcases putCalls at_ with ⟨is,same⟩ | ⟨_,old⟩
    · subst is same
      exact stage
    · exact linear.stage j other old
  · intro j r member
    rcases List.mem_append.mp member with old | new
    · exact linear.returned j r old
    · exact returned j r (List.mem_singleton.mp new).symm
  · intro before j r after split a precedes
    rcases precedesLast precedes with old | ⟨new,_⟩
    · exact linear.realTime before j r after split a old
    · refine absurd ?_ (first j new)
      rw [split]
      simp

theorem keepMoved {i : Nat} {residual : Residual Q σ W L F ρ}
    (linear : Linearized E lock Later scripts start events w order)
    (stage : (∃ r, (i,r) ∈ order ∧ Settled E Later w.committed r residual) ∨
      i ∉ order.map Prod.fst ∧ Pending E lock Later (scripts i) w.committed residual) :
    ∃ order, Linearized E lock Later scripts start (events ++ [.moved i]) (w.put i residual) order :=
  ⟨order,keepOrder linear stage (fun _ same => nomatch same) (fun _ _ same => nomatch same)⟩

include trans in
theorem extendOrder {i : Nat} {c : σ} {r : ρ} {residual : Residual Q σ W L F ρ}
    (grows : ∀ i u, Later u (exec E (scripts i) u).2)
    (linear : Linearized E lock Later scripts start events w order) (fresh : i ∉ order.map Prod.fst)
    (ran : exec E (scripts i) w.committed = (r,c)) (settled : Settled E Later c r residual)
    (frozen : ∀ j other, j ≠ i → w.calls j = some other → Holds lock other → c = w.committed) :
    ∃ order, Linearized E lock Later scripts start (events ++ [.moved i]) ({w with committed := c}.put i residual)
      order := by
  have later : Later w.committed c := by
    have grown := grows i w.committed
    rw [ran] at grown
    exact grown
  refine ⟨order ++ [(i,r)],.next linear.serial i ran,?_,?_,?_,?_,?_⟩
  · rw [List.map_append,List.nodup_append]
    refine ⟨linear.once,List.pairwise_singleton _ _,?_⟩
    intro a member b last same
    have is : b = i := List.mem_singleton.mp last
    exact fresh (is ▸ same ▸ member)
  · intro j none member
    rw [List.map_append] at member
    rcases List.mem_append.mp member with old | new
    · exact linear.called j (putNone none).2 old
    · exact (putNone none).1 (List.mem_singleton.mp new)
  · intro j other at_
    rcases putCalls at_ with ⟨is,same⟩ | ⟨differ,old⟩
    · subst is same
      exact .inl ⟨r,List.mem_append_right _ List.mem_cons_self,settled⟩
    · rcases linear.stage j other old with ⟨result,member,done⟩ | ⟨absent,pending⟩
      · exact .inl ⟨result,List.mem_append_left _ member,settledLater trans done later⟩
      · refine .inr ⟨?_,pendingLater trans pending later (frozen j other differ old)⟩
        rw [List.map_append]
        intro member
        rcases List.mem_append.mp member with before | new
        · exact absent before
        · exact differ (List.mem_singleton.mp new)
  · intro j result member
    rcases List.mem_append.mp member with old | new
    · exact List.mem_append_left _ (linear.returned j result old)
    · exact nomatch List.mem_singleton.mp new
  · intro before j result after split a precedes
    rcases precedesLast precedes with old | ⟨new,_⟩
    · cases after using List.reverseRecOn with
      | nil =>
        obtain ⟨same,last⟩ := List.append_inj' split rfl
        obtain ⟨_,_,is,⟨r',member⟩,_⟩ := old
        rw [← same]
        refine List.mem_map.mpr ⟨(a,r'),linear.returned a r' ?_,rfl⟩
        rw [is]
        exact List.mem_append_left _ member
      | append_singleton after last _ =>
        have parts : order ++ [(i,r)] = (before ++ (j,result) :: after) ++ [last] := by rw [split]; simp
        exact linear.realTime before j result after (List.append_inj' parts rfl).1 a old
    · exact nomatch new

theorem freeAlone {i : Nat} {needs : List (L × Mode)} (free : w.free i needs) (needed : (lock,Mode.exclusive) ∈ needs)
    (j : Nat) (other : Residual Q σ W L F ρ) (differ : j ≠ i) (at_ : w.calls j = some other) : ¬Holds lock other := by
  intro holds
  have conflict := free j other differ at_ _ holds _ needed rfl
  contradiction

theorem holdsAlone {i j : Nat} {a b : Residual Q σ W L F ρ} (compatible : w.Compatible) (differ : j ≠ i)
    (at_ : w.calls i = some a) (there : w.calls j = some b) (mine : Holds lock a) : ¬Holds lock b := by
  intro theirs
  have conflict := compatible j i b a differ there at_ _ theirs _ mine rfl
  simp [Mode.conflicts] at conflict

include refl in
theorem execTx {i : Nat} {β : Type} {snapshot : Bool} {whole : Program Q (Except F β)}
    {next : Except F β → Script Q F ρ} {now after : σ} {v : Except F β} {r : ρ}
    (is : scripts i = .ask (.tx snapshot whole) next) (outcome : settle now (execBody E whole now) = (v,after))
    (quiet : Quiet E Later r after (next v)) : exec E (scripts i) now = (r,after) := by
  rw [is,exec,execWork,outcome]
  exact quietExec refl quiet

section
variable (linear : Linearized E lock Later scripts start events w order)
include linear

theorem linearInvoke {i : Nat} (fresh : w.calls i = none) (orderly : Orderly E lock Later w.committed (scripts i)) :
    Linearized E lock Later scripts start (events ++ [.invoked i]) (w.put i (.outside (scripts i))) order := by
  refine keepOrder linear (.inr ⟨linear.called i fresh,.outside orderly⟩)
    ?_ (fun _ _ same => nomatch same)
  intro j same
  cases same
  exact linear.called i fresh

theorem linearFinish {i : Nat} {r : ρ} (at_ : w.calls i = some (.outside (.done r))) :
    Linearized E lock Later scripts start (events ++ [.returned i r]) (w.put i (.finished r)) order := by
  have place : (i,r) ∈ order := by
    rcases linear.stage i _ at_ with ⟨result,member,settled⟩ | ⟨_,pending⟩
    · cases settled with
      | outside quiet =>
        cases quiet
        exact member
    · generalize scripts i = script at pending
      cases pending with
      | outside orderly => exact False.elim orderly
  refine keepOrder linear (.inl ⟨r,place,.finished⟩) (fun _ same => nomatch same) ?_
  intro j result same
  cases same
  exact place

theorem linearBegin {i : Nat} {β : Type} {snapshot : Bool} {body : Program Q (Except F β)}
    {next : Except F β → Script Q F ρ} (at_ : w.calls i = some (.outside (.ask (.tx snapshot body) next))) :
    ∃ order, Linearized E lock Later scripts start (events ++ [.moved i])
      (w.put i (.inside snapshot .fresh body next)) order := by
  rcases linear.stage i _ at_ with ⟨r,_,settled⟩ | ⟨absent,pending⟩
  · cases settled with
    | outside quiet => exact False.elim quiet
  · refine keepMoved linear (.inr ⟨absent,?_⟩)
    generalize is : scripts i = script at pending
    cases pending with
    | outside orderly =>
      cases snapshot with
      | false => exact .waiting rfl rfl (fun _ _ => rfl) orderly.1 orderly.2
      | true => exact .snapshot rfl rfl rfl orderly.1 orderly.2.1 orderly.2.2

variable (grows : ∀ i u, Later u (exec E (scripts i) u).2)
include refl trans grows

theorem linearAuto {i : Nat} {β : Type} {q : Q β} {next : β → Script Q F ρ}
    (at_ : w.calls i = some (.outside (.ask (.auto q) next))) (free : w.free i (E.needs q w.committed)) :
    ∃ order, Linearized E lock Later scripts start (events ++ [.moved i])
      ({w with committed := E.after q w.committed}.put i (.outside (next (E.answer q w.committed)))) order := by
  rcases linear.stage i _ at_ with ⟨r,member,settled⟩ | ⟨absent,pending⟩
  · cases settled with
    | outside quiet =>
      obtain ⟨unwritten,rest⟩ := quiet w.committed (refl _)
      rw [afterUnwritten unwritten]
      exact keepMoved linear (.inl ⟨r,member,.outside rest⟩)
  · generalize is : scripts i = script at pending
    cases pending with
    | outside orderly =>
      obtain ⟨locked,r,quiet⟩ := orderly w.committed (refl _)
      have ran : exec E (scripts i) w.committed = (r,E.after q w.committed) := by
        rw [is]
        exact quietExec refl quiet
      refine extendOrder trans grows linear absent ran (.outside quiet) ?_
      intro j other differ old holds
      rcases locked with unwritten | needed
      · exact afterUnwritten unwritten
      · exact absurd holds (freeAlone free needed j other differ old)

theorem waitingQuery {i : Nat} {β γ : Type} {tx : Tx σ W L} {q : Q γ} {whole : Program Q (Except F β)}
    {body : γ → Program Q (Except F β)} {next : Except F β → Script Q F ρ}
    (absent : i ∉ order.map Prod.fst) (is : scripts i = .ask (.tx false whole) next) (unwritten : tx.writes = [])
    (rest : ∀ u, Later w.committed u → execBody E (.ask q body) u = execBody E whole u)
    (decides : Decides E lock Later whole w.committed (.ask q body))
    (quiet : ∀ v u, ∃ r, Quiet E Later r u (next v)) :
    ∃ order, Linearized E lock Later scripts start (events ++ [.moved i])
      (w.put i (.inside false (tx.extend E false w.committed q) (body (E.answer q (tx.seen E false w.committed))) next))
      order := by
  have seen : tx.seen E false w.committed = w.committed := by
    rw [Tx.seen,unwritten]
    rfl
  have writes : (tx.extend E false w.committed q).writes = E.writes q w.committed := by
    simp only [Tx.extend,seen,unwritten,List.nil_append]
  have agrees := rest w.committed (refl _)
  rw [execBody] at agrees
  rw [seen]
  rcases decides w.committed (refl _) with needed | ⟨pure_,⟨v,decided⟩ | ⟨same,decides⟩⟩
  · refine keepMoved linear (.inr ⟨absent,.holding is ?_ ?_ quiet⟩)
    · rw [Tx.extend,seen]
      exact List.mem_append_left _ needed
    · rw [writes]
      exact agrees
  · rw [afterUnwritten pure_,decided,execBody] at agrees
    obtain ⟨r,silent⟩ := quiet v w.committed
    have outcome : settle w.committed (execBody E whole w.committed) = (v,w.committed) := by
      rw [← agrees]
      cases v <;> rfl
    rw [decided]
    exact extendOrder trans grows linear absent (execTx refl is outcome silent)
      (.decided (writes.trans pure_) silent) (fun _ _ _ _ _ => rfl)
  · exact keepMoved linear (.inr ⟨absent,.waiting is (writes.trans pure_) same decides quiet⟩)

theorem snapshotQuery {i : Nat} {β γ : Type} {tx : Tx σ W L} {q : Q γ}
    {body : γ → Program Q (Except F β)} {next : Except F β → Script Q F ρ}
    (absent : i ∉ order.map Prod.fst) (is : scripts i = .ask (.tx true (.ask q body)) next)
    (unwritten : tx.writes = []) (unread : tx.view = none) (reads : ReadOnly E (.ask q body))
    (quiet : ∀ v u, ∃ r, Quiet E Later r u (next v)) :
    ∃ order, Linearized E lock Later scripts start (events ++ [.moved i])
      (w.put i (.inside true (tx.extend E true w.committed q) (body (E.answer q (tx.seen E true w.committed))) next))
      order := by
  have seen : tx.seen E true w.committed = w.committed := by
    rw [Tx.seen,unread]
    rfl
  obtain ⟨pure_,rest⟩ := reads w.committed
  have writes : (tx.extend E true w.committed q).writes = [] := by
    simp only [Tx.extend,seen,unwritten,pure_,List.append_nil]
  have view : (tx.extend E true w.committed q).view = some w.committed := by
    simp only [Tx.extend,seen,if_true]
  have unchanged := readOnlyExec rest w.committed
  have first : execBody E (.ask q body) w.committed = execBody E (body (E.answer q w.committed)) w.committed := by
    rw [execBody,afterUnwritten pure_]
  obtain ⟨r,silent⟩ := quiet (execBody E (body (E.answer q w.committed)) w.committed).1 w.committed
  have outcome : settle w.committed (execBody E (.ask q body) w.committed) =
      ((execBody E (body (E.answer q w.committed)) w.committed).1,w.committed) := by
    rw [first]
    generalize execBody E (body (E.answer q w.committed)) w.committed = ended at unchanged
    obtain ⟨v,after⟩ := ended
    cases unchanged
    cases v <;> rfl
  rw [seen]
  exact extendOrder trans grows linear absent (execTx refl is outcome silent) (.snapshot writes view rest silent)
    (fun _ _ _ _ _ => rfl)

theorem linearQuery {i : Nat} {β γ : Type} {snapshot : Bool} {tx : Tx σ W L} {q : Q γ}
    {body : γ → Program Q (Except F β)} {next : Except F β → Script Q F ρ}
    (at_ : w.calls i = some (.inside snapshot tx (.ask q body) next)) :
    ∃ order, Linearized E lock Later scripts start (events ++ [.moved i])
      (w.put i (.inside snapshot (tx.extend E snapshot w.committed q)
        (body (E.answer q (tx.seen E snapshot w.committed))) next)) order := by
  rcases linear.stage i _ at_ with ⟨r,member,settled⟩ | ⟨absent,pending⟩
  · cases settled with
    | @snapshot _ view _ _ _ unwritten viewed reads quiet =>
      obtain ⟨pure_,rest⟩ := reads view
      have seen : tx.seen E true w.committed = view := by
        rw [Tx.seen,viewed]
        rfl
      rw [execBody,afterUnwritten pure_] at quiet
      have writes : (tx.extend E true w.committed q).writes = [] := by
        simp only [Tx.extend,seen,unwritten,pure_,List.append_nil]
      have same : (tx.extend E true w.committed q).view = some view := by
        simp only [Tx.extend,seen,if_true]
      rw [seen]
      exact keepMoved linear (.inl ⟨r,member,.snapshot writes same rest quiet⟩)
  · cases pending with
    | waiting is unwritten rest decides quiet =>
      exact waitingQuery refl trans linear grows absent is unwritten rest decides quiet
    | snapshot is unwritten unread asks reads quiet =>
      exact snapshotQuery refl trans linear grows absent is unwritten unread reads quiet
    | holding is locked rest quiet =>
      refine keepMoved linear (.inr ⟨absent,.holding is (List.mem_append_right _ locked) ?_ quiet⟩)
      rw [← rest,Tx.extend,applyAllAppend]
      rfl

theorem linearCommit (compatible : w.Compatible) {i : Nat} {β : Type} {snapshot : Bool} {tx : Tx σ W L} {b : β}
    {next : Except F β → Script Q F ρ} (at_ : w.calls i = some (.inside snapshot tx (.done (.ok b)) next)) :
    ∃ order, Linearized E lock Later scripts start (events ++ [.moved i])
      ({w with committed := E.applyAll tx.writes w.committed}.put i (.outside (next (.ok b)))) order := by
  rcases linear.stage i _ at_ with ⟨r,member,settled⟩ | ⟨absent,pending⟩
  · have silent : tx.writes = [] ∧ Quiet E Later r w.committed (next (.ok b)) := by
      cases settled with
      | decided unwritten quiet => exact ⟨unwritten,quiet⟩
      | snapshot unwritten _ _ quiet => exact ⟨unwritten,quiet⟩
    rw [silent.1]
    exact keepMoved linear (.inl ⟨r,member,.outside silent.2⟩)
  · cases pending with
    | waiting _ _ _ decides _ => exact False.elim decides
    | snapshot _ _ _ asks _ _ => exact absurd rfl (asks _)
    | @holding _ whole _ _ _ is locked rest quiet =>
      obtain ⟨r,silent⟩ := quiet (.ok b) (E.applyAll tx.writes w.committed)
      have outcome : settle w.committed (execBody E whole w.committed) = (.ok b,E.applyAll tx.writes w.committed) := by
        rw [← rest]
        rfl
      refine extendOrder trans grows linear absent (execTx refl is outcome silent) (.outside silent) ?_
      intro j other differ there holds
      exact absurd holds (holdsAlone compatible differ at_ there locked)

theorem linearRollback {i : Nat} {β : Type} {snapshot : Bool} {tx : Tx σ W L} {e : F}
    {next : Except F β → Script Q F ρ} (at_ : w.calls i = some (.inside snapshot tx (.done (.error e)) next)) :
    ∃ order, Linearized E lock Later scripts start (events ++ [.moved i])
      (w.put i (.outside (next (.error e)))) order := by
  rcases linear.stage i _ at_ with ⟨r,member,settled⟩ | ⟨absent,pending⟩
  · refine keepMoved linear (.inl ⟨r,member,.outside ?_⟩)
    cases settled with
    | decided _ quiet => exact quiet
    | snapshot _ _ _ quiet => exact quiet
  · cases pending with
    | waiting _ _ _ decides _ => exact False.elim decides
    | snapshot _ _ _ asks _ _ => exact absurd rfl (asks _)
    | @holding _ whole _ _ _ is locked rest quiet =>
      obtain ⟨r,silent⟩ := quiet (.error e) w.committed
      have outcome : settle w.committed (execBody E whole w.committed) = (.error e,w.committed) := by
        rw [← rest]
        rfl
      exact extendOrder trans grows linear absent (execTx refl is outcome silent) (.outside silent)
        (fun _ _ _ _ _ => rfl)

theorem linearStep (compatible : w.Compatible) {e : Event ρ} {after : World Q σ W L F ρ}
    (step : Step E scripts w e after)
    (orderly : ∀ i, e = .invoked i → Orderly E lock Later w.committed (scripts i)) :
    ∃ order, Linearized E lock Later scripts start (events ++ [e]) after order := by
  cases step with
  | invoke i fresh => exact ⟨order,linearInvoke linear fresh (orderly i rfl)⟩
  | auto i at_ free => exact linearAuto refl trans linear grows at_ free
  | begin i at_ => exact linearBegin linear at_
  | query i at_ _ => exact linearQuery refl trans linear grows at_
  | commit i at_ => exact linearCommit refl trans linear grows compatible at_
  | rollback i at_ => exact linearRollback refl trans linear grows at_
  | finish i at_ => exact ⟨order,linearFinish linear at_⟩

end

theorem linearStart : Linearized E lock Later scripts start [] ⟨start,fun _ => none⟩ [] where
  serial := .start
  once := .nil
  called := fun _ _ member => nomatch member
  stage := fun _ _ at_ => nomatch at_
  returned := fun _ _ member => nomatch member
  realTime := fun before _ _ _ split => by cases before <;> contradiction

theorem serialKeeps {P : σ → Prop} {s : σ} (serial : Serial E scripts start order s)
    (keeps : ∀ i u, P u → P (exec E (scripts i) u).2) (holds : P start) : P s := by
  induction serial with
  | start => exact holds
  | next earlier i ran ih =>
    have next := keeps i _ ih
    rw [ran] at next
    exact next

theorem serialAfter {P : σ → Prop} {s : σ} {j : Nat} {r : ρ} (serial : Serial E scripts start order s)
    (member : (j,r) ∈ order) (gives : ∀ u, (exec E (scripts j) u).1 = r → P (exec E (scripts j) u).2)
    (keeps : ∀ i u, P u → P (exec E (scripts i) u).2) : P s := by
  induction serial with
  | start => exact absurd member List.not_mem_nil
  | next earlier i ran ih =>
    rcases List.mem_append.mp member with old | new
    · have next := keeps i _ (ih old)
      rw [ran] at next
      exact next
    · cases List.mem_singleton.mp new
      have given := gives _ (congrArg Prod.fst ran)
      rw [ran] at given
      exact given

end
end SqliteRemote.Serializing
