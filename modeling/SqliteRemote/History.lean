import Mathlib.Data.List.Basic

/-! Runs of a state machine whose operations answer. A run is recorded with the state
before and after every operation; what holds over a run is derived from what one
operation keeps. Positions in the record are the order of the operations. -/
namespace SqliteRemote.History
universe u v w

structure Event (σ : Type u) (ω : Type v) (ρ : Type w) where
  before : σ
  op : ω
  reply : ρ
  after : σ

section
variable {σ : Type u} {ω : Type v} {ρ : Type w} (step : σ → ω → ρ × σ)

def run (s : σ) : List ω → σ
  | [] => s
  | op :: ops => run (step s op).2 ops

def history (s : σ) : List ω → List (Event σ ω ρ)
  | [] => []
  | op :: ops => ⟨s,op,(step s op).1,(step s op).2⟩ :: history (step s op).2 ops

theorem runAppend (s : σ) (first rest : List ω) :
    run step s (first ++ rest) = run step (run step s first) rest := by
  induction first generalizing s with
  | nil => rfl
  | cons op ops ih => exact ih _

theorem historyAppend (s : σ) (first rest : List ω) :
    history step s (first ++ rest) = history step s first ++ history step (run step s first) rest := by
  induction first generalizing s with
  | nil => rfl
  | cons op ops ih => simp only [List.cons_append,history,run,ih]

theorem historyLength (s : σ) (ops : List ω) : (history step s ops).length = ops.length := by
  induction ops generalizing s with
  | nil => rfl
  | cons op ops ih => exact congrArg Nat.succ (ih _)

theorem eventStep {s : σ} {ops : List ω} {e : Event σ ω ρ} (member : e ∈ history step s ops) :
    step e.before e.op = (e.reply,e.after) := by
  induction ops generalizing s with
  | nil => simp [history] at member
  | cons op ops ih =>
    rcases List.mem_cons.mp member with rfl | rest
    · rfl
    · exact ih rest

theorem eventAt {s : σ} {ops : List ω} {i : Nat} {e : Event σ ω ρ}
    (found : (history step s ops)[i]? = some e) :
    e.before = run step s (ops.take i) ∧ e.after = run step s (ops.take (i+1)) ∧ ops[i]? = some e.op := by
  induction ops generalizing s i with
  | nil => simp [history] at found
  | cons op ops ih =>
    cases i with
    | zero => cases Option.some.inj found; exact ⟨rfl,rfl,rfl⟩
    | succ i => exact ih found

theorem eventOp {s : σ} {ops : List ω} {e : Event σ ω ρ} (member : e ∈ history step s ops) : e.op ∈ ops := by
  obtain ⟨i,found⟩ := List.mem_iff_getElem?.mp member
  exact List.mem_of_getElem? (eventAt step found).2.2

theorem invariantRun {inv : σ → Prop} (keeps : ∀ s op, inv s → inv (step s op).2)
    {s : σ} (start : inv s) (ops : List ω) : inv (run step s ops) := by
  induction ops generalizing s with
  | nil => exact start
  | cons op ops ih => exact ih (keeps s op start)

theorem invariantEvent {inv : σ → Prop} (keeps : ∀ s op, inv s → inv (step s op).2)
    {s : σ} (start : inv s) {ops : List ω} {e : Event σ ω ρ} (member : e ∈ history step s ops) :
    inv e.before ∧ inv e.after := by
  obtain ⟨i,found⟩ := List.mem_iff_getElem?.mp member
  obtain ⟨before,after,_⟩ := eventAt step found
  exact ⟨before ▸ invariantRun step keeps start _,after ▸ invariantRun step keeps start _⟩

theorem carriedFromStart {P : σ → Prop} {s : σ} {ops : List ω}
    (keeps : ∀ e ∈ history step s ops, P e.before → P e.after) (holds : P s)
    {j : Nat} {b : Event σ ω ρ} (later : (history step s ops)[j]? = some b) : P b.before := by
  induction ops generalizing s j with
  | nil => simp [history] at later
  | cons op ops ih =>
    cases j with
    | zero => cases Option.some.inj later; exact holds
    | succ j =>
      have next : P (step s op).2 := keeps _ List.mem_cons_self holds
      exact ih (fun e member => keeps e (List.mem_cons_of_mem _ member)) next later

/- What holds after one event and is kept by every event of the record holds before each
later event. -/
theorem carried {P : σ → Prop} {s : σ} {ops : List ω}
    (keeps : ∀ e ∈ history step s ops, P e.before → P e.after)
    {i j : Nat} {a b : Event σ ω ρ} (first : (history step s ops)[i]? = some a)
    (later : (history step s ops)[j]? = some b) (order : i < j) (holds : P a.after) : P b.before := by
  induction ops generalizing s i j with
  | nil => simp [history] at first
  | cons op ops ih =>
    have tail : ∀ e ∈ history step (step s op).2 ops, P e.before → P e.after :=
      fun e member => keeps e (List.mem_cons_of_mem _ member)
    cases j with
    | zero => omega
    | succ j =>
      cases i with
      | zero =>
        cases Option.some.inj first
        exact carriedFromStart step tail holds later
      | succ i => exact ih tail first later (by omega)

theorem keptToEnd {P : σ → Prop} {s : σ} {ops : List ω}
    (keeps : ∀ e ∈ history step s ops, P e.before → P e.after) (holds : P s) : P (run step s ops) := by
  induction ops generalizing s with
  | nil => exact holds
  | cons op ops ih =>
    exact ih (fun e member => keeps e (List.mem_cons_of_mem _ member)) (keeps _ List.mem_cons_self holds)

theorem carriedToEnd {P : σ → Prop} {s : σ} {ops : List ω} {i : Nat} {a : Event σ ω ρ}
    (first : (history step s ops)[i]? = some a) (holds : P a.after)
    (keeps : ∀ e ∈ history step s ops, e ∈ (history step s ops).drop (i+1) → P e.before → P e.after) :
    P (run step s ops) := by
  induction ops generalizing s i with
  | nil => simp [history] at first
  | cons op ops ih =>
    cases i with
    | zero =>
      cases Option.some.inj first
      show P (run step (step s op).2 ops)
      exact keptToEnd step (fun e member => keeps e (List.mem_cons_of_mem _ member) member) holds
    | succ i => exact ih first (fun e member => keeps e (List.mem_cons_of_mem _ member))

theorem invariantAt {P : Nat → σ → Prop} {s : σ} {ops : List ω} (start : P 0 s)
    (keeps : ∀ i e, (history step s ops)[i]? = some e → P i e.before → P (i+1) e.after)
    {j : Nat} {b : Event σ ω ρ} (found : (history step s ops)[j]? = some b) : P j b.before := by
  induction ops generalizing s j P with
  | nil => simp [history] at found
  | cons op ops ih =>
    cases j with
    | zero => cases Option.some.inj found; exact start
    | succ j =>
      have next : P 1 (step s op).2 := keeps 0 _ rfl start
      exact ih (P := fun n => P (n+1)) next (fun i e there => keeps (i+1) e there) found

theorem invariantSeen {P : List (Event σ ω ρ) → σ → Prop} {s : σ} {ops : List ω} (start : P [] s)
    (keeps : ∀ seen, ∀ e ∈ history step s ops, P seen e.before → P (seen ++ [e]) e.after) :
    P (history step s ops) (run step s ops) := by
  induction ops generalizing s P with
  | nil => exact start
  | cons op ops ih =>
    have next := keeps [] _ List.mem_cons_self start
    exact ih (P := fun seen => P (_ :: seen)) next
      (fun seen e member => keeps (_ :: seen) e (List.mem_cons_of_mem _ member))

theorem simulatedReplies {τ ρ' : Type} (other : τ → ω → ρ' × τ) (as : ρ → ρ') {R : σ → τ → Prop} {ok : ω → Prop}
    (keeps : ∀ s t op, ok op → R s t → (other t op).1 = as (step s op).1 ∧ R (step s op).2 (other t op).2)
    {s : σ} {t : τ} (related : R s t) {ops : List ω} (each : ∀ op ∈ ops, ok op) :
    (history other t ops).map Event.reply = (history step s ops).map (fun e => as e.reply) ∧
    R (run step s ops) (run other t ops) := by
  induction ops generalizing s t with
  | nil => exact ⟨rfl,related⟩
  | cons op ops ih =>
    obtain ⟨same,next⟩ := keeps s t op (each op List.mem_cons_self) related
    obtain ⟨rest,final⟩ := ih next (fun op member => each op (List.mem_cons_of_mem _ member))
    exact ⟨by simp only [history,List.map_cons,same,rest],final⟩

def staying (ops : List (ω × Bool)) : List ω := (ops.filter Prod.snd).map Prod.fst

def observations (observed : ω → Bool) (events : List (Event σ ω ρ)) : List ρ :=
  (events.filter (fun e => observed e.op)).map Event.reply

omit step in
theorem observationsCons (observed : ω → Bool) (e : Event σ ω ρ) (events : List (Event σ ω ρ)) :
    observations observed (e :: events) =
      if observed e.op then e.reply :: observations observed events else observations observed events := by
  unfold observations
  cases seen : observed e.op <;> simp [seen]

/- Two runs, the second without the operations that do not stay: what the dropped ones may do
and the staying ones need keeps the states related and the observed replies the same. -/
theorem thinned {R : σ → σ → Prop} {ok : ω × Bool → Prop} {observed : ω → Bool}
    (drops : ∀ s t op, ok (op,false) → R s t → observed op = false ∧ R (step s op).2 t)
    (keeps : ∀ s t op, ok (op,true) → R s t →
      (observed op = true → (step s op).1 = (step t op).1) ∧ R (step s op).2 (step t op).2)
    {s t : σ} (related : R s t) {ops : List (ω × Bool)} (each : ∀ x ∈ ops, ok x) :
    observations observed (history step s (ops.map Prod.fst)) = observations observed (history step t (staying ops)) ∧
    R (run step s (ops.map Prod.fst)) (run step t (staying ops)) := by
  induction ops generalizing s t with
  | nil => exact ⟨rfl,related⟩
  | cons x ops ih =>
    have rest : ∀ x ∈ ops, ok x := fun x member => each x (List.mem_cons_of_mem _ member)
    have this := each x List.mem_cons_self
    obtain ⟨op,stays⟩ := x
    cases stays with
    | false =>
      obtain ⟨unseen,next⟩ := drops s t op this related
      obtain ⟨same,final⟩ := ih next rest
      refine ⟨?_,final⟩
      rw [List.map_cons,history,observationsCons,unseen]
      exact same
    | true =>
      obtain ⟨reply,next⟩ := keeps s t op this related
      obtain ⟨same,final⟩ := ih next rest
      refine ⟨?_,final⟩
      show observations observed (history step s (op :: ops.map Prod.fst)) =
        observations observed (history step t (op :: staying ops))
      rw [history,history,observationsCons,observationsCons,same]
      split
      · rename_i seen
        rw [reply seen]
      · rfl

section
variable {f : σ → Nat} {s : σ} {ops : List ω}
  (rises : ∀ e ∈ history step s ops, f e.after = f e.before ∨ f e.after = f e.before+1)
include rises

theorem countedUp {i j : Nat} {a b : Event σ ω ρ} (first : (history step s ops)[i]? = some a)
    (later : (history step s ops)[j]? = some b) (order : i < j) : f a.after ≤ f b.before := by
  refine carried step (P := fun t => f a.after ≤ f t) ?_ first later order (Nat.le_refl _)
  intro e member low
  have := rises e member
  omega

theorem passedAt {v : Nat} (below : f s < v) (reached : v ≤ f (run step s ops)) :
    ∃ (i : Nat) (e : Event σ ω ρ), (history step s ops)[i]? = some e ∧ f e.before < v ∧ f e.after = v := by
  induction ops generalizing s with
  | nil => exact absurd reached (by simpa [run] using below)
  | cons op ops ih =>
    have one := rises _ List.mem_cons_self
    by_cases here : f (step s op).2 < v
    · obtain ⟨i,e,found,passed⟩ := ih (fun e member => rises e (List.mem_cons_of_mem _ member)) here reached
      exact ⟨i+1,e,found,passed⟩
    · refine ⟨0,_,rfl,below,?_⟩
      simp only at one ⊢
      omega

theorem passedOnce {v : Nat} (below : f s < v) (reached : v ≤ f (run step s ops)) :
    ∃! i : Nat, ∃ e : Event σ ω ρ, (history step s ops)[i]? = some e ∧ f e.before < v ∧ f e.after = v := by
  obtain ⟨i,a,first,passed⟩ := passedAt step rises below reached
  refine ⟨i,⟨a,first,passed⟩,?_⟩
  intro j again
  obtain ⟨b,later,passedAgain⟩ := again
  rcases Nat.lt_trichotomy i j with order | same | order
  · have := countedUp step rises first later order
    omega
  · exact same.symm
  · have := countedUp step rises later first order
    omega

end

end
end SqliteRemote.History
