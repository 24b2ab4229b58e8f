import SqliteRemote.ConnectionActs
import SqliteRemote.MemoryFencing
import SqliteRemote.Server

/-! Runs of the server. What one action does is said once for the shared state and once for each
connection; a connection in the middle of a frame has asked what its handler asks. -/
namespace SqliteRemote.Server
open Rows StoreContract Programs Protocol
open MemoryStore (Store record WellformedStore RecordStep)

abbrev Event := History.Event World Action Outcome
abbrev run (opts : Options) := History.run (World.step opts) start
abbrev history (opts : Options) := History.history (World.step opts) start

def askedBy (id : Nat) (out : Outcome) : Option (Asked Effect) :=
  match out.asked with
  | some (connection,x) => if connection = id then some x else none
  | none => none

theorem askedSome (id connection : Nat) (x : Asked Effect) (push : Option Push) :
    askedBy id ⟨some (connection,x),push⟩ = if connection = id then some x else none := rfl

theorem askedByIff (id : Nat) (out : Outcome) (x : Asked Effect) :
    askedBy id out = some x ↔ out.asked = some (id,x) := by
  obtain ⟨asked,push⟩ := out
  cases asked with
  | none => simp [askedBy]
  | some pair =>
    obtain ⟨connection,y⟩ := pair
    rw [askedSome]
    by_cases here : connection = id <;> simp [here]

def own (id : Nat) (events : List Event) : List (Asked Effect) := events.filterMap (fun e => askedBy id e.reply)

theorem ownSnoc (id : Nat) (events : List Event) (e : Event) :
    own id (events ++ [e]) = own id events ++ (askedBy id e.reply).toList := by
  rw [own,List.filterMap_append]
  cases asked : askedBy id e.reply <;> simp [own,asked]

inductive Turns (opts : Options) (action : Action) (id : Nat) :
    Activity → Option (Asked Effect) → Activity → Prop where
  | same (activity : Activity) : Turns opts action id activity none activity
  | loggedIn (subject : String) (instanceID : Bytes) (owner : String) (tokenExpires : Option Time) :
      Turns opts action id .absent none (.waiting (Connection.loggedIn subject instanceID owner tokenExpires))
  | received (c : Connection) (frame : ClientFrame) (sent : ∃ arrived, action = .receive id frame arrived) :
      Turns opts action id (.waiting c) none (.working c frame [] (c.handle opts frame))
  | asked (c : Connection) (frame : ClientFrame) (seen : List (Asked Effect)) {β : Type} (e : Effect β)
      (next : β → Handler) (answer : β) :
      Turns opts action id (.working c frame seen (.ask e next)) (some ⟨e,answer⟩)
        (.working c frame (seen ++ [⟨e,answer⟩]) (next answer))
  | finished (c : Connection) (frame : ClientFrame) (seen : List (Asked Effect)) (after : Connection) :
      Turns opts action id (.working c frame seen (.done after)) none (.waiting after)
  | panicked (c : Connection) (frame : ClientFrame) (seen : List (Asked Effect)) {β : Type} {k : Call β}
      (next : Except Fault β → Handler) (oversized : k.oversized opts = true) :
      Turns opts action id (.working c frame seen (.ask (.call k) next)) none (.leaving (openKeys c))
  | leaves (c : Connection) : Turns opts action id (.waiting c) none (.leaving (openKeys c))
  | removed (key : Key) (keys : List Key) :
      Turns opts action id (.leaving (key :: keys)) (some ⟨.holders (.remove key),()⟩) (.leaving keys)
  | ended : Turns opts action id (.leaving []) none .gone

theorem putSame (w : World) (id : Nat) (activity : Activity) : (w.put id activity).connections id = activity :=
  Function.update_self ..

theorem putOther (w : World) {id other : Nat} (different : other ≠ id) (activity : Activity) :
    (w.put id activity).connections other = w.connections other :=
  Function.update_of_ne different ..

theorem turnsPut {opts : Options} {action : Action} {w : World} {id connection : Nat} {activity : Activity}
    (turn : Turns opts action connection (w.connections connection) none activity) :
    Turns opts action id (w.connections id) none ((w.put connection activity).connections id) := by
  by_cases here : id = connection
  · subst here
    rw [putSame]
    exact turn
  · rw [putOther w here]
    exact .same _

theorem turnsAsked {opts : Options} {action : Action} {w : World} {id connection : Nat} {activity : Activity}
    {x : Asked Effect} {push : Option Push}
    (turn : Turns opts action connection (w.connections connection) (some x) activity) :
    Turns opts action id (w.connections id) (askedBy id ⟨some (connection,x),push⟩)
      ((w.put connection activity).connections id) := by
  by_cases here : id = connection
  · subst here
    rw [putSame,askedSome,if_pos rfl]
    exact turn
  · rw [putOther w here,askedSome,if_neg (Ne.symm here)]
    exact .same _

theorem panicsOversized {opts : Options} {shared : Shared} {β : Type} {k : Call β}
    (panics : shared.panics opts.platform.maxSlice (.call k) = true) : k.oversized opts = true := by
  cases k with
  | fetch key version first count => exact (Bool.and_eq_true _ _ ▸ panics).2
  | _ => contradiction

theorem turns (opts : Options) (w : World) (action : Action) (id : Nat) :
    Turns opts action id (w.connections id) (askedBy id (w.step opts action).1)
      ((w.step opts action).2.connections id) := by
  cases action with
  | logIn connection subject instanceID owner tokenExpires =>
    simp only [World.step]
    cases was : w.connections connection with
    | absent => exact turnsPut (was ▸ .loggedIn subject instanceID owner tokenExpires)
    | _ => exact .same _
  | receive connection frame arrived =>
    simp only [World.step]
    cases was : w.connections connection with
    | waiting c =>
      simp only
      split
      · exact turnsPut (was ▸ .received c frame ⟨arrived,rfl⟩)
      · exact turnsPut (was ▸ .leaves c)
    | _ => exact .same _
  | proceed connection choice =>
    simp only [World.step]
    cases was : w.connections connection with
    | working c frame seen rest =>
      cases rest with
      | ask e next =>
        simp only
        split
        · rename_i panics
          cases e with
          | call k => exact turnsPut (was ▸ .panicked c frame seen next (panicsOversized panics))
          | _ => contradiction
        · exact turnsAsked (was ▸ .asked c frame seen e next _)
      | done after => exact turnsPut (was ▸ .finished c frame seen after)
    | leaving keys =>
      cases keys with
      | nil => exact turnsPut (was ▸ .ended)
      | cons key keys => exact turnsAsked (was ▸ .removed key keys)
    | _ => exact .same _
  | leave connection =>
    simp only [World.step]
    cases was : w.connections connection with
    | waiting c => exact turnsPut (was ▸ .leaves c)
    | _ => exact .same _
  | sweep cutoff limit tie => exact .same _

inductive Shares (opts : Options) (w : World) : Action → Outcome → Shared → Prop where
  | same (action : Action) (out : Outcome) (apart : ∀ x, out.asked = some x → x.2.effect.isLocal = true) :
      Shares opts w action out w.shared
  | called {id : Nat} {c : Connection} {frame : ClientFrame} {seen : List (Asked Effect)} {β : Type} {k : Call β}
      {next : Except Fault β → Handler} (choice : Choice)
      (was : w.connections id = .working c frame seen (.ask (.call k) next)) :
      Shares opts w (.proceed id choice)
        ⟨some (id,⟨.call k,declared (call w.shared.store choice.leaseID k).1⟩),none⟩
        {w.shared with store := (call w.shared.store choice.leaseID k).2}
  | registered {id : Nat} {c : Connection} {frame : ClientFrame} {seen : List (Asked Effect)} {h : HolderCall}
      {next : Unit → Handler} (choice : Choice)
      (was : w.connections id = .working c frame seen (.ask (.holders h) next)) :
      Shares opts w (.proceed id choice) ⟨some (id,⟨.holders h,()⟩),(w.shared.registry id h).2⟩
        (w.shared.registry id h).1
  | removed {id : Nat} {key : Key} {keys : List Key} (choice : Choice)
      (was : w.connections id = .leaving (key :: keys)) :
      Shares opts w (.proceed id choice) ⟨some (id,⟨.holders (.remove key),()⟩),none⟩
        (w.shared.registry id (.remove key)).1
  | swept (cutoff : Time) (limit : Nat) (tie : Key → Nat) :
      Shares opts w (.sweep cutoff limit tie) silent
        {w.shared with store := (w.shared.store.deleteUnused cutoff limit tie).2}

theorem sharesSilent {opts : Options} {w : World} {action : Action} : Shares opts w action silent w.shared :=
  .same _ _ (fun _ asked => by cases asked)

theorem sharesLocal {opts : Options} {w : World} {action : Action} {id : Nat} {β : Type} {e : Effect β} {answer : β}
    (apart : e.isLocal = true) : Shares opts w action ⟨some (id,⟨e,answer⟩),none⟩ w.shared :=
  .same _ _ (fun _ asked => by cases asked; exact apart)

theorem shares (opts : Options) (w : World) (action : Action) :
    Shares opts w action (w.step opts action).1 (w.step opts action).2.shared := by
  cases action with
  | logIn id subject instanceID owner tokenExpires =>
    simp only [World.step]
    cases w.connections id <;> exact sharesSilent
  | receive id frame arrived =>
    simp only [World.step]
    cases w.connections id with
    | waiting c =>
      simp only
      split <;> exact sharesSilent
    | _ => exact sharesSilent
  | proceed id choice =>
    simp only [World.step]
    cases was : w.connections id with
    | working c frame seen rest =>
      cases rest with
      | done after => exact sharesSilent
      | ask e next =>
        simp only
        split
        · exact sharesSilent
        · cases e with
          | clock => exact sharesLocal rfl
          | send answer => exact sharesLocal rfl
          | anyOrder keys => exact sharesLocal rfl
          | call k => exact .called choice was
          | holders h => exact .registered choice was
    | leaving keys =>
      cases keys with
      | nil => exact sharesSilent
      | cons key keys => exact .removed choice was
    | _ => exact sharesSilent
  | leave id =>
    simp only [World.step]
    cases w.connections id <;> exact sharesSilent
  | sweep cutoff limit tie => exact .swept cutoff limit tie

/- What a connection is told by a call that did not fail, the store has answered in this step. -/
theorem toldByStore (opts : Options) {w : World} {action : Action} {id : Nat} {x : Asked Effect} {α : Type} {a : α}
    {tells : {β : Type} → Call β → β → Option α} (asks : (w.step opts action).1.asked = some (id,x))
    (told : returned tells x = some a) :
    ∃ (β : Type) (k : Call β) (c : Connection) (frame : ClientFrame) (seen : List (Asked Effect))
      (next : Except Fault β → Handler) (choice : Choice), action = .proceed id choice ∧
      w.connections id = .working c frame seen (.ask (.call k) next) ∧
      x = ⟨.call k,declared (call w.shared.store choice.leaseID k).1⟩ ∧
      (w.step opts action).2.shared.store = (call w.shared.store choice.leaseID k).2 := by
  have shared := shares opts w action
  generalize (w.step opts action).2.shared = after at shared ⊢
  generalize (w.step opts action).1 = out at shared asks
  cases shared with
  | same action out apart =>
    have alone := apart _ asks
    obtain ⟨effect,answer⟩ := x
    cases effect <;> contradiction
  | called choice was =>
    cases asks
    exact ⟨_,_,_,_,_,_,choice,rfl,was,rfl,rfl⟩
  | registered choice was => cases asks; contradiction
  | removed choice was => cases asks; contradiction
  | swept cutoff limit tie => contradiction

def replyOf {β : Type} : Call β → β → Reply
  | .openDB _,res => .opened res
  | .fetch _ _ _ _,data => .blocks data
  | .commit _,version => .version version
  | .changes _ _,set => .changeSet set
  | .renew _ _ _ _,_ => .done
  | .release _ _,_ => .done
  | .delete _,res => .deleted res
  | .claimSlot _,res => .claimed res
  | .setSlotLabel _ _ _,slot => .labelled slot
  | .deleteSlot _ _,keys => .purged keys

theorem answerMap {α : Type} (reply : α → Reply) (out : Except Error α × Store) :
    MemoryStore.answer reply out = (out.1.map reply,out.2) := by
  obtain ⟨result,after⟩ := out
  cases result <;> rfl

theorem callStep {β : Type} (s : Store) (id : Bytes) (k : Call β) :
    MemoryStore.step s (opOf id k) = ((call s id k).1.map (replyOf k),(call s id k).2) := by
  cases k with
  | claimSlot req => rfl
  | _ => exact answerMap _ _

def Sane (opts : Options) (w : World) : Prop :=
  ∀ id c frame seen rest, w.connections id = .working c frame seen rest → Partly (c.handle opts frame) seen rest

theorem saneStep (opts : Options) (w : World) (action : Action) (sane : Sane opts w) :
    Sane opts (w.step opts action).2 := by
  intro id c frame seen rest busy
  have turn := turns opts w action id
  have before := sane id
  rw [busy] at turn
  generalize w.connections id = activity at turn before
  generalize askedBy id (w.step opts action).1 = x at turn
  cases turn with
  | same => exact before _ _ _ _ rfl
  | received => exact .start
  | asked => exact .more (before _ _ _ _ rfl) _

theorem saneStart (opts : Options) : Sane opts start := by
  intro id c frame seen rest busy
  cases busy

/- The operation of the store that an action performs; one that only reads where it performs none. -/
inductive StoreOp (w : World) : Op → Prop where
  | none : StoreOp w (.getSlot "")
  | called {id : Nat} {c : Connection} {frame : ClientFrame} {seen : List (Asked Effect)} {β : Type} {k : Call β}
      {next : Except Fault β → Handler} (choice : Choice)
      (was : w.connections id = .working c frame seen (.ask (.call k) next)) : StoreOp w (opOf choice.leaseID k)
  | swept (cutoff : Time) (limit : Nat) (tie : Key → Nat) : StoreOp w (.deleteUnused cutoff limit tie)

theorem storeOp (opts : Options) (w : World) (action : Action) :
    ∃ op, StoreOp w op ∧ (w.step opts action).2.shared.store = (MemoryStore.step w.shared.store op).2 := by
  have did := shares opts w action
  generalize (w.step opts action).2.shared = after at did ⊢
  generalize (w.step opts action).1 = out at did
  cases did with
  | same => exact ⟨_,.none,rfl⟩
  | called choice was => exact ⟨_,.called choice was,by rw [callStep]⟩
  | registered choice was => cases ‹HolderCall› <;> exact ⟨_,.none,rfl⟩
  | removed choice was => exact ⟨_,.none,rfl⟩
  | swept cutoff limit tie => exact ⟨_,.swept cutoff limit tie,rfl⟩

theorem wellformedShared (opts : Options) (w : World) (action : Action) (valid : WellformedStore w.shared.store) :
    WellformedStore (w.step opts action).2.shared.store := by
  obtain ⟨op,_,same⟩ := storeOp opts w action
  rw [same]
  exact MemoryStore.wellformedStep w.shared.store op valid

def holderOf (w : World) (k : Key) : Option Bytes := (record w.shared.store k).bind (·.holder)

def handled (id : Nat) (frame : ClientFrame) (choice : Choice) (steps : Nat) : List Action :=
  .receive id frame choice.now :: List.replicate steps (.proceed id choice)

def sampleOptions : Options := ⟨1000,10,1000,0,⟨fun text => text,fun _ => "",2^48/24⟩⟩

def openFrame (takeover : Bool) : ClientFrame := ⟨1,.openDB ⟨"db",512,true,takeover,none⟩⟩

def takenOver : List Action :=
  [.logIn 0 "alice" [1] "" none,.logIn 1 "alice" [2] "" none] ++
    handled 0 (openFrame false) ⟨0,[7],[]⟩ 5 ++ handled 1 (openFrame true) ⟨1,[8],[]⟩ 5

def aliceKey : Key := ⟨"alice","db"⟩

end SqliteRemote.Server
