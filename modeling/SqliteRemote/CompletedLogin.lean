import SqliteRemote.ConnectionActs
import SqliteRemote.Login

/-! Nothing is stored without a completed login. A login that has been completed is recorded with
everything that was checked for it; every store operation of a connection comes after such a login,
is about its subject and carries the owner of its token, and once the token has expired only the
renewals of a ping remain. -/
namespace SqliteRemote.Protocol
open Rows StoreContract Programs

def Call.subject {β : Type} : Call β → String
  | .openDB req => req.key.subject
  | .fetch key _ _ _ => key.subject
  | .commit req => req.key.subject
  | .changes key _ => key.subject
  | .renew key _ _ _ => key.subject
  | .release key _ => key.subject
  | .delete req => req.key.subject
  | .claimSlot req => req.subject
  | .setSlotLabel _ subject _ => subject
  | .deleteSlot _ subject => subject

def Call.owner {β : Type} : Call β → Option String
  | .openDB req => some req.owner
  | .claimSlot req => some req.owner
  | .setSlotLabel owner _ _ => some owner
  | .deleteSlot owner _ => some owner
  | _ => none

def Call.isRenew {β : Type} : Call β → Bool
  | .renew _ _ _ _ => true
  | _ => false

def Effect.OnBehalf (c : Connection) (frame : ClientFrame) {β : Type} : Effect β → Prop
  | .call k => k.subject = c.subject ∧ (∀ owner, k.owner = some owner → owner = c.owner) ∧
      (frame.isPing = true → k.isRenew = true)
  | _ => True

theorem unowned {β : Type} {k : Call β} {other : String} (free : k.owner = none) :
    ∀ owner, k.owner = some owner → owner = other := by
  intro owner carried
  rw [free] at carried
  contradiction

theorem actsOnBehalf {opts : Options} {c : Connection} {frame : ClientFrame} {seen : List (Asked Effect)} {β : Type}
    {e : Effect β} (named : NamedDBs c) (acts : Acts opts c frame seen e) : e.OnBehalf c frame := by
  have subjectNamed {d : String} {db : OpenDB} (isOpen : c.dbs.lookup d = some db) : db.key.subject = c.subject := by
    rw [named d db isOpen]
  cases acts with
  | clock => trivial
  | send => trivial
  | order => trivial
  | openDB now body closed =>
    exact ⟨rfl,fun owner same => (Option.some.inj same).symm,by simp [ClientFrame.isPing,body]⟩
  | set now res body closed => trivial
  | fetch _ body isOpen listed only => exact ⟨subjectNamed isOpen,unowned rfl,by simp [ClientFrame.isPing,body]⟩
  | changes body isOpen => exact ⟨subjectNamed isOpen,unowned rfl,by simp [ClientFrame.isPing,body]⟩
  | commit now body isOpen header => exact ⟨subjectNamed isOpen,unowned rfl,by simp [ClientFrame.isPing,body]⟩
  | renew _ now ping isOpen => exact ⟨subjectNamed isOpen,unowned rfl,fun _ => rfl⟩
  | release body isOpen => exact ⟨subjectNamed isOpen,unowned rfl,by simp [ClientFrame.isPing,body]⟩
  | remove body isOpen => trivial
  | delete now body closed => exact ⟨rfl,unowned rfl,by simp [ClientFrame.isPing,body]⟩
  | revoke now res body closed deleted => trivial
  | claimSlot now body owned =>
    exact ⟨rfl,fun owner same => (Option.some.inj same).symm,by simp [ClientFrame.isPing,body]⟩
  | setSlotLabel body owned =>
    exact ⟨rfl,fun owner same => (Option.some.inj same).symm,by simp [ClientFrame.isPing,body]⟩
  | deleteSlot body owned =>
    exact ⟨rfl,fun owner same => (Option.some.inj same).symm,by simp [ClientFrame.isPing,body]⟩
  | purge _ key body => trivial

structure SameClient (start c : Connection) : Prop where
  subject : c.subject = start.subject
  owner : c.owner = start.owner
  token : c.tokenExpires = start.tokenExpires
  named : NamedDBs c

theorem endsSameClient {opts : Options} {start c after : Connection} {frame : ClientFrame} {seen : List (Asked Effect)}
    (same : SameClient start c) (ended : Ends opts c frame seen after) : SameClient start after := by
  have named := namedEnds ended same.named
  cases ended with
  | kept still keeps =>
    exact ⟨keeps.subject.trans same.subject,keeps.owner.trans same.owner,keeps.token.trans same.token,named⟩
  | closed answer body isOpen => exact ⟨same.subject,same.owner,same.token,named⟩
  | opened now res answer body closed => exact ⟨same.subject,same.owner,same.token,named⟩

theorem servesSameClient {opts : Options} {start c : Connection} {handled : List Handled} (named : NamedDBs start)
    (served : Serves opts start handled c) : SameClient start c := by
  induction served with
  | idle => exact ⟨rfl,rfl,rfl,named⟩
  | next earlier arrived admitted performed ih =>
    exact endsSameClient ih (leadsEnds (handledLeads performed).2)

structure Session (opts : LoginOptions) where
  helloID : UInt64
  hello : Hello
  grant : Option Grant
  nonce : Nonce
  issued : Time
  proofID : UInt64
  proof : Proof
  answered : Time
  version : hello.protocolVersion = 1
  instanceID : 1 ≤ hello.instanceID.length ∧ hello.instanceID.length ≤ 64
  granted : grant.isSome = opts.tokens
  serverID : opts.serverID ≠ ""
  inTime : answered ≤ issued+opts.challengeTime
  algorithm : hello.sigAlg = sigAlgEd25519
  signed : opts.crypto.ed25519Verify hello.publicKey
    (transcript opts.serverID nonce.val hello.instanceID hello.sigAlg hello.publicKey) proof.signature = true

section
variable {opts : LoginOptions}

def Session.trace (s : Session opts) : List (Asked Wire) :=
  [⟨.read opts.helloTimeout,.ok ⟨s.helloID,.hello s.hello⟩⟩] ++
    s.grant.toList.map (fun grant => ⟨.verify s.hello.accessToken s.hello.publicKey,.ok grant⟩) ++
    [⟨.newNonce,some s.nonce⟩,⟨.clock,s.issued⟩,
      ⟨.answer (opts.challenge s.helloID s.nonce (s.issued+opts.challengeTime)),()⟩,
      ⟨.read opts.challengeTime,.ok ⟨s.proofID,.proof s.proof⟩⟩,⟨.clock,s.answered⟩]

def Session.subject (s : Session opts) : String := subjectOf opts.crypto s.hello.sigAlg s.hello.publicKey

def Session.connection (s : Session opts) : Connection :=
  .loggedIn s.subject s.hello.instanceID (ownerOf s.grant) (s.grant.bind Grant.tokenExpires)

structure Serving (s : Session opts) (seen : List (Asked Wire)) (c : Connection) : Prop where
  begun : s.trace <+: seen
  served : ∃ handled, Serves opts.requests s.connection handled c

/- What was asked before a frame was handled: the token was valid, or there is none, or the frame
is a ping. -/
inductive Admitted (opts : Options) (c : Connection) (frame : ClientFrame) : List (Asked Wire) → Prop where
  | ping (ping : frame.isPing = true) : Admitted opts c frame []
  | noToken (free : c.tokenExpires = none) : Admitted opts c frame []
  | valid (arrived : Time) (inTime : c.tokenExpired opts arrived = false) : Admitted opts c frame [⟨.clock,arrived⟩]

inductive Requested (opts : LoginOptions) : List (Asked Wire) → ∀ {β : Type}, Effect β → Prop where
  | handling {s : Session opts} {before check : List (Asked Wire)} {c : Connection} {frame : WireFrame}
      {asked : List (Asked Effect)} {β : Type} {e : Effect β} (serving : Serving s before c)
      (admitted : Admitted opts.requests c frame.client check) (acts : Acts opts.requests c frame.client asked e) :
      Requested opts (before ++ ⟨.read (int64 (3*opts.pingInterval)),.ok frame⟩ :: check ++
        asked.map (Asked.within Wire.request)) e

def Permitted (opts : LoginOptions) (seen : List (Asked Wire)) {β : Type} : Wire β → Prop
  | .request e => Requested opts seen e
  | _ => True

variable (opts) in
abbrev Guards (seen : List (Asked Wire)) (p : Service) : Prop :=
  p.Guarded (Permitted opts) (fun _ _ => True) seen

theorem admittedServes {c start after : Connection} {frame : ClientFrame} {check : List (Asked Wire)}
    {handled : List Handled} {actions : List (Asked Effect)} {requests : Options}
    (admitted : Admitted requests c frame check) (served : Serves requests start handled c)
    (performed : Performs (c.handle requests frame) actions after) :
    Serves requests start (handled ++ [⟨c,frame,actions,after⟩]) after := by
  cases admitted with
  | ping ping => exact .next served 0 (.inl ping) performed
  | noToken free => exact .next served 0 (.inr (by simp [Connection.tokenExpired,free])) performed
  | valid arrived inTime => exact .next served arrived (.inr inTime) performed

theorem guardsHandle {s : Session opts} {before check : List (Asked Wire)} {c : Connection} {frame : WireFrame}
    {next : Connection → Service} (serving : Serving s before c)
    (admitted : Admitted opts.requests c frame.client check)
    (later : ∀ {seen after}, Serving s seen after → Guards opts seen (next after)) :
    Guards opts (before ++ ⟨.read (int64 (3*opts.pingInterval)),.ok frame⟩ :: check)
      ((c.handle opts.requests frame.client).within .request next) := by
  have walk : Guards opts ((before ++ ⟨.read (int64 (3*opts.pingInterval)),.ok frame⟩ :: check) ++
      ([] : List (Asked Effect)).map (Asked.within Wire.request))
      ((c.handle opts.requests frame.client).within .request next) := by
    refine guardedWithin Wire.request ?_ ?_ (guardedPartly .start)
    · intro asked β e reached
      obtain ⟨_,partly⟩ := reached
      exact .handling serving admitted (acts partly)
    · intro asked after partly
      obtain ⟨handled,served⟩ := serving.served
      have performed := partlyPerforms partly (.done after)
      refine later ⟨?_,_,admittedServes admitted served performed⟩
      rw [List.append_assoc]
      exact serving.begun.trans (List.prefix_append _ _)
  rw [List.map_nil,List.append_nil] at walk
  exact walk

theorem guardsServe {s : Session opts} (rounds : Nat) {seen : List (Asked Wire)} {c : Connection}
    (serving : Serving s seen c) : Guards opts seen (opts.serve rounds c) := by
  induction rounds generalizing seen c with
  | zero => trivial
  | succ rounds ih =>
    refine ⟨trivial,fun read => ?_⟩
    cases read with
    | error e => trivial
    | ok frame =>
      simp only [LoginOptions.ifTokenValid]
      split
      · rename_i free
        rw [Bool.or_eq_true,Option.isNone_iff_eq_none] at free
        exact guardsHandle serving (free.elim .ping .noToken) ih
      · refine ⟨trivial,fun now => ?_⟩
        simp only
        split
        · trivial
        · rename_i inTime
          rw [List.append_assoc]
          exact guardsHandle serving (.valid now (by simpa using inTime)) ih

theorem guardsRefuse (seen : List (Asked Wire)) (id : UInt64) (failure : LoginFailure) :
    Guards opts seen (opts.refuse id failure) :=
  ⟨trivial,fun _ => trivial⟩

theorem checkedProof {crypto : Crypto} {alg : SigAlg} {publicKey signed signature : Bytes}
    (checked : checkProof crypto alg publicKey signed signature = none) :
    alg = sigAlgEd25519 ∧ crypto.ed25519Verify publicKey signed signature = true := by
  unfold checkProof at checked
  split at checked <;> try contradiction
  rename_i algorithm
  split at checked <;> try contradiction
  split at checked <;> try contradiction
  rename_i verified
  exact ⟨algorithm,by simpa using verified⟩

theorem checkedHello {frame : WireFrame} {hello : Hello} (checked : checkHello frame = .ok hello) :
    frame.body = .hello hello ∧ hello.protocolVersion = 1 ∧
      1 ≤ hello.instanceID.length ∧ hello.instanceID.length ≤ 64 := by
  unfold checkHello at checked
  split at checked <;> try contradiction
  rename_i body
  split at checked <;> try contradiction
  rename_i version
  split at checked <;> try contradiction
  rename_i length
  cases Except.ok.inj checked
  rw [not_or,maxInstanceIDBytes] at length
  exact ⟨body,not_not.mp version,by omega,by omega⟩

theorem guardsAdmit {seen : List (Asked Wire)} {id : UInt64} {hello : Hello} {next : Option Grant → Service}
    (ready : ∀ grant : Option Grant, grant.isSome = opts.tokens → Guards opts (seen ++ grant.toList.map
      (fun grant => ⟨.verify hello.accessToken hello.publicKey,.ok grant⟩)) (next grant)) :
    Guards opts seen (opts.admitHello hello (opts.refuse id) next) := by
  unfold LoginOptions.admitHello
  split
  · rename_i free
    have admitted := ready none (by simpa using free)
    rw [Option.toList_none,List.map_nil,List.append_nil] at admitted
    exact admitted
  · rename_i required
    split
    · exact guardsRefuse seen _ _
    · refine ⟨trivial,fun answer => ?_⟩
      cases answer with
      | error reason => exact guardsRefuse _ _ _
      | ok grant => exact ready (some grant) (by simpa using required)

theorem guardsIdentify {seen : List (Asked Wire)} {id : UInt64} {hello : Hello} {next : UInt64 → String → Service}
    (ready : ∀ (nonce : Nonce) (issued : Time) (proofID : UInt64) (proof : Proof) (answered : Time),
      opts.serverID ≠ "" → answered ≤ issued+opts.challengeTime →
      checkProof opts.crypto hello.sigAlg hello.publicKey
        (transcript opts.serverID nonce.val hello.instanceID hello.sigAlg hello.publicKey) proof.signature = none →
      Guards opts (seen ++ [⟨.newNonce,some nonce⟩,⟨.clock,issued⟩,
          ⟨.answer (opts.challenge id nonce (issued+opts.challengeTime)),()⟩,
          ⟨.read opts.challengeTime,.ok ⟨proofID,.proof proof⟩⟩,⟨.clock,answered⟩])
        (next proofID (subjectOf opts.crypto hello.sigAlg hello.publicKey))) :
    Guards opts seen (opts.identify id hello opts.refuse next) := by
  unfold LoginOptions.identify
  split
  · exact guardsRefuse _ _ _
  · rename_i serverID
    split
    · exact guardsRefuse _ _ _
    · refine ⟨trivial,fun drawn => ?_⟩
      cases drawn with
      | none => exact guardsRefuse _ _ _
      | some nonce =>
        refine ⟨trivial,fun issued => ⟨trivial,fun _ => ⟨trivial,fun read => ?_⟩⟩⟩
        cases read with
        | error e => exact guardsRefuse _ _ _
        | ok answer =>
          obtain ⟨proofID,body⟩ := answer
          cases body with
          | hello _ => exact guardsRefuse _ _ _
          | request _ _ => exact guardsRefuse _ _ _
          | proof proof =>
            refine ⟨trivial,fun answered => ?_⟩
            simp only
            split
            · exact guardsRefuse _ _ _
            · rename_i inTime
              split
              · exact guardsRefuse _ _ _
              · rename_i checked
                have proved := ready nonce issued proofID proof answered serverID (Int.not_lt.mp inTime) checked
                simpa only [List.append_assoc,List.cons_append,List.nil_append] using proved

theorem guardsTTL {seen : List (Asked Wire)} {c : Connection} {next : UInt64 → Service}
    (ready : ∀ more ttl, Guards opts (seen ++ more) (next ttl)) : Guards opts seen (tokenTTL c next) := by
  unfold tokenTTL
  split
  · have welcome := ready [] 0
    rw [List.append_nil] at welcome
    exact welcome
  · exact ⟨trivial,fun now => ready _ _⟩

theorem guardsRun (rounds : Nat) : Guards opts [] (opts.run rounds) := by
  refine ⟨trivial,fun read => ?_⟩
  cases read with
  | error e => trivial
  | ok frame =>
    obtain ⟨id,body⟩ := frame
    simp only [LoginOptions.hello]
    split
    · exact guardsRefuse _ _ _
    · rename_i hello checked
      obtain ⟨rfl,version,instanceID⟩ := checkedHello checked
      refine guardsAdmit (fun grant granted => ?_)
      refine guardsIdentify (fun nonce issued proofID proof answered serverID inTime proved => ?_)
      obtain ⟨algorithm,signed⟩ := checkedProof proved
      let s : Session opts := ⟨id,hello,grant,nonce,issued,proofID,proof,answered,version,instanceID,granted,serverID,
        inTime,algorithm,signed⟩
      refine guardsTTL (fun more ttl => ⟨trivial,fun _ => ?_⟩)
      refine guardsServe (s := s) rounds ⟨?_,[],.idle _⟩
      rw [List.append_assoc]
      exact List.prefix_append _ _

theorem tokenInTime {s : Session opts} {requests : Options} {grant : Grant} {c : Connection} {frame : ClientFrame}
    {check : List (Asked Wire)} (same : SameClient s.connection c) (granted : s.grant = some grant)
    (admitted : Admitted requests c frame check) :
    frame.isPing = true ∨ ∃ arrived, check = [⟨.clock,arrived⟩] ∧ arrived ≤ grant.expires+requests.leeway := by
  have token : c.tokenExpires = some grant.expires := by
    rw [same.token]
    simp [Session.connection,Connection.loggedIn,granted,Grant.tokenExpires,grant.dated]
  cases admitted with
  | ping ping => exact .inl ping
  | noToken free =>
    rw [token] at free
    contradiction
  | valid arrived inTime =>
    refine .inr ⟨arrived,rfl,?_⟩
    simpa [Connection.tokenExpired,token] using inTime

end

def CheckedAt (opts : LoginOptions) (seen : List (Asked Wire)) (arrived : Time) : Prop :=
  ∃ (before : List (Asked Wire)) (frame : WireFrame) (asked : List (Asked Effect)),
    seen = before ++ [⟨.read (int64 (3*opts.pingInterval)),.ok frame⟩,⟨.clock,arrived⟩] ++
      asked.map (Asked.within Wire.request)

/- Whenever a connection asks the store for anything, its first frames were a login: the trace
starts with that of a session. The operation is about the session's subject and carries its owner,
and unless it is a renewal, the frame it belongs to was checked before the token had expired. -/
theorem storesAfterLogin (opts : LoginOptions) (rounds : Nat) {seen : List (Asked Wire)} {β : Type} {k : Call β}
    {next : Except Fault β → Service} (partly : Partly (opts.run rounds) seen (.ask (.request (.call k)) next)) :
    ∃ s : Session opts, s.trace <+: seen ∧ k.subject = subjectOf opts.crypto s.hello.sigAlg s.hello.publicKey ∧
      (∀ owner, k.owner = some owner → owner = ownerOf s.grant) ∧
      ∀ grant, s.grant = some grant → k.isRenew = true ∨
        ∃ arrived, CheckedAt opts seen arrived ∧ arrived ≤ grant.expires+opts.requests.leeway := by
  have permitted : Requested opts seen (.call k) := (partlyGuarded _ _ (guardsRun rounds) partly).1
  cases permitted with
  | @handling s before check c frame asked _ _ serving admitted acts =>
    obtain ⟨handled,served⟩ := serving.served
    have same := servesSameClient (namedLoggedIn _ _ _ _) served
    obtain ⟨subject,owner,renewing⟩ := actsOnBehalf same.named acts
    refine ⟨s,?_,subject.trans same.subject,fun other carried => (owner other carried).trans same.owner,?_⟩
    · rw [List.append_assoc]
      exact serving.begun.trans (List.prefix_append _ _)
    · intro grant granted
      rcases tokenInTime same granted admitted with ping | ⟨arrived,read,inTime⟩
      · exact .inl (renewing ping)
      · subst read
        exact .inr ⟨arrived,⟨before,frame,asked,rfl⟩,inTime⟩

def tokenLogin : LoginOptions where
  requests := ⟨1048576,30*10^9,1048576,60*10^9,⟨id,fun _ => "",2^48/24⟩⟩
  pingInterval := 10*10^9
  helloTimeout := 5*10^9
  challengeTTL := 20*10^9
  serverID := "wss://vfs.example/v1/ws"
  tokens := true
  formats := ⟨fun _ => "","",fun _ => "",fun _ => ""⟩
  crypto := ⟨fun publicKey _ signature => publicKey == signature,fun _ => "alice"⟩

def alicePublicKey : Bytes := List.replicate 32 7

/- A client that logs in with a token and sends an Open; a frame is told by its timeout. -/
def aliceSends (timeout : Duration) : WireFrame :=
  if timeout = 5*10^9 then ⟨1,.hello ⟨1,[1],1,alicePublicKey,"token"⟩⟩
  else if timeout = 20*10^9 then ⟨2,.proof ⟨alicePublicKey⟩⟩
  else ⟨3,.request (.openDB ⟨"main",4096,true,false,none⟩) ⟨nofun,nofun⟩⟩

def aliceAnswers : {β : Type} → Wire β → β
  | _, .clock => 40*10^9
  | _, .read timeout => .ok (aliceSends timeout)
  | _, .newNonce => some ⟨List.replicate 32 0,rfl⟩
  | _, .verify _ _ => .ok ⟨100*10^9,"acme",by decide⟩
  | _, .answer _ => ()
  | _, .request .clock => 40*10^9
  | _, .request (.call _) => .error .unknown
  | _, .request (.send _) => ()
  | _, .request (.holders _) => ()
  | _, .request (.anyOrder keys) => ⟨keys,.refl keys⟩

def aliceTrace : List (Asked Wire) := ((tokenLogin.run 1).first aliceAnswers [] 12).1

def aliceOpen : Call OpenResult :=
  .openDB ⟨⟨"alice","main"⟩,"acme",some [1],4096,true,false,none,40*10^9,30*10^9⟩

theorem aliceAsks : ∃ next, Partly (tokenLogin.run 1) aliceTrace (.ask (.request (.call aliceOpen)) next) :=
  ⟨_,partlyFirst aliceAnswers 12 .start⟩

theorem aliceStoresAfterLogin : ∃ s : Session tokenLogin, s.trace <+: aliceTrace ∧
    aliceOpen.subject = subjectOf tokenLogin.crypto s.hello.sigAlg s.hello.publicKey ∧
    (∀ owner, aliceOpen.owner = some owner → owner = ownerOf s.grant) ∧
    ∀ grant, s.grant = some grant → aliceOpen.isRenew = true ∨
      ∃ arrived, CheckedAt tokenLogin aliceTrace arrived ∧ arrived ≤ grant.expires+tokenLogin.requests.leeway := by
  obtain ⟨next,asks⟩ := aliceAsks
  exact storesAfterLogin tokenLogin 1 asks

end SqliteRemote.Protocol
