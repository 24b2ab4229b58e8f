import SqliteRemote.KeySet

/-! What any sequence of find calls keeps. The cache is at every moment the result of the fetches
attempted so far, one after the other; how old its keys can be and how often they are fetched follows
from when a call may, and when it must, attempt one. -/
namespace SqliteRemote.Token
open StoreContract Rows

def Attempt.Gets (lib : Library) (a : Attempt) (keys : Keys) (age : Duration) : Prop :=
  fetch lib a.response = .ok (keys,age)

def Attempt.Fails (lib : Library) (a : Attempt) : Prop := ∃ err, fetch lib a.response = .error err

theorem readWhole {limit : Nat} {body data : Bytes} {broken : Option String}
    (read : readLimited (limit+1) body broken = .ok data) (short : ¬ limit < data.length) :
    body = data ∧ broken = none := by
  unfold readLimited at read
  split at read
  · cases read
    rw [List.length_take] at short
    omega
  · cases broken with
    | some err => contradiction
    | none => cases read; exact ⟨rfl,rfl⟩

structure Fetched (lib : Library) (response : Response) (set : List JWK) (keys : Keys) (age : Duration) : Prop where
  answered : ∃ status cacheControl body, response = .answered 200 status cacheControl body none ∧
    body.length ≤ maxJWKSBytes ∧ lib.unmarshal body = .ok set ∧ age = cacheAge (cacheControl.headD [])
  parsed : parseSet lib ∅ set = .ok keys

theorem fetchChecked {lib : Library} {response : Response} {keys : Keys} {age : Duration}
    (got : fetch lib response = .ok (keys,age)) : ∃ set, Fetched lib response set keys age := by
  cases response with
  | failed err => contradiction
  | answered code status cacheControl body broken =>
    simp only [fetch] at got
    split at got <;> try contradiction
    rename_i ok
    cases read : readLimited (maxJWKSBytes+1) body broken with
    | error err => rw [read] at got; contradiction
    | ok data =>
      rw [read] at got
      simp only at got
      split at got <;> try contradiction
      rename_i short
      obtain ⟨rfl,rfl⟩ := readWhole read short
      unfold parseJWKS at got
      cases decoded : lib.unmarshal body with
      | error err => rw [decoded] at got; contradiction
      | ok set =>
        rw [decoded] at got
        simp only at got
        cases parsed : parseSet lib ∅ set with
        | error err => rw [parsed] at got; contradiction
        | ok listed =>
          rw [parsed] at got
          cases got
          exact ⟨set,⟨status,cacheControl,body,by rw [not_not.mp ok],Nat.le_of_not_lt short,decoded,rfl⟩,parsed⟩

theorem fetchedAge {lib : Library} {response : Response} {keys : Keys} {age : Duration}
    (got : fetch lib response = .ok (keys,age)) : minCacheAge ≤ age ∧ age ≤ maxCacheAge := by
  obtain ⟨set,⟨_,cacheControl,_,_,_,_,rfl⟩,_⟩ := fetchChecked got
  exact ageRange _

/- The key of a set with a key ID: the last one with it that is for signatures and of a known type. -/
def Passed (lib : Library) (kid : String) (k : JWK) : Prop :=
  k.kid = kid → k.skipped = true ∨ parseKey lib k = .ok none

def Listed (lib : Library) (set : List JWK) (kid : String) (key : PublicKey) : Prop :=
  ∃ before k after, set = before ++ k :: after ∧ k.kid = kid ∧ k.skipped = false ∧
    parseKey lib k = .ok (some key) ∧ ∀ other ∈ after, Passed lib kid other

theorem addKeyLookup {lib : Library} {keys more : Keys} {k : JWK} (added : addKey lib keys k = .ok more)
    (kid : String) :
    (more.lookup kid = keys.lookup kid ∧ Passed lib kid k) ∨
      ∃ key, more.lookup kid = some key ∧ k.kid = kid ∧ k.skipped = false ∧ parseKey lib k = .ok (some key) := by
  unfold addKey at added
  split at added
  · rename_i skipped
    cases added
    exact .inl ⟨rfl,fun _ => .inl skipped⟩
  · rename_i used
    cases parsed : parseKey lib k with
    | error err => rw [parsed] at added; contradiction
    | ok found =>
      rw [parsed] at added
      cases found with
      | none =>
        cases added
        exact .inl ⟨rfl,fun _ => .inr parsed⟩
      | some key =>
        cases added
        rw [lookupInsert]
        split
        · rename_i same
          exact .inr ⟨key,rfl,same.symm,by simpa using used,rfl⟩
        · rename_i other
          exact .inl ⟨rfl,fun same => absurd same.symm other⟩

theorem parseSetLookup {lib : Library} {set : List JWK} {start keys : Keys}
    (parsed : parseSet lib start set = .ok keys) {kid : String} {key : PublicKey} (found : keys.lookup kid = some key) :
    Listed lib set kid key ∨ (start.lookup kid = some key ∧ ∀ k ∈ set, Passed lib kid k) := by
  induction set generalizing start with
  | nil =>
    rw [parseSet] at parsed
    split at parsed <;> try contradiction
    cases parsed
    exact .inr ⟨found,fun _ member => absurd member List.not_mem_nil⟩
  | cons k rest ih =>
    rw [parseSet] at parsed
    cases added : addKey lib start k with
    | error err => rw [added] at parsed; contradiction
    | ok more =>
      rw [added] at parsed
      rcases ih parsed with listed | ⟨before,passed⟩
      · obtain ⟨before,last,after,rfl,holds⟩ := listed
        exact .inl ⟨k :: before,last,after,rfl,holds⟩
      · rcases addKeyLookup added kid with ⟨same,also⟩ | ⟨other,there,holds⟩
        · rw [same] at before
          exact .inr ⟨before,List.forall_mem_cons.mpr ⟨also,passed⟩⟩
        · cases Option.some.inj (there.symm.trans before)
          exact .inl ⟨[],k,rest,rfl,holds.1,holds.2.1,holds.2.2,passed⟩

theorem parseSetListed {lib : Library} {set : List JWK} {keys : Keys} (parsed : parseSet lib ∅ set = .ok keys)
    {kid : String} {key : PublicKey} (found : keys.lookup kid = some key) : Listed lib set kid key := by
  rcases parseSetLookup parsed found with listed | ⟨before,_⟩
  · exact listed
  · rw [AList.lookup_empty] at before
    contradiction

theorem refreshGot {lib : Library} {a : Attempt} {keys : Keys} {age : Duration} (got : a.Gets lib keys age)
    (s : KeySet) : s.refresh lib a = ⟨s.url,keys,a.time+age,a.time⟩ := by
  rw [KeySet.refresh,show fetch lib a.response = .ok (keys,age) from got]

theorem refreshFailed {lib : Library} {a : Attempt} (failed : a.Fails lib) (s : KeySet) :
    s.refresh lib a = ⟨s.url,s.keys,s.fresh,a.time⟩ := by
  obtain ⟨err,same⟩ := failed
  rw [KeySet.refresh,same]

theorem attemptEnds (lib : Library) (a : Attempt) : a.Fails lib ∨ ∃ keys age, a.Gets lib keys age := by
  cases same : fetch lib a.response with
  | error err => exact .inl ⟨err,same⟩
  | ok got => exact .inr ⟨got.1,got.2,same⟩

theorem refreshUrl (lib : Library) (s : KeySet) (a : Attempt) : (s.refresh lib a).url = s.url := by
  rcases attemptEnds lib a with failed | ⟨keys,age,got⟩
  · rw [refreshFailed failed]
  · rw [refreshGot got]

theorem refreshFetched (lib : Library) (s : KeySet) (a : Attempt) : (s.refresh lib a).fetched = a.time := by
  rcases attemptEnds lib a with failed | ⟨keys,age,got⟩
  · rw [refreshFailed failed]
  · rw [refreshGot got]

/- Why a call may fetch: the keys have expired, or they are fresh and do not have the key ID. -/
inductive Due (s : KeySet) (call : Find) : Prop
  | expired (stale : s.fresh ≤ call.now) (apart : s.fetched+minCacheAge ≤ call.now)
  | unknown (fresh : call.now < s.fresh) (missing : s.keys.lookup call.kid = none)
      (apart : s.fetched+refetchInterval ≤ call.now)

theorem expiredIff (s : KeySet) (now : Time) :
    s.expired now = true ↔ s.fresh ≤ now ∧ s.fetched+minCacheAge ≤ now := by
  rw [KeySet.expired,Bool.and_eq_true,decide_eq_true_eq,decide_eq_true_eq,
    leTimeSub (d := minCacheAge) (by decide) (by decide)]

def KeySet.answer (lib : Library) (s : KeySet) (call : Find) : Except DeniedError PublicKey :=
  if s.fresh+maxStale ≤ call.now then .error unavailable else s.known lib call.kid

inductive FindStep (lib : Library) (s : KeySet) (call : Find) : Found × KeySet → Prop
  | unconfigured (file : s.url = "") : FindStep lib s call (⟨s.known lib call.kid,[]⟩,s)
  | cached (configured : s.url ≠ "") (current : s.expired call.now = false) :
      FindStep lib s call (⟨s.answer lib call,[]⟩,s)
  | fetched (configured : s.url ≠ "") (response : Response) (due : Due s call) :
      FindStep lib s call (⟨(s.refresh lib ⟨call.now,response⟩).answer lib call,[⟨call.now,response⟩]⟩,
        s.refresh lib ⟨call.now,response⟩)

theorem findCachedAttempted (lib : Library) (s : KeySet) (call : Find) (made : List Attempt)
    (recent : ¬ s.fetched+refetchInterval ≤ call.now) :
    s.findCached lib call made = (⟨s.answer lib call,made⟩,s) := by
  have early : ¬ refetchInterval ≤ timeSub call.now s.fetched := by
    rwa [leTimeSub (d := refetchInterval) (by decide) (by decide)]
  simp only [KeySet.findCached,KeySet.answer,KeySet.known,if_neg early]
  split
  · rfl
  · cases s.keys.lookup call.kid with
    | some key => rfl
    | none => rfl

theorem refreshedAnswer (lib : Library) (s : KeySet) (call : Find) (response : Response)
    (usable : ¬ s.fresh+maxStale ≤ call.now) :
    (s.refresh lib ⟨call.now,response⟩).answer lib call = (s.refresh lib ⟨call.now,response⟩).known lib call.kid := by
  rw [KeySet.answer,if_neg]
  rcases attemptEnds lib ⟨call.now,response⟩ with failed | ⟨keys,age,got⟩
  · rw [refreshFailed failed]
    exact usable
  · rw [refreshGot got]
    have young : (0 : Int) < age+maxStale := Int.add_pos (Int.lt_of_lt_of_le (by decide) (fetchedAge got).1) (by decide)
    show ¬ call.now+age+maxStale ≤ call.now
    rw [Int.add_assoc]
    exact Int.not_le.mpr (Int.lt_add_of_pos_right _ young)

theorem findStep (lib : Library) (s : KeySet) (call : Find) : FindStep lib s call (s.find lib call) := by
  unfold KeySet.find
  split
  · rename_i file
    exact .unconfigured file
  rename_i configured
  split
  · rename_i expired
    obtain ⟨stale,apart⟩ := (expiredIff s call.now).mp expired
    have recent : ¬ (s.refresh lib ⟨call.now,call.first⟩).fetched+refetchInterval ≤ call.now := by
      rw [refreshFetched]
      exact Int.not_le.mpr (Int.lt_add_of_pos_right _ (by decide))
    simp only
    rw [findCachedAttempted lib _ call _ recent]
    exact .fetched configured call.first (.expired stale apart)
  rename_i current
  have current : s.expired call.now = false := by simpa using current
  by_cases recent : s.fetched+refetchInterval ≤ call.now
  · have apart : s.fetched+minCacheAge ≤ call.now :=
      Int.le_trans (Int.add_le_add_left (by decide) _) recent
    have fresh : call.now < s.fresh := by
      refine Int.not_le.mp fun stale => ?_
      rw [(expiredIff s call.now).mpr ⟨stale,apart⟩] at current
      contradiction
    have usable : ¬ s.fresh+maxStale ≤ call.now :=
      Int.not_le.mpr (Int.lt_trans fresh (Int.lt_add_of_pos_right _ (by decide)))
    have again : refetchInterval ≤ timeSub call.now s.fetched :=
      (leTimeSub (d := refetchInterval) (by decide) (by decide)).mpr recent
    have cached : FindStep lib s call (⟨s.answer lib call,[]⟩,s) := .cached configured current
    rw [KeySet.answer,if_neg usable,KeySet.known] at cached
    unfold KeySet.findCached
    rw [if_neg usable]
    cases missing : s.keys.lookup call.kid with
    | some key => rwa [missing] at cached
    | none =>
      simp only [if_pos again,List.nil_append,← refreshedAnswer lib s call call.second usable]
      exact .fetched configured call.second (.unknown fresh missing recent)
  · rw [findCachedAttempted lib s call [] recent]
    exact .cached configured current

abbrev Event := History.Event KeySet Find Found

def step (lib : Library) (s : KeySet) (call : Find) : Found × KeySet := s.find lib call

def run (lib : Library) (s : KeySet) (calls : List Find) : KeySet := History.run (step lib) s calls

def history (lib : Library) (s : KeySet) (calls : List Find) : List Event := History.history (step lib) s calls

def attempts (events : List Event) : List Attempt := events.flatMap fun e => e.reply.attempts

theorem attemptsNext (seen : List Event) (e : Event) : attempts (seen ++ [e]) = attempts seen ++ e.reply.attempts := by
  simp [attempts]

theorem eventFound {lib : Library} {s : KeySet} {calls : List Find} {e : Event} (member : e ∈ history lib s calls) :
    FindStep lib e.before e.op (e.reply,e.after) := by
  have did := findStep lib e.before e.op
  rwa [show e.before.find lib e.op = (e.reply,e.after) from History.eventStep (step lib) member] at did

theorem attemptsMade {lib : Library} {s : KeySet} {call : Find} {found : Found} {after : KeySet}
    (did : FindStep lib s call (found,after)) :
    after = found.attempts.foldl (KeySet.refresh lib) s ∧ ∀ a ∈ found.attempts, a.time = call.now := by
  cases did with
  | unconfigured file => exact ⟨rfl,fun _ member => absurd member List.not_mem_nil⟩
  | cached configured current => exact ⟨rfl,fun _ member => absurd member List.not_mem_nil⟩
  | fetched configured response due => exact ⟨rfl,fun a member => by rw [List.mem_singleton.mp member]⟩

theorem runAttempts (lib : Library) (s : KeySet) (calls : List Find) :
    run lib s calls = (attempts (history lib s calls)).foldl (KeySet.refresh lib) s := by
  refine History.invariantSeen (step lib)
    (P := fun seen t => t = (attempts seen).foldl (KeySet.refresh lib) s) rfl ?_
  intro seen e member same
  rw [attemptsNext,List.foldl_append,← same]
  exact (attemptsMade (eventFound member)).1

theorem attemptTime {lib : Library} {s : KeySet} {calls : List Find} {a : Attempt}
    (member : a ∈ attempts (history lib s calls)) : ∃ call ∈ calls, a.time = call.now := by
  obtain ⟨e,there,made⟩ := List.mem_flatMap.mp member
  exact ⟨e.op,History.eventOp (step lib) there,(attemptsMade (eventFound there)).2 a made⟩

/- The cache after some attempts: what the last successful one got, or what it began with. -/
inductive Caches (lib : Library) (s : KeySet) (made : List Attempt) (t : KeySet) : Prop
  | start (failures : ∀ a ∈ made, a.Fails lib) (keys : t.keys = s.keys)
  | got (earlier : List Attempt) (last : Attempt) (failures : List Attempt) (age : Duration)
      (order : made = earlier ++ last :: failures) (gets : last.Gets lib t.keys age)
      (fails : ∀ a ∈ failures, a.Fails lib) (fresh : t.fresh = last.time+age)
      (fetched : failures = [] → t.fetched = last.time)

theorem foldCaches (lib : Library) (s : KeySet) (made : List Attempt) :
    Caches lib s made (made.foldl (KeySet.refresh lib) s) := by
  induction made using List.reverseRecOn with
  | nil => exact .start (fun _ member => absurd member List.not_mem_nil) rfl
  | append_singleton made a ih =>
    rw [List.foldl_append,List.foldl_cons,List.foldl_nil]
    rcases attemptEnds lib a with failed | ⟨keys,age,got⟩
    · rw [refreshFailed failed]
      cases ih with
      | start failures keys =>
        exact .start (List.forall_mem_append.mpr ⟨failures,List.forall_mem_singleton.mpr failed⟩) keys
      | got earlier last failures age order gets fails fresh fetched =>
        refine .got earlier last (failures ++ [a]) age (by rw [order]; simp) gets
          (List.forall_mem_append.mpr ⟨fails,List.forall_mem_singleton.mpr failed⟩) fresh ?_
        intro none
        simp at none
    · rw [refreshGot got]
      exact .got made a [] age rfl got (fun _ member => absurd member List.not_mem_nil) rfl (fun _ => rfl)

theorem foldUrl (lib : Library) (s : KeySet) (made : List Attempt) :
    (made.foldl (KeySet.refresh lib) s).url = s.url := by
  induction made generalizing s with
  | nil => rfl
  | cons a made ih => exact (ih _).trans (refreshUrl lib s a)

theorem foldUnlisted {lib : Library} {kid : String} {made : List Attempt}
    (unlisted : ∀ a ∈ made, ∀ keys age, a.Gets lib keys age → keys.lookup kid = none) {s : KeySet}
    (missing : s.keys.lookup kid = none) : (made.foldl (KeySet.refresh lib) s).keys.lookup kid = none := by
  induction made generalizing s with
  | nil => exact missing
  | cons a made ih =>
    refine ih (fun a member => unlisted a (List.mem_cons_of_mem _ member)) ?_
    rcases attemptEnds lib a with failed | ⟨keys,age,got⟩
    · rw [refreshFailed failed]
      exact missing
    · rw [refreshGot got]
      exact unlisted a List.mem_cons_self keys age got

theorem answered {lib : Library} {s : KeySet} {call : Find} {key : PublicKey} (ok : s.answer lib call = .ok key) :
    call.now < s.fresh+maxStale ∧ s.keys.lookup call.kid = some key := by
  unfold KeySet.answer at ok
  split at ok <;> try contradiction
  rename_i usable
  unfold KeySet.known at ok
  cases found : s.keys.lookup call.kid with
  | none => rw [found] at ok; contradiction
  | some there =>
    rw [found] at ok
    cases ok
    exact ⟨Int.not_le.mp usable,rfl⟩

theorem unlistedRefused {lib : Library} {s : KeySet} {call : Find} (missing : s.keys.lookup call.kid = none) :
    ∃ reason, s.answer lib call = .error reason := by
  unfold KeySet.answer
  split
  · exact ⟨_,rfl⟩
  · rw [KeySet.known,missing]
    exact ⟨_,rfl⟩

theorem answeredFresh {lib : Library} {s : KeySet} {call : Find} {found : Found} {after : KeySet}
    (did : FindStep lib s call (found,after)) (configured : s.url ≠ "") {time : Time} {age : Duration}
    (young : minCacheAge ≤ age) (fresh : after.fresh = time+age) (fetched : after.fetched = time) :
    call.now < time+age := by
  cases did with
  | unconfigured file => exact absurd file configured
  | cached _ current =>
    refine Int.not_le.mp fun stale => ?_
    have expired : s.expired call.now = true := by
      rw [expiredIff,fresh,fetched]
      exact ⟨stale,Int.le_trans (Int.add_le_add_left young _) stale⟩
    rw [expired] at current
    contradiction
  | fetched _ response due =>
    rw [refreshFetched] at fetched
    rw [← fetched]
    exact Int.lt_add_of_pos_right _ (Int.lt_of_lt_of_le (by decide) young)

theorem configuredAnswer {lib : Library} {s : KeySet} {call : Find} {found : Found} {after : KeySet}
    (did : FindStep lib s call (found,after)) (configured : s.url ≠ "") : found.result = after.answer lib call := by
  cases did with
  | unconfigured file => exact absurd file configured
  | cached _ current => rfl
  | fetched _ response due => rfl

theorem lastLatest {past : List Find} {call c : Find} (inTime : ((past ++ [call]).map Find.now).Pairwise (· ≤ ·))
    (member : c ∈ past ++ [call]) : c.now ≤ call.now := by
  rw [List.map_append,List.pairwise_append] at inTime
  rcases List.mem_append.mp member with before | here
  · exact inTime.2.2 _ (List.mem_map_of_mem before) _ List.mem_cons_self
  · rw [List.mem_singleton.mp here]

theorem keysRecent (lib : Library) {url : String} {read : Except String Bytes} {s : KeySet} (configured : url ≠ "")
    (started : newKeySet lib url "" read = .ok s) (past : List Find) (call : Find)
    (inTime : ((past ++ [call]).map Find.now).Pairwise (· ≤ ·)) :
    (∀ key, ((run lib s past).find lib call).1.result = .ok key →
      ∃ (earlier : List Attempt) (last : Attempt) (failures : List Attempt) (keys : Keys) (age : Duration)
        (set : List JWK),
        attempts (history lib s (past ++ [call])) = earlier ++ last :: failures ∧
        last.Gets lib keys age ∧ (∀ a ∈ failures, a.Fails lib) ∧ keys.lookup call.kid = some key ∧
        Fetched lib last.response set keys age ∧ Listed lib set call.kid key ∧ age ≤ 300*10^9 ∧
        last.time ≤ call.now ∧ call.now < last.time+(3600*10^9+age) ∧
        (failures = [] → call.now < last.time+300*10^9)) ∧
    (∀ (earlier : List Attempt) (fetch : Attempt) (later : List Attempt) keys age,
      attempts (history lib s (past ++ [call])) = earlier ++ fetch :: later →
      fetch.Gets lib keys age → keys.lookup call.kid = none →
      (∀ a ∈ later, ∀ keys age, a.Gets lib keys age → keys.lookup call.kid = none) →
      ∃ reason, ((run lib s past).find lib call).1.result = .error reason) := by
  cases started
  generalize start : (⟨url,∅,zeroTime,zeroTime⟩ : KeySet) = s
  have empty : s.keys = ∅ := by rw [← start]
  have known : (run lib s past).url ≠ "" := by
    rw [runAttempts,foldUrl,← start]
    exact configured
  have did := findStep lib (run lib s past) call
  have after : ((run lib s past).find lib call).2 =
      (attempts (history lib s (past ++ [call]))).foldl (KeySet.refresh lib) s :=
    (History.runAppend (step lib) s past [call]).symm.trans (runAttempts lib s _)
  have time : ∀ a ∈ attempts (history lib s (past ++ [call])), a.time ≤ call.now := by
    intro a member
    obtain ⟨c,there,same⟩ := attemptTime member
    rw [same]
    exact lastLatest inTime there
  generalize (run lib s past).find lib call = out at did after ⊢
  obtain ⟨found,left⟩ := out
  generalize attempts (history lib s (past ++ [call])) = made at after time ⊢
  replace after : left = made.foldl (KeySet.refresh lib) s := after
  rw [configuredAnswer did known]
  have cache := foldCaches lib s made
  rw [← after] at cache
  constructor
  · intro key ok
    obtain ⟨usable,listed⟩ := answered ok
    cases cache with
    | start failures keys =>
      rw [keys,empty,AList.lookup_empty] at listed
      contradiction
    | got earlier last failures age order gets fails fresh fetched =>
      obtain ⟨young,old⟩ := fetchedAge gets
      obtain ⟨jwks,checked⟩ := fetchChecked gets
      refine ⟨earlier,last,failures,left.keys,age,jwks,order,gets,fails,listed,checked,
        parseSetListed checked.parsed listed,old,time last (by rw [order]; simp),?_,?_⟩
      · rw [fresh,Int.add_assoc,Int.add_comm age] at usable
        exact usable
      · intro none
        have recent := answeredFresh did known young fresh (fetched none)
        exact Int.lt_of_lt_of_le recent (Int.add_le_add_left old _)
  · intro earlier fetch later keys age order got missing unlisted
    rw [after,order,List.foldl_append,List.foldl_cons,refreshGot got]
    exact unlistedRefused (foldUnlisted unlisted missing)

def plainLibrary : Library :=
  ⟨id,fun data => .ok (data.map fun b => ⟨"OKP","Ed25519","","",toString b,"",""⟩),
    fun _ => some (List.replicate 32 7),fun _ => none⟩

def plainKeySet : KeySet := ⟨"https://tokens.test/jwks",∅,zeroTime,zeroTime⟩

def listing (ids : Bytes) : Response := .answered 200 "200 OK" [ascii "max-age=300"] ids none

def listed (now : Time) : Find := ⟨"1",now,listing [1,2],.failed "timeout"⟩

def duringOutage (now : Time) : Find := ⟨"1",now,.failed "timeout",.failed "timeout"⟩

theorem keysRecentOutage :
    ((run plainLibrary plainKeySet [listed (60*10^9)]).find plainLibrary (duringOutage (1860*10^9))).1.result =
      .ok ⟨.ed25519 (List.replicate 32 7),""⟩ ∧
    ∃ (earlier : List Attempt) (last : Attempt) (failures : List Attempt),
      attempts (history plainLibrary plainKeySet [listed (60*10^9),duringOutage (1860*10^9)]) =
        earlier ++ last :: failures ∧ (∀ a ∈ failures, a.Fails plainLibrary) ∧ last.time ≤ 1860*10^9 ∧
      1860*10^9 < last.time+(3600*10^9+300*10^9) := by
  have ok : ((run plainLibrary plainKeySet [listed (60*10^9)]).find plainLibrary
      (duringOutage (1860*10^9))).1.result = .ok ⟨.ed25519 (List.replicate 32 7),""⟩ := by decide +kernel
  have started : newKeySet plainLibrary "https://tokens.test/jwks" "" (.error "") = .ok plainKeySet := rfl
  obtain ⟨earlier,last,failures,keys,age,set,order,_,fails,_,_,_,old,before,recent,_⟩ :=
    (keysRecent plainLibrary (by decide) started [listed (60*10^9)] (duringOutage (1860*10^9)) (by decide)).1 _ ok
  refine ⟨ok,earlier,last,failures,order,fails,before,?_⟩
  exact Int.lt_of_lt_of_le recent (Int.add_le_add_left (Int.add_le_add_left old _) _)

/- Every attempt is 10 s after the ones before it, and the last one is the time the cache remembers. -/
def Spaced (made : List Attempt) (s : KeySet) : Prop :=
  made.Pairwise (fun a b => a.time+minCacheAge ≤ b.time) ∧ ∀ a ∈ made, a.time ≤ s.fetched

theorem dueApart {s : KeySet} {call : Find} (due : Due s call) : s.fetched+minCacheAge ≤ call.now := by
  cases due with
  | expired stale apart => exact apart
  | unknown fresh missing apart => exact Int.le_trans (Int.add_le_add_left (by decide) _) apart

theorem spacedStep {lib : Library} {s : KeySet} {call : Find} {found : Found} {after : KeySet} {made : List Attempt}
    (did : FindStep lib s call (found,after)) (spaced : Spaced made s) : Spaced (made ++ found.attempts) after := by
  cases did with
  | unconfigured file => rwa [List.append_nil]
  | cached configured current => rwa [List.append_nil]
  | fetched configured response due =>
    obtain ⟨apart,before⟩ := spaced
    have next : ∀ a ∈ made, a.time+minCacheAge ≤ call.now :=
      fun a member => Int.le_trans (Int.add_le_add_right (before a member) _) (dueApart due)
    constructor
    · refine List.pairwise_append.mpr ⟨apart,List.pairwise_singleton _ _,fun a member b last => ?_⟩
      rw [List.mem_singleton.mp last]
      exact next a member
    · rw [refreshFetched]
      refine List.forall_mem_append.mpr ⟨fun a member => ?_,List.forall_mem_singleton.mpr (Int.le_refl _)⟩
      exact Int.le_trans (Int.le_add_of_nonneg_right (by decide)) (next a member)

theorem spacedRun (lib : Library) (s : KeySet) (calls : List Find) :
    Spaced (attempts (history lib s calls)) (run lib s calls) := by
  refine History.invariantSeen (step lib) (P := fun seen t => Spaced (attempts seen) t)
    ⟨List.Pairwise.nil,fun _ member => absurd member List.not_mem_nil⟩ ?_
  intro seen e member spaced
  rw [attemptsNext]
  exact spacedStep (eventFound member) spaced

theorem fetchesLimited (lib : Library) (s : KeySet) (past : List Find) (call : Find) :
    ((run lib s past).find lib call).1.attempts.length ≤ 1 ∧
    (attempts (history lib s (past ++ [call]))).Pairwise (fun a b => a.time+10*10^9 ≤ b.time) ∧
    (∀ a ∈ ((run lib s past).find lib call).1.attempts, call.now < (run lib s past).fresh →
      (run lib s past).keys.lookup call.kid = none ∧
      ∀ earlier ∈ attempts (history lib s past), earlier.time+60*10^9 ≤ a.time) ∧
    (call.now < (run lib s past).fresh → (run lib s past).keys.lookup call.kid ≠ none →
      ((run lib s past).find lib call).1.attempts = []) := by
  have did := findStep lib (run lib s past) call
  have before := (spacedRun lib s past).2
  refine ⟨?_,(spacedRun lib s (past ++ [call])).1,?_,?_⟩
  all_goals generalize (run lib s past).find lib call = out at did ⊢
  · cases did <;> simp
  · cases did with
    | unconfigured file => exact fun _ member => absurd member List.not_mem_nil
    | cached configured current => exact fun _ member => absurd member List.not_mem_nil
    | fetched configured response due =>
      refine List.forall_mem_singleton.mpr fun fresh => ?_
      cases due with
      | expired stale apart => exact absurd stale (Int.not_le.mpr fresh)
      | unknown _ missing apart =>
        exact ⟨missing,fun a member => Int.le_trans (Int.add_le_add_right (before a member) _) apart⟩
  · intro fresh listed
    cases did with
    | unconfigured file => rfl
    | cached configured current => rfl
    | fetched configured response due =>
      cases due with
      | expired stale apart => exact absurd stale (Int.not_le.mpr fresh)
      | unknown _ missing apart => exact absurd missing listed

def unknownAt (now : Time) : Find := ⟨"9",now,.failed "timeout",listing [1,2]⟩

theorem fetchesLimitedUnknown :
    ((run plainLibrary plainKeySet [listed (60*10^9),unknownAt (90*10^9)]).find plainLibrary
      (unknownAt (120*10^9))).1.attempts = [⟨120*10^9,listing [1,2]⟩] ∧
    attempts (history plainLibrary plainKeySet [listed (60*10^9),unknownAt (90*10^9)]) = [⟨60*10^9,listing [1,2]⟩] ∧
    ∀ earlier ∈ attempts (history plainLibrary plainKeySet [listed (60*10^9),unknownAt (90*10^9)]),
      earlier.time+60*10^9 ≤ 120*10^9 := by
  have made : ((run plainLibrary plainKeySet [listed (60*10^9),unknownAt (90*10^9)]).find plainLibrary
      (unknownAt (120*10^9))).1.attempts = [⟨120*10^9,listing [1,2]⟩] := by decide +kernel
  have fresh : (unknownAt (120*10^9)).now <
      (run plainLibrary plainKeySet [listed (60*10^9),unknownAt (90*10^9)]).fresh := by decide +kernel
  refine ⟨made,by decide +kernel,?_⟩
  obtain ⟨_,_,spaced,_⟩ := fetchesLimited plainLibrary plainKeySet [listed (60*10^9),unknownAt (90*10^9)]
    (unknownAt (120*10^9))
  exact (spaced ⟨120*10^9,listing [1,2]⟩ (by rw [made]; exact List.mem_cons_self) fresh).2

end SqliteRemote.Token
