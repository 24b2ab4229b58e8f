import SqliteRemote.PostgresRefinement

/-! The times of a request have nanoseconds and a timestamptz has microseconds. The store compares what
it is given with times it has stored before, which are whole microseconds, so it does with a request
what it does with the same request cut to microseconds, and that is what the memory store does. -/
namespace SqliteRemote.Postgres
open Rows StoreContract Programs RowLocking
open MemoryStore (Database Store record)

def truncatedOpen (req : OpenRequest) : OpenRequest :=
  {req with now := timestamp req.now, ttl := timestamp (req.now+req.ttl)-timestamp req.now}

def truncatedCommit (req : CommitRequest) : CommitRequest :=
  {req with now := timestamp req.now, ttl := timestamp (req.now+req.ttl)-timestamp req.now}

/- Deletions compare the time they are given and store none. -/
def truncated : Op → Op
  | .openDatabase req id => .openDatabase (truncatedOpen req) id
  | .commit req => .commit (truncatedCommit req)
  | .renew key epoch now ttl => .renew key epoch (timestamp now) (timestamp (now+ttl)-timestamp now)
  | op => op

theorem timestampWhole (time : Time) : 1000 ∣ timestamp time := Int.dvd_mul_left _ _

theorem timestampTwice (time : Time) : timestamp (timestamp time) = timestamp time := wholeTimestamp (timestampWhole time)

theorem truncatedEnd (now : Time) (ttl : Duration) : timestamp now+(timestamp (now+ttl)-timestamp now) = timestamp (now+ttl) :=
  add_sub_cancel _ _

theorem beforeWhole {expires : Time} (whole : 1000 ∣ expires) (now : Time) : timestamp now < expires ↔ now < expires := by
  obtain ⟨n,rfl⟩ := whole
  have below (time n : Int) : time/1000*1000 < 1000*n ↔ time < 1000*n := by omega
  exact below now n

def Row.Whole (row : Row) : Prop := row.leaseHolder.isSome → ∀ expires, row.leaseExpires = some expires → 1000 ∣ expires

theorem activeTruncated {row : Row} (whole : row.Whole) (now : Time) : row.active (timestamp now) = row.active now := by
  unfold Row.active
  cases held : row.leaseHolder with
  | none => rfl
  | some holder =>
    cases expires : row.leaseExpires with
    | none => rfl
    | some time =>
      have same := beforeWhole (whole (by rw [held]; rfl) time expires) now
      simp only [Option.any_some,decide_eq_decide.mpr same]

section
variable {t : Tables} {req : OpenRequest} {row : Row} (found : t.row req.key = some row) (whole : row.Whole) (id : Bytes)
include found whole

theorem grantTruncated :
    execBody engine (grantLease (truncatedOpen req) id row) t = execBody engine (grantLease req id row) t := by
  have there : t.row (truncatedOpen req).key = some row := found
  rw [execGrant found,execGrant there]
  simp only [truncatedOpen,activeTruncated whole,timestampTwice,truncatedEnd]

theorem resumeTruncated :
    execBody engine (resumeOrGrant (truncatedOpen req) id row) t = execBody engine (resumeOrGrant req id row) t := by
  have there : t.row (truncatedOpen req).key = some row := found
  have same : (truncatedOpen req).resume = req.resume := rfl
  rw [execResumeOrGrant found,execResumeOrGrant there,same]
  cases req.resume with
  | none => exact grantTruncated found whole id
  | some resume => simp only [truncatedOpen,timestampTwice,truncatedEnd]

theorem openRowTruncated :
    execBody engine (openRow (truncatedOpen req) id row) t = execBody engine (openRow req id row) t := by
  have there : t.row (truncatedOpen req).key = some row := found
  have revived := resumeTruncated (putRow t req.key (row.revived req.pageSize.toInt32)) whole id
  have resumed := resumeTruncated found whole id
  rw [execOpenRow found,execOpenRow there,resumed]
  simp only [truncatedOpen] at revived ⊢
  rw [revived]
  rfl

end

theorem openTruncated {t : Tables} {req : OpenRequest} (whole : ∀ row, t.row req.key = some row → row.Whole) (id : Bytes) :
    execBody engine (openBody (truncatedOpen req) id) t = execBody engine (openBody req id) t := by
  have database : execBody engine (openDatabase (truncatedOpen req) id) t =
      execBody engine (openDatabase req id) t := by
    have same : t.row (truncatedOpen req).key = t.row req.key := rfl
    rw [execOpenDatabase,execOpenDatabase,same]
    cases found : t.row req.key with
    | some row => exact openRowTruncated found (whole row found) id
    | none =>
      have missing : t.row (truncatedOpen req).key = none := found
      have unheld : (newRow req.pageSize.toInt32).Whole := fun held => Bool.noConfusion held
      have made := openRowTruncated (putRow t req.key (newRow req.pageSize.toInt32)) unheld id
      simp only
      rw [execCreate found,execCreate missing]
      simp only [truncatedOpen] at made ⊢
      rw [made]
      rfl
  rw [execOpen,execOpen,database]
  rfl

theorem commitTruncated (t : Tables) (req : CommitRequest) :
    execBody engine (commitBody (truncatedCommit req)) t = execBody engine (commitBody req) t := by
  have same : t.row (truncatedCommit req).key = t.row req.key := rfl
  rw [execCommit,execCommit,same]
  cases t.row req.key with
  | none => rfl
  | some row =>
    have extended : row.extended (timestamp ((truncatedCommit req).now+(truncatedCommit req).ttl)) =
        row.extended (timestamp (req.now+req.ttl)) := by
      simp only [truncatedCommit,truncatedEnd,timestampTwice]
    have applied : t.committed (truncatedCommit req) row = t.committed req row := by
      simp only [Tables.committed,Row.afterCommit,truncatedCommit,truncatedEnd,timestampTwice]
    simp only
    rw [extended,applied]
    rfl

theorem stepTruncated {t : Tables} (whole : ∀ k row, t.row k = some row → row.Whole) (op : Op) :
    step t (truncated op) = step t op := by
  cases op with
  | openDatabase req id =>
    have is (req : OpenRequest) : script (.openDatabase req id) = inTx .opened (openBody req id) := rfl
    rw [truncated,stepTx t (is _),stepTx t (is _),openTruncated (whole req.key) id]
  | commit req =>
    have is (req : CommitRequest) : script (.commit req) = inTx .version (commitBody req) := rfl
    rw [truncated,stepTx t (is _),stepTx t (is _),commitTruncated]
  | renew key epoch now ttl =>
    have ends : engine.after (.extendLease key epoch (timestamp now+(timestamp (now+ttl)-timestamp now))) t =
        engine.after (.extendLease key epoch (now+ttl)) t := by
      simp only [afterWrites,Query.writes,truncatedEnd,timestampTwice]
    have is (now : Time) (ttl : Duration) : script (.renew key epoch now ttl) =
      .ask (.auto (.extendLease key epoch (now+ttl))) (whyNoRow key) := rfl
    rw [truncated,stepLease (is _ _),stepLease (is _ _),ends]
    rfl
  | _ => rfl

def Exact (s : Store) : Prop := ∀ k db, record s k = some db → 1000 ∣ db.expiresAt

theorem exactStep {s : Store} (valid : MemoryStore.WellformedStore s) (whole : Exact s) (op : Op) :
    Exact (MemoryStore.step s (truncated op)).2 := by
  intro k db found
  have ends {now : Time} {ttl : Duration} : 1000 ∣ timestamp now+(timestamp (now+ttl)-timestamp now) := by
    rw [truncatedEnd]
    exact timestampWhole _
  have did := MemoryStore.recordStep valid.unheld (truncated op) k
  rw [found] at did
  generalize (MemoryStore.step s (truncated op)).1 = reply at did
  generalize after : (some db : Option Database) = out at did
  generalize is : truncated op = cut at did
  cases did with
  | idle quiet => exact whole k db after.symm
  | resumed | granted | revived | created =>
    cases op with
    | openDatabase req id =>
      cases is
      cases after
      exact ends
    | _ => cases is
  | repeated | applied =>
    cases op with
    | commit req =>
      cases is
      cases after
      exact ends
    | _ => cases is
  | renewed =>
    cases op with
    | renew key epoch now ttl =>
      cases is
      cases after
      exact ends
    | _ => cases is
  | released there | deleted _ there | swept _ there =>
    have before := whole k _ there
    cases after
    exact before
  | purged present cause => contradiction

end SqliteRemote.Postgres
