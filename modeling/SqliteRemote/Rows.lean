import Mathlib.Data.List.AList
import Mathlib.Data.List.Sort

/-! Finite tables: rows under distinct keys, as a Go map or a table with a primary key.
Rows are read by key, written by key, and erased by a condition on key and row. The
order of the rows is never observable: a listing is sorted by a total order first. -/
namespace SqliteRemote.Rows

abbrev Table (α β : Type) := AList (fun _ : α => β)

section
variable {α β : Type} [DecidableEq α]

def eraseAll (t : Table α β) (keys : List α) : Table α β := keys.foldl (fun t a => t.erase a) t

def keysWhere (t : Table α β) (p : α → β → Bool) : List α :=
  (t.entries.filter (fun e => p e.1 e.2)).map (·.1)

def eraseWhere (t : Table α β) (p : α → β → Bool) : Table α β := eraseAll t (keysWhere t p)

def anyRow (t : Table α β) (p : α → β → Bool) : Bool := t.entries.any (fun e => p e.1 e.2)

theorem lookupInsert (t : Table α β) (a c : α) (b : β) :
    (t.insert a b).lookup c = if c = a then some b else t.lookup c := by
  by_cases same : c = a
  · subst same; simp
  · simp [same,AList.lookup_insert_ne same]

theorem lookupErase (t : Table α β) (a c : α) :
    (t.erase a).lookup c = if c = a then none else t.lookup c := by
  by_cases same : c = a
  · subst same; simp
  · simp [same,AList.lookup_erase_ne same]

theorem lookupEraseAll (t : Table α β) (keys : List α) (a : α) :
    (eraseAll t keys).lookup a = if a ∈ keys then none else t.lookup a := by
  induction keys generalizing t with
  | nil => simp [eraseAll]
  | cons head tail ih =>
    have step : eraseAll t (head :: tail) = eraseAll (t.erase head) tail := rfl
    rw [step,ih,lookupErase]
    by_cases inTail : a ∈ tail
    · simp [inTail]
    · simp [inTail]

theorem memEntries (t : Table α β) (a : α) (b : β) :
    (⟨a,b⟩ : Sigma fun _ : α => β) ∈ t.entries ↔ t.lookup a = some b :=
  (AList.mem_lookup_iff (a := a) (b := b) (s := t)).symm

theorem memKeysWhere (t : Table α β) (p : α → β → Bool) (a : α) :
    a ∈ keysWhere t p ↔ ∃ b, t.lookup a = some b ∧ p a b = true := by
  constructor
  · intro member
    obtain ⟨⟨c,b⟩,found,same⟩ := List.mem_map.mp member
    obtain ⟨present,holds⟩ := List.mem_filter.mp found
    cases same
    exact ⟨b,(memEntries t c b).mp present,holds⟩
  · rintro ⟨b,found,holds⟩
    exact List.mem_map.mpr ⟨⟨a,b⟩,List.mem_filter.mpr ⟨(memEntries t a b).mpr found,holds⟩,rfl⟩

omit [DecidableEq α] in
theorem keysWhereNodup (t : Table α β) (p : α → β → Bool) : (keysWhere t p).Nodup := by
  have whole : (t.entries.map (·.1)).Nodup := t.nodupKeys
  exact whole.sublist (List.filter_sublist.map _)

theorem lookupEraseWhere (t : Table α β) (p : α → β → Bool) (a : α) :
    (eraseWhere t p).lookup a = (t.lookup a).filter (fun b => !p a b) := by
  rw [eraseWhere,lookupEraseAll]
  simp only [memKeysWhere]
  cases found : t.lookup a with
  | none => simp
  | some b => cases holds : p a b <;> simp [Option.filter,holds]

theorem lookupEraseKeys (t : Table α β) (p : α → Bool) (a : α) :
    (eraseWhere t (fun a _ => p a)).lookup a = if p a = true then none else t.lookup a := by
  rw [lookupEraseWhere]
  cases holds : p a <;> cases t.lookup a <;> simp [Option.filter]

theorem anyRowIff (t : Table α β) (p : α → β → Bool) :
    anyRow t p = true ↔ ∃ a b, t.lookup a = some b ∧ p a b = true := by
  simp only [anyRow,List.any_eq_true]
  constructor
  · rintro ⟨⟨a,b⟩,member,holds⟩
    exact ⟨a,b,(memEntries t a b).mp member,holds⟩
  · rintro ⟨a,b,found,holds⟩
    exact ⟨⟨a,b⟩,(memEntries t a b).mpr found,holds⟩

end

end SqliteRemote.Rows
