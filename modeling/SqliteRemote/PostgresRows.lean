import Mathlib.Data.List.Dedup
import SqliteRemote.PostgresStore

/-! What a write does to one row, one part, one log entry and one slot, and what the queries
over several rows list. -/
namespace SqliteRemote.Postgres
open Rows Chunks StoreContract Programs RowLocking

theorem signedSmall {x : UInt64} (small : x.toNat < 2^63) : x.toInt64.toInt = x.toNat := by
  have value : x.toInt64.toInt = x.toBitVec.toInt := rfl
  have same : x.toBitVec.toNat = x.toNat := rfl
  rw [value,BitVec.toInt_eq_toNat_cond,same,if_pos (by omega)]

theorem signedLarge {x : UInt64} (large : 2^63 ≤ x.toNat) : x.toInt64.toInt = x.toNat-2^64 := by
  have value : x.toInt64.toInt = x.toBitVec.toInt := rfl
  have same : x.toBitVec.toNat = x.toNat := rfl
  rw [value,BitVec.toInt_eq_toNat_cond,same,if_neg (by omega)]
  rfl

theorem signedInjective : Function.Injective UInt64.toInt64 := by
  intro x y same
  rw [← UInt64.toUInt64_toInt64 x,same,UInt64.toUInt64_toInt64]

theorem signedIff {x : Int64} {y : UInt64} : x.toUInt64 = y ↔ x = y.toInt64 :=
  ⟨fun same => by rw [← same,Int64.toInt64_toUInt64],fun same => by rw [same,UInt64.toUInt64_toInt64]⟩

def Tables.part (t : Tables) (key : Key) (idx : Int64) (n : Nat) : Option Bytes := t.blocks.lookup ⟨key,idx,n⟩

def Tables.change (t : Tables) (key : Key) (version : Nat) : Option (List Int64) := t.changes.lookup ⟨key,version⟩

def Tables.put (t : Tables) (key : Key) (row : Row) : Tables := (Write.database key row).apply t

section
variable (t : Tables) (k : Key)

theorem rowApply (w : Write) : (w.apply t).row k = match w with
    | .database key row => if k = key then some row else t.row k
    | .purge key => if k = key then none else t.row k
    | _ => t.row k := by
  cases w <;> simp only [Write.apply,Tables.row,lookupInsert,lookupErase]

theorem partApply (idx : Int64) (n : Nat) (w : Write) : (w.apply t).part k idx n = match w with
    | .part key p => if k = key ∧ idx = p.idx ∧ n = p.part then some p.data else t.part k idx n
    | .cutBlocks key cut => if k = key ∧ cut ≤ idx then none else t.part k idx n
    | .purge key => if k = key then none else t.part k idx n
    | _ => t.part k idx n := by
  cases w <;> simp only [Write.apply,Tables.part,lookupInsert,lookupEraseKeys,PartKey.mk.injEq,
    Bool.and_eq_true,beq_iff_eq,decide_eq_true_eq]

theorem changeApply (v : Nat) (w : Write) : (w.apply t).change k v = match w with
    | .change key version blocks => if k = key ∧ v = version then some blocks else t.change k v
    | .pruneChanges key version => if k = key ∧ v ≤ version then none else t.change k v
    | .clearChanges key => if k = key then none else t.change k v
    | .purge key => if k = key then none else t.change k v
    | _ => t.change k v := by
  cases w <;> simp only [Write.apply,Tables.change,lookupInsert,lookupEraseKeys,ChangeKey.mk.injEq,
    Bool.and_eq_true,beq_iff_eq,decide_eq_true_eq]

theorem slotApply (owner : String) (w : Write) : (w.apply t).slots.lookup owner = match w with
    | .slot o held => if owner = o then some held else t.slots.lookup owner
    | .dropSlot o => if owner = o then none else t.slots.lookup owner
    | _ => t.slots.lookup owner := by
  cases w <;> simp only [Write.apply,lookupInsert,lookupErase]

theorem memParts (first beyond : Int64) (p : Part) :
    p ∈ t.parts k first beyond ↔ t.part k p.idx p.part = some p.data ∧ first ≤ p.idx ∧ p.idx < beyond := by
  rw [Tables.parts,(List.perm_insertionSort _ _).mem_iff,List.mem_map]
  constructor
  · intro listed
    obtain ⟨⟨at_,data⟩,member,same⟩ := listed
    obtain ⟨stored,inside⟩ := List.mem_filter.mp member
    simp only [Bool.and_eq_true,beq_iff_eq,decide_eq_true_eq] at inside
    obtain ⟨⟨key,low⟩,high⟩ := inside
    subst key same
    exact ⟨(memEntries _ _ _).mp stored,low,high⟩
  · intro found
    obtain ⟨stored,low,high⟩ := found
    refine ⟨⟨⟨k,p.idx,p.part⟩,p.data⟩,List.mem_filter.mpr ⟨(memEntries _ _ _).mpr stored,?_⟩,rfl⟩
    simp [low,high]

theorem memLog (v : Nat) (blocks : List Int64) : (v,blocks) ∈ t.log k ↔ t.change k v = some blocks := by
  rw [Tables.log,(List.perm_insertionSort _ _).mem_iff,List.mem_map]
  constructor
  · intro listed
    obtain ⟨⟨at_,data⟩,member,same⟩ := listed
    obtain ⟨stored,inside⟩ := List.mem_filter.mp member
    obtain ⟨version,written⟩ := Prod.mk.inj same
    subst version written
    have key : at_.key = k := by simpa using inside
    subst key
    exact (memEntries _ _ _).mp stored
  · intro found
    exact ⟨⟨⟨k,v⟩,blocks⟩,List.mem_filter.mpr ⟨(memEntries _ _ _).mpr found,by simp⟩,rfl⟩

theorem logNodup : (t.log k).Nodup := by
  rw [Tables.log,(List.perm_insertionSort _ _).nodup_iff]
  have distinct : (t.changes.entries.filter (fun e => e.1.key == k)).Nodup := t.changes.nodupKeys.nodup.filter _
  refine (List.nodup_map_iff_inj_on distinct).mpr ?_
  intro a first b second same
  have keyOf {e : Sigma fun _ : ChangeKey => List Int64}
      (member : e ∈ t.changes.entries.filter (fun e => e.1.key == k)) : e.1.key = k := by
    simpa using (List.mem_filter.mp member).2
  obtain ⟨⟨key,version⟩,blocks⟩ := a
  obtain ⟨⟨other,later⟩,others⟩ := b
  obtain ⟨sameVersion,sameBlocks⟩ := Prod.mk.inj same
  have left : key = k := keyOf first
  have right : other = k := keyOf second
  simp only at sameVersion sameBlocks
  subst left right sameVersion sameBlocks
  rfl

theorem logOrdered : (t.log k).Pairwise (fun a b => a.1 ≤ b.1) := by
  have total : Std.Total (fun a b : Nat × List Int64 => a.1 ≤ b.1) := ⟨fun a b => Nat.le_total _ _⟩
  have trans : IsTrans (Nat × List Int64) (fun a b => a.1 ≤ b.1) := ⟨fun _ _ _ => Nat.le_trans⟩
  exact List.pairwise_insertionSort _ _

/- The log in order of version is whatever ordered list holds the same entries. -/
theorem logIs {log : List (Nat × List Int64)} (ordered : log.Pairwise (fun a b => a.1 < b.1))
    (same : ∀ v blocks, t.change k v = some blocks ↔ (v,blocks) ∈ log) : t.log k = log := by
  have distinct : log.Nodup := ordered.imp (fun less equal => by rw [equal] at less; omega)
  have perm : (t.log k).Perm log := by
    refine (List.perm_ext_iff_of_nodup (logNodup t k) distinct).mpr ?_
    intro entry
    rw [← same,← memLog]
  refine perm.eq_of_pairwise ?_ (logOrdered t k) (ordered.imp Nat.le_of_lt)
  intro a b first second ab ba
  have left : t.change k a.1 = some a.2 := (memLog t k _ _).mp first
  have right : t.change k b.1 = some b.2 := (same _ _).mpr second
  have version : a.1 = b.1 := Nat.le_antisymm ab ba
  rw [version,right] at left
  exact Prod.ext version (Option.some.inj left).symm

end

def partOf (data : Bytes) (n : Nat) : Option Bytes :=
  if n < chunkCount partBytes data then some (chunk partBytes data n) else none

def BlocksAre (t : Tables) (k : Key) (blocks : UInt64 → Option Bytes) : Prop :=
  ∀ i n, t.part k i.toInt64 n = (blocks i).bind (fun data => partOf data n)

theorem copiedAt (first : UInt64) (parts : List Part) (blocks : List Bytes) (n : Nat) :
    (parts.foldl (copyPart first) blocks)[n]? = (blocks[n]?).map (fun block =>
      (parts.filter (fun p => (p.idx.toUInt64-first).toNat = n)).foldl
        (fun block p => overwrite block (p.part*partBytes) p.data) block) := by
  induction parts generalizing blocks with
  | nil => simp
  | cons p rest ih =>
    rw [List.foldl_cons,ih,copyPart,List.getElem?_modify,List.filter_cons]
    by_cases here : (p.idx.toUInt64-first).toNat = n
    · cases blocks[n]? <;> simp [here]
    · cases blocks[n]? <;> simp [here]

theorem blockOffset {first i : UInt64} {n : Nat} (short : n < 2^64) :
    (i-first).toNat = n ↔ i = first+UInt64.ofNat n := by
  constructor
  · intro same
    rw [← same,UInt64.ofNat_toNat,UInt64.add_comm,UInt64.sub_add_cancel]
  · intro same
    rw [same,UInt64.add_comm,UInt64.add_sub_cancel,UInt64.toNat_ofNat_of_lt' short]

section
variable {t : Tables} {k : Key} {blocks : UInt64 → Option Bytes} (stored : BlocksAre t k blocks)
include stored

/- One block put together from whatever parts of it the query returned. -/
theorem copiedBlock {size : Nat} (sizes : ∀ i data, blocks i = some data → data.length = size) (i : UInt64)
    (low beyond : Int64) :
    ((t.parts k low beyond).filter (fun p => p.idx = i.toInt64)).foldl
      (fun block p => overwrite block (p.part*partBytes) p.data) (List.replicate size 0) =
    if low ≤ i.toInt64 ∧ i.toInt64 < beyond then (blocks i).getD (List.replicate size 0)
    else List.replicate size 0 := by
  have member (p : Part) : p ∈ (t.parts k low beyond).filter (fun p => p.idx = i.toInt64) ↔
      (t.part k i.toInt64 p.part = some p.data ∧ low ≤ i.toInt64 ∧ i.toInt64 < beyond) ∧ p.idx = i.toInt64 := by
    rw [List.mem_filter,memParts,decide_eq_true_eq]
    refine and_congr_left (fun same => ?_)
    rw [same]
  by_cases asked : low ≤ i.toInt64 ∧ i.toInt64 < beyond
  · rw [if_pos asked]
    cases found : blocks i with
    | none =>
      have nothing : (t.parts k low beyond).filter (fun p => p.idx = i.toInt64) = [] := by
        refine List.eq_nil_iff_forall_not_mem.mpr (fun p listed => ?_)
        have there := ((member p).mp listed).1.1
        rw [stored,found] at there
        contradiction
      rw [nothing]
      rfl
    | some data =>
      have pieces : ∀ p ∈ (t.parts k low beyond).filter (fun p => p.idx = i.toInt64),
          p.data = chunk partBytes data p.part := by
        intro p listed
        have there := ((member p).mp listed).1.1
        rw [stored,found] at there
        simp only [Option.bind_some,partOf] at there
        split at there <;> try contradiction
        exact (Option.some.inj there).symm
      have all : ∀ n, n < chunkCount partBytes data →
          n ∈ ((t.parts k low beyond).filter (fun p => p.idx = i.toInt64)).map Part.part := by
        intro n inside
        refine List.mem_map.mpr ⟨⟨i.toInt64,n,chunk partBytes data n⟩,(member _).mpr ⟨⟨?_,asked⟩,rfl⟩,rfl⟩
        rw [stored,found]
        simp [partOf,inside]
      have same : (List.replicate size (0 : UInt8)).length = data.length := by
        rw [List.length_replicate,sizes i data found]
      have whole := assembleAll (by decide : 0 < partBytes) same all
      rw [assemble,List.foldl_map] at whole
      rw [Option.getD_some]
      refine Eq.trans (List.foldl_ext _ _ _ ?_) whole
      intro block p listed
      rw [pieces p listed]
  · rw [if_neg asked]
    have nothing : (t.parts k low beyond).filter (fun p => p.idx = i.toInt64) = [] :=
      List.eq_nil_iff_forall_not_mem.mpr (fun p listed => asked ((member p).mp listed).1.2)
    rw [nothing]
    rfl

theorem copiedRange {size : Nat} (sizes : ∀ i data, blocks i = some data → data.length = size)
    (first count : UInt64) (low beyond : Int64) :
    (t.parts k low beyond).foldl (copyPart first) (List.replicate count.toNat (List.replicate size 0)) =
    (List.range count.toNat).map (fun n =>
      if low ≤ (first+UInt64.ofNat n).toInt64 ∧ (first+UInt64.ofNat n).toInt64 < beyond then
        (blocks (first+UInt64.ofNat n)).getD (List.replicate size 0)
      else List.replicate size 0) := by
  refine List.ext_getElem? (fun n => ?_)
  rw [copiedAt,List.getElem?_map]
  by_cases inside : n < count.toNat
  · have short : n < 2^64 := Nat.lt_trans inside (UInt64.toNat_lt count)
    have place : (fun p : Part => decide ((p.idx.toUInt64-first).toNat = n)) =
        (fun p => decide (p.idx = (first+UInt64.ofNat n).toInt64)) := by
      funext p
      exact decide_eq_decide.mpr ((blockOffset short).trans signedIff)
    rw [List.getElem?_replicate,if_pos inside,List.getElem?_range inside,Option.map_some,Option.map_some,place,
      copiedBlock stored sizes]
  · rw [List.getElem?_eq_none (by simpa using inside),List.getElem?_eq_none (by simpa using inside)]
    rfl

end
end SqliteRemote.Postgres
