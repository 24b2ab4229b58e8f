import SqliteRemote.PostgresStore

/-! Migration 00003. Going up, its INSERT cuts every whole block into parts; going down, it joins the
parts of each block again. The rows of a table come in any order. -/
namespace SqliteRemote.Postgres
open Chunks StoreContract

structure BlockKey where
  key : Key
  idx : Int64
  deriving DecidableEq, Repr

def PartKey.block (p : PartKey) : BlockKey := ⟨p.key,p.idx⟩

def generateSeries (first last : Int) : List Int := (List.range (last-first+1).toNat).map (fun n : Nat => first+(n : Int))

-- substring(data FROM start FOR count), which counts the bytes from 1.
def substring (data : Bytes) (start count : Int) : Bytes :=
  (data.drop (max start 1-1).toNat).take (start+count-max start 1).toNat

-- The division of two integers in SQL truncates.
def upParts (block : BlockKey × Bytes) : List (PartKey × Bytes) :=
  (generateSeries 0 (((block.2.length : Int)-1).tdiv 1024)).map (fun part =>
    (⟨block.1.key,block.1.idx,part.toNat⟩,substring block.2 (part*1024+1) 1024))

def migrateUp (blocks : List (BlockKey × Bytes)) : List (PartKey × Bytes) := blocks.flatMap upParts

def stringAgg (parts : List (PartKey × Bytes)) : Bytes :=
  (parts.insertionSort (fun a b => a.1.part ≤ b.1.part)).flatMap Prod.snd

def migrateDown (parts : List (PartKey × Bytes)) : List (BlockKey × Bytes) :=
  (parts.map (fun p => p.1.block)).dedup.map (fun b => (b,stringAgg (parts.filter (fun p => p.1.block = b))))

def partRows (block : BlockKey × Bytes) : List (PartKey × Bytes) :=
  (blockParts ⟨block.1.idx.toUInt64,block.2⟩).map (fun p => (⟨block.1.key,p.idx,p.part⟩,p.data))

theorem partRowsAre (block : BlockKey × Bytes) : partRows block = (List.range (chunkCount partBytes block.2)).map
    (fun n => (⟨block.1.key,block.1.idx,n⟩,chunk partBytes block.2 n)) := by
  rw [partRows,blockParts,List.map_map]
  simp only [Function.comp_def,Int64.toInt64_toUInt64]

theorem substringChunk (data : Bytes) (n : Nat) : substring data (n*1024+1) 1024 = chunk partBytes data n := by
  have start : max ((n : Int)*1024+1) 1 = n*1024+1 := by omega
  have skipped : ((n : Int)*1024+1-1).toNat = n*partBytes := by
    simp only [partBytes]
    omega
  have taken : ((n : Int)*1024+1+1024-(n*1024+1)).toNat = partBytes := by
    simp only [partBytes]
    omega
  rw [substring,start,skipped,taken,chunk]

theorem upPartsAre {block : BlockKey × Bytes} (nonempty : 1 ≤ block.2.length) : upParts block = partRows block := by
  have count : (((block.2.length : Int)-1).tdiv 1024-0+1).toNat = chunkCount partBytes block.2 := by
    rw [Int.tdiv_eq_ediv_of_nonneg (by omega)]
    simp only [chunkCount,partBytes]
    omega
  rw [upParts,generateSeries,count,List.map_map,partRowsAre]
  refine List.map_congr_left (fun n _ => ?_)
  simp only [Function.comp_def,Int.zero_add,Int.toNat_natCast,substringChunk]

theorem partRowsBlock {block : BlockKey × Bytes} {p : PartKey × Bytes} (member : p ∈ partRows block) :
    p.1.block = block.1 ∧ p.1.part*partBytes < block.2.length := by
  rw [partRowsAre] at member
  obtain ⟨n,inside,rfl⟩ := List.mem_map.mp member
  exact ⟨rfl,(chunkStarts (by decide) block.2 n).mp (List.mem_range.mp inside)⟩

theorem partRowsSome {block : BlockKey × Bytes} (nonempty : 1 ≤ block.2.length) : ∃ p, p ∈ partRows block := by
  rw [partRowsAre]
  have first : 0 < chunkCount partBytes block.2 := (chunkStarts (by decide) block.2 0).mpr (by omega)
  exact ⟨_,List.mem_map.mpr ⟨0,List.mem_range.mpr first,rfl⟩⟩

theorem stringAggParts {block : BlockKey × Bytes} {parts : List (PartKey × Bytes)} (perm : parts.Perm (partRows block)) :
    stringAgg parts = block.2 := by
  have total : Std.Total (fun a b : PartKey × Bytes => a.1.part ≤ b.1.part) := ⟨fun a b => Nat.le_total _ _⟩
  have trans : IsTrans (PartKey × Bytes) (fun a b => a.1.part ≤ b.1.part) := ⟨fun _ _ _ => Nat.le_trans⟩
  have ordered : (partRows block).Pairwise (fun a b => a.1.part ≤ b.1.part) := by
    rw [partRowsAre]
    exact List.pairwise_map.mpr (List.pairwise_lt_range.imp Nat.le_of_lt)
  have sorted : parts.insertionSort (fun a b => a.1.part ≤ b.1.part) = partRows block := by
    refine ((List.perm_insertionSort _ parts).trans perm).eq_of_pairwise ?_ (List.pairwise_insertionSort _ parts) ordered
    intro a b first second ab ba
    have left := perm.mem_iff.mp ((List.perm_insertionSort _ parts).mem_iff.mp first)
    rw [partRowsAre] at left second
    obtain ⟨n,_,rfl⟩ := List.mem_map.mp left
    obtain ⟨m,_,rfl⟩ := List.mem_map.mp second
    cases Nat.le_antisymm ab ba
    rfl
  rw [stringAgg,sorted,partRowsAre,List.flatMap_map]
  exact joinedChunks (by decide) block.2

section
variable {blocks : List (BlockKey × Bytes)}

theorem migrateUpParts (nonempty : ∀ b ∈ blocks, 1 ≤ b.2.length) : migrateUp blocks = blocks.flatMap partRows := by
  rw [migrateUp]
  refine List.flatMap_congr (fun b member => ?_)
  exact upPartsAre (nonempty b member)

theorem partsOfBlock (once : (blocks.map Prod.fst).Nodup) {b : BlockKey × Bytes} (member : b ∈ blocks) :
    (blocks.flatMap partRows).filter (fun p => p.1.block = b.1) = partRows b := by
  induction blocks with
  | nil => contradiction
  | cons head rest ih =>
    obtain ⟨fresh,once⟩ := List.nodup_cons.mp once
    have whole (c : BlockKey × Bytes) (same : c.1 = b.1) :
        (partRows c).filter (fun p => p.1.block = b.1) = partRows c := by
      refine List.filter_eq_self.mpr (fun p listed => decide_eq_true ?_)
      rw [(partRowsBlock listed).1,same]
    have nothing (c : BlockKey × Bytes) (other : c.1 ≠ b.1) : (partRows c).filter (fun p => p.1.block = b.1) = [] := by
      refine List.filter_eq_nil_iff.mpr (fun p listed => ?_)
      rw [(partRowsBlock listed).1]
      simpa using other
    rw [List.flatMap_cons,List.filter_append]
    rcases List.mem_cons.mp member with rfl | later
    · have others : (rest.flatMap partRows).filter (fun p => p.1.block = b.1) = [] := by
        refine List.filter_eq_nil_iff.mpr (fun p listed => ?_)
        obtain ⟨c,among,listed⟩ := List.mem_flatMap.mp listed
        rw [(partRowsBlock listed).1]
        simp only [decide_eq_true_eq]
        intro same
        exact fresh (List.mem_map.mpr ⟨c,among,same⟩)
      rw [whole b rfl,others,List.append_nil]
    · have other : head.1 ≠ b.1 := by
        intro same
        exact fresh (List.mem_map.mpr ⟨b,later,same.symm⟩)
      rw [nothing head other,List.nil_append]
      exact ih once later

theorem migrateDownUp (nonempty : ∀ b ∈ blocks, 1 ≤ b.2.length) (once : (blocks.map Prod.fst).Nodup)
    {parts : List (PartKey × Bytes)} (perm : parts.Perm (migrateUp blocks)) : (migrateDown parts).Perm blocks := by
  rw [migrateUpParts nonempty] at perm
  have joined {b : BlockKey × Bytes} (member : b ∈ blocks) :
      stringAgg (parts.filter (fun p => p.1.block = b.1)) = b.2 := by
    have of := perm.filter (fun p => p.1.block = b.1)
    rw [partsOfBlock once member] at of
    exact stringAggParts of
  have distinct : (migrateDown parts).Nodup := by
    refine (List.nodup_map_iff_inj_on (List.nodup_dedup _)).mpr ?_
    intro a _ b _ same
    exact (Prod.mk.inj same).1
  refine (List.perm_ext_iff_of_nodup distinct once.of_map).mpr (fun b => ?_)
  rw [migrateDown,List.mem_map]
  constructor
  · intro found
    obtain ⟨key,listed,rfl⟩ := found
    obtain ⟨p,member,rfl⟩ := List.mem_map.mp (List.mem_dedup.mp listed)
    obtain ⟨c,among,part⟩ := List.mem_flatMap.mp (perm.mem_iff.mp member)
    rw [(partRowsBlock part).1,joined among]
    exact among
  · intro among
    obtain ⟨p,part⟩ := partRowsSome (nonempty b among)
    refine ⟨b.1,List.mem_dedup.mpr (List.mem_map.mpr ⟨p,?_,(partRowsBlock part).1⟩),?_⟩
    · exact perm.mem_iff.mpr (List.mem_flatMap.mpr ⟨b,among,part⟩)
    · rw [joined among]

end
end SqliteRemote.Postgres
