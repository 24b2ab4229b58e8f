import Mathlib.Data.List.Basic

/-! Lists cut into pieces of one size, the last one shorter, and put together again by writing
each piece over its place. The pieces may come in any order. -/
namespace SqliteRemote.Chunks

section
variable {α : Type}

def chunk (size : Nat) (data : List α) (n : Nat) : List α := (data.drop (n*size)).take size

def chunkCount (size : Nat) (data : List α) : Nat := (data.length+size-1)/size

def overwrite (target : List α) (offset : Nat) (data : List α) : List α :=
  target.take offset ++ data.take (target.length-offset) ++ target.drop (offset+data.length)

theorem chunkStarts {size : Nat} (positive : 0 < size) (data : List α) (n : Nat) :
    n < chunkCount size data ↔ n*size < data.length := by
  rw [chunkCount,Nat.lt_iff_add_one_le,Nat.le_div_iff_mul_le positive,Nat.add_mul,Nat.one_mul]
  omega

theorem chunkGet {size : Nat} (data : List α) (n j : Nat) :
    (chunk size data n)[j]? = if j < size then data[n*size+j]? else none := by
  simp [chunk,List.getElem?_take]

theorem joinedChunks {size : Nat} (positive : 0 < size) (data : List α) :
    (List.range (chunkCount size data)).flatMap (chunk size data) = data := by
  have some_ (count : Nat) : (List.range count).flatMap (chunk size data) = data.take (count*size) := by
    induction count with
    | zero => simp
    | succ count ih => rw [List.range_succ,List.flatMap_append,ih,List.flatMap_singleton,Nat.succ_mul,List.take_add,chunk]
  have all : data.length ≤ chunkCount size data*size := by
    have last := (chunkStarts positive data (chunkCount size data)).not.mp (Nat.lt_irrefl _)
    omega
  rw [some_,List.take_of_length_le all]

theorem overwriteLength (target : List α) (offset : Nat) (data : List α) :
    (overwrite target offset data).length = target.length := by
  simp only [overwrite,List.length_append,List.length_take,List.length_drop]
  omega

theorem overwriteGet (target : List α) (offset : Nat) (data : List α) (j : Nat) :
    (overwrite target offset data)[j]? =
      if offset ≤ j ∧ j < offset+data.length ∧ j < target.length then data[j-offset]? else target[j]? := by
  unfold overwrite
  by_cases before : j < offset
  · rw [if_neg (by omega),List.append_assoc]
    by_cases inside : j < target.length
    · rw [List.getElem?_append_left (by simp; omega),List.getElem?_take,if_pos before]
    · rw [List.getElem?_eq_none (by simp; omega),List.getElem?_eq_none (by omega)]
  · by_cases covered : j < offset+data.length ∧ j < target.length
    · have length : (target.take offset).length = offset := by simp; omega
      rw [if_pos ⟨by omega,covered⟩,List.append_assoc,List.getElem?_append_right (by omega),length,
        List.getElem?_append_left (by simp; omega),List.getElem?_take,if_pos (by omega)]
    · rw [if_neg (by omega)]
      by_cases inside : j < target.length
      · have length : (target.take offset ++ data.take (target.length-offset)).length = offset+data.length := by
          simp; omega
        rw [List.getElem?_append_right (by omega),length,List.getElem?_drop]
        congr 1
        omega
      · rw [List.getElem?_eq_none (by simp; omega),List.getElem?_eq_none (by omega)]

theorem overwriteChunkGet {size : Nat} (positive : 0 < size) {target data : List α}
    (same : target.length = data.length) (n j : Nat) :
    (overwrite target (n*size) (chunk size data n))[j]? = if j/size = n then data[j]? else target[j]? := by
  have length : (chunk size data n).length = min size (data.length-n*size) := by simp [chunk]
  have place : j/size = n ↔ n*size ≤ j ∧ j < n*size+size := by
    rw [Nat.div_eq_iff positive,Nat.mul_comm]
    omega
  rw [overwriteGet,length]
  by_cases here : j/size = n
  · obtain ⟨low,high⟩ := place.mp here
    rw [if_pos here]
    by_cases inside : j < data.length
    · rw [if_pos (by omega),chunkGet,if_pos (by omega),Nat.add_sub_cancel' low]
    · rw [if_neg (by omega),List.getElem?_eq_none (by omega),List.getElem?_eq_none (by omega)]
  · rw [if_neg here,if_neg]
    intro covered
    exact here (place.mpr ⟨covered.1,by omega⟩)

def assemble (size : Nat) (data : List α) (pieces : List Nat) (target : List α) : List α :=
  pieces.foldl (fun target n => overwrite target (n*size) (chunk size data n)) target

theorem assembleGet {size : Nat} (positive : 0 < size) {target data : List α}
    (same : target.length = data.length) (pieces : List Nat) (j : Nat) :
    (assemble size data pieces target)[j]? = if j/size ∈ pieces then data[j]? else target[j]? := by
  induction pieces generalizing target with
  | nil => simp [assemble]
  | cons n rest ih =>
    have kept : (overwrite target (n*size) (chunk size data n)).length = data.length := by
      rw [overwriteLength,same]
    have one := ih kept
    rw [overwriteChunkGet positive same] at one
    rw [assemble,List.foldl_cons]
    refine one.trans ?_
    by_cases later : j/size ∈ rest
    · rw [if_pos later,if_pos (List.mem_cons_of_mem _ later)]
    · rw [if_neg later]
      refine if_congr ?_ rfl rfl
      rw [List.mem_cons,or_iff_left later]

theorem assembleAll {size : Nat} (positive : 0 < size) {target data : List α}
    (same : target.length = data.length) {pieces : List Nat}
    (all : ∀ n, n < chunkCount size data → n ∈ pieces) : assemble size data pieces target = data := by
  refine List.ext_getElem? (fun j => ?_)
  rw [assembleGet positive same]
  by_cases inside : j < data.length
  · have start : j/size*size < data.length := Nat.lt_of_le_of_lt (Nat.div_mul_le_self j size) inside
    rw [if_pos (all _ ((chunkStarts positive data _).mpr start))]
  · rw [List.getElem?_eq_none (by omega),List.getElem?_eq_none (l := target) (by omega)]
    exact ite_self _

end
end SqliteRemote.Chunks
