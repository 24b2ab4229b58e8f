import SqliteRemote.ConnectionHandler

/-! The frames of a fetch. The blocks of one range go out in consecutive frames of their own, at
least one for each range, and only the last frame of the answer is marked as last. -/
namespace SqliteRemote.Protocol
open StoreContract Programs

def pagesFrame (id : UInt64) (pages : Pages) : ServerFrame := ⟨id,.pages pages⟩

inductive Consecutive : UInt64 → List Pages → Prop where
  | nil (first : UInt64) : Consecutive first []
  | cons {first : UInt64} {p : Pages} {rest : List Pages} (start : p.firstBlock = first)
      (later : Consecutive (first+UInt64.ofNat p.blocks.length) rest) : Consecutive first (p :: rest)

structure Group (perFrame : Nat) (first : UInt64) (blocks : List Bytes) (pages : List Pages) : Prop where
  nonempty : pages ≠ []
  consecutive : Consecutive first pages
  whole : pages.flatMap Pages.blocks = blocks
  short : ∀ p ∈ pages, p.blocks.length ≤ perFrame

def Flagged (last : Bool) (pages : List Pages) : Prop :=
  ∃ init final, pages = init ++ [final] ∧ (∀ p ∈ init, p.last = false) ∧ final.last = last

theorem flaggedCons {last : Bool} {p : Pages} {rest : List Pages} (unmarked : p.last = false)
    (flagged : Flagged last rest) : Flagged last (p :: rest) := by
  obtain ⟨init,final,rfl,open_,closed⟩ := flagged
  exact ⟨p :: init,final,rfl,List.forall_mem_cons.mpr ⟨unmarked,open_⟩,closed⟩

theorem flaggedUnmarked {pages : List Pages} (flagged : Flagged false pages) : ∀ p ∈ pages, p.last = false := by
  obtain ⟨init,final,rfl,open_,closed⟩ := flagged
  intro p member
  rcases List.mem_append.mp member with there | here
  · exact open_ p there
  · rw [List.mem_singleton.mp here]
    exact closed

theorem flaggedAppend {last : Bool} {first rest : List Pages} (unmarked : Flagged false first)
    (flagged : Flagged last rest) : Flagged last (first ++ rest) := by
  obtain ⟨init,final,rfl,open_,closed⟩ := flagged
  refine ⟨first ++ init,final,(List.append_assoc _ _ _).symm,?_,closed⟩
  intro p member
  rcases List.mem_append.mp member with there | here
  · exact flaggedUnmarked unmarked p there
  · exact open_ p here

theorem pagesOfGroup (id first : UInt64) {perFrame : Nat} (positive : 1 ≤ perFrame) (lastRun : Bool)
    (blocks : List Bytes) (start rounds : Nat) (inside : start ≤ blocks.length) (enough : blocks.length < start+rounds) :
    ∃ pages, pagesOf id first perFrame lastRun blocks start rounds = pages.map (pagesFrame id) ∧
      Group perFrame (first+UInt64.ofNat start) (blocks.drop start) pages ∧ Flagged lastRun pages := by
  induction rounds generalizing start with
  | zero => omega
  | succ rounds ih =>
    unfold pagesOf
    -- The blocks of this round are those from start up to the end of the frame.
    have piece : ((blocks.take (min (start+perFrame) blocks.length)).drop start).length =
        min (start+perFrame) blocks.length-start := by
      rw [List.length_drop,List.length_take]
      omega
    have split : (blocks.take (min (start+perFrame) blocks.length)).drop start ++
        blocks.drop (min (start+perFrame) blocks.length) = blocks.drop start := by
      rw [← List.drop_append_of_le_length (by rw [List.length_take]; omega),List.take_append_drop]
    simp only
    split
    · rename_i done
      refine ⟨[_],rfl,⟨by simp,.cons rfl (.nil _),?_,?_⟩,⟨[],_,rfl,by simp,?_⟩⟩
      · simp [done]
      · intro p member
        rw [List.mem_singleton.mp member,piece]
        omega
      · simp [done]
    · rename_i unfinished
      obtain ⟨pages,frames,group,flagged⟩ := ih (min (start+perFrame) blocks.length) (by omega) (by omega)
      refine ⟨_ :: pages,by rw [frames]; rfl,⟨by simp,.cons rfl ?_,?_,?_⟩,flaggedCons ?_ flagged⟩
      · have reached : first+UInt64.ofNat start+UInt64.ofNat (min (start+perFrame) blocks.length-start) =
            first+UInt64.ofNat (min (start+perFrame) blocks.length) := by
          rw [UInt64.add_assoc,← UInt64.ofNat_add,Nat.add_sub_cancel' (by omega)]
        rw [piece,reached]
        exact group.consecutive
      · rw [List.flatMap_cons,group.whole]
        exact split
      · intro p member
        rcases List.mem_cons.mp member with rfl | there
        · rw [piece]
          omega
        · exact group.short p there
      · simp [unfinished]

structure Grouped (perFrame : Nat) (runs : List (Range × List Bytes)) (groups : List (List Pages)) : Prop where
  each : List.Forall₂ (fun run group => Group perFrame run.1.firstBlock run.2 group) runs groups
  flagged : Flagged true groups.flatten

theorem groupedBlocks {perFrame : Nat} {runs : List (Range × List Bytes)} {groups : List (List Pages)}
    (each : List.Forall₂ (fun run group => Group perFrame run.1.firstBlock run.2 group) runs groups) {p : Pages}
    (member : p ∈ groups.flatten) : p.blocks.length ≤ perFrame ∧ ∃ run ∈ runs, ∀ b ∈ p.blocks, b ∈ run.2 := by
  induction each with
  | nil => exact absurd member List.not_mem_nil
  | @cons run group runs groups head tail ih =>
    rw [List.flatten_cons] at member
    rcases List.mem_append.mp member with here | later
    · refine ⟨head.short p here,run,List.mem_cons_self,fun b inside => ?_⟩
      rw [← head.whole]
      exact List.mem_flatMap.mpr ⟨p,here,inside⟩
    · obtain ⟨short,other,there,blocks⟩ := ih later
      exact ⟨short,other,List.mem_cons_of_mem _ there,blocks⟩

theorem groupedCovers {perFrame : Nat} {runs : List (Range × List Bytes)} {groups : List (List Pages)}
    (each : List.Forall₂ (fun run group => Group perFrame run.1.firstBlock run.2 group) runs groups)
    {run : Range × List Bytes} {b : Bytes} (among : run ∈ runs) (inside : b ∈ run.2) :
    ∃ p ∈ groups.flatten, b ∈ p.blocks := by
  induction each with
  | nil => exact absurd among List.not_mem_nil
  | @cons first group runs groups head tail ih =>
    rw [List.flatten_cons]
    rcases List.mem_cons.mp among with rfl | later
    · rw [← head.whole] at inside
      obtain ⟨p,there,block⟩ := List.mem_flatMap.mp inside
      exact ⟨p,List.mem_append_left _ there,block⟩
    · obtain ⟨p,there,block⟩ := ih later
      exact ⟨p,List.mem_append_right _ there,block⟩

theorem pageFramesGrouped (id : UInt64) {perFrame : Nat} (positive : 1 ≤ perFrame) {runs : List (Range × List Bytes)}
    (some_ : runs ≠ []) : ∃ groups, pageFrames id perFrame runs = groups.flatten.map (pagesFrame id) ∧
      Grouped perFrame runs groups := by
  induction runs with
  | nil => exact absurd rfl some_
  | cons run rest ih =>
    obtain ⟨r,blocks⟩ := run
    obtain ⟨pages,frames,group,flagged⟩ := pagesOfGroup id r.firstBlock positive rest.isEmpty blocks
      0 (blocks.length+1) (Nat.zero_le _) (by omega)
    have group : Group perFrame r.firstBlock blocks pages := by simpa using group
    unfold pageFrames
    cases rest with
    | nil =>
      refine ⟨[pages],?_,.cons group .nil,by simpa using flagged⟩
      rw [frames]
      simp [pageFrames]
    | cons next others =>
      obtain ⟨groups,later,grouped⟩ := ih (by simp)
      refine ⟨pages :: groups,?_,.cons group grouped.each,flaggedAppend flagged grouped.flagged⟩
      rw [frames,later,List.flatten_cons,List.map_append]

theorem blocksPerFramePositive (opts : Options) (pageSize : UInt32) : 1 ≤ blocksPerFrame opts pageSize :=
  Nat.le_max_left _ _

theorem askedNonempty (req : Fetch) : req.asked ≠ [] := by
  unfold Fetch.asked
  split
  · simp
  · rename_i some_
    simpa using some_

end SqliteRemote.Protocol
