import Mathlib.Data.List.Basic

/-! Files of blocks. A file is the list of its blocks; writing beyond its end leaves a gap of
blank blocks, and so does making it longer. -/
namespace SqliteRemote.BlockFiles

section
variable {β : Type} (blank : β)

def grow (length : Nat) (file : List β) : List β := file ++ List.replicate (length-file.length) blank

def resize (length : Nat) (file : List β) : List β := grow blank length (file.take length)

def write (file : List β) (index : Nat) (block : β) : List β := (grow blank (index+1) file).set index block

def writeAll (file : List β) (writes : List (Nat × β)) : List β :=
  writes.foldl (fun file w => write blank file w.1 w.2) file

-- What is beyond the end reads as blank.
def read (file : List β) (index : Nat) : β := (file[index]?).getD blank

theorem readGrow (length : Nat) (file : List β) (i : Nat) : read blank (grow blank length file) i = read blank file i := by
  unfold read grow
  by_cases inside : i < file.length
  · rw [List.getElem?_append_left inside]
  · rw [List.getElem?_append_right (by omega),List.getElem?_eq_none (l := file) (by omega),List.getElem?_replicate]
    split <;> rfl

theorem lengthResize (length : Nat) (file : List β) : (resize blank length file).length = length := by
  simp only [resize,grow,List.length_append,List.length_take,List.length_replicate]
  omega

theorem readResize (length : Nat) (file : List β) (i : Nat) :
    read blank (resize blank length file) i = if i < length then read blank file i else blank := by
  rw [resize,readGrow,read,List.getElem?_take]
  split <;> rfl

theorem readWrite (file : List β) (index : Nat) (block : β) (i : Nat) :
    read blank (write blank file index block) i = if i = index then block else read blank file i := by
  have long : index < (grow blank (index+1) file).length := by
    simp only [grow,List.length_append,List.length_replicate]
    omega
  by_cases same : i = index
  · subst same
    rw [if_pos rfl,read,write,List.getElem?_set_self long]
    rfl
  · rw [if_neg same,read,write,List.getElem?_set_ne (Ne.symm same)]
    exact readGrow blank _ file i

theorem readInside {file : List β} {i : Nat} (inside : i < file.length) : file[i]? = some (read blank file i) := by
  rw [read,List.getElem?_eq_getElem inside]
  rfl

end
end SqliteRemote.BlockFiles
