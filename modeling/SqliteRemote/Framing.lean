import Mathlib.Data.List.Basic

/-! Parts of variable length behind headers of one width that give their lengths. Whatever the parts
hold, the joined frames determine them. -/
namespace SqliteRemote.Framing

variable {α : Type} {size : Nat → List α} {width bound : Nat}

def frame (size : Nat → List α) (part : List α) : List α := size part.length ++ part

structure Sized (size : Nat → List α) (width bound : Nat) : Prop where
  width : ∀ n, (size n).length = width
  distinct : ∀ m n, m < bound → n < bound → size m = size n → m = n

theorem frameFirst (sized : Sized size width bound) {part other rest more : List α}
    (short : part.length < bound) (alsoShort : other.length < bound)
    (same : frame size part ++ rest = frame size other ++ more) : part = other ∧ rest = more := by
  simp only [frame,List.append_assoc] at same
  obtain ⟨sizes,bodies⟩ := List.append_inj same ((sized.width _).trans (sized.width _).symm)
  exact List.append_inj bodies (sized.distinct _ _ short alsoShort sizes)

theorem framesInjective (sized : Sized size width bound) {parts others : List (List α)}
    (count : parts.length = others.length) (short : ∀ part ∈ parts, part.length < bound)
    (alsoShort : ∀ part ∈ others, part.length < bound)
    (same : parts.flatMap (frame size) = others.flatMap (frame size)) : parts = others := by
  induction parts generalizing others with
  | nil => exact (List.eq_nil_of_length_eq_zero count.symm).symm
  | cons part parts ih =>
    cases others with
    | nil => contradiction
    | cons other others =>
      rw [List.flatMap_cons,List.flatMap_cons] at same
      obtain ⟨rfl,rest⟩ := frameFirst sized (short _ List.mem_cons_self) (alsoShort _ List.mem_cons_self) same
      rw [ih (Nat.succ.inj count) (fun p member => short p (List.mem_cons_of_mem _ member))
        (fun p member => alsoShort p (List.mem_cons_of_mem _ member)) rest]

end SqliteRemote.Framing
