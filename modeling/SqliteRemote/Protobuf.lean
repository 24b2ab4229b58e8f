import Mathlib.Algebra.Order.BigOperators.Group.List
import Mathlib.Data.Nat.Digits.Lemmas

/-! The proto3 wire format, as far as its lengths go: base 128 numbers, fields with a tag, and
fields that are left out when they have the default value. -/
namespace SqliteRemote.Protobuf

abbrev Bytes := List UInt8

def continued : List Nat → Bytes
  | [] => [0]
  | [digit] => [UInt8.ofNat digit]
  | digit :: next :: rest => UInt8.ofNat (digit+128) :: continued (next :: rest)

def varint (n : Nat) : Bytes := continued (Nat.digits 128 n)

def tag (field wireType : Nat) : Bytes := varint (field*8+wireType)

def numberField (field n : Nat) : Bytes := if n = 0 then [] else tag field 0 ++ varint n

def boolField (field : Nat) (b : Bool) : Bytes := numberField field b.toNat

-- A message that is set and an element of a repeated field are written even when they are empty.
def delimited (field : Nat) (content : Bytes) : Bytes := tag field 2 ++ varint content.length ++ content

def repeatedField (field : Nat) (items : List Bytes) : Bytes := items.flatMap (delimited field)

def packedField (field : Nat) (numbers : List Nat) : Bytes :=
  if numbers.isEmpty then [] else delimited field (numbers.flatMap varint)

theorem continuedLength (digits : List Nat) : (continued digits).length = max 1 digits.length := by
  induction digits with
  | nil => rfl
  | cons digit rest ih =>
    cases rest with
    | nil => rfl
    | cons next rest =>
      rw [continued,List.length_cons,ih]
      simp only [List.length_cons]
      omega

theorem varintLength {n k : Nat} (positive : 1 ≤ k) (bound : n < 128^k) : (varint n).length ≤ k := by
  rw [varint,continuedLength]
  exact max_le positive ((Nat.digits_length_le_iff (by decide) n).mpr bound)

theorem tagLength {field wireType k : Nat} (positive : 1 ≤ k) (bound : field*8+wireType < 128^k) :
    (tag field wireType).length ≤ k := varintLength positive bound

theorem numberLength {field n k : Nat} (small : field < 16) (positive : 1 ≤ k) (bound : n < 128^k) :
    (numberField field n).length ≤ 1+k := by
  unfold numberField
  split
  · exact Nat.zero_le _
  · rw [List.length_append]
    exact Nat.add_le_add (tagLength (Nat.le_refl 1) (by omega)) (varintLength positive bound)

theorem boolLength (field : Nat) (small : field < 16) (b : Bool) : (boolField field b).length ≤ 2 :=
  numberLength small (Nat.le_refl 1) (by cases b <;> decide)

theorem delimitedLength (field tagBytes k : Nat) {size : Nat} {content : Bytes} (tagged : 1 ≤ tagBytes)
    (small : field*8+2 < 128^tagBytes) (positive : 1 ≤ k) (bound : size < 128^k) (fits : content.length ≤ size) :
    (delimited field content).length ≤ tagBytes+k+size := by
  rw [delimited,List.length_append,List.length_append]
  exact Nat.add_le_add (Nat.add_le_add (tagLength tagged small) (varintLength positive (Nat.lt_of_le_of_lt fits bound))) fits

theorem flatMapLength {α : Type} {f : α → Bytes} {items : List α} {size : Nat}
    (each : ∀ x ∈ items, (f x).length ≤ size) : (items.flatMap f).length ≤ items.length*size := by
  rw [List.length_flatMap]
  have bound := List.sum_le_card_nsmul (items.map (fun x => (f x).length)) size (by simpa using each)
  rw [List.length_map] at bound
  exact bound

end SqliteRemote.Protobuf
