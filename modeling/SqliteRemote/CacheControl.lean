import SqliteRemote.StoreContract

/-! How long a fetched JWKS is used, as its Cache-Control header says. A header is any bytes, and so
are its directives; what Go's strings and strconv packages do with them is spelled out. -/
namespace SqliteRemote.Token
open StoreContract

def maxCacheAge : Duration := 300*10^9
def minCacheAge : Duration := 10*10^9

def spaces : List Bytes :=
  [[0x09],[0x0a],[0x0b],[0x0c],[0x0d],[0x20],[0xc2,0x85],[0xc2,0xa0],[0xe1,0x9a,0x80],[0xe2,0x80,0x80],
    [0xe2,0x80,0x81],[0xe2,0x80,0x82],[0xe2,0x80,0x83],[0xe2,0x80,0x84],[0xe2,0x80,0x85],[0xe2,0x80,0x86],
    [0xe2,0x80,0x87],[0xe2,0x80,0x88],[0xe2,0x80,0x89],[0xe2,0x80,0x8a],[0xe2,0x80,0xa8],[0xe2,0x80,0xa9],
    [0xe2,0x80,0xaf],[0xe2,0x81,0x9f],[0xe3,0x80,0x80]]

-- Each round takes away at least one byte, so the length of the text is fuel enough.
def trimLeft (marks : List Bytes) : Nat → Bytes → Bytes
  | 0, text => text
  | fuel+1, text =>
      match marks.find? (fun mark => mark.isPrefixOf text) with
      | some mark => trimLeft marks fuel (text.drop mark.length)
      | none => text

def trim (marks : List Bytes) (text : Bytes) : Bytes :=
  let left := trimLeft marks text.length text
  (trimLeft (marks.map List.reverse) left.length left.reverse).reverse

def trimSpace (text : Bytes) : Bytes := trim spaces text

def trimQuotes (text : Bytes) : Bytes := trim [[0x22]] text

def cut (sep : UInt8) (text : Bytes) : Option (Bytes × Bytes) :=
  if sep ∈ text then some (text.takeWhile (· != sep),(text.dropWhile (· != sep)).drop 1) else none

-- "max-age"; none of its letters has a case variant outside ASCII.
def maxAgeName : Bytes := [0x6d,0x61,0x78,0x2d,0x61,0x67,0x65]

def lower (char : UInt8) : UInt8 := if 0x41 ≤ char && char ≤ 0x5a then char+0x20 else char

def equalFold (name lowered : Bytes) : Bool := name.map lower == lowered

def parseUint (text : Bytes) : Option Nat :=
  if text = [] then none
  else text.foldlM (fun n char => if 0x30 ≤ char && char ≤ 0x39 then some (n*10+(char.toNat-0x30)) else none) 0

def parseInt (text : Bytes) : Option Int :=
  match text with
  | 0x2b :: rest => (parseUint rest).bind fun n => if n < 2^63 then some (n : Int) else none
  | 0x2d :: rest => (parseUint rest).bind fun n => if n ≤ 2^63 then some (-(n : Int)) else none
  | text => (parseUint text).bind fun n => if n < 2^63 then some (n : Int) else none

def clamped (age : Int) : Int := min (max age minCacheAge) maxCacheAge

def ageOf : List Bytes → Duration
  | [] => maxCacheAge
  | directive :: rest =>
      match cut 0x3d (trimSpace directive) with
      | none => ageOf rest
      | some (name,value) =>
          if !equalFold name maxAgeName then ageOf rest
          else match parseInt (trimQuotes value) with
            | none => maxCacheAge
            | some seconds => if seconds < 0 then maxCacheAge else clamped (int64 (seconds*10^9))

def cacheAge (header : Bytes) : Duration := ageOf (header.splitOn 0x2c)

def valueOf (directive : Bytes) : Option Bytes :=
  (cut 0x3d (trimSpace directive)).bind fun parts => if equalFold parts.1 maxAgeName then some parts.2 else none

def secondsOf (directives : List Bytes) : Option Int :=
  (directives.findSome? valueOf).bind fun value => (parseInt (trimQuotes value)).filter (0 ≤ ·)

def maxAge (header : Bytes) : Option Int := secondsOf (header.splitOn 0x2c)

theorem trimLeftSuffix (marks : List Bytes) (fuel : Nat) (text : Bytes) : trimLeft marks fuel text <:+ text := by
  induction fuel generalizing text with
  | zero => exact List.suffix_rfl
  | succ fuel ih =>
    rw [trimLeft]
    cases marks.find? (fun mark => mark.isPrefixOf text) with
    | none => exact List.suffix_rfl
    | some mark => exact (ih _).trans (List.drop_suffix _ _)

theorem trimLeftDone {marks : List Bytes} (filled : ∀ mark ∈ marks, mark ≠ []) {fuel : Nat} {text : Bytes}
    (enough : text.length ≤ fuel) : ∀ mark ∈ marks, ¬ mark <+: trimLeft marks fuel text := by
  induction fuel generalizing text with
  | zero =>
    intro mark member starts
    have empty : text = [] := List.eq_nil_of_length_eq_zero (Nat.le_zero.mp enough)
    rw [trimLeft,empty] at starts
    exact filled mark member (List.prefix_nil.mp starts)
  | succ fuel ih =>
    rw [trimLeft]
    cases found : marks.find? (fun mark => mark.isPrefixOf text) with
    | none =>
      intro mark member starts
      exact List.find?_eq_none.mp found mark member ( List.isPrefixOf_iff_prefix.mpr starts)
    | some mark =>
      have some : 0 < mark.length := List.length_pos_iff.mpr (filled _ (List.mem_of_find?_eq_some found))
      apply ih
      rw [List.length_drop]
      omega

theorem trimmed {marks : List Bytes} (filled : ∀ mark ∈ marks, mark ≠ []) (text : Bytes) :
    ∀ mark ∈ marks, ¬ mark <+: trim marks text ∧ ¬ mark <:+ trim marks text := by
  intro mark member
  have reversed : ∀ mark ∈ marks.map List.reverse, mark ≠ [] := by
    intro mark member
    obtain ⟨forward,listed,rfl⟩ := List.mem_map.mp member
    exact fun empty => filled forward listed (List.reverse_eq_nil_iff.mp empty)
  constructor
  · intro starts
    have shorter := (trimLeftSuffix (marks.map List.reverse) (trimLeft marks text.length text).length
      (trimLeft marks text.length text).reverse)
    rw [← List.reverse_prefix,List.reverse_reverse] at shorter
    exact trimLeftDone filled (Nat.le_refl _) mark member (starts.trans shorter)
  · intro ends
    have enough : (trimLeft marks text.length text).reverse.length ≤ (trimLeft marks text.length text).length := by
      rw [List.length_reverse]
    refine trimLeftDone reversed enough mark.reverse (List.mem_map_of_mem member) ?_
    rw [← List.reverse_suffix,List.reverse_reverse]
    exact ends

theorem parseIntRange {text : Bytes} {n : Int} (parsed : parseInt text = some n) : IsInt64 n := by
  unfold parseInt at parsed
  split at parsed
  all_goals
    obtain ⟨m,_,checked⟩ := Option.bind_eq_some_iff.mp parsed
    split at checked <;> try contradiction
    cases checked
    exact ⟨by omega,by omega⟩

theorem secondsRange {directives : List Bytes} {n : Int} (given : secondsOf directives = some n) :
    0 ≤ n ∧ n < 2^63 := by
  obtain ⟨value,_,filtered⟩ := Option.bind_eq_some_iff.mp given
  obtain ⟨parsed,positive⟩ := Option.filter_eq_some_iff.mp filtered
  exact ⟨of_decide_eq_true positive,(parseIntRange parsed).2⟩

theorem ageOfSeconds (directives : List Bytes) :
    ageOf directives = ((secondsOf directives).map fun n => clamped (int64 (n*10^9))).getD maxCacheAge := by
  induction directives with
  | nil => rfl
  | cons directive rest ih =>
    rw [ageOf,secondsOf,List.findSome?_cons,valueOf]
    cases cut 0x3d (trimSpace directive) with
    | none => exact ih
    | some parts =>
      cases same : equalFold parts.1 maxAgeName with
      | false => simpa [same,secondsOf] using ih
      | true =>
        simp only [same,Option.bind_some,if_true,Bool.not_true,Bool.false_eq_true,if_false]
        cases parseInt (trimQuotes parts.2) with
        | none => rfl
        | some seconds =>
          by_cases positive : 0 ≤ seconds
          · simp [Option.filter,positive]
          · simp [Option.filter,positive,Int.not_le.mp positive]

theorem ageRange (directives : List Bytes) : minCacheAge ≤ ageOf directives ∧ ageOf directives ≤ maxCacheAge := by
  have ordered : minCacheAge ≤ maxCacheAge := by decide
  rw [ageOfSeconds]
  cases secondsOf directives with
  | none => exact ⟨ordered,Int.le_refl _⟩
  | some n => exact ⟨Int.le_min.mpr ⟨Int.le_max_right _ _,ordered⟩,Int.min_le_right _ _⟩

/- The product wraps around from 2^63 nanoseconds on. The clamped age is then right only by chance. -/
theorem clampedExactly {n : Int} (positive : 0 ≤ n) :
    clamped (int64 (n*10^9)) = min (max n 10) 300*10^9 ↔ n*10^9 < 2^63 ∨ 300*10^9 ≤ int64 (n*10^9) := by
  have bounds : clamped (int64 (n*10^9)) = min (max (int64 (n*10^9)) (10*10^9)) (300*10^9) := rfl
  rw [bounds]
  by_cases fits : n*10^9 < 2^63
  · rw [int64Exact ⟨by omega,fits⟩]
    omega
  · generalize int64 (n*10^9) = wrapped
    omega

theorem cacheAgeClamped (header : Bytes) :
    (∀ n, maxAge header = some n → 0 ≤ n ∧ n < 2^63 ∧
      (cacheAge header = min (max n 10) 300*10^9 ↔ n*10^9 < 2^63 ∨ 300*10^9 ≤ int64 (n*10^9))) ∧
    (maxAge header = none → cacheAge header = 300*10^9) ∧
    (∀ other n m, maxAge header = some n → maxAge other = some m → n ≤ m → m*10^9 < 2^63 →
      cacheAge header ≤ cacheAge other) := by
  have age (header : Bytes) : cacheAge header =
      ((maxAge header).map fun n => clamped (int64 (n*10^9))).getD maxCacheAge := ageOfSeconds _
  refine ⟨fun n given => ?_,fun missing => ?_,fun other n m given also smaller fits => ?_⟩
  · obtain ⟨positive,short⟩ := secondsRange given
    rw [age,given]
    exact ⟨positive,short,clampedExactly positive⟩
  · rw [age,missing]
    rfl
  · have exactAge := (clampedExactly (secondsRange given).1).mpr (.inl (by omega))
    have exactOther := (clampedExactly (secondsRange also).1).mpr (.inl fits)
    rw [age header,age other,given,also,Option.map_some,Option.map_some,Option.getD_some,Option.getD_some,exactAge,
      exactOther]
    exact (by omega : min (max n 10) 300*10^9 ≤ min (max m 10) 300*10^9)

def ascii (text : String) : Bytes := text.toUTF8.data.toList

theorem cacheAgeClampedMinute : maxAge (ascii "public, Max-Age=\"60\"") = some 60 ∧
    cacheAge (ascii "public, Max-Age=\"60\"") = min (max 60 10) 300*10^9 := by
  have given : maxAge (ascii "public, Max-Age=\"60\"") = some 60 := by decide +kernel
  exact ⟨given,((cacheAgeClamped _).1 60 given).2.2.mpr (.inl (by decide))⟩

theorem cacheAgeWrapped : maxAge (ascii "max-age=9223372037") = some 9223372037 ∧
    cacheAge (ascii "max-age=9223372037") = 10*10^9 ∧ min (max 9223372037 10) 300*10^9 = (300*10^9 : Int) := by
  decide +kernel

end SqliteRemote.Token
