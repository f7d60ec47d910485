import PublicInbox.WwwStatic

/-! What a Range header asks for, and what setup_range makes of it. -/
namespace PublicInbox.WwwStatic

/-! RFC 7233, of a single range -/

def single (range : Text) : Option (Text × Text) := if unit.isPrefixOf range then digitsTail (range.drop unit.length) else none

/- Which bytes are asked for: without a first byte, as many as there are at the end. Neither, or a last byte before the
first one, is an invalid range without bytes, for which there is 416, too. -/
def Denotes (m : Text × Text) (size i : Nat) : Prop :=
  match m with
  | ([],[]) => False
  | ([],n) => size - Decimal.value n ≤ i
  | (first,[]) => Decimal.value first ≤ i
  | (first,last) => Decimal.value first ≤ i ∧ i ≤ Decimal.value last

inductive Answer where
  | whole
  | part (first last : Nat)
  | unsatisfiable

def Satisfies (m : Text × Text) (size : Nat) : Answer → Prop
  | .whole => False
  | .part first last => first ≤ last ∧ ∀ i,(first ≤ i ∧ i ≤ last) ↔ (i < size ∧ Denotes m size i)
  | .unsatisfiable => ∀ i < size,¬Denotes m size i

def Prescribed (range : Text) (size : Nat) (answer : Answer) : Prop :=
  match single range with
  | none => answer = .whole
  | some m => Satisfies m size answer

/-! The headers of an answer -/

def values (h : Headers) (name : Text) : List Text := (h.filter fun f => f.1 = name).map Prod.snd

def contentLength : Text := "Content-Length".toList
def contentRangeName : Text := "Content-Range".toList

def Ranges (first last size : Nat) (vs : List Text) : Prop :=
  ∃ x y,Decimal.value x = first ∧ Decimal.value y = last ∧ vs = [contentRange x y size]

theorem denotesSome {m : Text × Text} {size first last : Nat} (order : first ≤ last) (inside : last < size)
    (all : ∀ i < size,Denotes m size i ↔ first ≤ i ∧ i ≤ last) : Satisfies m size (.part first last) := by
  refine ⟨order,fun i => ⟨fun both => ?_,fun both => (all i both.1).mp both.2⟩⟩
  have small : i < size := Nat.lt_of_le_of_lt both.2 inside
  exact ⟨small,(all i small).mpr both⟩

inductive Picked (m : Text × Text) (size : Nat) : Nat × Scalar × Scalar → Prop
  | part (x y : Scalar) (first last : Nat) (isX : x.num = first) (isY : y.num = last)
      (textX : Decimal.value x.text = first) (textY : Decimal.value y.text = last)
      (is : Satisfies m size (.part first last)) : Picked m size (206,x,y)
  | none (code : Nat) (x y : Scalar) (none : code = 206 → y.num - x.num + 1 ≤ 0) (is : Satisfies m size .unsatisfiable) :
      Picked m size (code,x,y)

theorem calculatedText (n : Nat) : Decimal.value (calculated n).text = n := by
  unfold calculated
  rw [if_pos (Int.natCast_nonneg n)]
  exact Decimal.valueRender n

theorem denotesSuffix {n : Text} (some : n ≠ []) (size i : Nat) : Denotes ([],n) size i ↔ size - Decimal.value n ≤ i := by
  cases n with
  | nil => exact absurd rfl some
  | cons c n => exact Iff.rfl

theorem denotesFirst {first : Text} (some : first ≠ []) (last : Text) (size i : Nat) :
    Denotes (first,last) size i ↔ Decimal.value first ≤ i ∧ (last = [] ∨ i ≤ Decimal.value last) := by
  cases first with
  | nil => exact absurd rfl some
  | cons c first =>
    cases last with
    | nil => exact ⟨fun low => ⟨low,.inl rfl⟩,fun both => both.1⟩
    | cons e last => exact ⟨fun both => ⟨both.1,.inr both.2⟩,fun both => ⟨both.1,both.2.resolve_left (List.cons_ne_nil _ _)⟩⟩

theorem pickedSuffix {n : Text} (some : n ≠ []) (size : Nat) : Picked ([],n) size (pickRange [] n size) := by
  have beg : (if (size : Int) - Decimal.value n < 0 then 0 else (size : Int) - Decimal.value n) = ((size - Decimal.value n : Nat) : Int) := by
    split <;> omega
  unfold pickRange
  rw [if_pos rfl,if_pos some]
  simp only [beg]
  by_cases empty : size = 0 ∨ Decimal.value n = 0
  · refine .none _ _ _ (fun _ => ?_) fun i inside denotes => ?_
    · show (size : Int) - 1 - ((size - Decimal.value n : Nat) : Int) + 1 ≤ 0
      omega
    · have low := (denotesSuffix some size i).mp denotes
      omega
  · have last : (size : Int) - 1 = ((size - 1 : Nat) : Int) := by omega
    rw [last]
    refine .part _ _ (size - Decimal.value n) (size - 1) rfl rfl (calculatedText _) (calculatedText _) ?_
    refine denotesSome (by omega) (by omega) fun i inside => ?_
    rw [denotesSuffix some]
    omega

theorem pickedFirst {first : Text} (some : first ≠ []) (last : Text) (size : Nat) :
    Picked (first,last) size (pickRange first last size) := by
  unfold pickRange
  rw [if_neg some]
  split
  · refine .none _ _ _ nofun fun i inside denotes => ?_
    have low := ((denotesFirst some last size i).mp denotes).1
    omega
  split
  · rename_i past ends
    by_cases behind : Decimal.value first = size
    · refine .none _ _ _ (fun _ => ?_) fun i inside denotes => ?_
      · show (size : Int) - 1 - (Decimal.value first : Int) + 1 ≤ 0
        omega
      · have low := ((denotesFirst some last size i).mp denotes).1
        omega
    · have whole : (size : Int) - 1 = ((size - 1 : Nat) : Int) := by omega
      rw [whole]
      refine .part _ _ (Decimal.value first) (size - 1) rfl rfl rfl (calculatedText _) ?_
      refine denotesSome (by omega) (by omega) fun i inside => ?_
      rw [denotesFirst some]
      have upper : last = [] ∨ i ≤ Decimal.value last := ends.imp id fun far => by omega
      exact ⟨fun both => ⟨both.1,by omega⟩,fun both => ⟨both.1,upper⟩⟩
  · rename_i ends
    obtain ⟨given,near⟩ := not_or.mp ends
    rw [if_pos (Nat.lt_of_not_le near)]
    by_cases down : Decimal.value last < Decimal.value first
    · refine .none _ _ _ (fun _ => ?_) fun i inside denotes => ?_
      · show (Decimal.value last : Int) - (Decimal.value first : Int) + 1 ≤ 0
        omega
      · obtain ⟨low,high⟩ := (denotesFirst some last size i).mp denotes
        have high := high.resolve_left given
        omega
    · refine .part _ _ (Decimal.value first) (Decimal.value last) rfl rfl rfl rfl ?_
      refine denotesSome (by omega) (by omega) fun i inside => ?_
      rw [denotesFirst some]
      exact ⟨fun both => ⟨both.1,both.2.resolve_left given⟩,fun both => ⟨both.1,.inr both.2⟩⟩

theorem picked (m : Text × Text) (size : Nat) : Picked m size (pickRange m.1 m.2 size) := by
  obtain ⟨first,last⟩ := m
  cases first with
  | cons c first => exact pickedFirst (List.cons_ne_nil _ _) last size
  | nil =>
    cases last with
    | cons c last => exact pickedSuffix (List.cons_ne_nil _ _) size
    | nil => exact .none _ _ _ nofun fun i _ denotes => denotes

/-! setup_range -/

inductive SetUp (m : Text × Text) (size : Nat) (h : Headers) : Ranged → Prop
  | part (x y : Text) (off : Scalar) (first last : Nat) (isX : Decimal.value x = first) (isY : Decimal.value y = last)
      (starts : off.num = first) (is : Satisfies m size (.part first last)) :
      SetUp m size h (.part (h ++ [("Accept-Ranges".toList,"bytes".toList),(contentRangeName,contentRange x y size)]) 206 off
        (last + 1 - first))
  | none (is : Satisfies m size .unsatisfiable) : SetUp m size h (noRange h size)

theorem setUp (m : Text × Text) (size : Nat) (h : Headers) : SetUp m size h (setupRange h m.1 m.2 size) := by
  have made := picked m size
  unfold setupRange
  generalize pickRange m.1 m.2 size = p at made
  cases made with
  | none code x y none is =>
    dsimp only
    split
    · rw [if_pos (none ‹_›)]
      exact .none is
    · exact .none is
  | part x y first last isX isY textX textY is =>
    have order := is.1
    have len : y.num - x.num + 1 = ((last + 1 - first : Nat) : Int) := by omega
    dsimp only
    rw [if_pos rfl,len,if_neg (by omega)]
    exact .part x.text y.text x first last textX textY isX is

end PublicInbox.WwwStatic
