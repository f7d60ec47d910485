import PublicInbox.Config.Quoting
import Mathlib.Algebra.Ring.Int.Defs

/-! The second substitution of glob2re, over what the first one leaves. -/
namespace PublicInbox.Config

theorem bracesNone {c : Char} {s : Text} (none : braceAt (c :: s) = .none) : braces (c :: s) = (c :: (braces s).1,(braces s).2) := by
  conv_lhs => unfold braces
  split
  · rename_i found
    rw [none] at found
    cases found
  · rfl

theorem bracesSome {c : Char} {s out rest : Text} (found : braceAt (c :: s) = some (out,rest)) :
    braces (c :: s) = (out ++ (braces rest).1,(braces rest).2 + 1) := by
  conv_lhs => unfold braces
  split
  · rename_i out' rest' found'
    rw [found] at found'
    cases found'
    rfl
  · rename_i none
    rw [found] at none
    cases none

theorem braceAtCons {c : Char} {s : Text} (other : c ≠ '\\') :
    braceAt (c :: s) = (braceAt s).map fun x => (c :: x.1,x.2) := by
  have drops : (c :: s).dropWhile (· != '\\') = s.dropWhile (· != '\\') := by simp [other]
  have takes : (c :: s).takeWhile (· != '\\') = c :: s.takeWhile (· != '\\') := by simp [other]
  unfold braceAt
  rw [drops,takes]
  split
  · split
    · split <;> rfl
    · rfl
  · rfl

def Smooth (x : Text) : Prop := ∀ s,braces (x ++ s) = (x ++ (braces s).1,(braces s).2)

theorem smoothNil : Smooth [] := fun _ => rfl

theorem Smooth.append {x y : Text} (first : Smooth x) (second : Smooth y) : Smooth (x ++ y) := by
  intro s
  rw [List.append_assoc,first,second,List.append_assoc]

theorem Smooth.whole {x : Text} (smooth : Smooth x) : braces x = (x,0) := by
  have alone := smooth []
  rwa [List.append_nil,braces,List.append_nil] at alone

theorem smoothPlain {c : Char} (other : c ≠ '\\') : Smooth [c] := by
  intro s
  show braces (c :: s) = (c :: (braces s).1,(braces s).2)
  cases found : braceAt s with
  | none =>
    apply bracesNone
    rw [braceAtCons other,found]
    rfl
  | some x =>
    obtain ⟨out,rest⟩ := x
    have here : braceAt (c :: s) = some (c :: out,rest) := by
      rw [braceAtCons other,found]
      rfl
    rw [bracesSome here]
    cases s with
    | nil => cases found
    | cons e s =>
      rw [bracesSome found]
      rfl

theorem smoothEscape {c : Char} (brace : c ≠ '\x7b') (escape : c ≠ '\\') : Smooth ['\\',c] := by
  intro s
  have none : braceAt ('\\' :: c :: s) = .none := by
    unfold braceAt
    have drops : ('\\' :: c :: s).dropWhile (· != '\\') = '\\' :: c :: s := rfl
    rw [drops]
    split
    · rename_i is
      cases is
      exact absurd rfl brace
    · rfl
  show braces ('\\' :: c :: s) = _
  rw [bracesNone none]
  have rest := smoothPlain escape s
  rw [List.singleton_append] at rest
  rw [rest]
  rfl

theorem smoothText {x : Text} (none : '\\' ∉ x) : Smooth x := by
  induction x with
  | nil => exact smoothNil
  | cons c x ih =>
    obtain ⟨other,rest⟩ : '\\' ≠ c ∧ '\\' ∉ x := by simpa using none
    exact (smoothPlain (Ne.symm other)).append (ih rest)

theorem dropUntil {b : Char} {a s : Text} (none : b ∉ a) : (a ++ b :: s).dropWhile (· != b) = b :: s := by
  induction a with
  | nil => simp
  | cons c a ih =>
    obtain ⟨other,rest⟩ : b ≠ c ∧ b ∉ a := by simpa using none
    simp [Ne.symm other,ih rest]

theorem takeUntil {b : Char} {a s : Text} (none : b ∉ a) : (a ++ b :: s).takeWhile (· != b) = a := by
  induction a with
  | nil => simp
  | cons c a ih =>
    obtain ⟨other,rest⟩ : b ≠ c ∧ b ∉ a := by simpa using none
    simp [Ne.symm other,ih rest]

theorem bracesList {a w s : Text} (commas : ',' ∉ a) (escapes : '\\' ∉ w) :
    braces ('\\' :: '\x7b' :: (a ++ ',' :: (w ++ '\\' :: '\x7d' :: s))) =
      ('(' :: (bars (a ++ ',' :: w) ++ ')' :: (braces s).1),(braces s).2 + 1) := by
  have found : braceAt ('\\' :: '\x7b' :: (a ++ ',' :: (w ++ '\\' :: '\x7d' :: s))) =
      some ('(' :: (bars (a ++ ',' :: w) ++ [')']),s) := by
    unfold braceAt
    have drops (r : Text) : ('\\' :: r).dropWhile (· != '\\') = '\\' :: r := rfl
    have takes (r : Text) : ('\\' :: r).takeWhile (· != '\\') = [] := rfl
    rw [drops,takes]
    simp only [dropUntil commas,takeUntil commas,dropUntil escapes,takeUntil escapes]
    rfl
  rw [bracesSome found]
  simp

/-! What the first substitution leaves is not mistaken for a list. -/

section
variable {wide : Char → Bool}

theorem mapOne {c : Char} {re : Text} (found : reMap [c] = some re) :
    c = '*' ∧ re = ['[','^','/',']','*','?'] ∨ c = '?' ∧ re = ['[','^','/',']'] ∨ c ∈ ['[',']',','] ∧ re = [c] := by
  unfold reMap at found
  simp only [List.cons.injEq,and_true,and_false,reduceCtorEq,if_false] at found
  split at found
  · exact .inl ⟨‹_›,(Option.some.inj found).symm⟩
  split at found
  · exact .inr (.inl ⟨‹_›,(Option.some.inj found).symm⟩)
  refine .inr (.inr ?_)
  split at found
  · rename_i is
    cases is
    exact ⟨by decide,(Option.some.inj found).symm⟩
  split at found
  · rename_i is
    cases is
    exact ⟨by decide,(Option.some.inj found).symm⟩
  split at found
  · rename_i is
    cases is
    exact ⟨by decide,(Option.some.inj found).symm⟩
  · cases found

theorem mapPlain {c : Char} {re : Text} (found : reMap [c] = some re) : '\\' ∉ re ∧ (',' ∈ re → c = ',') := by
  rcases mapOne found with ⟨rfl,rfl⟩ | ⟨rfl,rfl⟩ | ⟨mem,rfl⟩
  · decide
  · decide
  · refine ⟨fun escape => ?_,fun comma => (List.mem_singleton.mp comma).symm⟩
    rw [← List.mem_singleton.mp escape] at mem
    exact absurd mem (by decide)

theorem quoteOne (c : Char) : quotemeta wide [c] = if quoted wide c then ['\\',c] else [c] := by
  simp [quotemeta]

theorem charSmooth {d : Int} {c : Char} (brace : c ≠ '\x7b') (escape : c ≠ '\\') : Smooth (charOut wide d c) := by
  unfold charOut
  cases found : reMap [c] with
  | some re => exact smoothText (mapPlain found).1
  | none =>
    rw [Option.getD_none]
    split
    · exact smoothPlain escape
    · rw [quoteOne]
      split
      · exact smoothEscape brace escape
      · exact smoothPlain escape

theorem textSmooth {d : Int} {s : Text} (braces : '\x7b' ∉ s) (escapes : '\\' ∉ s) : Smooth (textOut wide d s) := by
  induction s generalizing d with
  | nil => exact smoothNil
  | cons c s ih =>
    obtain ⟨brace,braces⟩ : '\x7b' ≠ c ∧ '\x7b' ∉ s := by simpa using braces
    obtain ⟨escape,escapes⟩ : '\\' ≠ c ∧ '\\' ∉ s := by simpa using escapes
    exact (charSmooth brace.symm escape.symm).append (ih braces escapes)

theorem charNoComma {d : Int} {c : Char} (other : c ≠ ',') : ',' ∉ charOut wide d c := by
  unfold charOut
  cases found : reMap [c] with
  | some re => exact fun mem => other ((mapPlain found).2 mem)
  | none =>
    rw [Option.getD_none]
    split
    · simpa using other.symm
    · rw [quoteOne]
      split <;> simpa using other.symm

theorem textNoComma {d : Int} {s : Text} (none : ',' ∉ s) : ',' ∉ textOut wide d s := by
  induction s generalizing d with
  | nil => exact List.not_mem_nil
  | cons c s ih =>
    obtain ⟨other,rest⟩ : ',' ≠ c ∧ ',' ∉ s := by simpa using none
    exact List.not_mem_append (charNoComma other.symm) (ih rest)

theorem bareOut {d : Int} {s : Text} (bare : Bare wide d s) : '\\' ∉ textOut wide d s := by
  induction s generalizing d with
  | nil => exact List.not_mem_nil
  | cons c s ih =>
    refine List.not_mem_append ?_ (ih bare.2)
    unfold charOut
    cases found : reMap [c] with
    | some re => exact (mapPlain found).1
    | none =>
      rw [Option.getD_none]
      rcases bare.1 with mapped | dash | plain
      · simp only [List.mem_cons,List.not_mem_nil,or_false] at mapped
        rcases mapped with rfl | rfl | rfl | rfl <;> cases found
      · rw [if_pos dash,dash.1]
        decide
      · split
        · rename_i dash
          rw [dash.1]
          decide
        · rw [quoteOne,plain]
          have other : '\\' ≠ c := by
            rintro rfl
            cases plain
          simpa using other

end

/-! Lists -/

section
variable (wide : Char → Bool)

def altsOut : Int → List (List Item) → Text
  | _,[] => []
  | d,is :: others => '|' :: (textOut wide d (itemsText is) ++ altsOut (d + delta (itemsText is)) others)

def Part.final (d : Int) : Part → Text
  | list first others =>
    '(' :: (textOut wide d (itemsText first) ++ (altsOut wide (d + delta (itemsText first)) others ++ [')']))
  | p => p.out wide d

def partsFinal : Int → List Part → Text
  | _,[] => []
  | d,p :: ps => p.final wide d ++ partsFinal (d + delta p.text) ps

end

def Part.lists : Part → Int
  | list _ _ => 1
  | _ => 0

def partsLists (ps : List Part) : Int := (ps.map Part.lists).sum

section
variable {wide : Char → Bool}

theorem barsNone {s : Text} (none : ',' ∉ s) : bars s = s := by
  induction s with
  | nil => rfl
  | cons c s ih =>
    obtain ⟨other,rest⟩ : ',' ≠ c ∧ ',' ∉ s := by simpa using none
    rw [bars,List.map_cons,if_neg other.symm]
    exact congrArg (c :: ·) (ih rest)

theorem barsAppend (s t : Text) : bars (s ++ t) = bars s ++ bars t := List.map_append

theorem noComma {is : List Item} (ok : ListItems is) : ',' ∉ itemsText is := by
  intro mem
  obtain ⟨i,inside,mem⟩ := List.mem_flatMap.mp mem
  exact (ok i inside).2 mem

theorem othersCons (is : List Item) (others : List (List Item)) :
    othersText (is :: others) = ',' :: (itemsText is ++ othersText others) := rfl

theorem deltaComma (d : Int) : d + delta [','] = d := Int.add_zero d

theorem othersOut {d : Int} {is : List Item} {others : List (List Item)} :
    textOut wide d (othersText (is :: others)) =
      ',' :: (textOut wide d (itemsText is) ++ textOut wide (d + delta (itemsText is)) (othersText others)) := by
  rw [othersCons,textOut,deltaComma,textOutAppend]
  rfl

theorem othersBars {d : Int} {others : List (List Item)} (ok : ∀ is ∈ others,ListItems is) :
    bars (textOut wide d (othersText others)) = altsOut wide d others := by
  induction others generalizing d with
  | nil => rfl
  | cons is others ih =>
    have own : bars (textOut wide d (itemsText is)) = textOut wide d (itemsText is) :=
      barsNone (textNoComma (noComma (ok is List.mem_cons_self)))
    have rest := @ih (d + delta (itemsText is)) fun x mem => ok x (List.mem_cons_of_mem _ mem)
    rw [othersOut,bars,List.map_cons,if_pos rfl]
    show '|' :: bars _ = _
    rw [barsAppend,own,rest]
    rfl

theorem othersBare {d : Int} {others : List (List Item)} (read : OthersRead wide d others) :
    '\\' ∉ textOut wide d (othersText others) := by
  induction others generalizing d with
  | nil => exact List.not_mem_nil
  | cons is others ih =>
    obtain ⟨_,bare,rest⟩ := read
    rw [othersOut]
    have inside := List.not_mem_append (bareOut bare) (ih rest)
    simpa using inside

theorem listBraces {first : List Item} {others : List (List Item)} {d : Int} {s : Text} (ok : (Part.list first others).Ok)
    (read : (Part.list first others).Read wide d) :
    braces ((Part.list first others).out wide d ++ s) =
      ((Part.list first others).final wide d ++ (braces s).1,(braces s).2 + 1) := by
  obtain ⟨is,others,rfl⟩ := List.exists_cons_of_ne_nil ok.1
  have commas : ',' ∉ textOut wide d (itemsText first) := textNoComma (noComma ok.2.1)
  have escapes := othersBare read.2
  have alts := @othersBars wide (d + delta (itemsText first)) _ ok.2.2
  have out : (Part.list first (is :: others)).out wide d = '\\' :: '\x7b' :: (textOut wide d (itemsText first) ++
      (textOut wide (d + delta (itemsText first)) (othersText (is :: others)) ++ ['\\','\x7d'])) := by
    have opens : d + delta ['\x7b'] = d := Int.add_zero d
    show textOut wide d ('\x7b' :: (itemsText first ++ (othersText (is :: others) ++ ['\x7d']))) = _
    rw [textOut,opens,textOutAppend,textOutAppend]
    rfl
  rw [othersOut] at escapes alts out
  have inside : bars (textOut wide d (itemsText first) ++ ',' :: (textOut wide (d + delta (itemsText first)) (itemsText is) ++
      textOut wide (d + delta (itemsText first) + delta (itemsText is)) (othersText others))) =
      textOut wide d (itemsText first) ++ altsOut wide (d + delta (itemsText first)) (is :: others) := by
    rw [barsAppend,alts,barsNone commas]
  have list := bracesList (s := s) commas (List.not_mem_of_not_mem_cons escapes)
  rw [inside] at list
  rw [out]
  simp only [List.cons_append,List.append_assoc,List.nil_append] at list ⊢
  rw [list]
  simp [Part.final]

end

end PublicInbox.Config
