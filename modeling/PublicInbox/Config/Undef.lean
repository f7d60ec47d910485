import PublicInbox.Config.Braces

/-! What glob2re returns, part by part, and when it returns undef. -/
namespace PublicInbox.Config

theorem itemChars {i : Item} (ok : i.Ok) : '\x7b' ∉ i.text ∧ '\\' ∉ i.text := by
  cases i with
  | lit c =>
    constructor
    · intro mem
      exact ok (List.mem_singleton.mp mem ▸ by decide)
    · intro mem
      exact ok (List.mem_singleton.mp mem ▸ by decide)
  | any => exact ⟨by decide,by decide⟩
  | star => exact ⟨by decide,by decide⟩
  | cls neg lead rest =>
    have plain {c : Char} (mem : c ∈ (Item.cls neg lead rest).text) (one : c ∉ ['[',']','!','^']) : c ∈ rest := by
      simp only [Item.text,List.mem_cons,List.mem_append,Option.mem_toList,leading,List.not_mem_nil,or_false] at mem
      rcases mem with rfl | neg | lead | rest | rfl
      · exact absurd one (by decide)
      · rcases ok.1 c neg with rfl | rfl <;> exact absurd one (by decide)
      · split at lead
        · exact absurd (List.mem_singleton.mp lead ▸ one) (by decide)
        · cases lead
      · exact rest
      · exact absurd one (by decide)
    exact ⟨fun mem => absurd (ok.2.1 _ (plain mem (by decide))) (by decide),
      fun mem => absurd (ok.2.1 _ (plain mem (by decide))) (by decide)⟩

theorem itemsChars {is : List Item} (ok : ∀ i ∈ is,i.Ok) : '\x7b' ∉ itemsText is ∧ '\\' ∉ itemsText is := by
  constructor
  · intro mem
    obtain ⟨i,inside,mem⟩ := List.mem_flatMap.mp mem
    exact (itemChars (ok i inside)).1 mem
  · intro mem
    obtain ⟨i,inside,mem⟩ := List.mem_flatMap.mp mem
    exact (itemChars (ok i inside)).2 mem

theorem partNoEscape {p : Part} (ok : p.Ok) : '\\' ∉ p.text := by
  cases p with
  | item i => exact (itemChars ok).2
  | deep => decide
  | list first others =>
    have items {is : List Item} (ok : ListItems is) : '\\' ∉ itemsText is := (itemsChars fun i mem => (ok i mem).1).2
    have rest : '\\' ∉ othersText others := by
      intro mem
      obtain ⟨is,inside,mem⟩ := List.mem_flatMap.mp mem
      rcases List.mem_cons.mp mem with comma | mem
      · exact absurd comma (by decide)
      · exact items (ok.2.2 is inside) mem
    intro mem
    simp only [Part.text,List.mem_cons,List.mem_append,List.not_mem_nil,or_false] at mem
    rcases mem with bad | first | others | bad
    · exact absurd bad (by decide)
    · exact items ok.2.1 first
    · exact rest others
    · exact absurd bad (by decide)

section
variable {wide : Char → Bool}

theorem partBraces {p : Part} {d : Int} (ok : p.Ok) (read : p.Read wide d) (s : Text) :
    braces (p.out wide d ++ s) = (p.final wide d ++ (braces s).1,(braces s).2 + p.lists) := by
  cases p with
  | item i =>
    obtain ⟨opens,escapes⟩ := itemChars ok
    show _ = (_,(braces s).2 + 0)
    rw [Int.add_zero]
    exact textSmooth opens escapes s
  | deep =>
    show _ = (_,(braces s).2 + 0)
    rw [Int.add_zero]
    exact @smoothText deepOut (by decide) s
  | list first others => exact listBraces ok read

theorem partsBraces {ps : List Part} {d : Int} (ok : ∀ p ∈ ps,p.Ok) (read : PartsRead wide d ps) (s : Text) :
    braces (partsOut wide d ps ++ s) = (partsFinal wide d ps ++ (braces s).1,(braces s).2 + partsLists ps) := by
  induction ps generalizing d with
  | nil => simp [partsOut,partsFinal,partsLists]
  | cons p ps ih =>
    have rest := ih (fun x mem => ok x (List.mem_cons_of_mem _ mem)) read.2
    have lists : partsLists (p :: ps) = p.lists + partsLists ps := rfl
    rw [partsOut,List.append_assoc,partBraces (ok p List.mem_cons_self) read.1,rest,partsFinal,List.append_assoc,lists,
      Int.add_comm p.lists,Int.add_assoc]

end

/-! The whole -/

def firstText (g : Glob) : Text := if g.deepFirst then ['*','*','/'] else []
def lastText (g : Glob) : Text := if g.deepLast then ['/','*','*'] else []
def firstOut (g : Glob) : Text := if g.deepFirst then ['.','*','/'] else []
def lastOut (g : Glob) : Text := if g.deepLast then ['/','.','*'] else []

def firstToks (g : Glob) : List Text := if g.deepFirst then [['*','*','/']] else []
def lastToks (g : Glob) : List Text := if g.deepLast then [['/','*','*']] else []

theorem tokensStart {s : Text} (none : ¬['*','*','/'] <+: s) : tokens true s = tokens false s := by
  conv_lhs => unfold tokens
  split
  · rfl
  · rfl
  · rename_i s _
    exact absurd ⟨s,rfl⟩ none
  · rfl
  · rename_i c s notDeep notLast _
    refine (tokensChar fun slash => ⟨?_,notLast slash⟩).symm
    rintro ⟨rest,same⟩
    exact notDeep rest slash same.symm

section
variable {wide : Char → Bool} {g : Glob}

theorem tokensGlob (ok : g.Ok) (read : g.Read wide) :
    tokens true g.text = firstToks g ++ (g.parts.flatMap Part.toks ++ lastToks g) := by
  have last : tokens false (lastText g) = lastToks g := by
    unfold lastText lastToks
    split <;> rfl
  have body : tokens false (partsText g.parts ++ lastText g) = g.parts.flatMap Part.toks ++ lastToks g := by
    rw [← last]
    exact tokensParts ok.parts read ok.apart
  cases first : g.deepFirst with
  | true =>
    have shape : g.text = '*' :: '*' :: '/' :: (partsText g.parts ++ lastText g) := by
      unfold Glob.text
      rw [first]
      rfl
    rw [shape,← body,firstToks,first]
    rfl
  | false =>
    have shape : g.text = partsText g.parts ++ lastText g := by
      unfold Glob.text
      rw [first]
      rfl
    rw [tokensStart (ok.first first),shape,body,firstToks,first]
    rfl

theorem quotingGlob (ok : g.Ok) (read : g.Read wide) :
    (quoting wide g.text).re = firstOut g ++ (partsOut wide 0 g.parts ++ lastOut g) ∧
      (quoting wide g.text).qm = partsPlain 0 g.parts := by
  have first : (firstToks g).foldl (replaceTok wide) ⟨[],0,0,[]⟩ = ⟨firstText g,0,0,firstOut g⟩ := by
    unfold firstToks firstText firstOut
    split <;> rfl
  have start : firstText g ≠ ['\\'] := by
    unfold firstText
    split <;> decide
  have body := @foldParts wide g.parts (fun p mem => partNoEscape (ok.parts p mem)) ⟨firstText g,0,0,firstOut g⟩ start
  have last {q : Quoting} (before : q.p ≠ ['\\']) : ((lastToks g).foldl (replaceTok wide) q).re = q.re ++ lastOut g ∧
      ((lastToks g).foldl (replaceTok wide) q).qm = q.qm := by
    unfold lastToks lastOut
    split
    · rw [List.foldl_cons,List.foldl_nil]
      unfold replaceTok counted
      rw [if_neg before]
      exact ⟨rfl,rfl⟩
    · exact ⟨(List.append_nil _).symm,rfl⟩
  obtain ⟨re,qm⟩ := last body.p
  unfold quoting
  rw [tokensGlob ok read,List.foldl_append,List.foldl_append,first,re,qm,body.re,body.qm]
  exact ⟨List.append_assoc _ _ _,Int.zero_add _⟩

def globChanges (g : Glob) : Int :=
  (firstToks g).length + ((g.parts.flatMap Part.toks).length + partsLists g.parts + (lastToks g).length)

def globRe (wide : Char → Bool) (g : Glob) : Text := firstOut g ++ (partsFinal wide 0 g.parts ++ lastOut g)

theorem globReturns (ok : g.Ok) (read : g.Read wide) :
    glob2re wide g.text = if globChanges g - partsPlain 0 g.parts ≠ 0 then some (globRe wide g) else none := by
  have cut : cutUrl g.text = ([],g.text) := by
    unfold cutUrl
    rw [ok.noUrl]
  obtain ⟨re,qm⟩ := quotingGlob ok read
  have first : Smooth (firstOut g) := smoothText (by unfold firstOut; split <;> decide)
  have last : braces (lastOut g) = (lastOut g,0) := by
    have smooth : Smooth (lastOut g) := smoothText (by unfold lastOut; split <;> decide)
    exact smooth.whole
  have whole : braces (quoting wide g.text).re = (globRe wide g,partsLists g.parts) := by
    rw [re,first,partsBraces ok.parts read,last,Int.zero_add]
    rfl
  have count : ((tokens true g.text).length : Int) + partsLists g.parts = globChanges g := by
    rw [tokensGlob ok read,List.length_append,List.length_append,globChanges]
    omega
  unfold glob2re
  simp only [cut,whole,count,qm]
  rfl

end

/-! undef -/

theorem charPlainMost (d : Int) (c : Char) : charPlain d c ≤ 1 := by
  unfold charPlain
  split
  · exact le_rfl
  split
  · decide
  split <;> decide

theorem textPlainMost (d : Int) (s : Text) : textPlain d s ≤ s.length := by
  induction s generalizing d with
  | nil => exact le_rfl
  | cons c s ih =>
    have head := charPlainMost d c
    have tail := ih (d + delta [c])
    rw [textPlain,List.length_cons]
    omega

theorem itemPlain (d : Int) (i : Item) : i.text.length = textPlain d i.text → ∃ c,i = .lit c := by
  intro same
  cases i with
  | lit c => exact ⟨c,rfl⟩
  | any => cases same
  | star => cases same
  | cls neg lead rest =>
    have most := textPlainMost (d + delta ['[']) (neg.toList ++ (leading lead ++ (rest ++ [']'])))
    have opens : textPlain d (Item.cls neg lead rest).text =
      0 + textPlain (d + delta ['[']) (neg.toList ++ (leading lead ++ (rest ++ [']']))) := rfl
    rw [opens,Item.text,List.length_cons] at same
    omega

theorem partPlain (d : Int) (p : Part) : p.plain d ≤ p.toks.length + p.lists ∧
    (p.plain d = p.toks.length + p.lists → p.isLit = true) := by
  have most := textPlainMost d p.text
  cases p with
  | item i =>
    have count : ((Part.item i).toks.length : Int) + (Part.item i).lists = i.text.length := by
      show ((i.text.map ([·])).length : Int) + 0 = _
      rw [List.length_map,Int.add_zero]
    refine ⟨count ▸ most,fun same => ?_⟩
    obtain ⟨c,rfl⟩ := itemPlain d i (count ▸ same).symm
    rfl
  | deep =>
    show (0 : Int) ≤ 1 + 0 ∧ ((0 : Int) = 1 + 0 → false = true)
    decide
  | list first others =>
    have count : ((Part.list first others).toks.length : Int) + (Part.list first others).lists =
        (Part.list first others).text.length + 1 := by
      show (((Part.list first others).text.map ([·])).length : Int) + 1 = _
      rw [List.length_map]
    have most : (Part.list first others).plain d ≤ (Part.list first others).text.length := most
    rw [count]
    exact ⟨by omega,fun same => by omega⟩

theorem partsPlainMost (d : Int) (ps : List Part) : partsPlain d ps ≤ (ps.flatMap Part.toks).length + partsLists ps ∧
    (partsPlain d ps = (ps.flatMap Part.toks).length + partsLists ps → ∀ p ∈ ps,p.isLit = true) := by
  induction ps generalizing d with
  | nil => exact ⟨le_rfl,nofun⟩
  | cons p ps ih =>
    obtain ⟨most,all⟩ := ih (d + delta p.text)
    obtain ⟨own,lit⟩ := partPlain d p
    have lists : partsLists (p :: ps) = p.lists + partsLists ps := rfl
    rw [partsPlain,List.flatMap_cons,List.length_append,lists]
    refine ⟨by omega,fun same => ?_⟩
    intro x mem
    rcases List.mem_cons.mp mem with rfl | mem
    · exact lit (by omega)
    · exact all (by omega) x mem

theorem litPlain {c : Char} (ok : (Item.lit c).Ok) : charPlain 0 c = 1 ∧ delta [c] = 0 := by
  have other {e : Char} (mem : e ∈ syntaxChars) : c ≠ e := by
    rintro rfl
    exact ok mem
  refine ⟨?_,deltaNone (other (by decide)) (other (by decide))⟩
  unfold charPlain reMap
  by_cases comma : c = ','
  · rw [if_pos comma]
  · have star := other (e := '*') (by decide)
    have any := other (e := '?') (by decide)
    have opens := other (e := '[') (by decide)
    have closes := other (e := ']') (by decide)
    simp [comma,star,any,opens,closes]

theorem plainParts {ps : List Part} (ok : ∀ p ∈ ps,p.Ok) (lits : ∀ p ∈ ps,p.isLit = true) :
    partsPlain 0 ps = (ps.flatMap Part.toks).length + partsLists ps := by
  induction ps with
  | nil => rfl
  | cons p ps ih =>
    have own := lits p List.mem_cons_self
    match p,own,ok p List.mem_cons_self with
    | .item (.lit c),_,fine =>
      obtain ⟨plain,same⟩ := litPlain fine
      have rest := ih (fun x mem => ok x (List.mem_cons_of_mem _ mem)) fun x mem => lits x (List.mem_cons_of_mem _ mem)
      have head : partsPlain 0 (.item (.lit c) :: ps) = charPlain 0 c + 0 + partsPlain (0 + delta [c]) ps := rfl
      have lists : partsLists (.item (.lit c) :: ps) = 0 + partsLists ps := rfl
      have toks : ((Part.item (.lit c) :: ps).flatMap Part.toks).length = (ps.flatMap Part.toks).length + 1 := rfl
      rw [head,plain,same,Int.add_zero,Int.add_zero,rest,lists,toks]
      omega

section
variable {wide : Char → Bool} {g : Glob}

theorem globUndef (ok : g.Ok) (read : g.Read wide) : glob2re wide g.text = none ↔ g.Plain := by
  obtain ⟨most,all⟩ := partsPlainMost 0 g.parts
  rw [globReturns ok read,ite_eq_right_iff]
  constructor
  · intro none
    have same : globChanges g - partsPlain 0 g.parts = 0 := by
      by_contra some
      cases none some
    unfold globChanges at same
    have first : (firstToks g).length = 0 := by omega
    have last : (lastToks g).length = 0 := by omega
    refine ⟨?_,?_,all (by omega)⟩
    · unfold firstToks at first
      by_contra deep
      rw [Bool.not_eq_false] at deep
      rw [deep] at first
      cases first
    · unfold lastToks at last
      by_contra deep
      rw [Bool.not_eq_false] at deep
      rw [deep] at last
      cases last
  · rintro ⟨first,last,lits⟩ some
    have parts := plainParts ok.parts lits
    refine absurd ?_ some
    unfold globChanges firstToks lastToks
    rw [first,last,parts]
    simp

end

end PublicInbox.Config
