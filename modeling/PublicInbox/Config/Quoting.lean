import PublicInbox.Config.Globs

/-! The first substitution of glob2re, over the tokens of a glob. -/
namespace PublicInbox.Config

section
variable (wide : Char → Bool)

def charOut (d : Int) (c : Char) : Text := (reMap [c]).getD (if c = '-' ∧ d ≠ 0 then [c] else quotemeta wide [c])

def textOut : Int → Text → Text
  | _,[] => []
  | d,c :: s => charOut wide d c ++ textOut (d + delta [c]) s

def charPlain (d : Int) (c : Char) : Int :=
  if c = ',' then 1 else if (reMap [c]).isSome then 0 else if c = '-' ∧ d ≠ 0 then 0 else 1

def textPlain : Int → Text → Int
  | _,[] => 0
  | d,c :: s => charPlain d c + textPlain (d + delta [c]) s

def deepOut : Text := ['(','?',':','/','.','*','?','/','|','/',')']

def Part.out (d : Int) : Part → Text
  | deep => deepOut
  | p => textOut wide d p.text

def partsOut : Int → List Part → Text
  | _,[] => []
  | d,p :: ps => p.out wide d ++ partsOut (d + delta p.text) ps

def Part.plain (d : Int) : Part → Int
  | deep => 0
  | p => textPlain d p.text

def partsPlain : Int → List Part → Int
  | _,[] => 0
  | d,p :: ps => p.plain d + partsPlain (d + delta p.text) ps

end

def Part.toks : Part → List Text
  | deep => [['/','*','*','/']]
  | p => p.text.map ([·])

/-! The counter -/

theorem deltaAppend (s t : Text) : delta (s ++ t) = delta s + delta t := by
  simp only [delta,List.count_append]
  omega

theorem deltaCons (c : Char) (s : Text) : delta (c :: s) = delta [c] + delta s := deltaAppend [c] s

theorem deltaNone {c : Char} (one : c ≠ '[') (two : c ≠ ']') : delta [c] = 0 := by
  simp [delta,one,two]

section
variable {wide : Char → Bool}

theorem textOutAppend (d : Int) (s t : Text) : textOut wide d (s ++ t) = textOut wide d s ++ textOut wide (d + delta s) t := by
  induction s generalizing d with
  | nil => simp [textOut,delta]
  | cons c s ih => rw [List.cons_append,textOut,textOut,ih,deltaCons c s,List.append_assoc,Int.add_assoc]

/-! Tokens -/

theorem slashOther {c : Char} {r : Text} (other : c ≠ '*') : Slash (c :: r) := by
  refine ⟨fun front => ?_,fun same => ?_⟩
  · obtain ⟨rest,same⟩ := front
    exact other (List.cons.inj same).1.symm
  · exact other (List.cons.inj same).1

theorem tokensChar {c : Char} {r : Text} (free : c = '/' → Slash r) : tokens false (c :: r) = [c] :: tokens false r := by
  conv_lhs => unfold tokens
  split
  · rename_i is
    cases is
  · rename_i s is
    cases is
    exact absurd ⟨s,rfl⟩ (free rfl).1
  · rename_i is _
    cases is
  · rename_i is
    cases is
    exact absurd rfl (free rfl).2
  · rename_i is _
    cases is
    rfl

def Free : Text → Text → Prop
  | [],_ => True
  | c :: s,after => (c = '/' → Slash (s ++ after)) ∧ Free s after

theorem tokensFree {s after : Text} (free : Free s after) : tokens false (s ++ after) = s.map ([·]) ++ tokens false after := by
  induction s with
  | nil => rfl
  | cons c s ih =>
    rw [List.cons_append,tokensChar free.1,ih free.2]
    rfl

theorem Free.append {s t after : Text} (first : Free s (t ++ after)) (second : Free t after) : Free (s ++ t) after := by
  induction s with
  | nil => exact second
  | cons c s ih =>
    refine ⟨fun slash => ?_,ih first.2⟩
    have whole := first.1 slash
    rwa [← List.append_assoc] at whole

theorem freeNoStar {s after : Text} (stars : '*' ∉ s) (last : ∀ c ∈ s.getLast?,c ≠ '/') : Free s after := by
  induction s with
  | nil => trivial
  | cons c s ih =>
    cases s with
    | nil => exact ⟨fun slash => absurd slash (last c rfl),trivial⟩
    | cons e s =>
      refine ⟨fun _ => slashOther fun star => stars ?_,ih (fun mem => stars (List.mem_cons_of_mem _ mem)) last⟩
      rw [star]
      exact List.mem_cons_of_mem _ List.mem_cons_self

theorem clsFree {neg : Option Char} {lead : Bool} {rest after : Text} (ok : (Item.cls neg lead rest).Ok)
    (stars : ∀ c ∈ rest,c ≠ '*') : Free (Item.cls neg lead rest).text after := by
  apply freeNoStar
  · intro mem
    simp only [Item.text,List.mem_cons,List.mem_append,leading,Option.mem_toList] at mem
    rcases mem with bad | neg | lead | rest | bad | bad
    · exact absurd bad (by decide)
    · rcases ok.1 _ neg with bad | bad <;> exact absurd bad (by decide)
    · split at lead
      · exact absurd lead (by decide)
      · cases lead
    · exact stars _ rest rfl
    · exact absurd bad (by decide)
    · cases bad
  · have ends : (Item.cls neg lead rest).text.getLast? = some ']' := by
      rw [Item.text,← List.append_assoc,← List.append_assoc,← List.cons_append,List.getLast?_concat]
    rw [ends]
    rintro c ⟨⟩
    decide

theorem itemFree {i : Item} {d : Int} {after : Text} (ok : i.Ok) (read : i.Read d) (apart : i = .lit '/' → Slash after) :
    Free i.text after := by
  cases i with
  | lit c => exact ⟨fun slash => apart (congrArg Item.lit slash),trivial⟩
  | any => exact ⟨nofun,trivial⟩
  | star => exact ⟨nofun,trivial⟩
  | cls neg lead rest => exact clsFree ok fun c mem => (read.2.1 c mem).1

theorem itemsFree {is : List Item} {d : Int} {after : Text} (ok : ∀ i ∈ is,i.Ok) (read : ItemsRead d is)
    (apart : ItemsApart is after) : Free (itemsText is) after := by
  induction is generalizing d with
  | nil => trivial
  | cons i is ih =>
    have own : Free i.text (itemsText is ++ after) := itemFree (ok i List.mem_cons_self) read.1 apart.1
    exact own.append (ih (fun j mem => ok j (List.mem_cons_of_mem _ mem)) read.2 apart.2)

theorem slashEnd {x r : Text} {c : Char} (slash : Slash (x ++ [','])) (one : c ≠ '*') (two : c ≠ '/') : Slash (x ++ c :: r) := by
  match x with
  | [] => exact slashOther one
  | [a] =>
    refine ⟨fun ⟨rest,same⟩ => ?_,fun same => ?_⟩
    · simp only [List.cons_append,List.nil_append,List.cons.injEq] at same
      exact one same.2.1.symm
    · simp only [List.cons_append,List.nil_append,List.cons.injEq] at same
      exact one same.2.1
  | [a,b] =>
    refine ⟨fun ⟨rest,same⟩ => ?_,fun same => ?_⟩
    · simp only [List.cons_append,List.nil_append,List.cons.injEq] at same
      exact two same.2.2.1.symm
    · simp at same
  | a :: b :: e :: y =>
    refine ⟨fun ⟨rest,same⟩ => slash.1 ?_,fun same => ?_⟩
    · simp only [List.cons_append,List.nil_append,List.cons.injEq] at same
      obtain ⟨rfl,rfl,rfl,_⟩ := same
      exact ⟨y ++ [','],rfl⟩
    · simp at same

theorem itemsApartEnd {is : List Item} {c : Char} {r : Text} (apart : ItemsApart is [',']) (one : c ≠ '*') (two : c ≠ '/') :
    ItemsApart is (c :: r) := by
  induction is with
  | nil => trivial
  | cons i is ih => exact ⟨fun slash => slashEnd (apart.1 slash) one two,ih apart.2⟩

theorem othersFree {others : List (List Item)} {d : Int} {after : Text} (ok : ∀ is ∈ others,ListItems is)
    (read : OthersRead wide d others) (apart : ∀ is ∈ others,ItemsApart is [',']) :
    Free (othersText others ++ ['\x7d']) after := by
  induction others generalizing d with
  | nil => exact ⟨nofun,trivial⟩
  | cons is others ih =>
    obtain ⟨first,_,rest⟩ := read
    have tail := ih (fun x mem => ok x (List.mem_cons_of_mem _ mem)) rest (fun x mem => apart x (List.mem_cons_of_mem _ mem))
    have shape : othersText (is :: others) ++ ['\x7d'] = ',' :: (itemsText is ++ (othersText others ++ ['\x7d'])) := by
      simp [othersText]
    have items (c : Char) (r : Text) (one : c ≠ '*') (two : c ≠ '/') : Free (itemsText is) (c :: r) :=
      itemsFree (fun i mem => (ok is List.mem_cons_self i mem).1) first
        (itemsApartEnd (apart is List.mem_cons_self) one two)
    rw [shape]
    refine ⟨nofun,Free.append ?_ tail⟩
    cases others with
    | nil => exact items _ _ (by decide) (by decide)
    | cons is' others => exact items _ _ (by decide) (by decide)

theorem listFree {first : List Item} {others : List (List Item)} {d : Int} {after : Text} (ok : (Part.list first others).Ok)
    (read : (Part.list first others).Read wide d) (apart : ItemsApart first [','] ∧ ∀ is ∈ others,ItemsApart is [',']) :
    Free (Part.list first others).text after := by
  refine ⟨nofun,Free.append ?_ (othersFree ok.2.2 read.2 apart.2)⟩
  have items (c : Char) (r : Text) (one : c ≠ '*') (two : c ≠ '/') : Free (itemsText first) (c :: r) :=
    itemsFree (fun i mem => (ok.2.1 i mem).1) read.1 (itemsApartEnd apart.1 one two)
  obtain ⟨is,others,rfl⟩ := List.exists_cons_of_ne_nil ok.1
  exact items _ _ (by decide) (by decide)

theorem tokensParts {ps : List Part} {d : Int} {after : Text} (ok : ∀ p ∈ ps,p.Ok) (read : PartsRead wide d ps)
    (apart : PartsApart ps after) :
    tokens false (partsText ps ++ after) = ps.flatMap Part.toks ++ tokens false after := by
  induction ps generalizing d with
  | nil => rfl
  | cons p ps ih =>
    have own := ok p List.mem_cons_self
    have rest (apart : PartsApart ps after) := ih (fun x mem => ok x (List.mem_cons_of_mem _ mem)) read.2 apart
    have shape : partsText (p :: ps) ++ after = p.text ++ (partsText ps ++ after) := List.append_assoc _ _ _
    rw [shape,List.flatMap_cons,List.append_assoc]
    cases p with
    | item i =>
      have free : Free i.text (partsText ps ++ after) := itemFree own read.1 apart.1
      rw [Part.text,tokensFree free,rest apart.2]
      rfl
    | deep =>
      rw [← rest apart]
      rfl
    | list first others =>
      have free : Free (Part.list first others).text (partsText ps ++ after) :=
        listFree own read.1 ⟨apart.1,apart.2.1⟩
      rw [tokensFree free,rest apart.2.2]
      rfl

/-! What the substitution leaves -/

theorem countedBracket (d : Int) (c : Char) :
    (if [c] = ['['] then d + 1 else if [c] = [']'] then d - 1 else d) = d + delta [c] := by
  by_cases opens : c = '['
  · subst opens
    rfl
  by_cases closes : c = ']'
  · subst closes
    rfl
  rw [deltaNone opens closes]
  simp [opens,closes]

theorem replaceChar {q : Quoting} {c : Char} (before : q.p ≠ ['\\']) :
    replaceTok wide q [c] = ⟨[c],q.inBracket + delta [c],q.qm + charPlain q.inBracket c,q.re ++ charOut wide q.inBracket c⟩ := by
  unfold replaceTok counted
  rw [if_neg before,countedBracket]
  cases found : reMap [c] with
  | some re =>
    simp only [charPlain,charOut,found,Option.isSome_some,if_true,Option.getD_some,Quoting.mk.injEq,true_and,and_true]
    by_cases comma : c = ',' <;> simp [comma]
  | none =>
    have comma : c ≠ ',' := by
      rintro rfl
      cases found
    by_cases dash : c = '-'
    · subst dash
      have same : q.inBracket + delta ['-'] = q.inBracket := Int.add_zero _
      simp only [same,charPlain,charOut,found,Option.getD_none]
      by_cases inside : q.inBracket = 0 <;> simp [inside]
    · simp [charPlain,charOut,found,comma,dash]

theorem replaceDeep {q : Quoting} (before : q.p ≠ ['\\']) :
    replaceTok wide q ['/','*','*','/'] = ⟨['/','*','*','/'],q.inBracket,q.qm,q.re ++ deepOut⟩ := by
  unfold replaceTok counted
  rw [if_neg before]
  rfl

structure Quoting.Adds (q q' : Quoting) (d plain : Int) (out : Text) : Prop where
  p : q'.p ≠ ['\\']
  inBracket : q'.inBracket = q.inBracket + d
  qm : q'.qm = q.qm + plain
  re : q'.re = q.re ++ out

theorem foldText {s : Text} (noEscape : '\\' ∉ s) {q : Quoting} (before : q.p ≠ ['\\']) :
    q.Adds ((s.map ([·])).foldl (replaceTok wide) q) (delta s) (textPlain q.inBracket s) (textOut wide q.inBracket s) := by
  induction s generalizing q with
  | nil => exact ⟨before,(Int.add_zero _).symm,(Int.add_zero _).symm,(List.append_nil _).symm⟩
  | cons c s ih =>
    obtain ⟨other,rest⟩ : '\\' ≠ c ∧ '\\' ∉ s := by simpa using noEscape
    rw [List.map_cons,List.foldl_cons,replaceChar before]
    have next : ([c] : Text) ≠ ['\\'] := by
      rintro ⟨⟩
      exact other rfl
    obtain ⟨p,inBracket,qm,re⟩ := @ih rest ⟨[c],q.inBracket + delta [c],q.qm + charPlain q.inBracket c,
      q.re ++ charOut wide q.inBracket c⟩ next
    refine ⟨p,?_,?_,?_⟩
    · rw [inBracket,deltaCons c s]
      exact Int.add_assoc _ _ _
    · rw [qm,textPlain]
      exact Int.add_assoc _ _ _
    · rw [re,textOut]
      exact List.append_assoc _ _ _

theorem foldParts {ps : List Part} (noEscape : ∀ p ∈ ps,'\\' ∉ p.text) {q : Quoting} (before : q.p ≠ ['\\']) :
    q.Adds ((ps.flatMap Part.toks).foldl (replaceTok wide) q) (delta (partsText ps)) (partsPlain q.inBracket ps)
      (partsOut wide q.inBracket ps) := by
  induction ps generalizing q with
  | nil => exact ⟨before,(Int.add_zero _).symm,(Int.add_zero _).symm,(List.append_nil _).symm⟩
  | cons p ps ih =>
    have own : q.Adds (p.toks.foldl (replaceTok wide) q) (delta p.text) (p.plain q.inBracket) (p.out wide q.inBracket) := by
      have plainText := @foldText wide p.text (noEscape p List.mem_cons_self) q before
      cases p with
      | item i => exact plainText
      | list first others => exact plainText
      | deep =>
        show q.Adds (replaceTok wide q ['/','*','*','/']) _ _ _
        rw [replaceDeep before]
        exact ⟨show (['/','*','*','/'] : Text) ≠ ['\\'] by decide,(Int.add_zero _).symm,(Int.add_zero _).symm,rfl⟩
    rw [List.flatMap_cons,List.foldl_append]
    obtain ⟨p',inBracket,qm,re⟩ := ih (fun x mem => noEscape x (List.mem_cons_of_mem _ mem)) own.p
    have shape : partsText (p :: ps) = p.text ++ partsText ps := rfl
    refine ⟨p',?_,?_,?_⟩
    · rw [inBracket,own.inBracket,shape,deltaAppend,Int.add_assoc]
    · rw [qm,own.qm,own.inBracket,partsPlain,Int.add_assoc]
    · rw [re,own.re,own.inBracket,partsOut,List.append_assoc]

end

end PublicInbox.Config
