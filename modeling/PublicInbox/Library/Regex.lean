import Mathlib.Computability.Language

/-! Regular expressions as text: how they are read, and the language of what is read. -/
namespace Regex
open Computability

abbrev Text := List Char

inductive Re where
  | eps
  | char (c : Char)
  | dot
  | set (neg : Bool) (ranges : List (Char × Char))
  | cat (r s : Re)
  | alt (r s : Re)
  | star (r : Re)

def inRanges (ranges : List (Char × Char)) (c : Char) : Bool := ranges.any fun r => decide (r.1 ≤ c ∧ c ≤ r.2)

def one (p : Char → Bool) : Language Char := {s | ∃ c,s = [c] ∧ p c = true}

def Re.lang : Re → Language Char
  | eps => 1
  | char c => {[c]}
  | dot => one (· != '\n')
  | set neg ranges => one fun c => inRanges ranges c != neg
  | cat r s => r.lang * s.lang
  | alt r s => r.lang + s.lang
  | star r => r.lang∗

/-! Reading -/

inductive Member where
  | lit (c : Char)
  | dash
  deriving DecidableEq

def Member.char : Member → Char
  | lit c => c
  | dash => '-'

def ranges : List Member → Option (List (Char × Char))
  | x :: .dash :: y :: rest => if x.char ≤ y.char then (ranges rest).map ((x.char,y.char) :: ·) else none
  | x :: rest => (ranges rest).map ((x.char,x.char) :: ·)
  | [] => some []

inductive Tok where
  | atom (r : Re)
  | star
  | opens
  | bar
  | closes

inductive Mode where
  | outside
  | inside (neg : Bool) (members : List Member)

def special (c : Char) : Bool := ['?','+','^','$','{'].contains c

def lex : Mode → Text → Option (List Tok)
  | .outside,[] => some []
  | .outside,c :: s =>
    if c = '\\' then
      match s with
      | [] => none
      | e :: s => if e.isAlphanum then none else (lex .outside s).map (.atom (.char e) :: ·)
    else if c = '[' then
      match s with
      | '^' :: ']' :: s => lex (.inside true [.lit ']']) s
      | '^' :: s => lex (.inside true []) s
      | ']' :: s => lex (.inside false [.lit ']']) s
      | s => lex (.inside false []) s
    else if c = '(' then
      match s with
      | '?' :: ':' :: s => (lex .outside s).map (.opens :: ·)
      | '?' :: _ => none
      | s => (lex .outside s).map (.opens :: ·)
    else if c = ')' then (lex .outside s).map (.closes :: ·)
    else if c = '|' then (lex .outside s).map (.bar :: ·)
    else if c = '.' then (lex .outside s).map (.atom .dot :: ·)
    else if c = '*' then
      match s with
      | '?' :: s => (lex .outside s).map (.star :: ·)
      | s => (lex .outside s).map (.star :: ·)
    else if special c then none
    else (lex .outside s).map (.atom (.char c) :: ·)
  | .inside _ _,[] => none
  | .inside neg members,c :: s =>
    if c = ']' then (ranges members).bind fun rs => (lex .outside s).map (.atom (.set neg rs) :: ·)
    else if c = '\\' then
      match s with
      | [] => none
      | e :: s => if e.isAlphanum then none else lex (.inside neg (members ++ [.lit e])) s
    else if c = '-' then lex (.inside neg (members ++ [.dash])) s
    else if c = '[' ∧ (s.head?.any [':','.','='].contains) then none
    else lex (.inside neg (members ++ [.lit c])) s

def seqOf (rs : List Re) : Re := rs.foldr .cat .eps

def altOf (r : Re) : List Re → Re
  | [] => r
  | s :: rest => .alt r (altOf s rest)

structure Frame where
  before : List Re
  current : List Re

def Frame.re (f : Frame) : Re :=
  match f.before ++ [seqOf f.current.reverse] with
  | [] => .eps
  | r :: rest => altOf r rest

def parse : List Tok → Frame → List Frame → Option Re
  | [],f,[] => some f.re
  | [],_,_ :: _ => none
  | .atom r :: ts,f,outer => parse ts { f with current := r :: f.current } outer
  | .star :: ts,f,outer =>
    match f.current with
    | [] => none
    | r :: rs => parse ts { f with current := .star r :: rs } outer
  | .opens :: ts,f,outer => parse ts ⟨[],[]⟩ (f :: outer)
  | .bar :: ts,f,outer => parse ts ⟨f.before ++ [seqOf f.current.reverse],[]⟩ outer
  | .closes :: _,_,[] => none
  | .closes :: ts,f,up :: outer => parse ts { up with current := f.re :: up.current } outer

def read (s : Text) : Option Re := (lex .outside s).bind fun ts => parse ts ⟨[],[]⟩ []

/-! The languages -/

theorem seqLang (rs : List Re) : (seqOf rs).lang = (rs.map Re.lang).prod := by
  induction rs with
  | nil => rfl
  | cons r rs ih =>
    rw [List.map_cons,List.prod_cons,← ih]
    rfl

theorem altLang (r : Re) (rs : List Re) : (altOf r rs).lang = ((r :: rs).map Re.lang).sum := by
  induction rs generalizing r with
  | nil => simp [altOf]
  | cons s rs ih =>
    rw [List.map_cons,List.sum_cons,← ih]
    rfl

theorem frameLang (f : Frame) : f.re.lang = (f.before.map Re.lang).sum + (f.current.reverse.map Re.lang).prod := by
  have whole : f.re.lang = ((f.before ++ [seqOf f.current.reverse]).map Re.lang).sum := by
    unfold Frame.re
    split
    · rename_i empty
      simp at empty
    · rename_i r rest is
      rw [is,altLang]
  rw [whole,List.map_append,List.sum_append,List.map_singleton,List.sum_singleton,seqLang]

theorem oneStar (p : Char → Bool) (s : Text) : s ∈ (one p)∗ ↔ ∀ c ∈ s,p c = true := by
  rw [Language.mem_kstar]
  constructor
  · rintro ⟨parts,rfl,all⟩ c mem
    obtain ⟨part,inside,mem⟩ := List.mem_flatten.mp mem
    obtain ⟨c',rfl,holds⟩ := all part inside
    rw [List.mem_singleton.mp mem]
    exact holds
  · intro all
    refine ⟨s.map ([·]),(List.flatMap_singleton' s).symm,fun part mem => ?_⟩
    obtain ⟨c,inside,rfl⟩ := List.mem_map.mp mem
    exact ⟨c,rfl,all c inside⟩

theorem anyStar (s : Text) : s ∈ (Re.star .dot).lang ↔ '\n' ∉ s := by
  refine (oneStar _ s).trans ⟨fun all mem => absurd (all _ mem) (by decide),fun none c mem => ?_⟩
  have other : c ≠ '\n' := fun same => none (same ▸ mem)
  simpa using other

/-! Characters -/

theorem lexOutside (c : Char) (s : Text) : lex .outside (c :: s) =
    if c = '\\' then
      match s with
      | [] => none
      | e :: s => if e.isAlphanum then none else (lex .outside s).map (.atom (.char e) :: ·)
    else if c = '[' then
      match s with
      | '^' :: ']' :: s => lex (.inside true [.lit ']']) s
      | '^' :: s => lex (.inside true []) s
      | ']' :: s => lex (.inside false [.lit ']']) s
      | s => lex (.inside false []) s
    else if c = '(' then
      match s with
      | '?' :: ':' :: s => (lex .outside s).map (.opens :: ·)
      | '?' :: _ => none
      | s => (lex .outside s).map (.opens :: ·)
    else if c = ')' then (lex .outside s).map (.closes :: ·)
    else if c = '|' then (lex .outside s).map (.bar :: ·)
    else if c = '.' then (lex .outside s).map (.atom .dot :: ·)
    else if c = '*' then
      match s with
      | '?' :: s => (lex .outside s).map (.star :: ·)
      | s => (lex .outside s).map (.star :: ·)
    else if special c then none
    else (lex .outside s).map (.atom (.char c) :: ·) := by
  conv_lhs => unfold lex
  rfl

theorem lexInside (neg : Bool) (ms : List Member) (c : Char) (s : Text) : lex (.inside neg ms) (c :: s) =
    if c = ']' then (ranges ms).bind fun rs => (lex .outside s).map (.atom (.set neg rs) :: ·)
    else if c = '\\' then
      match s with
      | [] => none
      | e :: s => if e.isAlphanum then none else lex (.inside neg (ms ++ [.lit e])) s
    else if c = '-' then lex (.inside neg (ms ++ [.dash])) s
    else if c = '[' ∧ (s.head?.any [':','.','='].contains) then none
    else lex (.inside neg (ms ++ [.lit c])) s := by
  conv_lhs => unfold lex
  rfl

theorem lexEscaped {c : Char} (sign : c.isAlphanum = false) (s : Text) :
    lex .outside ('\\' :: c :: s) = (lex .outside s).map (.atom (.char c) :: ·) := by
  rw [lexOutside,if_pos rfl]
  exact if_neg (by rw [sign]; decide)

def ordinary (c : Char) : Bool := !(['\\','[','(',')','|','.','*'] : List Char).contains c && !special c

theorem lexChar {c : Char} (plain : ordinary c = true) (s : Text) :
    lex .outside (c :: s) = (lex .outside s).map (.atom (.char c) :: ·) := by
  simp only [ordinary,Bool.and_eq_true,Bool.not_eq_true',List.contains_eq_mem,decide_eq_false_iff_not,List.mem_cons,
    List.not_mem_nil,or_false,not_or] at plain
  obtain ⟨⟨escape,opens,group,closes,bar,dot,star⟩,other⟩ := plain
  rw [lexOutside,if_neg escape,if_neg opens,if_neg group,if_neg closes,if_neg bar,if_neg dot,if_neg star,other]
  rfl

theorem lexBar (s : Text) : lex .outside ('|' :: s) = (lex .outside s).map (.bar :: ·) := by
  rw [lexOutside]
  rfl

theorem lexCloses (s : Text) : lex .outside (')' :: s) = (lex .outside s).map (.closes :: ·) := by
  rw [lexOutside]
  rfl

theorem lexOpens {s : Text} (other : s.head? ≠ some '?') : lex .outside ('(' :: s) = (lex .outside s).map (.opens :: ·) := by
  match s with
  | [] => rfl
  | c :: s =>
    have other : c ≠ '?' := fun same => other (congrArg some same)
    rw [lexOutside,if_neg (by decide),if_neg (by decide),if_pos rfl]
    simp [other]

theorem lexGroup (s : Text) : lex .outside ('(' :: '?' :: ':' :: s) = (lex .outside s).map (.opens :: ·) := rfl

theorem lexDot (s : Text) : lex .outside ('.' :: s) = (lex .outside s).map (.atom .dot :: ·) := by
  rw [lexOutside]
  rfl

theorem lexLazy (s : Text) : lex .outside ('*' :: '?' :: s) = (lex .outside s).map (.star :: ·) := by
  rw [lexOutside]
  rfl

theorem lexStar {s : Text} (other : s.head? ≠ some '?') : lex .outside ('*' :: s) = (lex .outside s).map (.star :: ·) := by
  match s with
  | [] => rfl
  | c :: s =>
    have other : c ≠ '?' := fun same => other (congrArg some same)
    simp [lexOutside,other]

theorem lexSet {c : Char} (negated : c ≠ '^') (closes : c ≠ ']') (s : Text) :
    lex .outside ('[' :: c :: s) = lex (.inside false []) (c :: s) := by
  simp [lexOutside,negated,closes]

theorem lexLead (s : Text) : lex .outside ('[' :: ']' :: s) = lex (.inside false [.lit ']']) s := rfl

theorem insideEscaped {c : Char} (sign : c.isAlphanum = false) (neg : Bool) (ms : List Member) (s : Text) :
    lex (.inside neg ms) ('\\' :: c :: s) = lex (.inside neg (ms ++ [.lit c])) s := by
  rw [lexInside,if_neg (by decide),if_pos rfl]
  exact if_neg (by rw [sign]; decide)

theorem insideDash (neg : Bool) (ms : List Member) (s : Text) :
    lex (.inside neg ms) ('-' :: s) = lex (.inside neg (ms ++ [.dash])) s := by
  rw [lexInside]
  rfl

theorem insideChar {c : Char} (closes : c ≠ ']') (escape : c ≠ '\\') (dash : c ≠ '-') {s : Text}
    (named : c = '[' → s.head?.any [':','.','='].contains = false) (neg : Bool) (ms : List Member) :
    lex (.inside neg ms) (c :: s) = lex (.inside neg (ms ++ [.lit c])) s := by
  rw [lexInside,if_neg closes,if_neg escape,if_neg dash]
  exact if_neg fun ⟨opens,more⟩ => absurd more (by rw [named opens]; decide)

theorem insideEnd {neg : Bool} {ms : List Member} {rs : List (Char × Char)} (members : ranges ms = some rs) (s : Text) :
    lex (.inside neg ms) (']' :: s) = (lex .outside s).map (.atom (.set neg rs) :: ·) := by
  rw [lexInside,if_pos rfl,members]
  rfl

/-! Texts that are read the same wherever they stand -/

def Means (x : Text) (l : Language Char) : Prop :=
  ∃ (ts : List Tok) (rs : List Re),(∀ s,lex .outside (x ++ s) = (lex .outside s).map (ts ++ ·)) ∧
    (∀ rest f outer,parse (ts ++ rest) f outer = parse rest { f with current := rs.reverse ++ f.current } outer) ∧
    (rs.map Re.lang).prod = l

def Ends (x : Text) (l : Language Char) : Prop :=
  ∃ (ts : List Tok) (rs : List Re),lex .outside x = some ts ∧
    (∀ f,parse ts f [] = some (Frame.re { f with current := rs.reverse ++ f.current })) ∧ (rs.map Re.lang).prod = l

theorem Means.one {x : Text} {r : Re} {l : Language Char}
    (lexed : ∀ s,lex .outside (x ++ s) = (lex .outside s).map (.atom r :: ·)) (lang : r.lang = l) : Means x l := by
  refine ⟨[.atom r],[r],lexed,fun _ _ _ => rfl,?_⟩
  rw [List.map_singleton,List.prod_singleton,lang]

theorem Means.nil : Means [] 1 := by
  refine ⟨[],[],fun s => ?_,fun _ _ _ => rfl,rfl⟩
  rw [List.nil_append]
  exact Option.map_id'.symm

theorem Means.append {x y : Text} {l m : Language Char} (first : Means x l) (second : Means y m) :
    Means (x ++ y) (l * m) := by
  obtain ⟨ts,rs,lexed,parsed,lang⟩ := first
  obtain ⟨ts',rs',lexed',parsed',lang'⟩ := second
  refine ⟨ts ++ ts',rs ++ rs',fun s => ?_,fun rest f outer => ?_,?_⟩
  · rw [List.append_assoc,lexed,lexed',Option.map_map]
    exact congrArg (Option.map · _) (funext fun more => (List.append_assoc _ _ _).symm)
  · rw [List.append_assoc,parsed,parsed',List.reverse_append,List.append_assoc]
  · rw [List.map_append,List.prod_append,lang,lang']

theorem Means.ends {x y : Text} {l m : Language Char} (first : Means x l) (second : Ends y m) : Ends (x ++ y) (l * m) := by
  obtain ⟨ts,rs,lexed,parsed,lang⟩ := first
  obtain ⟨ts',rs',lexed',parsed',lang'⟩ := second
  refine ⟨ts ++ ts',rs ++ rs',?_,fun f => ?_,?_⟩
  · rw [lexed,lexed']
    rfl
  · rw [parsed,parsed',List.reverse_append,List.append_assoc]
  · rw [List.map_append,List.prod_append,lang,lang']

theorem Ends.nil : Ends [] 1 := ⟨[],[],rfl,fun _ => rfl,rfl⟩

theorem Ends.read {x : Text} {l : Language Char} (ends : Ends x l) : ∃ re,Regex.read x = some re ∧ re.lang = l := by
  obtain ⟨ts,rs,lexed,parsed,lang⟩ := ends
  refine ⟨Frame.re ⟨[],rs.reverse ++ []⟩,?_,?_⟩
  · unfold Regex.read
    rw [lexed,Option.bind_some,parsed]
  · rw [frameLang,List.append_nil,List.reverse_reverse,List.map_nil,List.sum_nil,zero_add,lang]

/-! Groups -/

def altsText (alts : List (Text × Language Char)) : Text := alts.flatMap fun a => '|' :: a.1

theorem altsMean {alts : List (Text × Language Char)} (each : ∀ a ∈ alts,Means a.1 a.2) :
    ∃ ts,(∀ s,lex .outside (altsText alts ++ s) = (lex .outside s).map (ts ++ ·)) ∧
      ∀ f,∃ f' : Frame,(∀ rest outer,parse (ts ++ rest) f outer = parse rest f' outer) ∧
        f'.re.lang = f.re.lang + (alts.map Prod.snd).sum := by
  induction alts with
  | nil =>
    refine ⟨[],fun s => Option.map_id'.symm,fun f => ⟨f,fun _ _ => rfl,?_⟩⟩
    rw [List.map_nil,List.sum_nil,add_zero]
  | cons a alts ih =>
    obtain ⟨ts,rs,lexed,parsed,lang⟩ := each a List.mem_cons_self
    obtain ⟨ts',lexed',parsed'⟩ := ih fun x mem => each x (List.mem_cons_of_mem _ mem)
    refine ⟨.bar :: (ts ++ ts'),fun s => ?_,fun f => ?_⟩
    · have shape : altsText (a :: alts) ++ s = '|' :: (a.1 ++ (altsText alts ++ s)) := by simp [altsText]
      rw [shape,lexBar,lexed,lexed',Option.map_map,Option.map_map]
      exact congrArg (Option.map · _) (funext fun more => congrArg (Tok.bar :: ·) (List.append_assoc _ _ _).symm)
    · obtain ⟨f',same,lang'⟩ := parsed' ⟨f.before ++ [seqOf f.current.reverse],rs.reverse ++ []⟩
      refine ⟨f',fun rest outer => ?_,?_⟩
      · rw [← same,← parsed _ ⟨f.before ++ [seqOf f.current.reverse],[]⟩,List.cons_append,List.append_assoc]
        rfl
      · rw [lang',frameLang,frameLang,List.map_append,List.sum_append,List.append_nil,List.reverse_reverse,List.map_singleton,
          List.sum_singleton,seqLang,lang,List.map_cons,List.sum_cons,add_assoc]

theorem Means.group {x : Text} {l : Language Char} {alts : List (Text × Language Char)} (first : Means x l)
    (each : ∀ a ∈ alts,Means a.1 a.2) (head : x.head? ≠ some '?') :
    Means ('(' :: (x ++ (altsText alts ++ [')']))) (l + (alts.map Prod.snd).sum) := by
  obtain ⟨ts,rs,lexed,parsed,lang⟩ := first
  obtain ⟨ts',lexed',parsed'⟩ := altsMean each
  obtain ⟨g,same,lang'⟩ := parsed' ⟨[],rs.reverse ++ []⟩
  refine ⟨.opens :: (ts ++ (ts' ++ [.closes])),[g.re],fun s => ?_,fun rest f outer => ?_,?_⟩
  · have shape : '(' :: (x ++ (altsText alts ++ [')'])) ++ s = '(' :: (x ++ (altsText alts ++ ')' :: s)) := by simp
    have opens : lex .outside ('(' :: (x ++ (altsText alts ++ ')' :: s))) =
        (lex .outside (x ++ (altsText alts ++ ')' :: s))).map (.opens :: ·) := by
      apply lexOpens
      cases x with
      | cons c x => exact head
      | nil => cases alts <;> exact fun same => absurd (Option.some.inj same) (by decide)
    rw [shape,opens,lexed,lexed',lexCloses,Option.map_map,Option.map_map,Option.map_map]
    exact congrArg (Option.map · _) (funext fun more => by simp)
  · have inner : parse (ts ++ (ts' ++ .closes :: rest)) ⟨[],[]⟩ (f :: outer) = parse (.closes :: rest) g (f :: outer) := by
      rw [parsed,← same]
    have shape : .opens :: (ts ++ (ts' ++ [.closes])) ++ rest = .opens :: (ts ++ (ts' ++ .closes :: rest)) := by simp
    rw [shape]
    exact inner
  · rw [List.map_singleton,List.prod_singleton,lang',frameLang,List.append_nil,List.reverse_reverse,List.map_nil,List.sum_nil,
      zero_add,lang]

end Regex
