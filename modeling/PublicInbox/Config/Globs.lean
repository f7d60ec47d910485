import PublicInbox.Config.Glob2re
import PublicInbox.Library.Regex

/-! Globs, what they denote, and which of them glob2re reads as they are meant. -/
namespace PublicInbox.Config
open Regex (Member Re inRanges ranges)

/- Of a bracket class: the ! or ^ that negates it, a ] that comes first, and the other members -/
inductive Item where
  | lit (c : Char)
  | any
  | star
  | cls (neg : Option Char) (lead : Bool) (rest : Text)

inductive Part where
  | item (i : Item)
  | deep
  | list (first : List Item) (others : List (List Item))

structure Glob where
  deepFirst : Bool
  parts : List Part
  deepLast : Bool

/-! As text -/

def leading (lead : Bool) : Text := if lead then [']'] else []

def Item.text : Item → Text
  | lit c => [c]
  | any => ['?']
  | star => ['*']
  | cls neg lead rest => '[' :: (neg.toList ++ (leading lead ++ (rest ++ [']'])))

def itemsText (is : List Item) : Text := is.flatMap Item.text

def othersText (others : List (List Item)) : Text := others.flatMap fun is => ',' :: itemsText is

def Part.text : Part → Text
  | item i => i.text
  | deep => ['/','*','*','/']
  | list first others => '\x7b' :: (itemsText first ++ (othersText others ++ ['\x7d']))

def partsText (ps : List Part) : Text := ps.flatMap Part.text

def Glob.text (g : Glob) : Text :=
  (if g.deepFirst then ['*','*','/'] else []) ++ (partsText g.parts ++ if g.deepLast then ['/','*','*'] else [])

/-! What is denoted -/

def members (rest : Text) : List Member := rest.map fun c => if c = '-' then .dash else .lit c

def leadMember (lead : Bool) : List Member := if lead then [.lit ']'] else []

def inClass (lead : Bool) (rest : Text) (c : Char) : Bool := (ranges (leadMember lead ++ members rest)).any (inRanges · c)

def Item.lang : Item → Language Char
  | lit c => {[c]}
  | any => Regex.one (· != '/')
  | star => {s | '/' ∉ s}
  | cls neg lead rest => Regex.one fun c => inClass lead rest c != neg.isSome

def itemsLang (is : List Item) : Language Char := (is.map Item.lang).prod

def Part.lang : Part → Language Char
  | item i => i.lang
  | deep => {s | s = ['/'] ∨ ∃ u,s = '/' :: (u ++ ['/'])}
  | list first others => ((first :: others).map itemsLang).sum

def anyDir : Language Char := {s | ∃ u,s = u ++ ['/']}

def anyBelow : Language Char := {s | ∃ u,s = '/' :: u}

def Glob.lang (g : Glob) : Language Char :=
  (if g.deepFirst then anyDir else 1) * ((g.parts.map Part.lang).prod * if g.deepLast then anyBelow else 1)

/-! What is denoted without a newline where a ** is -/

def lineDir : Language Char := {s | ∃ u,'\n' ∉ u ∧ s = u ++ ['/']}

def lineBelow : Language Char := {s | ∃ u,'\n' ∉ u ∧ s = '/' :: u}

def Part.lineLang : Part → Language Char
  | deep => {s | s = ['/'] ∨ ∃ u,'\n' ∉ u ∧ s = '/' :: (u ++ ['/'])}
  | p => p.lang

def Glob.lineLang (g : Glob) : Language Char :=
  (if g.deepFirst then lineDir else 1) * ((g.parts.map Part.lineLang).prod * if g.deepLast then lineBelow else 1)

def Part.isLit : Part → Bool
  | item (.lit _) => true
  | _ => false

def Glob.Plain (g : Glob) : Prop := g.deepFirst = false ∧ g.deepLast = false ∧ ∀ p ∈ g.parts,p.isLit = true

/-! Which texts are globs -/

def syntaxChars : List Char := ['\\','*','?','[',']','\x7b','\x7d']

def Item.Ok : Item → Prop
  | lit c => c ∉ syntaxChars
  | any | star => True
  | cls neg lead rest => (∀ n ∈ neg,n = '!' ∨ n = '^') ∧ (∀ c ∈ rest,c ∉ ['\\',']','\x7b','\x7d']) ∧
    (lead = false → rest ≠ []) ∧ (neg = none → lead = false → rest.head? ≠ some '!' ∧ rest.head? ≠ some '^') ∧
    (ranges (leadMember lead ++ members rest)).isSome = true

def ListItems (is : List Item) : Prop := ∀ i ∈ is,i.Ok ∧ ',' ∉ i.text

def Part.Ok : Part → Prop
  | item i => i.Ok
  | deep => True
  | list first others => others ≠ [] ∧ ListItems first ∧ ∀ is ∈ others,ListItems is

def Slash (after : Text) : Prop := ¬['*','*','/'] <+: after ∧ after ≠ ['*','*']

def ItemsApart : List Item → Text → Prop
  | [],_ => True
  | i :: is,after => (i = .lit '/' → Slash (itemsText is ++ after)) ∧ ItemsApart is after

def PartsApart : List Part → Text → Prop
  | [],_ => True
  | .item i :: ps,after => (i = .lit '/' → Slash (partsText ps ++ after)) ∧ PartsApart ps after
  | .deep :: ps,after => PartsApart ps after
  | .list first others :: ps,after => ItemsApart first [','] ∧ (∀ is ∈ others,ItemsApart is [',']) ∧ PartsApart ps after

structure Glob.Ok (g : Glob) : Prop where
  parts : ∀ p ∈ g.parts,p.Ok
  apart : PartsApart g.parts (if g.deepLast then ['/','*','*'] else [])
  first : g.deepFirst = false → ¬['*','*','/'] <+: g.text
  noUrl : urlRest g.text = none

/-! What glob2re makes of it -/

def delta (s : Text) : Int := s.count '[' - s.count ']'

/- The members of a class as they are counted: only where {in_bracket} is not 0 is a - left alone. -/
def bracketed : Int → Text → List Member
  | _,[] => []
  | d,c :: s => (if c = '-' ∧ d ≠ 0 then .dash else .lit c) :: bracketed (d + delta [c]) s

section
variable (wide : Char → Bool)

def Item.Read (d : Int) : Item → Prop
  | cls neg lead rest => neg = none ∧ (∀ c ∈ rest,c ≠ '*' ∧ c ≠ '?') ∧
    ∃ rs,ranges (leadMember lead ++ bracketed (d + delta ('[' :: leading lead)) rest) = some rs ∧
      ∀ c,inRanges rs c = inClass lead rest c
  | _ => True

def ItemsRead : Int → List Item → Prop
  | _,[] => True
  | d,i :: is => i.Read d ∧ ItemsRead (d + delta i.text) is

def Bare : Int → Text → Prop
  | _,[] => True
  | d,c :: s => (c ∈ ['*','?','[',']'] ∨ c = '-' ∧ d ≠ 0 ∨ quoted wide c = false) ∧ Bare (d + delta [c]) s

def OthersRead : Int → List (List Item) → Prop
  | _,[] => True
  | d,is :: others => ItemsRead d is ∧ Bare wide d (itemsText is) ∧ OthersRead (d + delta (itemsText is)) others

def Part.Read (d : Int) : Part → Prop
  | item i => i.Read d
  | deep => True
  | list first others => ItemsRead d first ∧ OthersRead wide (d + delta (itemsText first)) others

def PartsRead : Int → List Part → Prop
  | _,[] => True
  | d,p :: ps => p.Read wide d ∧ PartsRead (d + delta p.text) ps

def Glob.Read (g : Glob) : Prop := PartsRead wide 0 g.parts

end

end PublicInbox.Config
