import PublicInbox.IMAPsearchqp
import Mathlib.Data.List.DropRight

/-! The date terms of a mail search, d:, rt: and dt:, in Search.pm (query_approxidate and query_argv_to_string rewrite
them for the number range processors of Xapian) and in xh_date.h. `date` is the timestamp that git makes of a
string, rev-parse and approxidate.h alike; a number of a value column stands for the double of it. -/
namespace PublicInbox.SearchDates
open IMAPsearchqp (strftimeDate strftime)

inductive Pfx where
  | d
  | rt
  | dt
  deriving DecidableEq

namespace Pfx

def numeric (pfx : Pfx) (x : List Char) : Bool := x.all Char.isDigit && match pfx with
  | d => x.length == 8
  | dt => x.length == 14
  | rt => 5 ≤ x.length

def column : Pfx → Int → Int
  | d,t => strftimeDate t
  | dt,t => strftime t
  | rt,t => t

end Pfx

def isSpace (c : Char) : Bool := c ∈ [' ','\t','\n','\x0b','\x0c','\r','\u0085','\u00a0','\u1680','\u2028','\u2029','\u202f','\u205f','\u3000'] ||
  ('\u2000' ≤ c && c ≤ '\u200a')

def datePfx : List Char → Option (Pfx × List Char)
  | 'd' :: ':' :: rest => some (.d,rest)
  | 'r' :: 't' :: ':' :: rest => some (.rt,rest)
  | 'd' :: 't' :: ':' :: rest => some (.dt,rest)
  | _ => none

section
variable (isWord : Char → Bool)

/- What s!\b(d|rt|dt):(\S+)!...!sge finds. What is left of the last match is skipped; `inWord` is of the character before. -/
def findTerms : Nat → Bool → List Char → List (Pfx × List Char)
  | _,_,[] => []
  | skip + 1,_,c :: cs => findTerms skip (isWord c) cs
  | 0,inWord,c :: cs =>
    match (if inWord then none else datePfx (c :: cs)).filter fun (_,rest) => rest.head?.any (!isSpace ·) with
    | some (pfx,rest) =>
      (pfx,rest.takeWhile (!isSpace ·)) :: findTerms (cs.length - (rest.dropWhile (!isSpace ·)).length) (isWord c) cs
    | none => findTerms 0 (isWord c) cs

def isQuote (c : Char) : Bool := c ∈ ['"','\u201c','\u201d']

def findUnquoted : List (List Char) → List (Pfx × List Char)
  | terms :: _phrase :: terms' :: rest => findTerms isWord 0 false terms ++ findUnquoted (terms' :: rest)
  | [terms,terms'] => findTerms isWord 0 false terms ++ findTerms isWord 0 false terms'
  | [terms] => findTerms isWord 0 false terms
  | [] => []

def queryApproxidate (text : List Char) : List (Pfx × List Char) :=
  findUnquoted isWord ((text.map fun c => if c = '\x00' then ' ' else c).splitOnP isQuote)

def findLast : Bool → List Char → Option (Pfx × List Char)
  | _,[] => none
  | inWord,c :: cs =>
    match (if inWord then none else datePfx (c :: cs)).filter fun (_,range) => range ≠ [] ∧ range.all (!isSpace ·) with
    | some found => some found
    | none => findLast (isWord c) cs

def queryArgvToString (argv : List (List Char)) : List (Pfx × List Char) := argv.filterMap (findLast isWord false)

end

inductive Query where
  | string (text : List Char)
  | argv (args : List (List Char))

def Query.terms (isWord : Char → Bool) : Query → List (Pfx × List Char)
  | .string text => queryApproxidate isWord text
  | .argv args => queryArgvToString isWord args

def stripEnd (range : List Char) : List Char := range.rdropWhile fun c => c = ')' || isSpace c

def splitDots : List Char → List Char × Option (List Char)
  | [] => ([],none)
  | '.' :: '.' :: rest => ([],some rest)
  | c :: rest => let (beg,fin) := splitDots rest; (c :: beg,fin)

inductive Part where
  | lit (x : List Char)
  | slot (idx : Nat)
  | plus

def preparePart (toParse : List (List Char)) (pfx : Pfx) (x : List Char) : List (List Char) × Part :=
  if x = [] ∨ pfx.numeric x = true then (toParse,.lit x) else (toParse ++ [x],.slot toParse.length)

def withGaps (pfx : Pfx) (x : List Char) : List Char :=
  if pfx.numeric x then
    x.take 4 ++ '-' :: (x.drop 4).take 2 ++ '-' :: (x.drop 6).take 2 ++ ' ' ::
      (if pfx = .d then "00:00:00".toList else (x.drop 8).take 2 ++ ':' :: (x.drop 10).take 2 ++ ':' :: (x.drop 12).take 2)
  else x

def dateParsePrepare (toParse : List (List Char)) (pfx : Pfx) (range : List Char) : List (List Char) × Part × Part :=
  match splitDots (stripEnd range),pfx with
  | (beg,some fin),_ =>
    let (toParse,b) := preparePart toParse pfx beg
    let (toParse,e) := preparePart toParse pfx fin
    (toParse,b,e)
  | (x,none),.rt =>
    let (toParse,b) := preparePart toParse pfx x
    (toParse,b,.plus)
  | (x,none),_ => (toParse ++ [withGaps pfx x],.slot toParse.length,.plus)

def prepareAll (toParse : List (List Char)) : List (Pfx × List Char) → List (List Char) × List (Pfx × Part × Part)
  | [] => (toParse,[])
  | (pfx,range) :: terms =>
    let (toParse,parts) := dateParsePrepare toParse pfx range
    let (toParse,rest) := prepareAll toParse terms
    (toParse,(pfx,parts) :: rest)

structure Interval where
  lo : Option Int
  hi : Option Int
  deriving DecidableEq

def finalizePart (r : List Int) (pfx : Pfx) (i : Nat) : Part → Option Int × Nat
  | .lit x => (if x = [] then none else some (Decimal.value x),i)
  | .slot idx => (some (pfx.column (r[idx]?.getD 0)),idx)
  | .plus => (some (pfx.column (r[i]?.getD 0 + 86400)),i)

def dateParseFinalize (r : List Int) : Nat → List (Pfx × Part × Part) → List Interval
  | _,[] => []
  | i,(pfx,b,e) :: rest =>
    let (lo,i) := finalizePart r pfx i b
    let (hi,i) := finalizePart r pfx i e
    ⟨lo,hi⟩ :: dateParseFinalize r i rest

section
variable (date : List Char → Int)

def perlIntervals (terms : List (Pfx × List Char)) : List Interval :=
  let (toParse,parts) := prepareAll [] terms
  dateParseFinalize (toParse.map date) 0 parts

def strtoll (v : Int) : Option Int := if -2 ^ 63 ≤ v ∧ v < 2 ^ 63 then some v else none

def toColumnFmt (pfx : Pfx) (x : List Char) : Option Int :=
  if pfx.numeric x then strtoll (Decimal.value x)
  else match pfx with
    | .rt => some (date x)
    | _ => strtoll (pfx.column (date x))

def bound (pfx : Pfx) (x : List Char) : Option (Option Int) := if x = [] then some none else (toColumnFmt date pfx x).map some

def rangeProcessor (pfx : Pfx) (b e : List Char) : Option Interval := do
  let lo ← bound date pfx b
  let hi ← bound date pfx e
  some ⟨lo,hi⟩

def fieldProcessor (pfx : Pfx) (x : List Char) : Option Interval := do
  let lo ← toColumnFmt date pfx x
  some ⟨some lo,some (lo + 86400)⟩

def cxxInterval (pfx : Pfx) (range : List Char) : Option Interval := match splitDots (stripEnd range) with
  | (b,some e) => rangeProcessor date pfx b e
  | (x,none) => fieldProcessor date pfx x

end

def Formed (range : List Char) : Prop := match splitDots (stripEnd range) with
  | (b,some e) => b ≠ [] ∨ e ≠ []
  | (x,none) => x ≠ []

end PublicInbox.SearchDates
