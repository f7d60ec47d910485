import Mathlib.Logic.Function.Basic
import PublicInbox.Library.Decimal
import PublicInbox.Library.Runs

/-! Linkify.pm: linkify_1, linkify_2, linkify_mids and to_html, with ascii_html of Hval.pm. A text is a
list of characters. -/
namespace PublicInbox.Linkify

abbrev Text := List Char

def asciiWord (c : Char) : Bool := c.isAlphanum || c == '_'

structure Words where
  word : Char → Bool
  ascii : ∀ c,c.toNat < 128 → word c = asciiWord c
  longS : word 'ſ' = true

def hexEscape (c : Char) : Text := ['\\','x',Nat.digitChar (c.toNat / 16),Nat.digitChar (c.toNat % 16)]

def escape (c : Char) : Text :=
  if c = '"' then ['&','#','3','4',';']
  else if c = '&' then ['&','#','3','8',';']
  else if c = '\'' then ['&','#','3','9',';']
  else if c = '<' then ['&','l','t',';']
  else if c = '>' then ['&','g','t',';']
  else if c = '\x00' then ['\\','0']
  else if c = '\x07' then ['\\','a']
  else if c = '\x08' then ['\\','b']
  else if c = '\t' ∨ c = '\n' then [c]
  else if c = '\x0b' then ['\\','v']
  else if c = '\x0c' then ['\\','f']
  else if c = '\r' then ['\\','r']
  else if c = '\x1b' then ['^','[']
  else if c = '\x7f' then ['\\','x','7','f']
  else if c.toNat < 32 then hexEscape c
  else if c.toNat < 128 then [c]
  else ['&','#'] ++ Decimal.render c.toNat ++ [';']

def asciiHtml (s : Text) : Text := s.flatMap escape

/-! $LINK_RE. Its quantifiers are greedy, and nothing follows them that could make them give back. -/

def fold (c : Char) : Char := if c = 'ſ' then 's' else if c = '\u212a' then 'k' else c.toLower

def schemes : List Text := [['f','t','p'],['f','t','p','s'],['h','t','t','p'],['h','t','t','p','s'],['n','n','t','p'],
  ['n','n','t','p','s'],['i','m','a','p'],['i','m','a','p','s'],['n','e','w','s'],['s','n','e','w','s'],
  ['g','o','p','h','e','r'],['g','e','m','i','n','i']]

def dropFolded : Text → Text → Option Text
  | [],t => some t
  | _ :: _,[] => none
  | p :: ps,c :: t => if fold c = p then dropFolded ps t else none

def pathChar (c : Char) : Bool := (fold c).isLower || c.isDigit ||
  c ∈ ['-','.','_','~','!','$','&','\'',';','(',')','*','+',',','=',':','@','/','%']

section
variable (words : Words)

def hostChar (c : Char) : Bool := words.word c || c ∈ ['@',':','.','-']

def partAt (mark : Char) (inPart : Char → Bool) : Text → Text × Text
  | [] => ([],[])
  | c :: t => if c = mark ∧ t.takeWhile inPart ≠ [] then (c :: t.takeWhile inPart,t.dropWhile inPart) else ([],c :: t)

def pathAt : Text → Text × Text
  | '/' :: t =>
    let query := partAt '?' pathChar (t.dropWhile pathChar)
    let fragment := partAt '#' (fun c => pathChar c || c == '?') query.2
    ('/' :: t.takeWhile pathChar ++ query.1 ++ fragment.1,fragment.2)
  | t => ([],t)

def urlAt (s : Text) : Option (Text × Text) :=
  (schemes.findSome? fun p => dropFolded (p ++ [':','/','/']) s).bind fun t =>
    if t.takeWhile (hostChar words) = [] then none
    else
      let path := pathAt (t.dropWhile (hostChar words))
      some (s.take (s.length - t.length) ++ t.takeWhile (hostChar words) ++ path.1,path.2)

/- Where $LINK_RE matches: $1 if any, $2, and what follows. `inWord` is of the character before. -/
def linkAt (inWord : Bool) : Text → Option (Option Char × Text × Text)
  | [] => none
  | c :: t =>
    if c ∈ ['(','\'','!'] then (urlAt words t).map fun m => (some c,m)
    else if inWord then none else (urlAt words (c :: t)).map fun m => (none,m)

end

def trimPair (close : Char) (url : Text) : Text × Text :=
  if url.getLast? = some close then (url.dropLast,[close])
  else if url.dropLast.getLast? = some close ∧ url.getLast?.any (· ∈ ['.',',',';','+']) then
    (url.dropLast.dropLast,close :: url.getLast?.toList)
  else (url,[])

def trim : Option Char → Text → Text × Text
  | some '(',url => trimPair ')' url
  | some beg,url => trimPair beg url
  | none,url =>
    if url.getLast?.any (· ∈ ['.',',',';']) then
      -- require ')' to be paired with '('
      if url.dropLast.getLast? = some ')' ∧ '(' ∉ url.dropLast.dropLast then
        (url.dropLast.dropLast,')' :: url.getLast?.toList)
      else (url.dropLast,url.getLast?.toList)
    else if '(' ∉ url ∧ url.getLast? = some ')' then (url.dropLast,[')'])
    else (url,[])

section
variable (words : Words)

/- The text before the first link, and each URL with the text after it; $beg and $end are with the texts.
What is left of a match is skipped. -/
def cut : Nat → Bool → Text → Text × List (Text × Text)
  | _,_,[] => ([],[])
  | skip + 1,_,c :: t => cut skip (words.word c) t
  | 0,inWord,c :: t =>
    match linkAt words inWord (c :: t) with
    | some (beg,url,rest) =>
      let after := cut (t.length - rest.length) (words.word c) t
      (beg.toList,((trim beg url).1,(trim beg url).2 ++ after.1) :: after.2)
    | none =>
      let after := cut 0 (words.word c) t
      (c :: after.1,after.2)

end

def keyLetter (c : Char) : Bool := 'a' ≤ c && c ≤ 'f' || 'A' ≤ c && c ≤ 'J'

structure Salt where
  key : Text → Text
  long : ∀ t,(key t).length = 40
  letters : ∀ t,∀ c ∈ key t,keyLetter c = true

abbrev Self := Text → Option Text

def mark : Text := ['L','I','N','K','I','F','Y']

/- What both first passes do with what they matched: `html` is escaped and hashed, `value` stored, and
LINKIFY with the hash stands in the text. -/
def store (salt : Salt) (value : Text → Text) (self : Self) (links : List (Text × Text)) : Self :=
  links.foldl (fun self link => Function.update self (salt.key (asciiHtml link.1)) (some (value link.1))) self

def marked (salt : Salt) (links : Text × List (Text × Text)) : Text :=
  links.1 ++ links.2.flatMap fun link => mark ++ salt.key (asciiHtml link.1) ++ link.2

def placeholder (self : Self) (shown : Text → Text) (word : Text) : Text :=
  if mark.isPrefixOf word && (word.drop 7).length == 40 && (word.drop 7).all keyLetter then
    -- false positive or somebody tried to mess with us
    ((self (word.drop 7)).map shown).getD word
  else word

def fill (self : Self) (shown : Text → Text) (s : Text) : Text := Runs.subst asciiWord (placeholder self shown) [] s

def tag (href : Text) : Text := ['<','a','\n','h','r','e','f','=','"'] ++ href ++ ['"','>']

def tagEnd : Text := ['<','/','a','>']

def anchor (url : Text) : Text := tag url ++ url ++ tagEnd

def linkify1 (words : Words) (salt : Salt) (self : Self) (s : Text) : Self × Text :=
  let links := cut words 0 false s
  (store salt asciiHtml self links.2,marked salt links)

def linkify2 (self : Self) (s : Text) : Text := fill self anchor s

def toHtml (words : Words) (salt : Salt) (self : Self) (s : Text) : Text :=
  let first := linkify1 words salt self s
  linkify2 first.1 (asciiHtml first.2)

def cutMids : Option Text → Text → Text × List (Text × Text)
  | none,[] => ([],[])
  | some mid,[] => ('<' :: mid,[])
  | none,c :: t =>
    if c = '<' then cutMids (some []) t
    else (c :: (cutMids none t).1,(cutMids none t).2)
  | some mid,c :: t =>
    if c = '>' then
      if mid = [] then ('<' :: '>' :: (cutMids none t).1,(cutMids none t).2)
      else ([],(mid,(cutMids none t).1) :: (cutMids none t).2)
    else cutMids (some (mid ++ [c])) t

def midLink (midEscape : Text → Text) (pfx : Text) (raw : Bool) (mid : Text) : Text :=
  let href := asciiHtml (midEscape mid)
  ['&','l','t',';'] ++ tag (pfx ++ ['/'] ++ href ++ ['/']) ++ asciiHtml mid ++ tagEnd ++ ['&','g','t',';'] ++
    if raw then [' ','('] ++ tag (pfx ++ ['/'] ++ href ++ ['/','r','a','w']) ++ ['r','a','w'] ++ tagEnd ++ [')'] else []

def linkifyMids (midEscape : Text → Text) (salt : Salt) (self : Self) (pfx s : Text) (raw : Bool) : Self × Text :=
  let mids := cutMids none s
  let self := store salt (midLink midEscape pfx raw) self mids.2
  (self,fill self id (asciiHtml (marked salt mids)))

def untag : Bool → Text → Text
  | _,[] => []
  | true,c :: t => untag (c != '>') t
  | false,c :: t => if c = '<' then untag true t else c :: untag false t

end PublicInbox.Linkify
