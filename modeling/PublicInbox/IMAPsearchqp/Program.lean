import PublicInbox.IMAPsearchqp
import PublicInbox.Library.Query

/-! IMAPsearchqp.pm: the search programs of OR, NOT, parentheses and the keys that go to Xapian, as
the actions of the grammar compile them. {xap} collects fragments of the query string, {stack} those
of the programs around. A fragment is kept as its tokens; text is in upper case, as `parse` gets it
from uc. UID and MSN sets and CHARSET are left out. -/
namespace PublicInbox.IMAPsearchqp.Program
open Query (Token)

inductive Flag where
  | all | answered | recent | unseen | seen | new | unanswered | undeleted | undraft | unflagged
  | deleted | draft | flagged | old
  deriving DecidableEq

def Flag.impossible : Flag → Bool
  | deleted | draft | flagged | old => true
  | _ => false

mutual

/- A search_key1. FROM, TO, CC, BCC, SUBJECT, BODY and HEADER give ih2x a field name, TEXT gives none. -/
inductive Key where
  | flag (f : Flag)
  | string (fieldName : Option (List Char)) (s : List Char)
  | larger (number : List Char)
  | smaller (number : List Char)
  | date (k : DateKey) (d : DateText)
  | not (k : Key)
  | or (a b : Key)
  | sub (ks : Keys)

inductive Keys where
  | last (k : Key)
  | cons (k : Key) (ks : Keys)

end

inductive Atom where
  | larger (n : List Char)
  | smaller (n : List Char)
  | range (r : Range)
  | phrase (xk : List Char) (word : List Char)
  deriving DecidableEq

inductive Frag where
  | opOr
  | text (ts : List (Token Atom))
  deriving DecidableEq

def Frag.tokens : Frag → List (Token Atom)
  | opOr => []
  | text ts => ts

inductive Cond where
  | test (t : Test)
  | never
  deriving DecidableEq

structure Q where
  sql : Option (List Cond)
  xap : List Frag
  stack : List (List Frag)
  deriving DecidableEq

def Q.push (q : Q) (f : Frag) : Q := { q with xap := q.xap ++ [f] }

def xapOnly (q : Q) (query : Option Frag) : Q := { q with sql := none, xap := q.xap ++ query.toList }

def prefixOf (fieldName : List Char) : List Char :=
  (([("SUBJECT","s:"),("BODY","b:"),("FROM","f:"),("TO","t:"),("CC","c:"),("MESSAGE-ID","m:"),("LIST-ID","l:")].lookup
    (String.ofList fieldName)).getD "").toList

def isSpace (c : Char) : Bool := c ∈ [' ','\t','\n','\r','\x0b','\x0c']

def unquote (s : List Char) : List Char :=
  match s with
  | '"' :: inner => if inner.getLast? = some '"' then inner.dropLast else s
  | _ => s

/- split(/[\*"\s]+/): a field before a separator at the beginning is kept, empty fields at the end are
not. -/
def splitWords (s : List Char) : List (List Char) :=
  let sep := fun c => c == '*' || c == '"' || isSpace c
  let words := (s.splitOnP sep).filter (· ≠ [])
  if s.head?.any sep && !words.isEmpty then [] :: words else words

def wordsOf (s : List Char) : List (List Char) := (splitWords (unquote s)).map (·.map Char.toLower)

def phrases (fieldName : Option (List Char)) (s : List Char) : List Atom :=
  (wordsOf s).map (.phrase ((fieldName.map prefixOf).getD []))

def ih2x (q : Q) (fieldName : Option (List Char)) (s : List Char) : Q :=
  xapOnly q (some (.text ((phrases fieldName s).map .atom)))

def joined (fs : List Frag) : List (Token Atom) :=
  if 1 < fs.length then .lpar :: fs.flatMap Frag.tokens ++ [.rpar] else fs.flatMap Frag.tokens

def subqEnter (q : Q) : Option Q :=
  let q := xapOnly q none
  if 10 < q.stack.length + 1 then none else some { q with xap := [], stack := q.xap :: q.stack }

def subqLeave (q : Q) : Option Q :=
  match q.stack with
  | parent :: stack => some { q with xap := parent ++ [.text (joined q.xap)], stack := stack }
  | [] => none

def zero : Atom := .smaller ['0']

def impossible (q : Q) : Q :=
  let q := q.push (.text [.atom zero])
  { q with sql := q.sql.map (· ++ [.never]) }

def opOr (q : Q) : Q :=
  let q := xapOnly q (some .opOr)
  { q with xap := [], stack := q.xap :: q.stack }

def searchKeyA (q : Q) : Q := { q with xap := [], stack := q.xap :: q.stack }

def orSearchKeys (q : Q) : Option Q :=
  match q.stack with
  | ka :: xap :: stack =>
    if xap.getLast? = some .opOr then
      some { q with
        xap := xap.dropLast ++ [.text (.lpar :: joined ka ++ .or :: joined q.xap ++ [.rpar])]
        stack := stack }
    else none
  | _ => none

def stringToken (s : List Char) : Bool :=
  match s with
  | '"' :: inner => inner.getLast? == some '"' && inner.dropLast.all (· != '"')
  | _ => !s.isEmpty && s.all fun c => c != '"' && c != '(' && c != ')' && c != ' ' && c != '\t'

def numberToken (n : List Char) : Bool := !n.isEmpty && n.all Char.isDigit

def Xap.frag : Xap → Frag
  | .range r => .text [.atom (.range r)]
  | .either rs => .text (.lpar :: (rs.map fun r => Token.atom (Atom.range r)).intersperse .or ++ [.rpar])

section
variable (thisYear : Nat)

def date (q : Q) (k : DateKey) (d : DateText) : Option Q :=
  (k.run thisYear ⟨q.sql.map fun _ => [],[],[]⟩ d).map fun made =>
    { q with xap := q.xap ++ made.xap.map Xap.frag, sql := q.sql.map (· ++ (made.sql.getD []).map .test) }

mutual

def searchKey1 (q : Q) : Key → Option Q
  | .flag f => some (if f.impossible then impossible q else q)
  | .string fieldName s => if stringToken s then some (ih2x q fieldName s) else none
  | .larger n => if numberToken n then some (xapOnly q (some (.text [.atom (.larger n)]))) else none
  | .smaller n => if numberToken n then some (xapOnly q (some (.text [.atom (.smaller n)]))) else none
  | .date k d => if dateToken d then date thisYear q k d else none
  | .not k => searchKey1 (xapOnly q (some (.text [.not]))) k
  | .or a b => (searchKey1 (opOr q) a).bind fun q => (searchKey1 (searchKeyA q) b).bind orSearchKeys
  | .sub ks => (subqEnter q).bind fun q => (searchKeys q ks).bind subqLeave

def searchKeys (q : Q) : Keys → Option Q
  | .last k => searchKey1 q k
  | .cons k ks => (searchKey1 q k).bind fun q => searchKeys q ks

end

inductive Parsed where
  | sql (conds : List Cond)
  | xap (query : List (Token Atom))
  deriving DecidableEq

def parse (p : Keys) : Option Parsed :=
  (searchKeys thisYear ⟨some [],[],[]⟩ p).map fun q => match q.sql with
    | some conds => .sql conds
    | none => .xap (q.xap.flatMap Frag.tokens)

end

end PublicInbox.IMAPsearchqp.Program
