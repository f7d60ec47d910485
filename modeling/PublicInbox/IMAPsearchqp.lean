import PublicInbox.IMAP
import PublicInbox.Library.Calendar

/-! IMAPsearchqp.pm: the date keys, UID sets and MSN sets of a SEARCH, compiled to conditions for
over.sqlite3 and to ranges for Xapian. Both are kept as their comparisons and ranges, with the
text they are written in beside them. -/
namespace PublicInbox.IMAPsearchqp
open PublicInbox.IMAP

structure Times where
  ts : Int
  ds : Int

structure DateText where
  dd : List Char
  mon : List Char
  yyyy : List Char

inductive DateKey where
  | sentSince
  | sentOn
  | sentBefore
  | since
  | on
  | before
  deriving DecidableEq

inductive Key where
  | date (k : DateKey) (quoted : Bool) (d : DateText)
  | uid (set : List Char)
  | msn (set : List Char)

def monthOf (mon : List Char) : Option Nat :=
  (["JAN","FEB","MAR","APR","MAY","JUN","JUL","AUG","SEP","OCT","NOV","DEC"].idxOf? (String.ofList mon)).map (· + 1)

/- The years of Time::Local: from 1000 on as they are, below that from 1900, and below 100 in the
hundred years around the current one, `thisYear` of localtime. -/
def fullYear (thisYear : Nat) (year : Nat) : Int :=
  if 1000 ≤ year then year
  else if 100 ≤ year then 1900 + year
  else
    let breakpoint := (thisYear + 50) % 100
    let nextCentury := thisYear - thisYear % 100 + if breakpoint < 50 then 100 else 0
    1900 + year + if breakpoint < year then (nextCentury : Int) - 100 else nextCentury

def timegm (thisYear : Nat) (d : DateText) : Option Int :=
  (monthOf d.mon).bind fun (mm : Nat) =>
    let date : Calendar.Date := ⟨fullYear thisYear (Decimal.value d.yyyy),mm,Decimal.value d.dd⟩
    if date.Valid then some (86400 * date.count) else none

def yyyymmdd (d : DateText) : Option Int :=
  (monthOf d.mon).map fun (mm : Nat) => 10000 * (Decimal.value d.yyyy : Int) + 100 * mm + Decimal.value d.dd

def strftimeDate (t : Int) : Int := (Calendar.ofCount (t / 86400)).number

def strftime (t : Int) : Int :=
  1000000 * strftimeDate t + (10000 * (t % 86400 / 3600) + 100 * (t % 3600 / 60) + t % 60)

inductive SqlCol where
  | ts
  | ds
  deriving DecidableEq

structure Test where
  col : SqlCol
  ge : Bool
  value : Int
  deriving DecidableEq

inductive XapCol where
  | rt
  | d
  | dt
  | uid
  deriving DecidableEq

structure Range where
  col : XapCol
  lo : Option Int
  hi : Option Int
  deriving DecidableEq

inductive Xap where
  | range (r : Range)
  | either (rs : List Range)
  deriving DecidableEq

structure Q where
  sql : Option (List Test)
  xap : List Xap
  uid : List (List Char)

def Q.push (q : Q) (x : Xap) : Q := { q with xap := q.xap ++ [x] }

def Q.andSql (q : Q) (tests : List Test) : Q := { q with sql := q.sql.map (· ++ tests) }

section
variable (thisYear : Nat)

def SENTSINCE (q : Q) (d : DateText) : Option Q :=
  (yyyymmdd d).bind fun day =>
    let q := q.push (.range ⟨.d,some day,none⟩)
    if q.sql = none then some q
    else (timegm thisYear d).map fun ds => q.andSql [⟨.ds,true,ds⟩]

def SENTON (q : Q) (d : DateText) : Option Q :=
  (yyyymmdd d).bind fun day => (timegm thisYear d).map fun ds =>
    (q.push (.range ⟨.dt,some (1000000 * day),some (strftime (ds + 86399))⟩)).andSql [⟨.ds,true,ds⟩,⟨.ds,false,ds + 86399⟩]

def SENTBEFORE (q : Q) (d : DateText) : Option Q :=
  (yyyymmdd d).bind fun day =>
    let q := q.push (.range ⟨.d,none,some day⟩)
    if q.sql = none then some q
    else (timegm thisYear d).map fun ds => q.andSql [⟨.ds,false,ds⟩]

def ON (q : Q) (d : DateText) : Option Q :=
  (timegm thisYear d).map fun ts =>
    (q.push (.range ⟨.rt,some ts,some (ts + 86399)⟩)).andSql [⟨.ts,true,ts⟩,⟨.ts,false,ts + 86399⟩]

def BEFORE (q : Q) (d : DateText) : Option Q :=
  (timegm thisYear d).map fun ts => (q.push (.range ⟨.rt,none,some ts⟩)).andSql [⟨.ts,false,ts⟩]

def SINCE (q : Q) (d : DateText) : Option Q :=
  (timegm thisYear d).map fun ts => (q.push (.range ⟨.rt,some ts,none⟩)).andSql [⟨.ts,true,ts⟩]

def DateKey.run (q : Q) (d : DateText) : DateKey → Option Q
  | sentSince => SENTSINCE thisYear q d
  | sentOn => SENTON thisYear q d
  | sentBefore => SENTBEFORE thisYear q d
  | since => SINCE thisYear q d
  | on => ON thisYear q d
  | before => BEFORE thisYear q d

end

section
variable {R : Type} (o : Over R) (base : Nat)

def uidRanges : Nat → List Char → Option (List Range)
  | 0, _ => none
  | fuel + 1, set => (rangeStep o base set).bind fun u =>
    let range : Range := ⟨.uid,some u.beg,some u.fin⟩
    if falsy u.csv then some [range] else (uidRanges fuel (u.csv.getD [])).map (range :: ·)

def uidSetXap (q : Q) (set : List Char) : Option Q :=
  (uidRanges o base (set.length + 1) set).map fun u =>
    match u with
    | [range] => q.push (.range range)
    | ranges => q.push (.either ranges)

def xapOnly (q : Q) : Option Q :=
  q.uid.foldlM (uidSetXap o base) { q with sql := none, uid := [] }

def uidSet (q : Q) (set : List Char) : Option Q :=
  if q.sql = none then uidSetXap o base q set else some { q with uid := q.uid ++ [set] }

def dateToken (d : DateText) : Bool :=
  (match d.dd with
    | [x] => x.isDigit
    | [x,y] => x ∈ ['0','1','2','3'] && y.isDigit
    | _ => false) &&
  d.mon.length = 3 && d.mon.all Char.isUpper && decide (4 ≤ d.yyyy.length) && d.yyyy.all Char.isDigit

def sequenceSet (set : List Char) : Bool :=
  match set with
  | [] => false
  | c :: cs => c.isDigit && cs.dropLast.all (fun x => x.isDigit || x = ',' || x = ':') &&
    cs.getLast?.all (fun x => x.isDigit || x = ',' || x = ':' || x = '*')

variable (msn2uid : List (Option Nat)) (thisYear : Nat)

def msnSet (q : Q) (set : List Char) : Option Q := uidSet o base q (msnToUidRange msn2uid set)

inductive Outcome where
  | other
  | matched (q : Q)
  | died

def Outcome.of : Option Q → Outcome
  | some q => matched q
  | none => died

def searchKey1 (q : Q) (later : List Key) : Key → Outcome
  | .date k quoted d => if !quoted && dateToken d then .of (k.run thisYear q d) else .other
  | .uid set => if later.isEmpty && sequenceSet set then .of (uidSet o base q set) else .other
  | .msn set => if later.isEmpty && sequenceSet set then .of (msnSet o base msn2uid q set) else .other

def searchKeys (q : Q) : List Key → Option Q
  | [] => some q
  | k :: later => match searchKey1 o base msn2uid thisYear q later k with
    | .other => some q
    | .matched q => searchKeys q later
    | .died => none

def searchKey (q : Q) : List Key → Option Q
  | [] => none
  | k :: later => match searchKey1 o base msn2uid thisYear q later k with
    | .other => none
    | .matched q => searchKeys o base msn2uid thisYear q later
    | .died => none

end

structure Sql where
  tests : List Test
  nums : Option (List (Nat × Nat))
  deriving DecidableEq

def finish {R : Type} (o : Over R) (base : Nat) (q : Q) : Option Sql :=
  if q.uid = [] then some ⟨q.sql.getD [],none⟩
  else (q.uid.mapM (rangeStep o base)).map fun us => ⟨q.sql.getD [],some (us.map (fun u => (u.beg,u.fin)))⟩

def parseSql {R : Type} (o : Over R) (base : Nat) (msn2uid : List (Option Nat)) (thisYear : Nat) (keys : List Key) : Option Sql :=
  (searchKey o base msn2uid thisYear ⟨some [],[],[]⟩ keys).bind (finish o base)

def parseXap {R : Type} (o : Over R) (base : Nat) (msn2uid : List (Option Nat)) (thisYear : Nat) (keys : List Key) : Option (List Xap) :=
  (searchKey o base msn2uid thisYear ⟨none,[],[]⟩ keys).map Q.xap

namespace Test

def Holds (t : Test) (x : Times) : Prop :=
  let v := match t.col with
    | .ts => x.ts
    | .ds => x.ds
  if t.ge then t.value ≤ v else v ≤ t.value

def text (t : Test) : String :=
  " AND " ++ (match t.col with | .ts => "ts" | .ds => "ds") ++ (if t.ge then " >= " else " <= ") ++ toString t.value

end Test

namespace Sql

def Selects (s : Sql) (u : Nat) (x : Times) : Prop :=
  (∀ t ∈ s.tests,t.Holds x) ∧ ∀ nums ∈ s.nums,∃ n ∈ nums,n.1 ≤ u ∧ u ≤ n.2

def text (s : Sql) : String :=
  String.join (s.tests.map Test.text) ++ match s.nums with
    | none => ""
    | some nums => " AND (" ++ " OR ".intercalate (nums.map (fun n => s!"num >= {n.1} AND num <= {n.2}")) ++ ")"

end Sql

def XapCol.value (u : Nat) (x : Times) : XapCol → Int
  | rt => x.ts
  | d => strftimeDate x.ds
  | dt => strftime x.ds
  | uid => u

namespace Range

def Matches (r : Range) (u : Nat) (x : Times) : Prop :=
  (∀ lo ∈ r.lo,lo ≤ r.col.value u x) ∧ ∀ hi ∈ r.hi,r.col.value u x ≤ hi

def text (r : Range) : String :=
  (match r.col with | .rt => "rt" | .d => "d" | .dt => "dt" | .uid => "uid") ++ ":" ++
    (r.lo.map toString).getD "" ++ ".." ++ (r.hi.map toString).getD ""

end Range

namespace Xap

def column : Xap → Option XapCol
  | range r => some r.col
  | either _ => none

def Matches (u : Nat) (x : Times) : Xap → Prop
  | range r => r.Matches u x
  | either rs => ∃ r ∈ rs,r.Matches u x

def text : Xap → String
  | range r => r.text
  | either rs => "(" ++ " OR ".intercalate (rs.map Range.text) ++ ")"

end Xap

/- The documents of a query whose parts are joined with AND. Where `grouped`, the ranges of one
column are joined with OR first, as Xapian's query parser does. -/
def XapSelects (grouped : Bool) (xs : List Xap) (u : Nat) (x : Times) : Prop :=
  if grouped then ∀ y ∈ xs,y.Matches u x ∨ ∃ z ∈ xs,z.column.isSome ∧ z.column = y.column ∧ z.Matches u x
  else ∀ y ∈ xs,y.Matches u x

end PublicInbox.IMAPsearchqp
