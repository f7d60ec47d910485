import PublicInbox.IMAPsearchqp

/-! View.pm: a page of recent messages and the links to the pages beside it. -/
namespace PublicInbox.View
open Decimal
open IMAPsearchqp (fullYear)

abbrev Text := List Char

structure Row where
  num : Int
  ts : Int
  deriving DecidableEq

/- The rows, and ORDER BY ts ASC and DESC: which of two rows with the same ts is first depends on the database. -/
structure Over where
  rows : List Row
  asc : List Row → List Row
  desc : List Row → List Row
  ascPerm : ∀ l,(asc l).Perm l
  descPerm : ∀ l,(desc l).Perm l
  ascSorted : ∀ l,(asc l).Pairwise fun a b => a.ts ≤ b.ts
  descSorted : ∀ l,(desc l).Pairwise fun a b => b.ts ≤ a.ts

def defaultLimit : Nat := 1000

def limited (limit : Nat) (l : List Row) : List Row := l.take (if limit = 0 then defaultLimit else limit)

def recent (db : Over) (limit : Nat) : Option Int → Option Int → List Row
  | some after,some before =>
    limited limit (db.desc (db.rows.filter fun r => decide (0 < r.num ∧ after ≤ r.ts ∧ r.ts ≤ before)))
  | none,some before => limited limit (db.desc (db.rows.filter fun r => decide (0 < r.num ∧ r.ts ≤ before)))
  | some after,none => limited limit (db.asc (db.rows.filter fun r => decide (0 < r.num ∧ after ≤ r.ts)))
  | none,none => limited limit (db.desc (db.rows.filter fun r => decide (0 < r.num)))

def two (n : Int) : Text := [Nat.digitChar (n.toNat / 10),Nat.digitChar (n.toNat % 10)]

def yearText (year : Int) : Text := if year < 0 then '-' :: render year.natAbs else render year.natAbs

def ts2str (t : Int) : Text :=
  let date := Calendar.ofCount (t / 86400)
  yearText date.year ++ (two date.month ++ (two date.day ++ (two (t % 86400 / 3600) ++ (two (t % 3600 / 60) ++ two (t % 60)))))

/- A4A2A2A2A2A2 of unpack, where what is not there is 0; timegm croaks on a date or a time that there is not. `thisYear`
is that of localtime. -/
def str2ts (thisYear : Nat) (s : Text) : Option Int :=
  let field (i n : Nat) : Nat := value ((s.drop i).take n)
  let date : Calendar.Date := ⟨fullYear thisYear (field 0 4),field 4 2,field 6 2⟩
  if date.Valid ∧ field 8 2 ≤ 23 ∧ field 10 2 ≤ 59 ∧ field 12 2 ≤ 59 then
    some (86400 * date.count + 3600 * (field 8 2 : Nat) + 60 * (field 10 2 : Nat) + (field 12 2 : Nat))
  else none

def isTime (s : Text) : Bool := decide (8 ≤ s.length ∧ s.length ≤ 14) && s.all Char.isDigit

def cutAfter (t : Text) : Option Text × Text :=
  match t.dropWhile Char.isDigit with
  | '-' :: rest => if isTime (t.takeWhile Char.isDigit) then (some (t.takeWhile Char.isDigit),rest) else (none,t)
  | _ => (none,t)

def timeOf (thisYear : Nat) : Option Text → Option (Option Int)
  | none => some none
  | some s => (str2ts thisYear s).map some

def bounds (thisYear : Nat) (t : Text) : Option (Option Int × Option Int) :=
  let (afterText,rest) := cutAfter t
  (timeOf thisYear afterText).bind fun after =>
    (timeOf thisYear (if isTime rest then some rest else none)).map fun before => (after,before)

/- The messages, the times of {t_note}, and the t= of the links to the newer and the older page -/
structure Page where
  msgs : List Row
  tNote : Option (Int × Int)
  prev : Option Text
  next : Option Text

def pageOf (msgs : List Row) (lim : Nat) (after before : Option Int) : Page :=
  let more := msgs.length == lim
  match msgs.head?,msgs.getLast? with
  | some first,some last =>
    -- with $after alone the oldest one is the first
    let swapped := decide (first.ts < last.ts)
    let newest := if swapped then last.ts else first.ts
    let oldest := if swapped then first.ts else last.ts
    let more := if swapped && after.any (· < oldest) then false else more
    let asked := after.isSome || before.isSome
    ⟨msgs,if asked then some (oldest,newest) else none,if asked then some (ts2str newest ++ ['-']) else none,
      if more then some (ts2str oldest) else none⟩
  | _,_ => ⟨msgs,none,none,none⟩

def paginateRecent (db : Over) (thisYear lim : Nat) (t : Text) : Option Page :=
  (bounds thisYear t).map fun (after,before) => pageOf (recent db lim after before) lim after before

end PublicInbox.View
