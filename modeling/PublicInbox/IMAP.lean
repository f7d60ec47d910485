import PublicInbox.Library.Decimal
import PublicInbox.Library.Subscript
import PublicInbox.Library.Table
import Mathlib.Logic.Function.Basic

/-! IMAP.pm: the map between UIDs and message sequence numbers, and the loop over the ranges of
a FETCH. A mailbox is a slice of the article numbers of an inbox, from `uid_base` on. What is
written for one message, git and the SEARCH queries are left out here. -/
namespace PublicInbox.IMAP
open Keyed

abbrev uidSlice : Nat := 50000

abbrev Over (R : Type) := Table Nat R

namespace Over
variable {R : Type}

def uidRange (o : Over R) (beg fin : Nat) (sql : R → Bool) : List Nat :=
  o.keysWhere (fun n r => beg ≤ n ∧ n ≤ fin ∧ sql r)

def queryXover (o : Over R) (beg fin : Nat) : List Nat := (o.uidRange beg fin (fun _ => true)).take 1000

def max (o : Over R) : Nat := (o.keysWhere (fun n _ => 0 < n)).getLast?.getD 0

def slice (o : Over R) (base : Nat) : List Nat := o.uidRange (base + 1) (base + uidSlice) (fun _ => true)

end Over

def assign {α : Type} (xs : List (Option α)) (i : Nat) (x : α) : List (Option α) :=
  if i < xs.length then xs.set i (some x) else xs ++ List.replicate (i - xs.length) none ++ [some x]

/- {uo2m} by UID offset: an array of MSNs with undef at the gaps, or the same packed as
uint16_t. -/
inductive Uo2m where
  | ary (msns : List (Option Nat))
  | str (words : List (BitVec 16))
  deriving DecidableEq

namespace Uo2m

def pack (msns : List (Option Nat)) : List (BitVec 16) := msns.map (fun x => BitVec.ofNat 16 (x.getD 0))

def unpack (words : List (BitVec 16)) : List (Option Nat) := words.map (fun w => some w.toNat)

def array : Uo2m → List (Option Nat)
  | ary msns => msns
  | str words => unpack words

def hibernate : Uo2m → Uo2m
  | ary msns => str (pack msns)
  | str words => str words

def size : Uo2m → Nat
  | ary msns => msns.length
  | str words => words.length

def lastMsn : Uo2m → Nat
  | ary msns => (msns.getLast?.getD none).getD 0
  | str words => (words.getLast?.map BitVec.toNat).getD 0

end Uo2m

def fill (beg msn : Nat) (uids : List Nat) : List (Option Nat) × Nat :=
  uids.foldl (fun s u => (assign s.1 (u - beg) (s.2 + 1),s.2 + 1)) ([],msn)

section
variable {R : Type} (o : Over R) (base : Nat)

def uo2mAryNew : Uo2m × Nat :=
  let filled := fill (base + 1) 0 (o.slice base)
  (.ary filled.1,filled.2)

def uo2mLastUid (m : Uo2m) : Nat := m.size + base

def uo2mExtend (newUidMax : Nat) : Option Uo2m → Uo2m × Option Nat
  | none => ((uo2mAryNew o base).1,none)
  | some m =>
    let last := uo2mLastUid base m
    if newUidMax ≤ last then (m,none)
    else match o.uidRange (last + 1) (base + uidSlice) (fun _ => true) with
      | [] => (m,none)
      | u :: us =>
        let filled := fill (last + 1) m.lastMsn (u :: us)
        match m with
        | .ary msns => (.ary (msns ++ filled.1),some filled.2)
        | .str words => (.str (words ++ Uo2m.pack filled.1),some filled.2)

def uid2msn (m : Uo2m) (uid : Nat) : Option Nat := (m.array[uid - base - 1]?).join

def msn2uid (m : Uo2m) : List (Option Nat) :=
  (m.array.foldl (fun (s : List (Option Nat) × Nat) x =>
    (match x with
      | none | some 0 => s.1
      | some (msn + 1) => assign s.1 msn (s.2 + 1 + base),s.2 + 1)) ([],0)).1

end

/- $msn2uid->[$1 - 1] // ($msn2uid->[-1] // 0 + 1), where `0 + 1` is what `//` falls back to. `0 - 1` indexes the
last one, and so does a number that is too long for an integer. -/
def msnToUid (m : List (Option Nat)) (msn : Nat) : Nat :=
  ((Subscript.item m (Subscript.word ((msn : Int) - 1))).join.or m.getLast?.join).getD 1

inductive Elem where
  | one (n : List Char)
  | span (a b : List Char)
  | open (a : List Char)
  | star
  deriving DecidableEq

def matchRange (s : List Char) : Option Elem :=
  match s.span Char.isDigit with
  | ([],rest) => if rest = ['*'] then some .star else none
  | (d :: ds,[]) => some (.one (d :: ds))
  | (d :: ds,c :: rest) =>
    if c = ':' then
      if rest = ['*'] then some (.open (d :: ds))
      else match rest.span Char.isDigit with
        | (e :: es,[]) => some (.span (d :: ds) (e :: es))
        | _ => none
    else none

def elems (csv : List Char) : Option (List Elem) := (csv.splitOn ',').mapM matchRange

def replaceDigits (f : Nat → Nat) (s : List Char) : List Char :=
  go s []
where
  flush (run : List Char) : List Char := if run = [] then [] else Decimal.render (f (Decimal.value run))
  go : List Char → List Char → List Char
    | [],run => flush run
    | c :: cs,run => if c.isDigit then go cs (run ++ [c]) else flush run ++ c :: go cs []

def msnToUidRange (m : List (Option Nat)) (csv : List Char) : List Char := replaceDigits (msnToUid m) csv

structure RangeInfo where
  beg : Nat
  fin : Nat
  csv : Option (List Char)
  deriving DecidableEq

section
variable {R : Type} (o : Over R) (base : Nat)

def uidClamp (beg fin : Nat) : Nat × Nat := (Nat.max beg (base + 1),Nat.min fin (base + uidSlice))

def rangeOf : Elem → Nat × Nat
  | .span a b => uidClamp base (Decimal.value a) (Decimal.value b)
  | .open a =>
    let fin := Nat.min o.max (base + uidSlice)
    uidClamp base (Nat.min (Decimal.value a) fin) fin
  -- an out-of-range query if the UID is out of range
  | .one n =>
    let uid := Decimal.value n
    (if uid ≤ base ∨ base + uidSlice < uid then uid + 1 else uid,uid)
  | .star => uidClamp base o.max o.max

def cutComma (csv : List Char) : List Char × Option (List Char) :=
  match csv.span (fun c => c ≠ ',') with
  | (r :: rs,_ :: rest) => (r :: rs,some rest)
  | _ => (csv,none)

def rangeStep (csv : List Char) : Option RangeInfo :=
  let (range,rest) := cutComma csv
  (matchRange range).map (fun e => ⟨(rangeOf o base e).1,(rangeOf o base e).2,rest⟩)

inductive Caller where
  | fetchBlob
  | fetchSmsg
  | fetchUid
  deriving DecidableEq

inductive Reply where
  | ok
  | bad
  deriving DecidableEq

structure Fetch where
  msgs : List Nat
  info : RangeInfo
  sent : List Nat
  done : Option Reply
  deriving DecidableEq

def Caller.read (k : Caller) (beg fin : Nat) : List Nat :=
  match k with
  | .fetchUid => o.uidRange beg fin (fun _ => true)
  | _ => o.queryXover beg fin

def falsy : Option (List Char) → Bool
  | none => true
  | some s => s = [] ∨ s = ['0']

def refill (k : Caller) (v : Fetch) : Fetch :=
  match k.read o v.info.beg v.info.fin with
  | u :: us => { v with msgs := u :: us, info := { v.info with beg := (u :: us).getLast (List.cons_ne_nil _ _) + 1 } }
  | [] => match v.info.csv with
    | some csv =>
      if falsy v.info.csv then { v with done := some .ok }
      else match rangeStep o base csv with
        | some info => { v with info := info }
        | none => { v with done := some .bad }
    | none => { v with done := some .ok }

def Fetch.step (k : Caller) (v : Fetch) : Fetch :=
  match v.done,v.msgs with
  | some _,_ => v
  | none,[] => refill o base k v
  | none,u :: us => match k with
    | .fetchBlob => { v with msgs := us, sent := v.sent ++ [u] }
    | _ => { v with msgs := [], sent := v.sent ++ u :: us }

def cmdUidFetch (csv : List Char) : Option Fetch :=
  if (elems csv).isSome then (rangeStep o base csv).map (fun info => ⟨[],info,[],none⟩) else none

def cmdFetch (uo2m : Option Uo2m) (csv : List Char) : Option Fetch :=
  if (elems csv).isSome then
    let m := msn2uid base (uo2mExtend o base (base + uidSlice) uo2m).1
    (rangeStep o base (msnToUidRange m csv)).map (fun info => ⟨[],info,[],none⟩)
  else none

end

/- A session and the inboxes it can see: {ibx} (none for a dummy, which has no messages) with
{uid_base}, and the EXISTS it last reported. -/
structure Client (R : Type) where
  inboxes : Nat → Over R
  mailbox : Option (Option Nat × Nat)
  uo2m : Option Uo2m
  reported : Option Nat

/- `extend` is what NOOP, IDLE, a notification and the start of FETCH do, `fetched` what FETCH and
SEARCH do with the UIDs of an answer. A message gets a number above those there are. -/
inductive Act (R : Type) where
  | arrive (ibx gap : Nat) (r : R)
  | examine (ibx : Option Nat) (slice : Nat)
  | close
  | extend
  | fetched (uid : Nat)
  | hibernate

namespace Client
variable {R : Type}

def empty : Client R := ⟨fun _ => .empty,none,none,none⟩

def «over» (v : Client R) : Option Nat → Over R
  | some i => v.inboxes i
  | none => .empty

def extend (v : Client R) (newUidMax : Nat → Nat) : Client R :=
  match v.mailbox with
  | none => v
  | some (ibx,base) =>
    let r := uo2mExtend (v.over ibx) base (newUidMax base) v.uo2m
    { v with uo2m := some r.1, reported := r.2.or v.reported }

def step (v : Client R) : Act R → Client R
  | .arrive i gap r => { v with inboxes := Function.update v.inboxes i ((v.inboxes i).insert ((v.inboxes i).max + 1 + gap) r) }
  | .examine (some i) k =>
    let r := uo2mAryNew (v.inboxes i) (k * uidSlice)
    { v with mailbox := some (some i,k * uidSlice), uo2m := some r.1, reported := some r.2 }
  | .examine none _ => { v with mailbox := some (none,0), uo2m := none, reported := some 0 }
  | .close => { v with mailbox := none, uo2m := none }
  | .extend => v.extend (fun base => base + uidSlice)
  | .fetched uid => v.extend (fun _ => uid)
  | .hibernate => { v with uo2m := v.uo2m.map Uo2m.hibernate }

end Client
end PublicInbox.IMAP
