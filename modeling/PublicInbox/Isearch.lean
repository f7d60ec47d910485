import PublicInbox.ExtSearchIdx
import Mathlib.Data.List.Sort
import Mathlib.Logic.Function.Basic

/-! Isearch.pm: the search of one inbox through the Xapian documents and the xref3 table of the
external index, with the mset of Search.pm. A document has the UID value and the number of its
docid; `O` terms name its inboxes. The relevance, thread and offset options, which neither IMAP nor
Isearch sets, are left out, and so is the choice between this process and the helper, which gets
the same options. -/
namespace PublicInbox.Isearch
open Keyed
open ExtSearchIdx (Xref3)

structure Doc (C : Type) where
  eidxKeys : List String
  content : C

structure Es (B C : Type) [LinearOrder B] where
  docs : Table Nat (Doc C)
  nshard : Nat
  xref3 : Rel (Xref3 B)
  ibxId : String → Option Nat

structure Opt where
  sortCol : Option Int
  asc : Bool
  limit : Nat
  uidRange : Option (Nat × Nat)
  eidxKey : Option String

variable {B C : Type} [LinearOrder B]

def xapianDocid (nshard docid : Nat) : Nat := (docid - 1) * nshard + docid % nshard + 1

def mdocid (nshard docid : Nat) : Nat := (docid - 1) / nshard + 1

namespace Es
variable (s : Es B C)

def getLastdocid : Nat := (s.docs.keys.map (xapianDocid s.nshard)).foldl Nat.max 0

def eidxMsetPrep (eidxKey : String) (ibxId : Nat) (opt : Opt) : Opt :=
  let opt := { opt with eidxKey := some eidxKey }
  match opt.uidRange with
  | none => opt
  | some (beg,fin) =>
    let docids := (s.xref3.select (fun r => r.ibxId = ibxId ∧ beg ≤ r.xnum ∧ r.xnum ≤ fin)).map Xref3.docid
    match docids.min?,docids.max? with
    | some lo,some hi => { opt with limit := hi - lo + 1, uidRange := some (lo,hi) }
    | lo,hi => { opt with uidRange := some (lo.getD 0,hi.getD s.getLastdocid) }

/- The mset of a query for the documents that satisfy `p`. `bySort` is Xapian's order by a column,
0 being TS. -/
def mset (p : C → Bool) (bySort : Nat → Bool → List Nat → List Nat) (opt : Opt) : List Nat :=
  let found := s.docs.keysWhere (fun docid doc => p doc.content && opt.eidxKey.all (· ∈ doc.eidxKeys) &&
    opt.uidRange.all (fun r => r.1 ≤ docid && docid ≤ r.2))
  let items := (found.map (xapianDocid s.nshard)).insertionSort (· ≤ ·)
  let ordered := match opt.sortCol.getD 0 with
    | .negSucc _ => if opt.asc then items else items.reverse
    | .ofNat col => bySort col opt.asc items
  ordered.take (if opt.limit = 0 then 50 else opt.limit)

def place (docids : List Nat) (st : List Nat × (Nat → Option Nat)) (r : Xref3 B) : List Nat × (Nat → Option Nat) :=
  if r.docid ∈ st.1 then (st.1.erase r.docid,Function.update st.2 (docids.idxOf r.docid) (some r.xnum)) else st

def msetToArtnums (ibxId : Nat) (order : List (Xref3 B) → List (Xref3 B)) (mset : List Nat) (opt : Opt) : List Nat :=
  let docids := mset.map (mdocid s.nshard)
  if opt.asc ∧ opt.sortCol.getD 0 < 0 then
    ((s.xref3.select (fun r => r.ibxId = ibxId ∧ r.docid ∈ docids ∧
      opt.uidRange.all (fun range => range.1 ≤ r.xnum && r.xnum ≤ range.2))).map Xref3.xnum).insertionSort (· ≤ ·)
  else
    let rows := order (s.xref3.select (fun r => r.ibxId = ibxId ∧ r.docid ∈ docids))
    let st := rows.foldl (place docids) (docids,fun _ => none)
    let xnums := (List.range docids.length).map st.2
    if st.1 = [] then xnums.map (·.getD 0) else xnums.reduceOption

def artnums (p : C → Bool) (bySort : Nat → Bool → List Nat → List Nat) (order : List (Xref3 B) → List (Xref3 B))
    (eidxKey : String) (opt : Opt) : Option (List Nat) :=
  (s.ibxId eidxKey).map fun ibxId => s.msetToArtnums ibxId order (s.mset p bySort (s.eidxMsetPrep eidxKey ibxId opt)) opt

end Es

def imapOpt (beg fin : Nat) : Opt := ⟨some (-1),true,50000,some (beg,fin),none⟩

end PublicInbox.Isearch
