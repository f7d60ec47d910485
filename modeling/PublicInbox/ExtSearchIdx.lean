import Mathlib.Data.Prod.Lex
import Mathlib.Data.List.Sort
import PublicInbox.Library.Rel

/-! ExtSearchIdx.pm and the tables of OverIdx.pm it keeps: which documents of an external
index hold which articles of which inboxes. A blob is named by its object id and an inbox by
its ibx_id. Ghosts and threads of over.sqlite3, Xapian and the last_commit entries are left
out; a checkpoint only commits. -/
namespace PublicInbox.ExtSearchIdx
open Keyed

structure Xref3 (B : Type) where
  docid : Nat
  ibxId : Nat
  xnum : Nat
  oidbin : B
  deriving DecidableEq

def Xref3.key {B : Type} (r : Xref3 B) : Nat ×ₗ Nat ×ₗ Nat ×ₗ B :=
  toLex (r.docid,toLex (r.ibxId,toLex (r.xnum,r.oidbin)))

theorem Xref3.keyInjective {B : Type} : Function.Injective (Xref3.key (B := B)) := by
  intro a b same
  cases a
  cases b
  simp only [Xref3.key,toLex_inj,Prod.mk.injEq] at same
  simp only [same]

instance {B : Type} [LinearOrder B] : LinearOrder (Xref3 B) := LinearOrder.lift' Xref3.key Xref3.keyInjective

structure Mails (B M H : Type) where
  mids : B → List M
  midsForIndex : B → List M
  contentHash : B → H
  midsIndexed : ∀ b m, m ∈ mids b → m ∈ midsForIndex b

inductive Found where
  | blob
  | bad
  | missing
  deriving DecidableEq

/- The tables: over as the blob of each document, id2num as the Message-IDs each document is
linked to, the eidx_docid counter, and the ids in `inboxes`. -/
structure Ei (B M : Type) [LinearOrder B] where
  «over» : Table Nat B
  id2num : Table Nat (List M)
  xref3 : Rel (Xref3 B)
  eidxq : Rel Nat
  eidxDocid : Nat
  inboxes : Rel Nat

-- An inbox as _unref_doc sees it; `arts` is its ->over, none where it is unblessed.
structure Ibx (B : Type) where
  id : Nat
  arts : Option (Table Nat B)

variable {B M H : Type} [LinearOrder B]

namespace Ei

def empty : Ei B M := ⟨.empty,.empty,.empty,.empty,0,.empty⟩

def getXref3 (s : Ei B M) (docid : Nat) : List (Xref3 B) := s.xref3.select (fun r => r.docid = docid)

def linked [DecidableEq M] (s : Ei B M) (mid : M) : List Nat :=
  s.id2num.keysWhere (fun _ ms => mid ∈ ms)

def nextByMid [DecidableEq M] (s : Ei B M) (mid : M) (prev : Nat) : Option (Nat × B) :=
  match (s.linked mid).find? (fun num => prev < num) with
  | none => none
  | some num => (s.over.get? num).map (fun blob => (num,blob))

def addOverview (s : Ei B M) (docid : Nat) (blob : B) (mids : List M) : Ei B M :=
  { s with «over» := s.over.insert docid blob, id2num := s.id2num.insert docid mids }

def deleteByNum (s : Ei B M) (docid : Nat) : Ei B M :=
  { s with «over» := s.over.erase docid, id2num := s.id2num.erase docid }

def updateBlob (s : Ei B M) (docid : Nat) (oid : B) : Ei B M :=
  { s with «over» := s.over.update docid (fun _ => oid) }

def eidxqAdd (s : Ei B M) (docid : Nat) : Ei B M := { s with eidxq := s.eidxq.add docid }

def eidxqDel (s : Ei B M) (docid : Nat) : Ei B M :=
  { s with eidxq := s.eidxq.delete (fun n => n = docid) }

def addXref3 (s : Ei B M) (docid xnum : Nat) (oid : B) (ibxId : Nat) : Ei B M :=
  { s with inboxes := s.inboxes.add ibxId, xref3 := s.xref3.add ⟨docid,ibxId,xnum,oid⟩ }

def mergeXref3 (s : Ei B M) (keep drop : Nat) (oid : B) : Ei B M :=
  { s with xref3 := (s.xref3.move (fun r => r.docid = drop ∧ r.oidbin = oid)
      (fun r => { r with docid := keep })).delete (fun r => r.docid = drop ∧ r.oidbin = oid) }

def removeDoc (s : Ei B M) (docid : Nat) : Ei B M := (s.deleteByNum docid).eidxqDel docid

-- DELETE FROM xref3 WHERE oidbin = ?, with `AND ibx_id = ?` and `AND xnum = ?` where given
def unrefs (oid : B) (ibx : Option (Ibx B)) (xnum : Option Nat) (r : Xref3 B) : Bool :=
  r.oidbin = oid ∧ (∀ i ∈ ibx,r.ibxId = i.id) ∧ ∀ x ∈ xnum,r.xnum = x

def stillValid (oid : B) (ibx : Option (Ibx B)) (xnum : Option Nat) : Bool :=
  match ibx,xnum with
  | some ⟨_,some arts⟩,some x => arts.get? x = some oid
  | _,_ => false

/- The rest of _unref_doc, with the number of rows the document keeps. `smsg` is the blob the
caller read from over, none where it only knows the docid. -/
def unrefRest (s : Ei B M) (docid : Nat) (smsg : Option B) (oid : B) : Ei B M × Nat :=
  match s.getXref3 docid with
  | [] => (s.removeDoc docid,0)
  | r :: rs =>
    let s' := if smsg.or (s.over.get? docid) = some oid then s.updateBlob docid r.oidbin else s
    (s'.eidxqAdd docid,rs.length + 1)

def unref (s : Ei B M) (oid : B) (ibx : Option (Ibx B)) (xnum : Option Nat) : Ei B M :=
  { s with xref3 := s.xref3.delete (unrefs oid ibx xnum) }

def unrefDoc (s : Ei B M) (docid : Nat) (smsg : Option B) (ibx : Option (Ibx B)) (xnum : Option Nat)
    (oid : B) : Ei B M × Option Nat :=
  if stillValid oid ibx xnum then (s,none)
  else
    let r := (s.unref oid ibx xnum).unrefRest docid smsg oid
    (r.1,some r.2)

def blobMissing (s : Ei B M) (x : Nat × B) : Ei B M := (s.unrefDoc x.1 (some x.2) none none x.2).1

end Ei

inductive File where
  | m (xnum : Nat)
  | d
  deriving DecidableEq

structure Req (B : Type) where
  oid : B
  ibxId : Nat
  file : File
  deriving DecidableEq

/- A request between two turns of do_step: the Message-IDs to come, the one being walked with
the last docid seen under it, and the documents of equal content. -/
structure Chain (B M : Type) where
  req : Req B
  mids : List M
  nextArg : Option (M × Nat)
  indexed : List Nat

abbrev Boost := Option (Nat → Option Nat)

variable [DecidableEq M] [DecidableEq H] (t : Mails B M H)

namespace Ei

/- The first row by position and number. An unknown inbox has no position, which counts as 0:
check_xr3 warns of its rows, and keeps them since `carp` returns true. -/
def topXref3 (id2pos : Nat → Option Nat) (rows : List (Xref3 B)) : Option (Xref3 B) :=
  let pos := fun r : Xref3 B => (id2pos r.ibxId).getD 0
  (rows.insertionSort (fun a b => pos a < pos b ∨ (pos a = pos b ∧ a.xnum ≤ b.xnum))).head?

def applyBoost (id2pos : Nat → Option Nat) (s : Ei B M) (docid : Nat) (oid : B) : Ei B M :=
  match topXref3 id2pos (s.getXref3 docid) with
  | none => s
  | some r => if r.oidbin = oid then s.addOverview docid oid (t.midsForIndex oid) else s

def doXpost (boost : Boost) (q : Req B) (s : Ei B M) (docid : Nat) : Ei B M :=
  match q.file with
  | .m xnum =>
    let s' := s.addXref3 docid xnum q.oid q.ibxId
    match boost with
    | none => s'
    | some id2pos => applyBoost t id2pos s' docid q.oid
  | .d => (s.unrefDoc docid none (some ⟨q.ibxId,none⟩) none q.oid).1

def indexUnseen (s : Ei B M) (oid : B) (ibxId xnum : Nat) : Ei B M :=
  let docid := s.eidxDocid + 1
  ({ s with eidxDocid := docid }.addOverview docid oid (t.midsForIndex oid)).addXref3 docid xnum oid ibxId

def doFinalize (boost : Boost) (s : Ei B M) (c : Chain B M) : Ei B M :=
  match c.indexed,c.req.file with
  | docid :: docids,_ => (docid :: docids).foldl (doXpost t boost c.req) s
  | [],.m xnum => s.indexUnseen t c.req.oid c.req.ibxId xnum
  | [],.d => s

def seek (s : Ei B M) (mid : M) (prev : Nat) : List M → Option (M × List M × Nat × B)
  | [] => (s.nextByMid mid prev).map (fun x => (mid,[],x))
  | m :: ms => match s.nextByMid mid prev with
    | some x => some (mid,m :: ms,x)
    | none => seek s m 0 ms

def candidate (s : Ei B M) (c : Chain B M) : Option (M × List M × Nat × B) :=
  match c.nextArg,c.mids with
  | some (mid,prev),ms => s.seek mid prev ms
  | none,m :: ms => s.seek m 0 ms
  | none,[] => none

def doStep (boost : Boost) (s : Ei B M) (c : Chain B M) : Ei B M × Option (Chain B M × Nat × B) :=
  match s.candidate c with
  | some (mid,ms,x) => (s,some ({ c with mids := ms, nextArg := some (mid,x.1) },x))
  | none => (s.doFinalize t boost c,none)

def ckAnswer (s : Ei B M) (c : Chain B M) (cur : Nat × B) : Found → Ei B M × Chain B M
  | .missing => (s.blobMissing cur,c)
  | .bad => (s,c)
  | .blob =>
    if t.contentHash cur.2 = t.contentHash c.req.oid
    then (s,{ c with indexed := c.indexed ++ [cur.1] })
    else (s,c)

def begin (q : Req B) : Found → Option (Chain B M)
  | .blob => some ⟨q,t.mids q.oid,none,[]⟩
  | _ => none

end Ei
end PublicInbox.ExtSearchIdx
