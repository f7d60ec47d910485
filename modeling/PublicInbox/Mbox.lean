import PublicInbox.Isearch.Artnums
import PublicInbox.Library.Listing
import PublicInbox.OverIdx

/-! Mbox.pm: search results as an mbox, those of a thread collapsed into one by the index that is searched and
expanded again by over.sqlite3 of the inbox. Whether the msets are had at once or asynchronously, they are of the
same database and in the same order, so that both are one loop here. -/
namespace PublicInbox
open Keyed

namespace Search
open Isearch (Doc Es xapianDocid mdocid)

structure Indexed (C : Type) where
  threadid : Nat
  content : C

structure ViaExtindex where
  eidxKey : String
  ibxId : Nat

structure Srch (B C : Type) [LinearOrder B] where
  es : Es B (Indexed C)
  hasThreadidMetadata : Bool
  isearch : Option ViaExtindex

namespace Srch
variable {B C : Type} [LinearOrder B] (s : Srch B C)

def hasThreadid : Bool := s.isearch.isSome || s.hasThreadidMetadata

def threadid (docid : Nat) : Option Nat := (s.es.docs.get? docid).map (·.content.threadid)

def ranked (p : Indexed C → Bool) : List Nat :=
  ((s.es.hits p (s.isearch.map ViaExtindex.eidxKey) none).map (xapianDocid s.es.nshard)).insertionSort (· ≤ ·) |>.reverse

def collapsed (p : Indexed C → Bool) (threads : Bool) : List Nat :=
  if threads && s.hasThreadidMetadata then Listing.firsts (fun x => s.threadid (mdocid s.es.nshard x)) (s.ranked p)
  else s.ranked p

def mset (p : Indexed C → Bool) (threads : Bool) (offset : Nat) : List Nat := ((s.collapsed p threads).drop offset).take 50

def msetToArtnums (order : List (ExtSearchIdx.Xref3 B) → List (ExtSearchIdx.Xref3 B)) (mset : List Nat) : List Nat :=
  match s.isearch with
  | none => mset.map (mdocid s.es.nshard)
  | some own => s.es.msetToArtnums own.ibxId order mset ⟨some (-1),false,0,none,none⟩

end Srch
end Search

namespace Mbox
open Search (Srch Indexed)
variable {B C δ : Type} [LinearOrder B]

structure Ctx where
  ids : List Int
  xids : Option (List Int)
  prev : Int
  offset : Nat

def threadAfter (o : OverIdx δ) (tid : Nat) (prev : Int) : List Int := o.over.keysWhere fun num row => row.tid = tid && prev < num

def expandThread (o : OverIdx δ) : List Int → Int → List Int × Int × Option (List Int)
  | [],prev => ([],prev,none)
  | num :: ids,prev => match o.tidOf num with
    | none => expandThread o ids 0
    | some tid =>
      let xids := (threadAfter o tid prev).take 1000
      match xids.getLast? with
      | some last => (num :: ids,last,some xids)
      | none => expandThread o ids 0

inductive Turn where
  | smsg (num : Int) (ctx : Ctx)
  | next (ctx : Ctx)
  | done

def refillIds (s : Srch B C) (order : List (ExtSearchIdx.Xref3 B) → List (ExtSearchIdx.Xref3 B)) (p : Indexed C → Bool) (threads : Bool)
    (ctx : Ctx) : Turn :=
  match s.mset p threads ctx.offset with
  | [] => .done
  | mset => .next { ctx with ids := (s.msetToArtnums order mset).map Int.ofNat, offset := ctx.offset + mset.length }

def resultsCb (o : OverIdx δ) (s : Srch B C) (order : List (ExtSearchIdx.Xref3 B) → List (ExtSearchIdx.Xref3 B)) (p : Indexed C → Bool)
    (threads : Bool) (ctx : Ctx) : Turn :=
  match ctx.xids with
  | some (num :: xids) => if (o.over.get? num).isSome then .smsg num { ctx with xids := some xids } else .next { ctx with xids := some xids }
  | some [] =>
    match expandThread o ctx.ids ctx.prev with
    | (ids,prev,some xids) => .next ⟨ids,some xids,prev,ctx.offset⟩
    | (ids,prev,none) => refillIds s order p threads ⟨ids,some [],prev,ctx.offset⟩
  | none => match ctx.ids with
    | num :: ids => if (o.over.get? num).isSome then .smsg num { ctx with ids := ids } else .next { ctx with ids := ids }
    | [] => refillIds s order p threads ctx

def stream (o : OverIdx δ) (s : Srch B C) (order : List (ExtSearchIdx.Xref3 B) → List (ExtSearchIdx.Xref3 B)) (p : Indexed C → Bool)
    (threads : Bool) : Nat → Ctx → Option (List Int)
  | 0,_ => none
  | fuel + 1,ctx => match resultsCb o s order p threads ctx with
    | .smsg num ctx => (stream o s order p threads fuel ctx).map (num :: ·)
    | .next ctx => stream o s order p threads fuel ctx
    | .done => some []

def mboxAll (o : OverIdx δ) (s : Srch B C) (order : List (ExtSearchIdx.Xref3 B) → List (ExtSearchIdx.Xref3 B)) (p : Indexed C → Bool)
    (threads : Bool) (fuel : Nat) : Option (List Int) :=
  match s.mset p threads 0 with
  | [] => some []
  | mset => stream o s order p threads fuel
      ⟨(s.msetToArtnums order mset).map Int.ofNat,if threads && s.hasThreadid then some [] else none,0,mset.length⟩

end Mbox
end PublicInbox
