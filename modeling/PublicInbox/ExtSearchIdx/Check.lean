import PublicInbox.Library.Batch
import PublicInbox.ExtSearchIdx.Pipeline

/-! _reindex_check_ibx: the over table of an inbox is read slice by slice and held against the
xref3 rows of the inbox. Callbacks of git take their turns whenever cat_async or async_wait_all
is called. -/
namespace PublicInbox.ExtSearchIdx
open Keyed Ei
variable {B M H : Type} [LinearOrder B]

structure Inbox (B : Type) where
  id : Nat
  arts : Table Nat B
  max : Nat

/- What the check does not decide: the turns its n-th call of cat_async or async_wait_all takes,
and the order of rows where neither an ORDER BY nor a hash gives one. -/
structure Around (B : Type) where
  callbacks : Nat → List (Turn B)
  order : List (Xref3 B) → List (Xref3 B)
  orderPerm : ∀ rows,(order rows).Perm rows

/- `unseen` went to reindex_unseen, `queued` to the reindex queue with the docid of a row, and
`unreffed` are the rows _unref_doc took away. -/
structure Check (B M : Type) [LinearOrder B] where
  pipe : Pipe B M
  calls : Nat
  unseen : List (Article B)
  queued : List (Article B × Nat)
  unreffed : List (Article B)

def Turn.inside : Turn B → Bool
  | .request _ => false
  | _ => true

namespace Check
variable [DecidableEq M] [DecidableEq H] (t : Mails B M H) (boost : Boost) (w : Around B) (ibx : Inbox B)

def start (s : Ei B M) : Check B M := ⟨⟨s,[],[],[],[]⟩,0,[],[],[]⟩

def serve (v : Check B M) : Check B M :=
  { v with pipe := ((w.callbacks v.calls).filter Turn.inside).foldl (Pipe.step t boost) v.pipe
           calls := v.calls + 1 }

def reindexUnseen (v : Check B M) (a : Article B) : Check B M :=
  serve t boost w { v with pipe := v.pipe.step t boost (.request a), unseen := v.unseen ++ [a] }

def unref (v : Check B M) (r : Xref3 B) : Check B M :=
  match v.pipe.ei.unrefDoc r.docid none (some ⟨ibx.id,some ibx.arts⟩) (some r.xnum) r.oidbin with
  | (s,some _) => { v with pipe := { v.pipe with ei := s }, unreffed := v.unreffed ++ [r.article] }
  | (_,none) => v

def queue (a : Article B) (v : Check B M) (docid : Nat) : Check B M :=
  { v with pipe := { v.pipe with ei := v.pipe.ei.eidxqAdd docid }, queued := v.queued ++ [(a,docid)] }

def rowsOf (v : Check B M) (p : Nat → Bool) : List (Xref3 B) :=
  v.pipe.ei.xref3.select (fun r => r.ibxId = ibx.id ∧ p r.xnum)

def unrefStaleRange (lim : Nat) (p : Nat → Bool) : Nat → Check B M → Option (Check B M) :=
  Batch.batches (fun v => w.order (v.rowsOf ibx p)) (unref ibx) lim

end Check

def Inbox.queryXover (ibx : Inbox B) (limit first last : Nat) : List (Nat × B) :=
  (ibx.arts.rows.filter (fun x => first ≤ x.1 ∧ x.1 ≤ last)).take limit

namespace Check
variable [DecidableEq M] [DecidableEq H] (t : Mails B M H) (boost : Boost) (w : Around B) (ibx : Inbox B)
  (fast : Bool)

def examine (x3 : List (Xref3 B)) (v : Check B M) (msg : Nat × B) : Check B M :=
  let a : Article B := ⟨ibx.id,msg.1,msg.2⟩
  match (x3.filter (fun r => r.article = a)).map Xref3.docid with
  | [] => v.reindexUnseen t boost w a
  | docids => if fast then v else docids.foldl (queue a) v

def leftover (msgs : List (Nat × B)) (x3 : List (Xref3 B)) : List (Xref3 B) :=
  x3.filter (fun r => (r.xnum,r.oidbin) ∉ msgs)

def drop (msgs : List (Nat × B)) (v : Check B M) (r : Xref3 B) : Check B M :=
  if r.xnum ∈ msgs.map Prod.fst then
    match ibx.arts.get? r.xnum with
    | none => v
    | some blob => if blob = r.oidbin then v else v.unref ibx r
  else v.unref ibx r

def slice (msgs : List (Nat × B)) (lo hi : Nat) (v : Check B M) : Check B M :=
  let x3 := v.rowsOf ibx (fun x => lo ≤ x ∧ x ≤ hi)
  let v' := msgs.foldl (examine t boost w ibx fast x3) v
  match leftover msgs x3 with
  | [] => v'
  | rows => (w.order rows).foldl (drop ibx msgs) (v'.serve t boost w)

def walk (limit : Nat) : Nat → Nat → Nat → Option Nat → Check B M → Option (Option Nat × Check B M)
  | 0, _, _, _, _ => none
  | fuel + 1, first, last, hi, v =>
    let msgs := ibx.queryXover limit first last
    match msgs.head?,msgs.getLast? with
    | some lo,some top =>
      let swept := if hi.isSome then some v else v.unrefStaleRange w ibx limit (fun x => x < lo.1) fuel
      swept.bind fun v => walk limit fuel (top.1 + 1) (min (top.1 + 1 + limit) ibx.max) (some top.1)
        (v.slice t boost w ibx fast msgs lo.1 top.1)
    | _,_ => some (hi,v)

def reindexCheckIbx (limit fuel : Nat) (s : Ei B M) : Option (Check B M) :=
  (walk t boost w ibx fast limit fuel 1 (min limit ibx.max) none (start s)).bind fun r =>
    match r.1 with
    | some hi => if hi < ibx.max
      then r.2.unrefStaleRange w ibx limit (fun x => hi < x ∧ x ≤ ibx.max) fuel else some r.2
    | none => some r.2

end Check

def Inbox.pageAt (ibx : Inbox B) (limit : Nat) : Nat → List (Nat × B)
  | 0 => ibx.queryXover limit 1 (min limit ibx.max)
  | k + 1 => match (ibx.pageAt limit k).getLast? with
    | some top => ibx.queryXover limit (top.1 + 1) (min (top.1 + 1 + limit) ibx.max)
    | none => []

def Covers (page : List (Nat × B)) (x : Nat) : Prop :=
  ∃ lo ∈ page.head?,∃ top ∈ page.getLast?,lo.1 ≤ x ∧ x ≤ top.1

/- Numbers whose rows are looked at: below the first article, inside a slice, and from the last
slice to num_highwater. -/
def Inbox.Passed (ibx : Inbox B) (limit x : Nat) : Prop :=
  (∃ lo ∈ (ibx.pageAt limit 0).head?,x < lo.1) ∨ (∃ k,Covers (ibx.pageAt limit k) x) ∨
    ∃ k,∃ top ∈ (ibx.pageAt limit k).getLast?,ibx.pageAt limit (k + 1) = [] ∧ top.1 < x ∧ x ≤ ibx.max

/- No article number is above num_highwater, or further from the one before it than a slice
reaches. -/
def Inbox.Reached (ibx : Inbox B) (limit : Nat) : Prop :=
  ∀ n b,ibx.arts.get? n = some b → n ≤ ibx.max ∧
    (n ≤ limit ∨ ∃ m,(ibx.arts.get? m).isSome ∧ m < n ∧ n ≤ m + 1 + limit)

end PublicInbox.ExtSearchIdx
