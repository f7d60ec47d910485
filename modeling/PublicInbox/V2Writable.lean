import Mathlib.Data.List.Dedup
import Mathlib.Logic.Function.Basic
import PublicInbox.Library.Autoincrement

/-! V2Writable.pm: delivery into a v2 inbox, removal and rewriting of its history, and the
numbering of what git holds. A blob is identified with the text it holds, an epoch with its
commits; one that has none yet is not there. Numbers are not bounded here; below the largest
rowid `midInsert` is the INSERT of Msgmap.pm. No altid, no size limit, no Xapian. -/
namespace PublicInbox.V2Writable
open Keyed

-- What v2_num_for_harder adds to the digest: nothing, the Received headers and random numbers.
inductive Salt (R : Type) where
  | none
  | received (rands : List R)
  deriving DecidableEq

/- What the text of a message is read for: MID.pm, ContentHash.pm, and the changes of
Import.pm to a header. `purged` is the empty blob. -/
structure Texts (E M H R : Type) where
  mids : E → List M
  midsForIndex : E → List M
  references : E → List M
  contentHash : E → H
  contentHashes : E → List H
  dropUnwantedHeaders : E → E
  appendMid : E → M → E
  digest2mid : E → Salt R → M
  purged : E
  midsIndexed : ∀ e m, m ∈ mids e → m ∈ midsForIndex e
  midsDropped : ∀ e, mids (dropUnwantedHeaders e) = mids e
  midsAppended : ∀ e salt, digest2mid e salt ∉ mids e →
    mids (appendMid e (digest2mid e salt)) = mids e ++ [digest2mid e salt]
  midsPurged : mids purged = []

structure Smsg (E M : Type) where
  blob : E
  mid : M
  deriving DecidableEq

structure Index (E M : Type) where
  mm : Auto M
  «over» : Table Int (Smsg E M)

inductive File where
  | m
  | d
  deriving DecidableEq

structure Rec (E : Type) where
  file : File
  blob : E
  deriving DecidableEq

structure Commit (E : Type) extends Rec E where
  clean : Bool
  deriving DecidableEq

abbrev Epochs (E : Type) := List (List (Commit E))

/- `last` is last_commit_xap of an epoch, as the commits up to that one; none is the empty
list. A commit names its whole history. `im` is the importer at work, and whether it has
`{-tree}`. -/
structure Inbox (E M : Type) extends Index E M where
  git : Epochs E
  last : Nat → List (Commit E)
  im : Option Bool

variable {E M H R : Type}

def Index.empty : Index E M := ⟨.empty,.empty⟩

def Inbox.empty : Inbox E M := ⟨.empty,[],fun _ => [],none⟩

section msgmap
variable [DecidableEq M]

def midInsert (mm : Auto M) (mid : M) : Option (Auto M × Int) :=
  match fresh : mm.keyOf mid with
  | some _ => none
  | none => some (mm.add (mm.seq + 1) mid mm.aboveFree fresh,mm.seq + 1)

theorem midInsertTaken {mm : Auto M} {mid : M} {k : Int} (found : mm.keyOf mid = some k) :
    midInsert mm mid = none := by
  unfold midInsert
  split
  · rfl
  · rename_i absent
    rw [found] at absent
    contradiction

theorem midInsertFresh {mm : Auto M} {mid : M} (absent : mm.keyOf mid = none) :
    midInsert mm mid = some (mm.add (mm.seq + 1) mid mm.aboveFree absent,mm.seq + 1) := by
  unfold midInsert
  split
  · rename_i found
    rw [absent] at found
    contradiction
  · rfl

theorem midInsertExact {mm : Auto M} (room : mm.seq < maxRowid) (mid : M) :
    mm.insert mid = match midInsert mm mid with
      | none => (mm,.constraint)
      | some (mm',num) => (mm',.key num) := by
  unfold Auto.insert
  rw [if_neg (not_le.mpr room)]
  split
  · rename_i k found
    rw [midInsertTaken found]
  · rename_i absent
    rw [midInsertFresh absent]

def insertFirst (mm : Auto M) : List M → Option (Auto M × Int × M)
  | [] => none
  | mid :: mids => match midInsert mm mid with
    | some (mm',num) => some (mm',num,mid)
    | none => insertFirst mm mids

def midSet (mm : Auto M) (num : Int) (mid : Option M) : Auto M :=
  match mid with
  | none => mm.bump num
  | some mid => match free : mm.rows.get? num, fresh : mm.keyOf mid with
    | none,none => mm.add num mid free fresh
    | _,_ => mm.bump num

end msgmap

variable [DecidableEq E] [DecidableEq M] [DecidableEq H] (t : Texts E M H R)

def nextByMid (ov : Table Int (Smsg E M)) (mid : M) : List (Int × Smsg E M) :=
  ov.rows.filter (fun r => mid ∈ t.midsForIndex r.2.blob)

def contentMatches (e : E) (x : Smsg E M) : Bool := t.contentHash x.blob ∈ t.contentHashes e

def contentExists (s : Index E M) (e : E) (mid : M) : Bool :=
  (nextByMid t s.over mid).any (fun r => contentMatches t e r.2)

/- One list of random numbers for the whole loop; where it is used up the loop still runs,
and nothing has been stored. -/
def v2NumForHarder (mm : Auto M) (e : E) (rands : List R) : Option (Auto M × Int × M × E) :=
  match insertFirst mm ((.none :: rands.inits.map .received).map (t.digest2mid e)) with
  | none => none
  | some (mm',num,mid0) => some (mm',num,mid0,t.appendMid e mid0)

def v2NumFor (s : Index E M) (e : E) (rands : List R) : Option (Auto M × Int × M × E) :=
  match t.mids e with
  | [] => v2NumForHarder t s.mm e rands
  | mid :: rest => match midInsert s.mm mid with
    | some (mm',num) => some (mm',num,mid,e)
    | none =>
      if (mid :: rest).any (contentExists t s e) then none
      else match insertFirst s.mm rest.reverse with
        | some (mm',num,mid0) => some (mm',num,mid0,e)
        | none => v2NumForHarder t s.mm e rands

def Epochs.commit (rotate : Bool) (c : Commit E) : Epochs E → Epochs E
  | [] => [[c]]
  | [epoch] => if rotate then [epoch,[c]] else [epoch ++ [c]]
  | epoch :: e :: es => epoch :: Epochs.commit rotate c (e :: es)

def Epochs.tip (git : Epochs E) : List (Commit E) := git.getLast?.getD []

/- gfi_start lists the tree of the tip, so an epoch's first importer has no `{-tree}` and its
clean_tree_v2 returns at once. -/
def Inbox.cleans (v : Inbox E M) (rotate : Bool) : Bool :=
  ! rotate && v.im.getD (! v.git.tip.isEmpty)

def lastNewest (git : Epochs E) (last : Nat → List (Commit E)) : Nat → List (Commit E) :=
  Function.update last (git.length - 1) git.tip

def doIdx (ov : Table Int (Smsg E M)) (num : Int) (x : Smsg E M) : Table Int (Smsg E M) :=
  ov.insert num x

def add (v : Inbox E M) (e : E) (rands : List R) (rotate : Bool) : Inbox E M :=
  match v2NumFor t v.toIndex e rands with
  | none => v
  | some (mm',num,mid0,e') =>
    let blob := t.dropUnwantedHeaders e'
    let clean := v.cleans rotate
    let git := Epochs.commit rotate ⟨⟨.m,blob⟩,clean⟩ v.git
    ⟨⟨mm',doIdx v.over num ⟨blob,mid0⟩⟩,git,lastNewest git v.last,some clean⟩

def done (v : Inbox E M) : Inbox E M := { v with im := none }

def removeOid (ov : Table Int (Smsg E M)) (oid : E) (mid : M) : Table Int (Smsg E M) :=
  ov.filter (fun _ x => ¬ (x.blob = oid ∧ mid ∈ t.midsForIndex x.blob))

abbrev Shuffle (α : Type) := { f : List α → List α // ∀ xs, (f xs).Perm xs }

inductive Rewrite where
  | remove
  | purge
  | replace
  deriving DecidableEq

structure Rewriting (E M : Type) extends Index E M where
  removed : List E
  replaceMap : List E
  needReindex : List (Int × Smsg E M)

def rewriteArticle (how : Rewrite) (mid : M) (s : Rewriting E M) (r : Int × Smsg E M) :
    Rewriting E M :=
  let ov := removeOid t s.over r.2.blob mid
  match how with
  | .remove => { s with
      removed := s.removed ++ [r.2.blob]
      mm := s.mm.deleteKey r.1
      «over» := ov }
  | .purge => { s with
      replaceMap := s.replaceMap ++ [r.2.blob]
      mm := s.mm.deleteKey r.1
      «over» := ov }
  | .replace => { s with
      replaceMap := s.replaceMap ++ [r.2.blob]
      needReindex := s.needReindex ++ [r]
      «over» := ov }

def rewriteMid (how : Rewrite) (old : E) (keys : Shuffle (Int × Smsg E M)) (s : Rewriting E M)
    (mid : M) : Rewriting E M :=
  let gone := (nextByMid t s.over mid).filter (fun r => contentMatches t old r.2)
  (keys.val gone).foldl (rewriteArticle t how mid) s

def rewriteInternal (how : Rewrite) (v : Inbox E M) (old : E) (keys : Shuffle (Int × Smsg E M)) :
    Rewriting E M :=
  (t.mids old).foldl (rewriteMid t how old keys) ⟨v.toIndex,[],[],[]⟩

def removeCommits (clean : Bool) (removed : List E) (git : Epochs E) : Epochs E :=
  removed.foldl (fun git oid => git.commit false ⟨⟨.d,oid⟩,clean⟩) git

/- `from` has no commit to name in an epoch without one: git fast-import dies of it, the
removal with it, and `done` rolls both databases back. -/
def remove (v : Inbox E M) (old : E) (keys : Shuffle (Int × Smsg E M)) (rotate : Bool) :
    Inbox E M :=
  let s := rewriteInternal t .remove v old keys
  if s.removed = [] then v
  else if rotate || v.git.tip.isEmpty then done v
  else
    let clean := v.cleans rotate
    let git := removeCommits clean s.removed v.git
    ⟨s.toIndex,git,lastNewest git v.last,some clean⟩

def replaceOids (oids : List E) (new : E) (epoch : List (Commit E)) : List (Commit E) :=
  epoch.map (fun c => if c.blob ∈ oids then { c with blob := new } else c)

def replaceAll (oids : List E) (new : E) (git : Epochs E) : Epochs E := git.map (replaceOids oids new)

def lastReplaced (oids : List E) (git : Epochs E) (new : E) (last : Nat → List (Commit E)) :
    Nat → List (Commit E) :=
  fun i => match git[i]? with
    | none => last i
    | some epoch =>
      if epoch.any (fun c => c.blob ∈ oids) then replaceOids oids new epoch else last i

def rewritten (s : Rewriting E M) (im : Option Bool) : Option Bool :=
  if s.replaceMap = [] then im else none

def purge (v : Inbox E M) (old : E) (keys : Shuffle (Int × Smsg E M)) : Inbox E M :=
  let s := rewriteInternal t .purge v old keys
  ⟨s.toIndex,replaceAll s.replaceMap t.purged v.git,
    lastReplaced s.replaceMap v.git t.purged v.last,rewritten s v.im⟩

def sameSet (xs ys : List M) : Bool := xs.all (· ∈ ys) && ys.all (· ∈ xs)

def checkMidsMatch (old new : E) : Bool :=
  sameSet (t.mids old) (t.mids new) && sameSet (t.references old) (t.references new)

def replace (v : Inbox E M) (old new : E) (keys : Shuffle (Int × Smsg E M)) : Inbox E M :=
  if checkMidsMatch t old new then
    let raw := t.dropUnwantedHeaders new
    let s := rewriteInternal t .replace v old keys
    ⟨⟨s.mm,s.needReindex.foldl (fun ov r => doIdx ov r.1 ⟨raw,r.2.mid⟩) s.over⟩,
      replaceAll s.replaceMap raw v.git,lastReplaced s.replaceMap v.git raw v.last,
      rewritten s v.im⟩
  else v

def Tree (E : Type) := File → Option E

def Tree.empty : Tree E := fun _ => none

def Tree.cleaned (tree : Tree E) (clean : Bool) : Tree E := if clean then .empty else tree

def Tree.commit (tree : Tree E) (c : Commit E) : Tree E := fun file =>
  if file = c.file then some c.blob else tree.cleaned c.clean file

/- `git log --raw` of the commits that follow a tree, oldest first: a commit that leaves the
tree as it is has no line, and `D` lines are not read. -/
def rawLog : Tree E → List (Commit E) → List (Rec E)
  | _, [] => []
  | tree, c :: cs =>
    if tree c.file = some c.blob then rawLog (tree.commit c) cs
    else c.toRec :: rawLog (tree.commit c) cs

/- The state of one index_sync. `mmTmp` is the clone of msgmap made before the first
record; `unindexed` has the numbers taken from a blob in a rewritten range. -/
structure Sync (E M : Type) extends Index E M where
  mmTmp : Auto M
  unindexed : E → List (Int × Option M)

def numMid0ForOid (ov : Table Int (Smsg E M)) (oid : E) (mid : M) : Option (Int × M) :=
  (ov.rows.find? (fun r => r.2.blob = oid ∧ mid ∈ t.midsForIndex r.2.blob)).map
    (fun r => (r.1,r.2.mid))

def numBefore (mmTmp : Auto M) (mid : M) : Option (Int × M) := (mmTmp.keyOf mid).map (·,mid)

/- `is this a number we got before?` The first Message-ID counts only if it does not
clobber another message; the others are tried backwards. -/
def gotBefore (s : Sync E M) (oid : E) (mid : M) (rest : List M) : Option (Int × M) :=
  match (numBefore s.mmTmp mid).filter (fun x => (s.over.get? x.1).all (fun y => y.blob = oid)) with
  | some x => some x
  | none => rest.reverse.findSome? (numBefore s.mmTmp)

def takeUnindexed (s : Sync E M) (oid : E) : Sync E M × Option (Int × Option M) :=
  match s.unindexed oid with
  | [] => (s,none)
  | (num,mid0) :: u =>
    ({ s with
        mm := midSet s.mm num mid0
        unindexed := Function.update s.unindexed oid u },some (num,mid0))

def knownNum (s : Sync E M) (taken : Option (Int × Option M)) (oid : E) (mid : M) (rest : List M) :
    Option (Int × M) :=
  match taken with
  | some (num,some mid0) => some (num,mid0)
  | some (_,none) => gotBefore s oid mid rest
  | none => match (mid :: rest).findSome? (numMid0ForOid t s.over oid) with
    | some x => some x
    | none => gotBefore s oid mid rest

def indexOid (s : Sync E M) (oid : E) : Sync E M :=
  if oid = t.purged then s
  else match t.mids oid with
    | [] => s
    | mid :: rest =>
      let (s,taken) := takeUnindexed s oid
      match knownNum t s taken oid mid rest with
      | some (num,mid0) =>
        { s with mmTmp := s.mmTmp.deleteKey num, «over» := doIdx s.over num ⟨oid,mid0⟩ }
      | none => match insertFirst s.mm (mid :: rest.reverse) with
        | some (mm',num,mid0) => { s with mm := mm', «over» := doIdx s.over num ⟨oid,mid0⟩ }
        | none => s

def unindexNum (inUnindex : Bool) (oid : E) (s : Sync E M) (num : Int) : Sync E M :=
  { s with
    unindexed := if inUnindex
      then Function.update s.unindexed oid (s.unindexed oid ++ [(num,s.mm.rows.get? num)])
      else s.unindexed
    mm := s.mm.deleteKey num }

def unindexMid (inUnindex : Bool) (oid : E) (s : Sync E M) (mid : M) : Sync E M :=
  match (nextByMid t s.over mid).filter (fun r => r.2.blob = oid) with
  | [] => s
  | gone =>
    let s := (gone.map Prod.fst).foldl (unindexNum inUnindex oid) s
    { s with «over» := removeOid t s.over oid mid }

def unindexOid (inUnindex : Bool) (s : Sync E M) (oid : E) : Sync E M :=
  if oid = t.purged then s else (t.mids oid).foldl (unindexMid t inUnindex oid) s

-- A unit of `{todo}`: the rewritten range's lines, the stack in popping order and the commits.
structure Todo (E : Type) where
  epoch : Nat
  unindex : List (Rec E)
  stack : List (Rec E)
  range : List (Commit E)
  tip : List (Commit E)

def mergeBase : List (Commit E) → List (Commit E) → List (Commit E)
  | a :: as, b :: bs => if a = b then a :: mergeBase as bs else []
  | _, _ => []

def lines (base tip : List (Commit E)) : List (Rec E) :=
  rawLog (base.foldl Tree.commit .empty) (tip.drop base.length)

/- The base of the range, and the lines to unindex. A commit that git has pruned is no
ancestor and has no merge base: `held` says whether `$cur` is there. -/
def logRange (held : Bool) (cur tip : List (Commit E)) :
    Option (List (Commit E) × List (Rec E)) :=
  if cur = [] then some ([],[])
  else if cur = tip then none
  else if held then
    if cur <+: tip then some (cur,[])
    else some (mergeBase tip cur,lines (mergeBase tip cur) cur)
  else some ([],[])

def prepareEpoch (held : Bool) (cur : List (Commit E)) (i : Nat) (tip : List (Commit E)) :
    Option (Todo E) :=
  if tip = [] then none
  else (logRange held cur tip).map (fun r =>
    ⟨i,r.2,lines r.1 tip,tip.drop r.1.length,tip⟩)

def syncPrepare (held : Nat → Bool) (v : Inbox E M) : List (Todo E) :=
  v.git.zipIdx.filterMap (fun x => prepareEpoch (held x.2) (v.last x.2) x.2 x.1)

def unindexLine (s : Sync E M) (c : Rec E) : Sync E M :=
  match c.file with
  | .m => unindexOid t true s c.blob
  | .d => s

def indexRecord (s : Sync E M) (c : Rec E) : Sync E M :=
  match c.file with
  | .m => indexOid t s c.blob
  | .d => unindexOid t false s c.blob

def unindexTodo (s : Sync E M) (unit : Todo E) : Sync E M := unit.unindex.foldl (unindexLine t) s

def indexTodo (s : Sync E M) (unit : Todo E) : Sync E M :=
  unit.stack.foldl (indexRecord t) (unindexTodo t s unit)

def updateLastCommit (last : Nat → List (Commit E)) (unit : Todo E) : Nat → List (Commit E) :=
  if unit.range = [] then last else Function.update last unit.epoch unit.tip

def Sync.start (s : Index E M) : Sync E M := ⟨s,s.mm,fun _ => []⟩

def processTodo (s : Index E M) (todo : List (Todo E)) : Index E M :=
  (todo.foldl (indexTodo t) (Sync.start s)).toIndex

def indexSync (held : Nat → Bool) (v : Inbox E M) : Inbox E M :=
  let todo := syncPrepare held v
  { v with
    toIndex := processTodo t v.toIndex todo
    last := todo.foldl updateLastCommit v.last }

/- log2stack of a reindex, which reads the lines newest first: `{D}` counts removals that no
addition has answered yet. The second list is the stack, newest record first. -/
def log2stack (D : E → Nat) : List (Rec E) → (E → Nat) × List (Rec E)
  | [] => (D,[])
  | c :: cs => match c.file with
    | .d => log2stack (Function.update D c.blob (D c.blob + 1)) cs
    | .m =>
      if 0 < D c.blob then log2stack (Function.update D c.blob (D c.blob - 1)) cs
      else ((log2stack D cs).1,c :: (log2stack D cs).2)

/- A reindex stops at the commits that are indexed. The epochs are taken downwards, with one
`{D}` for all of them. -/
def reindexPrepare (last : Nat → List (Commit E)) :
    Nat → (E → Nat) → List (Todo E) → (E → Nat) × List (Todo E)
  | 0, D, todo => (D,todo)
  | i + 1, D, todo =>
    if last i = [] then reindexPrepare last i D todo
    else
      let stk := log2stack D (lines [] (last i)).reverse
      reindexPrepare last i stk.1 (⟨i,[],stk.2.reverse,last i,last i⟩ :: todo)

def leftovers (last : Nat → List (Commit E)) (epochs : Nat) (D : E → Nat) : List E :=
  (((List.range epochs).flatMap (fun i => (last i).map (·.blob))).dedup).filter (fun b => 0 < D b)

/- index_sync with {reindex}, which runs again without it. The leftovers are unindexed
before msgmap is rolled back for the clone. -/
def reindexSync (held : Nat → Bool) (v : Inbox E M) : Inbox E M :=
  let (D,todo) := reindexPrepare v.last v.git.length (fun _ => 0) []
  let left := (leftovers v.last v.git.length D).foldl (unindexOid t false) (Sync.start v.toIndex)
  let mm := if todo.all (fun unit => unit.stack = []) then left.mm else v.mm
  indexSync t held { v with
    toIndex := processTodo t ⟨mm,left.over⟩ todo
    last := todo.foldl updateLastCommit v.last }

end PublicInbox.V2Writable
