import PublicInbox.Library.Bands

/-! SearchIdx.pm: a shard that is indexed through temporary databases (--split-shards), from idx_acquire to the join in
idx_release. A single database is the same code without a {-doc_max}. -/
namespace PublicInbox.SearchIdx.Splits
open Keyed

structure Xdb (D : Type) where
  docs : Table Nat D
  lastdocid : Nat
  bounded : ∀ k ∈ docs.keys,k ≤ lastdocid

def shardSplitAt : Nat := 100000

/- `docMax` is 0 where {-doc_max} is not set; `splitAt` is $n; `tmps` are the $shard.$off.tmp directories and `xdbTmp` those
that are open. -/
structure Shard (D : Type) where
  xdb : Table Nat D
  docMax : Nat
  splitAt : Nat
  tmps : Table Nat (Table Nat D)
  xdbTmp : List Nat
  splitsDirty : Bool

inductive Died where
  | failedOpening (off : Nat)
  deriving DecidableEq

section
variable {D : Type}

def idxAcquire (xdb : Xdb D) (splitAt : Option Nat) : Shard D where
  xdb := xdb.docs
  docMax := if xdb.lastdocid = 0 then splitAt.getD shardSplitAt else xdb.lastdocid
  splitAt := if splitAt.getD 0 = 0 then shardSplitAt else splitAt.getD 0
  tmps := .empty
  xdbTmp := []
  splitsDirty := false

def single (xdb : Xdb D) : Shard D := ⟨xdb.docs,0,shardSplitAt,.empty,[],false⟩

variable (self : Shard D)

def Shard.beyond (docid : Nat) : Bool := self.docMax != 0 && self.docMax < docid

def Shard.off (docid : Nat) : Nat := docid / self.splitAt

def xdbTmpNew (off : Nat) : Shard D :=
  { self with
    tmps := if (self.tmps.get? off).isSome then self.tmps else self.tmps.insert off .empty
    xdbTmp := off :: self.xdbTmp }

def xdbTmpGet (off : Nat) : Except Died (Shard D) :=
  if self.xdbTmp.contains off then .ok self
  else if (self.tmps.get? off).isSome then .ok { self with xdbTmp := off :: self.xdbTmp }
  else .error (.failedOpening off)

def replaceDoc (docid : Nat) (doc : D) : Shard D :=
  if self.beyond docid then
    let off := self.off docid
    let self := if self.xdbTmp.contains off then self else xdbTmpNew self off
    { self with tmps := self.tmps.update off fun docs => docs.insert docid doc }
  else { self with xdb := self.xdb.insert docid doc }

def getDoc (docid : Nat) : Shard D × Except Died (Option D) :=
  if self.beyond docid then
    match xdbTmpGet self (self.off docid) with
    | .ok self => (self,.ok ((self.tmps.get? (self.off docid)).bind (·.get? docid)))
    | .error err => (self,.error err)
  else (self,.ok (self.xdb.get? docid))

def deleteDocument (docs : Table Nat D) (docid : Nat) : Table Nat D × List Nat :=
  if (docs.get? docid).isSome then (docs.erase docid,[]) else (docs,[docid])

def removeTmp : Shard D → List Nat → Shard D × Except Died (List Nat)
  | self,[] => (self,.ok [])
  | self,docid :: docids =>
    match xdbTmpGet self (self.off docid) with
    | .error err => (self,.error err)
    | .ok self =>
      let deleted := deleteDocument ((self.tmps.get? (self.off docid)).getD .empty) docid
      let rest := removeTmp { self with tmps := self.tmps.update (self.off docid) fun _ => deleted.1 } docids
      (rest.1,rest.2.map (deleted.2 ++ ·))

def removeXdb : Table Nat D → List Nat → Table Nat D × List Nat
  | docs,[] => (docs,[])
  | docs,docid :: docids =>
    let deleted := deleteDocument docs docid
    let rest := removeXdb deleted.1 docids
    (rest.1,deleted.2 ++ rest.2)

def xdbRemove (docids : List Nat) : Shard D × Except Died (List Nat) :=
  match removeTmp self (docids.filter fun docid => self.beyond docid) with
  | (self,.error err) => (self,.error err)
  | (self,.ok warn) =>
    let rest := removeXdb self.xdb (docids.filter fun docid => !self.beyond docid)
    ({ self with xdb := rest.1 },.ok (warn ++ rest.2))

def commitTxnLazy : Shard D := { self with xdbTmp := [], splitsDirty := self.splitsDirty || !self.xdbTmp.isEmpty }

def joinSplits (compact : List (Table Nat D) → Option (Table Nat D)) : Option (Table Nat D) :=
  if self.tmps.rows.isEmpty then some self.xdb else compact (self.xdb :: self.tmps.rows.map Prod.snd)

def idxRelease (compact : List (Table Nat D) → Option (Table Nat D)) : Option (Table Nat D) :=
  if !self.xdbTmp.isEmpty then none else if self.splitsDirty then joinSplits self compact else some self.xdb

inductive Op (D : Type) where
  | replace (docid : Nat) (doc : D)
  | lookup (docid : Nat)
  | remove (docids : List Nat)
  | commit

inductive Out (D : Type) where
  | done
  | doc (found : Option D)
  | removed (warn : List Nat)

def step : Op D → Shard D × Except Died (Out D)
  | .replace docid doc => (replaceDoc self docid doc,.ok .done)
  | .lookup docid => ((getDoc self docid).1,(getDoc self docid).2.map .doc)
  | .remove docids => ((xdbRemove self docids).1,(xdbRemove self docids).2.map .removed)
  | .commit => (commitTxnLazy self,.ok .done)

def run : Shard D → List (Op D) → Shard D × List (Except Died (Out D))
  | self,[] => (self,[])
  | self,op :: ops => ((run (step self op).1 ops).1,(step self op).2 :: (run (step self op).1 ops).2)

end

end PublicInbox.SearchIdx.Splits
