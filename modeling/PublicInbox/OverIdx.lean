import Mathlib.Data.Int.Order.Basic
import PublicInbox.Library.Table
import PublicInbox.Library.Paging
import PublicInbox.Mid

/-! OverIdx.pm: over.sqlite3 as the indexer writes it. A real message has a positive number,
a ghost (a message only referenced) a negative one. The msgid table gives each Message-ID
one id for ever, so id2num is kept here by number and Message-ID; `cols` stands for the
columns a ghost leaves NULL (sid, ts, ds, ddd). The ghost counter is kept as the count of
ghosts made, its value in the table being the negated count. -/
namespace PublicInbox
open Keyed

structure Row (δ : Type) where
  tid : Nat
  cols : Option δ

structure OverIdx (δ : Type) where
  «over» : Table Int (Row δ)
  id2num : Table Int (List Mid)
  thread : Nat
  ghosts : Nat
  minTid : Nat

/- What add_over is given of a message: its article number, `mids_for_index`, the Message-ID
chosen for it and `references` of its header. -/
structure Mail where
  num : Int
  positive : 0 < num
  mids : List Mid
  distinct : mids.Nodup
  mid : Mid
  own : mid ∈ mids
  refs : List Mid

def Mail.references (x : Mail) : List Mid := parseReferences x.mid x.refs x.mids

namespace OverIdx
variable {δ : Type}

def empty : OverIdx δ := ⟨.empty,.empty,0,0,0⟩

def tidOf (s : OverIdx δ) (num : Int) : Option Nat := (s.over.get? num).map Row.tid

def numsOf (s : OverIdx δ) (mid : Mid) : List Int := s.id2num.keysWhere (fun _ mids => mid ∈ mids)

def nextTid (s : OverIdx δ) : OverIdx δ × Nat := ({ s with thread := s.thread + 1 },s.thread + 1)

def nextGhostNum (s : OverIdx δ) : OverIdx δ × Int :=
  ({ s with ghosts := s.ghosts + 1 },-(s.ghosts + 1))

def deleteByNum (s : OverIdx δ) (num : Int) : OverIdx δ :=
  { s with «over» := s.over.erase num, id2num := s.id2num.erase num }

def mergeThreads (s : OverIdx δ) (winner loser : Nat) : OverIdx δ :=
  if winner = loser then s
  else { s with «over» := s.over.map (fun _ r => if r.tid = loser then { r with tid := winner } else r) }

def setTid (s : OverIdx δ) (num : Int) (tid : Nat) : OverIdx δ :=
  { s with «over» := s.over.map (fun n r => if n = num then { r with tid := tid } else r) }

def link (s : OverIdx δ) (num : Int) (mid : Mid) : OverIdx δ :=
  { s with id2num := s.id2num.insert num ((s.id2num.get? num).getD [] ++ [mid]) }

def insertRow (s : OverIdx δ) (num : Int) (row : Row δ) : OverIdx δ :=
  { s with «over» := s.over.insert num row }

def eachRow {σ : Type} (cb : Int → Row δ → OverIdx δ × σ → (OverIdx δ × σ) × Bool)
    (num : Int) (st : OverIdx δ × σ) : (OverIdx δ × σ) × Bool :=
  match st.1.over.get? num with
  | none => (st,true)
  | some row => cb num row st

def eachByMid {σ : Type} (mid : Mid)
    (cb : Int → Row δ → OverIdx δ × σ → (OverIdx δ × σ) × Bool) (st : OverIdx δ × σ) : OverIdx δ × σ :=
  Paging.pages (fun st => st.1.numsOf mid) (eachRow cb) 10
    ((st.1.numsOf mid).length + 1) (-st.1.ghosts) st

structure Resolving where
  tid : Option Nat
  ghostsToDelete : List Int

def resolveRow (num : Int) (row : Row δ) (st : OverIdx δ × Resolving) :
    (OverIdx δ × Resolving) × Bool :=
  let (s,r) := st
  match r.tid with
  | some tid => ((s.mergeThreads tid row.tid,r),true)
  | none =>
    if s.minTid < row.tid then ((s,{ r with tid := some row.tid }),true)
    else
      let (s,tid) := s.nextTid
      if 0 < num then ((s.setTid num tid,{ r with tid := some tid }),true)
      else if num < 0 then ((s,⟨some tid,r.ghostsToDelete ++ [num]⟩),true)
      else ((s,{ r with tid := some tid }),true)

def createGhost (s : OverIdx δ) (mid : Mid) : OverIdx δ × Nat :=
  let (s,num) := s.nextGhostNum
  let (s,tid) := s.nextTid
  ((s.insertRow num ⟨tid,none⟩).link num mid,tid)

def resolveMidToTid (s : OverIdx δ) (mid : Mid) : OverIdx δ × Nat :=
  let (s,r) := eachByMid mid resolveRow (s,⟨none,[]⟩)
  let s := r.ghostsToDelete.foldl deleteByNum s
  match r.tid with
  | some tid => (s,tid)
  | none => s.createGhost mid

def linkRefs (s : OverIdx δ) (refs : List Mid) (oldTid : Option Nat) : OverIdx δ × Nat :=
  match refs with
  | [] => match oldTid with
    | some tid => (s,tid)
    | none => s.nextTid
  | ref :: rest =>
    let (s,tid) := s.resolveMidToTid ref
    let s := match oldTid with
      | some old => s.mergeThreads tid old
      | none => s
    (rest.foldl (fun s ref =>
      let (s,ptid) := s.resolveMidToTid ref
      s.mergeThreads tid ptid) s,tid)

structure Adding where
  oldTid : Option Nat
  vivified : Nat

def addOverRow (refs : List Mid) (num : Int) (row : Row δ) (st : OverIdx δ × Adding) :
    (OverIdx δ × Adding) × Bool :=
  let (s,a) := st
  let curValid := s.minTid < row.tid
  if 0 < num then
    if curValid then
      let old := a.oldTid.getD row.tid
      ((s.mergeThreads old row.tid,{ a with oldTid := some old }),true)
    else match a.oldTid with
      | some _ => (st,true)
      | none =>
        let (s,tid) := s.nextTid
        ((s,{ a with oldTid := some tid }),true)
  else if num < 0 then
    let (s,old) := match a.oldTid with
      | some old => (s,old)
      | none => if curValid then (s,row.tid) else s.nextTid
    let (s,old) := s.linkRefs refs (some old)
    ((s.deleteByNum num,⟨some old,a.vivified + 1⟩),true)
  else (st,true)

def addOver (s : OverIdx δ) (x : Mail) (cols : δ) : OverIdx δ :=
  let oldTid := (s.tidOf x.num).filter (fun tid => s.minTid < tid)
  let (s,a) := x.mids.foldl (fun st mid => eachByMid mid (addOverRow x.references) st)
    (s.deleteByNum x.num,⟨oldTid,0⟩)
  let (s,tid) := if a.vivified = 0 then s.linkRefs x.references a.oldTid
    else match a.oldTid with
      | some tid => (s,tid)
      | none => s.nextTid
  x.mids.foldl (fun s mid => s.link x.num mid) (s.insertRow x.num ⟨tid,some cols⟩)

def rethreadPrepare (s : OverIdx δ) : OverIdx δ := { s with minTid := s.thread }

end OverIdx
end PublicInbox
