import PublicInbox.Library.Fifo
import PublicInbox.Library.Interference
import PublicInbox.Library.Txn

/-! V2Writable.pm beside its Xapian shard workers. Each operation is a program of steps that
are atomic to the workers and to a crash; a crash keeps the stored half of the databases and
what the shards have committed. Commits of an epoch are numbered from 1. -/
namespace PublicInbox.Checkpoint
open Fifo

structure Config where
  shards : Nat
  some : 0 < shards
  parallel : Bool

structure Commit where
  epoch : Nat
  nr : Nat
  deriving DecidableEq, Repr

inductive Sub where
  | addXapian
  | xdbRemove
  deriving DecidableEq, Repr

structure Work where
  sub : Sub
  num : Nat
  cmt : Commit
  deriving DecidableEq, Repr

/- `active` is {idx_shards} and {mm}, `im` whether git-fast-import runs, `made` counts its
commits before the repository shows them. `over` lists the commits whose rows were written.
`works` remembers what the shards were asked to do for a commit. -/
structure State where
  shard : Nat → Worker Work
  active : Bool
  im : Bool
  epochMax : Option Nat
  maxGitEpoch : Option Nat
  made : Nat → Nat
  head : Nat → Nat
  lastCommit : Nat → Option Nat
  mm : Txn (Nat → Option Nat)
  «over» : Txn (List Commit)
  works : Commit → Option (List Work)

def set {β : Type} (f : Nat → β) (k : Nat) (v : β) : Nat → β := fun j => if j = k then v else f j

def State.init : State where
  shard := fun _ => Worker.idle
  active := false
  im := false
  epochMax := none
  maxGitEpoch := none
  made := fun _ => 0
  head := fun _ => 0
  lastCommit := fun _ => none
  mm := ⟨fun _ => none,fun _ => none⟩
  «over» := ⟨[],[]⟩
  works := fun _ => none

inductive Micro where
  | idxInit
  | close
  | openEpoch (e : Nat)
  | imBarrier
  | imDone
  | gitCommit (e : Nat) (ws : List Work)
  | setLast (e nr : Nat)
  | overview (c : Commit) (ws : List Work)
  | ipcDo (k : Nat) (r : Request Work)
  | ipcWaitAll (k : Nat)
  | mmCommit
  | mmRollback
  | overCommit
  | setLastCommits (epochMax : Option Nat)
  | lastEpochCommit (e nr : Nat)
  | epochMaxIs (e : Option Nat)
  | fetch (e nr : Nat)

def recordWorks (works : Commit → Option (List Work)) (c : Commit) (ws : List Work) :
    Commit → Option (List Work) :=
  fun d => if d = c then some ((works c).getD [] ++ ws) else works d

section
variable (cfg : Config)

def ipcDo (k : Nat) (r : Request Work) (s : State) : State :=
  { s with shard := set s.shard k (if cfg.parallel then (s.shard k).push r else (s.shard k).run r) }

def setLastCommits (epochMax : Option Nat) (s : State) : State := match epochMax with
  | none => s
  | some m => { s with
    mm := s.mm.write (fun xap e => if e ≤ m then (s.lastCommit e).or (xap e) else xap e)
    lastCommit := fun e => if e ≤ m then none else s.lastCommit e }

def Micro.exec (s : State) : Micro → Option State
  | idxInit => some { s with active := true }
  | close => some { s with active := false }
  | openEpoch e => some { s with
      im := true
      epochMax := some e
      maxGitEpoch := some (max e (s.maxGitEpoch.getD 0)) }
  | imBarrier => some { s with head := if s.im then s.made else s.head }
  | imDone => some { s with head := if s.im then s.made else s.head, im := false }
  | gitCommit e ws => some { s with
      made := set s.made e (s.made e + 1)
      works := recordWorks s.works ⟨e,s.made e + 1⟩ ws }
  | setLast e nr => some { s with lastCommit := set s.lastCommit e (some nr) }
  | overview c ws => some { s with
      «over» := s.over.write (c :: ·)
      works := recordWorks s.works c ws }
  | ipcDo k r => some (Checkpoint.ipcDo cfg k r s)
  | ipcWaitAll k => if (s.shard k).queue = [] then some s else none
  | mmCommit => some { s with mm := s.mm.commit }
  | mmRollback => some { s with mm := s.mm.rollback }
  | overCommit => some { s with «over» := s.over.commit }
  | setLastCommits m => some (Checkpoint.setLastCommits m s)
  | lastEpochCommit e nr => some { s with mm := s.mm.write (fun xap => set xap e (some nr)) }
  | epochMaxIs e => some { s with epochMax := e }
  | fetch e nr => some { s with
      made := set s.made e (s.made e + nr)
      head := set s.head e (s.head e + nr)
      maxGitEpoch := some (max e (s.maxGitEpoch.getD 0)) }

def shardNrs : List Nat := List.range cfg.shards

def checkpoint (active : Bool) (epochMax : Option Nat) (wait : Bool) : List Micro :=
  .imBarrier :: if active then
    [.mmCommit,.overCommit] ++
    (shardNrs cfg).map (fun k => .ipcDo k .flush) ++
    (if wait && cfg.parallel then (shardNrs cfg).map .ipcWaitAll else []) ++
    [.setLastCommits epochMax,.mmCommit]
  else []

def done (active : Bool) (epochMax : Option Nat) : List Micro :=
  .imDone :: checkpoint cfg active epochMax false ++ if active then
    .mmCommit :: (shardNrs cfg).map (fun k => .ipcDo k .nop) ++
    (if cfg.parallel then (shardNrs cfg).map .ipcWaitAll else []) ++ [.close]
  else []

/- The epoch that importer writes to, and what it does to get there. `big`: no space left. -/
def importer (s : State) (big : Bool) : Nat × List Micro :=
  match s.im, s.epochMax with
  | true, some e =>
    if big then (e + 1,.imDone :: checkpoint cfg true (some e) false ++ [.openEpoch (e + 1)])
    else (e,[])
  | _, _ => match s.maxGitEpoch with
    | some g => if big then (g + 1,[.openEpoch (g + 1)]) else (g,[.openEpoch g])
    | none => (0,[.openEpoch 0])

def send (w : Work) : Micro := .ipcDo (w.num % cfg.shards) (.work w)

def add (s : State) (num : Option Nat) (big : Bool) : List Micro := match num with
  | none => [.idxInit]
  | some n =>
    let (e,pre) := importer cfg s big
    let w : Work := ⟨.addXapian,n,⟨e,s.made e + 1⟩⟩
    .idxInit :: pre ++ [.gitCommit e [w],.setLast e (s.made e + 1),.overview w.cmt [],send cfg w]

def removals (e : Nat) : Nat → List (List Nat) → List Micro
  | _, [] => []
  | nr, nums :: more =>
    let ws := nums.map (fun n => (⟨.xdbRemove,n,⟨e,nr⟩⟩ : Work))
    .gitCommit e ws :: ws.map (send cfg) ++ removals e (nr + 1) more

def remove (s : State) (found : List (List Nat)) (big : Bool) : List Micro :=
  let (e,pre) := importer cfg s big
  .idxInit :: pre ++ removals cfg e (s.made e + 1) found ++
    if found = [] then [] else [.setLast e (s.made e + found.length)]

def range (s : State) (e : Nat) : List Commit :=
  let last := (s.mm.shown e).getD 0
  (List.range' (last + 1) (s.head e - last)).map (fun nr => ⟨e,nr⟩)

/- What the commits of a fetched epoch ask for is not known before they are read; `stop` says
behind which of them reindex_checkpoint runs. -/
def indexTodo (max : Option Nat) (asks : Commit → List (Sub × Nat)) (stop : Commit → Bool)
    (cmts : List Commit) : List Micro :=
  cmts.flatMap (fun c =>
    let ws := (asks c).map (fun a => (⟨a.1,a.2,c⟩ : Work))
    .overview c ws :: ws.map (send cfg) ++
      if stop c then .lastEpochCommit c.epoch c.nr :: done cfg true max ++ [.idxInit] else [])

def indexUnit (s : State) (max : Option Nat) (asks : Commit → List (Sub × Nat))
    (stop : Commit → Bool) (e : Nat) : List Micro :=
  indexTodo cfg max asks stop (range s e) ++
    if range s e = [] then [] else [.lastEpochCommit e (s.head e)]

def indexSync (s : State) (asks : Commit → List (Sub × Nat)) (stop : Commit → Bool) : List Micro :=
  match s.maxGitEpoch with
  | none => []
  | some m =>
    let epochs := List.range (m + 1)
    [.idxInit,.epochMaxIs (some m)] ++
    (if epochs.all (fun e => range s e = []) then [] else [.mmRollback]) ++
    epochs.flatMap (indexUnit cfg s (some m) asks stop) ++
    done cfg true (some m) ++ [.epochMaxIs s.epochMax]

inductive Op where
  | add (num : Option Nat) (big : Bool)
  | remove (found : List (List Nat)) (big : Bool)
  | checkpoint (wait : Bool)
  | done
  | indexSync (asks : Commit → List (Sub × Nat)) (stop : Commit → Bool)
  | fetch (e nr : Nat)

def program (o : Op) (s : State) : List Micro := match o with
  | .add num big => add cfg s num big
  | .remove found big => remove cfg s found big
  | .checkpoint wait => checkpoint cfg s.active s.epochMax wait
  | .done => done cfg s.active s.epochMax
  | .indexSync asks stop => indexSync cfg s asks (fun c => stop c && !s.im)
  | .fetch e nr => if s.im then [] else [.fetch e nr]

def Works (s t : State) : Prop :=
  ∃ k w, (s.shard k).take = some w ∧ t = { s with shard := set s.shard k w }

def Covered (s : State) (e nr : Nat) : Prop :=
  ∀ n, 1 ≤ n → n ≤ nr → ∃ ws, s.works ⟨e,n⟩ = some ws ∧
    ∀ w ∈ ws, w ∈ (s.shard (w.num % cfg.shards)).done

def Truthful (s : State) : Prop := ∀ e nr, s.mm.stored e = some nr → Covered cfg s e nr

def system : Interference.System Micro State where
  exec := fun m s t => m.exec cfg s = some t
  env := Works
  safe := Truthful cfg
  Op := Op
  program := program cfg
  start := State.init

end

end PublicInbox.Checkpoint
