import PublicInbox.Library.Stepwise
import Mathlib.Data.List.Nodup

/-! The prefork mode of xap_helper.h: the parent with its table of workers and the signals that
prefork_loop handles. An access outside of the allocated worker_pids, a pid that is overwritten and
an assertion that fails are recorded as faults; what the C code does after one is undefined. -/
namespace PublicInbox.XapHelper

def workerMax : Nat := 65535

def exNoinput : Nat := 66

inductive Status where
  | exited (code : Nat)
  | signaled (sig : Nat)
  deriving DecidableEq

inductive Signal where
  | term
  | usr1
  deriving DecidableEq

structure Fork where
  pid : Nat → List Nat → Option Nat
  fresh : ∀ nr children new,pid nr children = some new → new ≠ 0 ∧ new ∉ children

inductive Fault where
  | bounds (nr : Nat)
  | overwritten (nr : Nat)
  | assertion (nr : Nat)
  deriving DecidableEq

/- `workerPids` is as long as its allocation, `children` are the processes that waitpid has not
returned, `sent` the signals of kill. -/
structure Parent where
  alive : Bool
  nworker : Nat
  nworkerHwm : Nat
  workerPids : List Nat
  children : List Nat
  sent : List (Nat × Signal)
  faults : List Fault
  ended : Bool
  deriving DecidableEq

namespace Parent

def fault (p : Parent) (f : Fault) : Parent := { p with faults := p.faults ++ [f] }

def read (p : Parent) (nr : Nat) : Parent × Nat :=
  match p.workerPids[nr]? with
  | some pid => (p,pid)
  | none => (p.fault (.bounds nr),0)

def write (p : Parent) (nr pid : Nat) : Parent :=
  if nr < p.workerPids.length then { p with workerPids := p.workerPids.set nr pid } else p.fault (.bounds nr)

def insertPid (p : Parent) (pid nr : Nat) : Parent :=
  let (p,old) := p.read nr
  let p := if old = 0 then p else p.fault (.assertion nr)
  p.write nr pid

def startWorker (p : Parent) (fork : Fork) (nr : Nat) : Parent :=
  match fork.pid nr p.children with
  | none => p
  | some pid => { p with children := pid :: p.children }.insertPid pid nr

def refill (fork : Fork) (p : Parent) (nr : Nat) : Parent :=
  let (p,pid) := p.read nr
  if pid = 0 then p.startWorker fork nr else p

def startWorkers (p : Parent) (fork : Fork) : Parent := (List.range p.nworker).foldl (refill fork) p

def killFrom (p : Parent) (sig : Signal) : Parent :=
  (List.range' p.nworker (p.nworkerHwm - p.nworker)).foldl (fun p nr =>
    let (p,pid) := p.read nr
    if pid = 0 then p else { p with sent := p.sent ++ [(pid,sig)] }) p

def parentReopenLogs (p : Parent) : Parent := p.killFrom .usr1

def clear (p : Parent) (pid : Nat) : List Nat → Parent × Option Nat
  | [] => (p,none)
  | nr :: later =>
    let (p,there) := p.read nr
    if there = pid then (p.write nr 0,some nr) else p.clear pid later

def reapedPreforkWorker (p : Parent) (pid : Nat) (st : Status) (fork : Fork) : Parent :=
  match p.clear pid (List.range p.nworkerHwm) with
  | (p,none) => p
  | (p,some _) =>
    let p := if st = .exited exNoinput then { p with alive := false } else p
    if p.alive then p.startWorkers fork else p

def realloc (p : Parent) (n : Nat) : Parent :=
  { p with workerPids := p.workerPids.take n ++ List.replicate (n - p.workerPids.length) 0 }

def doSigttin (p : Parent) (memory : Bool) (fork : Fork) : Parent :=
  if !p.alive then p
  else if workerMax ≤ p.nworker then p
  else if !memory then p
  else
    let p := p.realloc (p.nworker + 1)
    let p := if (p.workerPids[p.nworker]?).any (· ≠ 0) then p.fault (.overwritten p.nworker) else p
    let p : Parent := { p.write p.nworker 0 with nworker := p.nworker + 1 }
    let p : Parent := { p with nworkerHwm := Nat.max p.nworkerHwm p.nworker }
    p.startWorkers fork

def doSigttou (p : Parent) : Parent :=
  if !p.alive ∨ p.nworker ≤ 1 then p else { p with nworker := p.nworker - 1 }.killFrom .term

def tally (s : Parent × Nat) (nr : Nat) : Parent × Nat :=
  ((s.1.read nr).1,if (s.1.read nr).2 = 0 then s.2 else s.2 + 1)

def livingWorkers (p : Parent) : Parent × Nat := (List.range p.nworkerHwm).foldl tally (p,0)

end Parent

inductive Byte where
  | chld
  | ttou
  | ttin (memory : Bool) (fork : Fork)
  | usr1

inductive Event where
  | turn
  | reaped (pid : Nat) (st : Status) (fork : Fork)
  | byte (b : Byte)

def Parent.handle (p : Parent) : Event → Parent
  | .turn =>
    if p.alive then p
    else
      let (p,nr) := p.livingWorkers
      { p with ended := decide (nr = 0) }
  | .reaped pid st fork =>
    -- waitpid returns nothing but children.
    if pid ∈ p.children then { p with children := p.children.erase pid }.reapedPreforkWorker pid st fork else p
  | .byte .chld => p
  | .byte .ttou => p.doSigttou
  | .byte (.ttin memory fork) => p.doSigttin memory fork
  | .byte .usr1 => p.parentReopenLogs

def step (p : Parent) (e : Event) : Parent := if p.ended then p else p.handle e

structure Turn where
  reaped : List (Nat × Status × Fork)
  bytes : List Byte

def Turn.events (t : Turn) : List Event :=
  .turn :: t.reaped.map (fun (pid,st,fork) => .reaped pid st fork) ++ t.bytes.map .byte

def begin (nworker : Nat) (fork : Fork) : Parent :=
  Parent.startWorkers ⟨true,nworker,nworker,List.replicate nworker 0,[],[],[],false⟩ fork

def preforkLoop (nworker : Nat) (fork : Fork) (turns : List Turn) : Parent :=
  (turns.flatMap Turn.events).foldl step (begin nworker fork)

end PublicInbox.XapHelper
