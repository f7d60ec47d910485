import Mathlib.Data.List.Sort
import Mathlib.Data.List.Perm.Basic
import Mathlib.Data.List.Range

/-! Timers of DS.pm. Callbacks and the objects of the next tick are any code, which may add timers and call RunTimers. -/
namespace PublicInbox.DS

structure Timer (T : Type) where
  fireTime : T
  name : Option String
  serial : Nat

/- Where a RunTimers is that has not returned: in next_tick, in its loop with its $now, or in a callback that the loop calls -/
inductive Frame (T : Type) where
  | nextTick
  | loop (now : T)
  | callback (now : T)

/- Beside @Timers and %UniqTimer: CLOCK_MONOTONIC, the calls, how many timers were made, and when which were run -/
structure State (T : Type) where
  timers : List (Timer T)
  uniqTimer : String → Option (Timer T)
  clock : T
  stack : List (Frame T)
  made : Nat
  fired : List (Timer T × T)

def start {T : Type} (clock : T) : State T := ⟨[],fun _ => none,clock,[],0,[]⟩

inductive Act (T D : Type) where
  | passes (clock : T)
  | addTimer (secs : D)
  | addUniqTimer (name : String) (secs : D)
  | runTimers
  | ticked
  | expire
  | ran
  | done
  | unwind

inductive Stop where
  | blocked
  | dies (msg : String)
  deriving DecidableEq

section
variable {T D : Type} [LinearOrder T]

def splice (timer : Timer T) : List (Timer T) → Except Stop (List (Timer T))
  | [] => .error (.dies "Shouldn't get here.")
  | x :: xs => if timer.fireTime < x.fireTime then .ok (timer :: x :: xs) else (splice timer xs).map (x :: ·)

def insertion (timer : Timer T) (timers : List (Timer T)) : Except Stop (List (Timer T)) :=
  match timers.getLast? with
  | none => .ok (timers ++ [timer])
  | some last => if last.fireTime ≤ timer.fireTime then .ok (timers ++ [timer]) else splice timer timers

variable (plus : T → D → T)

def addNamedTimer (name : Option String) (secs : D) (s : State T) : Except Stop (Timer T × State T) :=
  let timer : Timer T := ⟨plus s.clock secs,name,s.made⟩
  (insertion timer s.timers).map fun timers => (timer,{ s with timers := timers, made := s.made + 1 })

def addTimer (secs : D) (s : State T) : Except Stop (Timer T × State T) := addNamedTimer plus none secs s

def addUniqTimer (name : String) (secs : D) (s : State T) : Except Stop (Timer T × State T) :=
  match s.uniqTimer name with
  | some timer => .ok (timer,s)
  | none => (addNamedTimer plus (some name) secs s).map fun (timer,s) =>
      (timer,{ s with uniqTimer := fun n => if n = name then some timer else s.uniqTimer n })

def fire (s : State T) (toRun : Timer T) (rest : List (Timer T)) (now : T) (up : List (Frame T)) : State T :=
  { s with
      timers := rest
      uniqTimer := fun n => if n = toRun.name.getD "" then none else s.uniqTimer n
      stack := .callback now :: up
      fired := (toRun,s.clock) :: s.fired }

def State.calls (s : State T) : Bool :=
  match s.stack with
  | .loop _ :: _ => false
  | _ => true

def step (s : State T) : Act T D → Except Stop (State T)
  | .passes clock => if s.clock ≤ clock then .ok { s with clock := clock } else .error .blocked
  | .addTimer secs => if s.calls then (addTimer plus secs s).map Prod.snd else .error .blocked
  | .addUniqTimer name secs => if s.calls then (addUniqTimer plus name secs s).map Prod.snd else .error .blocked
  | .runTimers => if s.calls then .ok { s with stack := .nextTick :: s.stack } else .error .blocked
  | .ticked =>
    match s.stack with
    | .nextTick :: up => if s.timers.isEmpty then .ok { s with stack := up } else .ok { s with stack := .loop s.clock :: up }
    | _ => .error .blocked
  | .expire =>
    match s.stack,s.timers with
    | .loop now :: up,toRun :: rest => if toRun.fireTime ≤ now then .ok (fire s toRun rest now up) else .error .blocked
    | _,_ => .error .blocked
  | .ran =>
    match s.stack with
    | .callback now :: up => .ok { s with stack := .loop now :: up }
    | _ => .error .blocked
  | .done =>
    match s.stack,s.timers with
    | .loop _ :: up,[] => .ok { s with stack := up }
    | .loop now :: up,toRun :: _ => if toRun.fireTime ≤ now then .error .blocked else .ok { s with stack := up }
    | _,_ => .error .blocked
  | .unwind => .ok { s with stack := s.stack.tail }

def run (s : State T) : List (Act T D) → Except Stop (State T)
  | [] => .ok s
  | a :: as => (step plus s a).bind fun s => run s as

end

end PublicInbox.DS
