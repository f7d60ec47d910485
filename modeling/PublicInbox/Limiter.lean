import Mathlib.Data.List.Count
import Mathlib.Data.List.Perm.Basic
import PublicInbox.Library.Stepwise

/-! Limiter.pm: how many commands run at a time, and the queue of the others. Its callbacks run inside of it and may
come back to it, so a state has the calls that are not over yet. A fail_cb is taken to return. -/
namespace PublicInbox.Limiter

inductive Failure where
  | internalError
  | tooBusy
  | disconnected
  deriving DecidableEq

def Failure.args : Failure → Nat × String
  | internalError => (500,"internal error")
  | tooBusy => (503,"too busy")
  | disconnected => (499,"client disconnected")

structure Self (R : Type) where
  max : Nat
  depth : Option Nat
  running : Nat
  runQueue : List R
  deriving DecidableEq

/- A callback that control is in. _start_next goes on behind the one of a client that is gone. -/
inductive Frame (R : Type) where
  | starting (ctx : R)
  | failing (why : Failure) (ctx : R)
  deriving DecidableEq

structure Log (R : Type) where
  submitted : List R
  started : List R
  failed : List (Failure × R)
  queued : List R
  shifted : List R
  resumed : List R
  deriving DecidableEq

structure World (R : Type) where
  limiter : Self R
  guards : List R
  frames : List (Frame R)
  log : Log R
  deriving DecidableEq

/- A call of may_start; the end of a context with its {limiter.next}; the end of the callback that control is in, where
a start_cb may have died. `gone` is what {pi-httpd.ckhup} says of the next request. -/
inductive Event (R : Type) where
  | submit (ctx : R)
  | finish (ctx : R) (gone : Bool)
  | back (died gone : Bool)

section
variable {R : Type} [DecidableEq R]

def World.start (max : Nat) (depth : Option Nat) : World R := ⟨⟨max,depth,0,[]⟩,[],[],⟨[],[],[],[],[],[]⟩⟩

def Self.depthOr (l : Self R) : Nat := l.depth.getD 32

variable (w : World R)

def doStart (ctx : R) : World R :=
  { limiter := { w.limiter with running := w.limiter.running + 1 }
    guards := ctx :: w.guards
    frames := .starting ctx :: w.frames
    log := { w.log with started := w.log.started ++ [ctx] } }

def fail (why : Failure) (ctx : R) : World R :=
  { w with
    frames := .failing why ctx :: w.frames
    log := { w.log with failed := w.log.failed ++ [(why,ctx)] } }

def mayStart (ctx : R) : World R :=
  let w := { w with log := { w.log with submitted := w.log.submitted ++ [ctx] } }
  if w.limiter.running < w.limiter.max then doStart w ctx
  else if w.limiter.runQueue.length > w.limiter.depthOr then fail w .tooBusy ctx
  else
    { w with
      limiter := { w.limiter with runQueue := w.limiter.runQueue ++ [ctx] }
      log := { w.log with queued := w.log.queued ++ [ctx] } }

def shiftQueue (gone : Bool) : World R :=
  match w.limiter.runQueue with
  | [] => w
  | ctx :: queue =>
    let w := { w with
      limiter := { w.limiter with runQueue := queue }
      log := { w.log with shifted := w.log.shifted ++ [ctx] } }
    if gone then fail w .disconnected ctx
    else doStart { w with log := { w.log with resumed := w.log.resumed ++ [ctx] } } ctx

def startNext (gone : Bool) : World R := shiftQueue { w with limiter := { w.limiter with running := w.limiter.running - 1 } } gone

def back (died gone : Bool) : World R :=
  match w.frames with
  | [] => w
  | .starting ctx :: frames => if died then fail { w with frames := frames } .internalError ctx else { w with frames := frames }
  | .failing .disconnected _ :: frames => shiftQueue { w with frames := frames } gone
  | .failing _ _ :: frames => { w with frames := frames }

def step (w : World R) : Event R → World R
  | .submit ctx => mayStart w ctx
  | .finish ctx gone => if ctx ∈ w.guards then startNext { w with guards := w.guards.erase ctx } gone else w
  | .back died gone => back w died gone

end

def Frame.skips {R : Type} : Frame R → Bool
  | .failing .disconnected _ => true
  | _ => false

def World.pending {R : Type} (w : World R) : Nat := w.frames.countP Frame.skips

def Log.refused {R : Type} (log : Log R) : List R :=
  (log.failed.filter fun f => f.1 ≠ .internalError).map Prod.snd

structure Limits {R : Type} (w : World R) : Prop where
  running : w.limiter.running = w.guards.length ∧ w.guards.length ≤ w.limiter.max
  drained : w.pending = 0 → w.limiter.running < w.limiter.max → w.limiter.runQueue = []
  short : w.limiter.runQueue.length ≤ w.limiter.depthOr
  once : w.log.submitted.Perm (w.log.started ++ w.log.refused ++ w.limiter.runQueue)
  fifo : w.log.queued = w.log.shifted ++ w.limiter.runQueue
  order : w.log.resumed.Sublist w.log.shifted ∧ w.log.resumed.Sublist w.log.started

/- The queue is not one request away from being too long, and no request has been started in the fail_cb of a client that
is gone so that _start_next comes back to a full limiter. -/
def Fits {R : Type} (w : World R) : Event R → Prop
  | .submit _ => w.limiter.running < w.limiter.max ∨ w.limiter.runQueue.length ≠ w.limiter.depthOr
  | .finish _ _ => True
  | .back _ gone => w.limiter.running < w.limiter.max ∨ w.frames.head?.any Frame.skips = false ∨ w.limiter.runQueue = [] ∨ gone = true

structure Inv {R : Type} (w : World R) : Prop where
  running : w.limiter.running = w.guards.length ∧ w.guards.length ≤ w.limiter.max
  drained : w.limiter.running + w.pending < w.limiter.max → w.limiter.runQueue = []
  short : w.limiter.runQueue.length ≤ w.limiter.depthOr
  once : w.log.submitted.Perm (w.log.started ++ w.log.refused ++ w.limiter.runQueue)
  fifo : w.log.queued = w.log.shifted ++ w.limiter.runQueue
  order : w.log.resumed.Sublist w.log.shifted ∧ w.log.resumed.Sublist w.log.started

structure Ready {R : Type} (w : World R) : Prop where
  running : w.limiter.running = w.guards.length ∧ w.guards.length ≤ w.limiter.max
  drained : w.limiter.running + w.pending + 1 < w.limiter.max → w.limiter.runQueue = []
  short : w.limiter.runQueue.length ≤ w.limiter.depthOr
  once : w.log.submitted.Perm (w.log.started ++ w.log.refused ++ w.limiter.runQueue)
  fifo : w.log.queued = w.log.shifted ++ w.limiter.runQueue
  order : w.log.resumed.Sublist w.log.shifted ∧ w.log.resumed.Sublist w.log.started

section
variable {R : Type} {w : World R}

theorem Inv.limits (inv : Inv w) : Limits w :=
  { running := inv.running
    drained := fun idle below => inv.drained (by rw [idle]; exact below)
    short := inv.short
    once := inv.once
    fifo := inv.fifo
    order := inv.order }

theorem refusedAppend (failed : List (Failure × R)) (why : Failure) (ctx : R) :
    ((failed ++ [(why,ctx)]).filter fun f => f.1 ≠ .internalError).map Prod.snd =
      ((failed.filter fun f => f.1 ≠ .internalError).map Prod.snd) ++ if why = .internalError then [] else [ctx] := by
  simp only [List.filter_append,List.map_append]
  congr 1
  cases why <;> rfl

theorem pendingCons (frame : Frame R) (frames : List (Frame R)) : (frame :: frames).countP Frame.skips =
    frames.countP Frame.skips + if frame.skips = true then 1 else 0 := List.countP_cons

variable [DecidableEq R]

theorem once {a b c d a' b' c' d' : List R} (before : a.Perm (b ++ c ++ d))
    (moved : ∀ x,a'.count x + (b.count x + c.count x + d.count x) = a.count x + (b'.count x + c'.count x + d'.count x)) :
    a'.Perm (b' ++ c' ++ d') := by
  refine List.perm_iff_count.mpr fun x => ?_
  have counts := List.perm_iff_count.mp before x
  have same := moved x
  simp only [List.count_append] at counts ⊢
  omega

omit [DecidableEq R] in
theorem startInv (max : Nat) (depth : Option Nat) : Inv (World.start max depth : World R) :=
  ⟨⟨rfl,Nat.zero_le _⟩,fun _ => rfl,Nat.zero_le _,.refl _,rfl,.slnil,.slnil⟩

theorem submitInv (inv : Inv w) {ctx : R} (fits : Fits w (.submit ctx)) : Inv (mayStart w ctx) := by
  obtain ⟨same,most⟩ := inv.running
  unfold mayStart
  simp only
  split
  · rename_i free
    exact
      { running := ⟨congrArg (· + 1) same,by simp only [doStart,List.length_cons]; omega⟩
        drained := fun below => inv.drained (by simp only [doStart,World.pending,pendingCons,Frame.skips] at below ⊢; omega)
        short := inv.short
        once := once inv.once fun x => by simp only [doStart,Log.refused,List.count_append]; omega
        fifo := inv.fifo
        order := inv.order.imp_right fun part => part.trans (List.sublist_append_left _ _) }
  · rename_i full
    split
    · exact
        { running := inv.running
          drained := fun below => inv.drained (by simp only [fail,World.pending,pendingCons,Frame.skips] at below ⊢; omega)
          short := inv.short
          once := once inv.once fun x => by
            simp only [fail,Log.refused,refusedAppend,reduceCtorEq,if_false,List.count_append]
            omega
          fifo := inv.fifo
          order := inv.order }
    · rename_i room
      have shorter : w.limiter.runQueue.length ≠ w.limiter.depthOr := fits.resolve_left full
      exact
        { running := inv.running
          drained := fun below => absurd below (by simp only [World.pending]; omega)
          short := by
            have at' := inv.short
            rw [List.length_append,List.length_singleton]
            exact Nat.lt_of_le_of_ne at' shorter
          once := once inv.once fun x => by simp only [Log.refused,List.count_append]; omega
          fifo := by simp only [inv.fifo,List.append_assoc]
          order := inv.order }

theorem shiftInv (ready : Ready w) {gone : Bool}
    (fits : w.limiter.running < w.limiter.max ∨ w.limiter.runQueue = [] ∨ gone = true) : Inv (shiftQueue w gone) := by
  obtain ⟨same,most⟩ := ready.running
  unfold shiftQueue
  split
  · rename_i empty
    exact ⟨ready.running,fun _ => empty,ready.short,ready.once,ready.fifo,ready.order⟩
  · rename_i ctx queue waiting
    have short := ready.short
    have count := ready.once
    have fifo := ready.fifo
    rw [waiting] at short count fifo
    have shorter : queue.length ≤ w.limiter.depthOr := Nat.le_trans (Nat.le_succ _) short
    have busy : ¬ w.limiter.running + w.pending + 1 < w.limiter.max := fun below => by
      rw [ready.drained below] at waiting
      cases waiting
    have fifo' : w.log.queued = w.log.shifted ++ [ctx] ++ queue := by rw [fifo,List.append_assoc,List.singleton_append]
    split
    · exact
        { running := ready.running
          drained := fun below => absurd below (by
            simp only [fail,World.pending,pendingCons,Frame.skips,if_true] at busy ⊢
            omega)
          short := shorter
          once := once count fun x => by
            simp only [fail,Log.refused,refusedAppend,reduceCtorEq,if_false,List.count_append,List.count_cons,List.count_nil]
            omega
          fifo := fifo'
          order := ready.order.imp_left fun part => part.trans (List.sublist_append_left _ _) }
    · rename_i here
      have free : w.limiter.running < w.limiter.max := by
        rcases fits with free | empty | gone
        · exact free
        · rw [empty] at waiting
          cases waiting
        · exact absurd gone here
      exact
        { running := ⟨congrArg (· + 1) same,by simp only [doStart,List.length_cons]; omega⟩
          drained := fun below => absurd below (by
            simp only [doStart,World.pending,pendingCons,Frame.skips] at busy ⊢
            omega)
          short := shorter
          once := once count fun x => by
            simp only [doStart,Log.refused,List.count_append,List.count_cons,List.count_nil]
            omega
          fifo := fifo'
          order := ⟨ready.order.1.append (.refl _),ready.order.2.append (.refl _)⟩ }

theorem finishInv (inv : Inv w) (ctx : R) (gone : Bool) : Inv (step w (.finish ctx gone)) := by
  obtain ⟨same,most⟩ := inv.running
  simp only [step]
  split
  · rename_i mem
    have size := List.length_erase_of_mem mem
    have some : 0 < w.guards.length := List.length_pos_of_mem mem
    have ready : Ready { w with guards := w.guards.erase ctx, limiter := { w.limiter with running := w.limiter.running - 1 } } :=
      { running := ⟨by simp only [size,same],by simp only [size]; omega⟩
        drained := fun below => inv.drained (by simp only [World.pending] at below ⊢; omega)
        short := inv.short
        once := inv.once
        fifo := inv.fifo
        order := inv.order }
    exact shiftInv ready (.inl (by simp only; omega))
  · exact inv

theorem backInv (inv : Inv w) {died gone : Bool} (fits : Fits w (.back died gone)) : Inv (back w died gone) := by
  unfold back
  split
  · exact inv
  · rename_i ctx frames top
    have pending : w.pending = frames.countP Frame.skips := by
      rw [World.pending,top,pendingCons]
      rfl
    split
    · exact
        { running := inv.running
          drained := fun below => inv.drained (by
            rw [pending]
            simp only [fail,World.pending,pendingCons,Frame.skips] at below
            exact below)
          short := inv.short
          once := once inv.once fun x => by
            simp only [fail,Log.refused,refusedAppend,if_true,List.count_append,List.count_nil]
            omega
          fifo := inv.fifo
          order := inv.order }
    · exact
        { running := inv.running
          drained := fun below => inv.drained (by rw [pending]; exact below)
          short := inv.short
          once := inv.once
          fifo := inv.fifo
          order := inv.order }
  · rename_i ctx frames top
    have pending : w.pending = frames.countP Frame.skips + 1 := by
      rw [World.pending,top,pendingCons]
      rfl
    have ready : Ready { w with frames := frames } :=
      { running := inv.running
        drained := fun below => inv.drained (by rw [pending]; exact below)
        short := inv.short
        once := inv.once
        fifo := inv.fifo
        order := inv.order }
    refine shiftInv ready (fits.imp_right fun rest => rest.resolve_left ?_)
    rw [top]
    exact Bool.noConfusion
  · rename_i why ctx frames other top
    have pending : w.pending = frames.countP Frame.skips := by
      rw [World.pending,top,pendingCons]
      cases why with
      | internalError => rfl
      | tooBusy => rfl
      | disconnected => exact (other rfl).elim
    exact
      { running := inv.running
        drained := fun below => inv.drained (by rw [pending]; exact below)
        short := inv.short
        once := inv.once
        fifo := inv.fifo
        order := inv.order }

theorem stepInv (inv : Inv w) {e : Event R} (fits : Fits w e) : Inv (step w e) := by
  cases e with
  | submit ctx => exact submitInv inv fits
  | finish ctx gone => exact finishInv inv ctx gone
  | back died gone => exact backInv inv fits

theorem fitsShown {e : Event R} (after : Limits (step w e)) : Fits w e := by
  cases e with
  | submit ctx =>
    by_contra broken
    obtain ⟨full,most⟩ := not_or.mp broken
    have most := not_ne_iff.mp most
    have long := after.short
    simp only [step,mayStart,if_neg full,most,gt_iff_lt,Nat.lt_irrefl,if_false,Self.depthOr,List.length_append,
      List.length_singleton] at long most
    omega
  | finish ctx gone => trivial
  | back died gone =>
    by_contra broken
    simp only [Fits,not_or] at broken
    obtain ⟨full,top,waiting,here⟩ := broken
    have many := after.running
    simp only [step,back] at many
    split at many
    · rename_i none
      rw [none] at top
      exact top rfl
    · rename_i ctx frames is
      rw [is] at top
      exact top rfl
    · rename_i ctx frames is
      unfold shiftQueue at many
      split at many
      · rename_i empty
        exact waiting empty
      · simp only [if_neg here,doStart] at many
        omega
    · rename_i why ctx frames other is
      rw [is] at top
      cases why with
      | internalError => exact top rfl
      | tooBusy => exact top rfl
      | disconnected => exact other rfl

theorem limitsKept (max : Nat) (depth : Option Nat) (es : List (Event R)) :
    (∀ n,Limits ((es.take n).foldl step (World.start max depth))) ↔ Stepwise.Along step Fits (World.start max depth) es :=
  Stepwise.alongShown Inv Limits (fun _ inv => inv.limits) (fun _ _ inv fits => stepInv inv fits)
    (fun _ _ _ after => fitsShown after) (startInv max depth)

end

def play (max depth : Nat) (es : List (Event Nat)) : World Nat := es.foldl step (World.start max (some depth))

/- The queue takes a second request with a depth of one; a request that is let in while the client of another one is
found gone runs beside the one that follows in the queue. -/
theorem limitsExceeded : ¬ Limits (play 1 1 [.submit 1,.submit 2,.submit 3]) ∧
    ¬ Limits (play 1 2 [.submit 1,.back false false,.submit 2,.submit 3,.finish 1 true,.submit 4,.back false false,.back false false]) :=
  ⟨fun limits => absurd limits.short (by decide),fun limits => absurd limits.running.2 (by decide)⟩

end PublicInbox.Limiter
