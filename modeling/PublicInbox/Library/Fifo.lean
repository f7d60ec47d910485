import Mathlib.Data.List.Basic

/-! A worker that takes requests in the order they were sent. Work it has done is only
durable after a flush; work behind which a flush is queued will be. -/
namespace Fifo
variable {W : Type}

inductive Request (W : Type) where
  | work (w : W)
  | flush
  | nop
  deriving DecidableEq, Repr

structure Worker (W : Type) where
  queue : List (Request W)
  pending : List W
  done : List W
  deriving DecidableEq, Repr

def Worker.idle : Worker W := ⟨[],[],[]⟩

def Worker.push (r : Request W) (k : Worker W) : Worker W := { k with queue := k.queue ++ [r] }

def Worker.run : Request W → Worker W → Worker W
  | .work w, k => { k with pending := w :: k.pending }
  | .flush, k => { k with pending := [], done := k.pending ++ k.done }
  | .nop, k => k

def Worker.take (k : Worker W) : Option (Worker W) := match k.queue with
  | [] => none
  | r :: rs => some ({ k with queue := rs }.run r)

def Sent (w : W) (k : Worker W) : Prop := .work w ∈ k.queue ∨ w ∈ k.pending ∨ w ∈ k.done

def Settled (w : W) (k : Worker W) : Prop :=
  w ∈ k.done ∨ (w ∈ k.pending ∧ .flush ∈ k.queue) ∨
    ∃ a b, k.queue = a ++ .work w :: b ∧ .flush ∈ b

theorem sentPush {w : W} {k : Worker W} {r : Request W} (h : Sent w k) : Sent w (k.push r) := by
  rcases h with queued | h
  · exact Or.inl (List.mem_append_left _ queued)
  · exact Or.inr h

theorem sentNow (w : W) (k : Worker W) : Sent w (k.push (.work w)) :=
  Or.inl (List.mem_append_right _ (List.mem_singleton_self _))

theorem doneRun {w : W} {k : Worker W} (r : Request W) (h : w ∈ k.done) : w ∈ (k.run r).done := by
  cases r with
  | work => exact h
  | flush => exact List.mem_append_right _ h
  | nop => exact h

theorem sentRun {w : W} {k : Worker W} (r : Request W) (h : Sent w k) : Sent w (k.run r) := by
  rcases h with queued | pending | done
  · cases r <;> exact Or.inl queued
  · cases r with
    | work => exact Or.inr (Or.inl (List.mem_cons_of_mem _ pending))
    | flush => exact Or.inr (Or.inr (List.mem_append_left _ pending))
    | nop => exact Or.inr (Or.inl pending)
  · exact Or.inr (Or.inr (doneRun r done))

theorem sentHere (w : W) (k : Worker W) : Sent w (k.run (.work w)) :=
  Or.inr (Or.inl List.mem_cons_self)

theorem doneTake {w : W} {k k' : Worker W} (step : k.take = some k') (h : w ∈ k.done) :
    w ∈ k'.done := by
  unfold Worker.take at step
  split at step
  · cases step
  · cases step
    exact doneRun _ h

theorem sentTake {w : W} {k k' : Worker W} (step : k.take = some k') (h : Sent w k) :
    Sent w k' := by
  unfold Worker.take at step
  split at step
  · cases step
  · rename_i r rs queue
    cases step
    rcases h with queued | h
    · rw [queue] at queued
      rcases List.mem_cons.mp queued with first | later
      · rw [← first]
        exact sentHere w _
      · exact sentRun r (Or.inl later)
    · exact sentRun r (Or.inr h)

theorem settledPush {w : W} {k : Worker W} {r : Request W} (h : Settled w k) :
    Settled w (k.push r) := by
  rcases h with done | ⟨pending,flush⟩ | ⟨a,b,queue,flush⟩
  · exact Or.inl done
  · exact Or.inr (Or.inl ⟨pending,List.mem_append_left _ flush⟩)
  · exact Or.inr (Or.inr ⟨a,b ++ [r],by simp [Worker.push,queue],List.mem_append_left _ flush⟩)

theorem settledFlush {w : W} {k : Worker W} (h : Sent w k) : Settled w (k.push .flush) := by
  rcases h with queued | pending | done
  · obtain ⟨a,b,queue⟩ := List.append_of_mem queued
    exact Or.inr (Or.inr ⟨a,b ++ [.flush],by simp [Worker.push,queue],by simp⟩)
  · exact Or.inr (Or.inl ⟨pending,by simp [Worker.push]⟩)
  · exact Or.inl done

theorem settledRun {w : W} {k : Worker W} (r : Request W) (h : Settled w k) :
    Settled w (k.run r) := by
  rcases h with done | ⟨pending,flush⟩ | behind
  · exact Or.inl (doneRun r done)
  · cases r with
    | work => exact Or.inr (Or.inl ⟨List.mem_cons_of_mem _ pending,flush⟩)
    | flush => exact Or.inl (List.mem_append_left _ pending)
    | nop => exact Or.inr (Or.inl ⟨pending,flush⟩)
  · cases r <;> exact Or.inr (Or.inr behind)

theorem settledTake {w : W} {k k' : Worker W} (step : k.take = some k') (h : Settled w k) :
    Settled w k' := by
  unfold Worker.take at step
  split at step
  · cases step
  · rename_i r rs queue
    cases step
    rcases h with done | ⟨pending,flush⟩ | ⟨a,b,shape,flush⟩
    · exact Or.inl (doneRun r done)
    · rw [queue] at flush
      rcases List.mem_cons.mp flush with now | later
      · rw [← now]
        exact Or.inl (List.mem_append_left _ pending)
      · cases r with
        | work => exact Or.inr (Or.inl ⟨List.mem_cons_of_mem _ pending,later⟩)
        | flush => exact Or.inl (List.mem_append_left _ pending)
        | nop => exact Or.inr (Or.inl ⟨pending,later⟩)
    · rw [queue] at shape
      cases a with
      | nil =>
        obtain ⟨rfl,rfl⟩ := List.cons.inj shape
        exact Or.inr (Or.inl ⟨List.mem_cons_self,flush⟩)
      | cons x a =>
        obtain ⟨rfl,rfl⟩ := List.cons.inj shape
        have rest : Settled w ({ k with queue := a ++ Request.work w :: b }.run r) := by
          cases r <;> exact Or.inr (Or.inr ⟨a,b,rfl,flush⟩)
        exact rest

theorem settledDone {w : W} {k : Worker W} (h : Settled w k) (drained : k.queue = []) :
    w ∈ k.done := by
  rcases h with done | ⟨_,flush⟩ | ⟨a,b,queue,_⟩
  · exact done
  · rw [drained] at flush
    cases flush
  · rw [drained] at queue
    simp at queue

theorem sentDone {w : W} {k : Worker W} (h : Sent w k) (drained : k.queue = []) :
    w ∈ (k.run .flush).done := by
  rcases h with queued | pending | done
  · rw [drained] at queued
    cases queued
  · exact List.mem_append_left _ pending
  · exact List.mem_append_right _ done

end Fifo
