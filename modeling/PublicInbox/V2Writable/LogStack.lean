import PublicInbox.V2Writable.Reindex

/-! log2stack of a reindex against the history replayed forwards, for every history whose removals
answer an addition: whoever made its commits. -/
namespace PublicInbox.V2Writable
open Stepwise

variable {E : Type} [DecidableEq E]

def Paired (live : List E) (c : Rec E) : Prop :=
  match c.file with
  | .m => c.blob ∉ live
  | .d => c.blob ∈ live

instance (live : List E) (c : Rec E) : Decidable (Paired live c) := by
  unfold Paired
  split <;> infer_instance

def TreeTold (tree : Tree E) (live : List E) : Prop :=
  ∀ file blob, tree file = some blob → match file with
    | .m => blob ∈ live
    | .d => blob ∉ live

theorem toldByStep {tree : Tree E} (live : List E) {c : Commit E} (alone : tree.cleaned c.clean = .empty) :
    TreeTold (tree.commit c) (liveStep live c.toRec) := by
  intro file blob said
  unfold Tree.commit at said
  rw [alone] at said
  split at said
  · rename_i same
    cases said
    cases written : c.file with
    | m => simp [same,written,liveStep]
    | d => simp [same,written,liveStep]
  · contradiction

omit [DecidableEq E] in
theorem changesNow {tree : Tree E} {live : List E} {c : Commit E} (told : TreeTold tree live)
    (paired : Paired live c.toRec) : Changes tree c := by
  intro same
  have said := told c.file c.blob same
  unfold Paired at paired
  cases written : c.file with
  | m =>
    rw [written] at said paired
    exact paired said
  | d =>
    rw [written] at said paired
    exact said paired

theorem changesPaired {tree : Tree E} {live : List E} {cs : List (Commit E)} (told : TreeTold tree live)
    (clean : ∀ c ∈ cs, c.clean = true) (paired : Along liveStep Paired live (cs.map Commit.toRec)) :
    Along Tree.commit Changes tree cs := by
  induction cs generalizing tree live with
  | nil => trivial
  | cons c cs ih =>
    have alone : tree.cleaned c.clean = .empty := if_pos (clean c List.mem_cons_self)
    exact ⟨changesNow told paired.1,
      ih (toldByStep live alone) (fun x mem => clean x (List.mem_cons_of_mem _ mem)) paired.2⟩

-- The commits of an epoch but its first one, which finds no tree, are made with `{-tree}`.
def OneFile (git : Epochs E) : Prop := ∀ epoch ∈ git, ∀ c ∈ epoch.tail, c.clean = true

instance (git : Epochs E) : Decidable (OneFile git) := by
  unfold OneFile
  infer_instance

theorem shownPaired {git : Epochs E} {live : List E} (clean : OneFile git)
    (paired : Along liveStep Paired live (history git)) : Shown git := by
  induction git generalizing live with
  | nil => exact fun _ mem => (List.not_mem_nil mem).elim
  | cons epoch rest ih =>
    unfold history at paired
    rw [List.flatten_cons,List.map_append,alongAppend] at paired
    intro e mem
    rcases List.mem_cons.mp mem with rfl | later
    · have told : TreeTold Tree.empty live := fun _ _ absurd => by contradiction
      cases e with
      | nil => trivial
      | cons c cs =>
        have first := paired.1
        exact ⟨changesNow told first.1,
          changesPaired (toldByStep live (ite_self _)) (clean _ List.mem_cons_self) first.2⟩
    · exact ih (fun e' inside => clean e' (List.mem_cons_of_mem _ inside)) paired.2 e later

theorem liveNodup {cs : List (Rec E)} (paired : Along liveStep Paired [] cs) : (cs.foldl liveStep []).Nodup := by
  refine keeps List.Nodup (fun live c nodup now => ?_) List.nodup_nil paired
  obtain ⟨file,blob⟩ := c
  cases file with
  | m => exact List.nodup_cons.mpr ⟨now,nodup⟩
  | d => exact nodup.filter _

theorem backwards {cs : List (Rec E)} (paired : Along liveStep Paired [] cs) :
    log2stack (fun _ => 0) cs.reverse = (fun _ => 0,(cs.foldl liveStep []).map (Rec.mk .m)) := by
  induction cs using List.reverseRecOn with
  | nil => rfl
  | append_singleton cs c ih =>
    rw [alongAppend] at paired
    have before := ih paired.1
    have now := paired.2.1
    have nodup := liveNodup paired.1
    rw [List.foldl_append,List.reverse_append]
    generalize cs.foldl liveStep [] = live at before now nodup
    obtain ⟨file,blob⟩ := c
    cases file with
    | m => simp [log2stack,before,liveStep]
    | d =>
      have cancelled := removalCancels (fun _ => 0) blob cs.reverse
      have there : (⟨.m,blob⟩ : Rec E) ∈ live.map (Rec.mk .m) := List.mem_map.mpr ⟨blob,now,rfl⟩
      rw [before,if_pos there] at cancelled
      have injective : Function.Injective (@Rec.mk E .m) := fun a b same => by
        cases same
        rfl
      have erased : (live.map (Rec.mk .m)).erase ⟨.m,blob⟩ = (live.filter (fun b => b ≠ blob)).map (Rec.mk .m) := by
        rw [(nodup.map injective).erase_eq_filter,List.filter_map]
        refine congrArg (List.map _) (List.filter_congr fun b _ => ?_)
        by_cases same : b = blob
        · simp [same]
        · simp [same,bne]
      rw [erased] at cancelled
      exact cancelled

structure Answered (git : Epochs E) (h : List (Rec E)) : Prop where
  pending : (reindexPrepare (fun i => git[i]?.getD []) git.length (fun _ => 0) []).1 = fun _ => 0
  stacked : (reindexPrepare (fun i => git[i]?.getD []) git.length (fun _ => 0) []).2.flatMap Todo.stack =
    ((h.foldl liveStep []).map (Rec.mk .m)).reverse
  once : (h.foldl liveStep []).Nodup

theorem linesAnswered {git : Epochs E} (paired : Along liveStep Paired [] (recs git)) : Answered git (recs git) := by
  have none : Prepared (fun i => git[i]?.getD []) ([] : List (Todo E)) := ⟨by simp,by simp⟩
  obtain ⟨counts,stk,-⟩ := prepareStacks (fun _ => rfl) (Nat.le_refl git.length) (fun _ => 0) none
  rw [List.take_length,backwards paired] at counts stk
  exact ⟨counts,by simpa using stk,liveNodup paired⟩

/- The stacks of a reindex, epochs and commits backwards with one map of deletions, have exactly the blobs
that are live when the whole history is replayed forwards: each once, in the order they were added. A commit
that leaves the tree as it is adds and deletes nothing; there is none where every tree has one file. -/
theorem stacksAreLive (git : Epochs E) :
    (Along liveStep Paired [] (recs git) → Answered git (recs git)) ∧
      (OneFile git → Along liveStep Paired [] (history git) → Answered git (history git)) := by
  refine ⟨linesAnswered,fun clean paired => ?_⟩
  have same := recsShown (shownPaired clean paired)
  rw [← same] at paired ⊢
  exact linesAnswered paired

def straddling : Epochs Nat :=
  [[⟨⟨.m,1⟩,false⟩,⟨⟨.m,2⟩,true⟩,⟨⟨.d,1⟩,true⟩],[⟨⟨.d,2⟩,false⟩,⟨⟨.m,3⟩,true⟩,⟨⟨.m,1⟩,true⟩]]

theorem straddlingCancelled : Answered straddling (history straddling) ∧ Answered straddling (recs straddling) :=
  ⟨(stacksAreLive straddling).2 (by decide) (by decide),(stacksAreLive straddling).1 (by decide)⟩

example : (history straddling).foldl liveStep [] = [1,3] := by decide

end PublicInbox.V2Writable
