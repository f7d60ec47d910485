import PublicInbox.OverIdx.RemoveOid
import PublicInbox.OverIdx.Rethread
import Mathlib.Data.List.Induction

/-! rethread_done. Every thread id that add_over gives during a rethread lies above min_tid, so that
a row is stale only where nothing has touched it. No shape of the store is needed for this. -/
namespace PublicInbox
namespace OverIdx
open Keyed Paging
variable {δ : Type} {s s' s'' : OverIdx δ}

def rethreadDone (s : OverIdx δ) : OverIdx δ :=
  (s.over.keysWhere fun num row => num < 0 ∧ row.tid < s.minTid).foldl deleteByNum s

/- What a rethread may do to the rows: the messages stay, and a thread id that is not as it was lies
above min_tid. -/
structure Renews (s s' : OverIdx δ) : Prop where
  minTid : s'.minTid = s.minTid
  thread : s.thread ≤ s'.thread
  real : ∀ n,0 < n → (s'.tidOf n = none ↔ s.tidOf n = none)
  tids : ∀ n t,s'.tidOf n = some t → s.minTid < t ∨ s.tidOf n = some t

namespace Renews

theorem refl (s : OverIdx δ) : Renews s s := ⟨rfl,Nat.le_refl _,fun _ _ => Iff.rfl,fun _ _ row => Or.inr row⟩

theorem trans (first : Renews s s') (second : Renews s' s'') : Renews s s'' where
  minTid := second.minTid.trans first.minTid
  thread := first.thread.trans second.thread
  real := fun n positive => (second.real n positive).trans (first.real n positive)
  tids := by
    intro n t row
    rcases second.tids n t row with above | before
    · exact Or.inl (first.minTid ▸ above)
    · exact first.tids n t before

theorem nextTid (s : OverIdx δ) : Renews s s.nextTid.1 :=
  ⟨rfl,Nat.le_succ _,fun _ _ => Iff.rfl,fun _ _ row => Or.inr row⟩

theorem merge {winner : Nat} (above : s.minTid < winner) (loser : Nat) : Renews s (s.mergeThreads winner loser) := by
  refine ⟨mergeMinTid ..,le_of_eq (mergeThread ..).symm,fun n _ => ?_,fun n t row => ?_⟩
  · rw [tidMerge,Option.map_eq_none_iff]
  · rw [tidMerge] at row
    obtain ⟨old,before,rfl⟩ := Option.map_eq_some_iff.mp row
    split
    · exact Or.inl above
    · exact Or.inr before

theorem setTid {tid : Nat} (above : s.minTid < tid) (num : Int) : Renews s (s.setTid num tid) := by
  refine ⟨rfl,Nat.le_refl _,fun n _ => ?_,fun n t row => ?_⟩
  · rw [tidSet]
    split
    · rw [Option.map_eq_none_iff]
    · rfl
  · rw [tidSet] at row
    split at row
    · obtain ⟨old,-,rfl⟩ := Option.map_eq_some_iff.mp row
      exact Or.inl above
    · exact Or.inr row

theorem delete {num : Int} (ghost : num < 0) : Renews s (s.deleteByNum num) := by
  refine ⟨rfl,Nat.le_refl _,fun n positive => ?_,fun n t row => ?_⟩
  · rw [tidDelete,if_neg (by omega)]
  · rw [tidDelete] at row
    split at row
    · cases row
    · exact Or.inr row

theorem deleteAll {nums : List Int} (ghosts : ∀ n ∈ nums,n < 0) : Renews s (nums.foldl deleteByNum s) :=
  List.foldlRecOn nums deleteByNum (motive := fun t => Renews s t) (.refl s)
    fun _ kept num mem => kept.trans (.delete (ghosts num mem))

theorem createGhost (floor : s.minTid ≤ s.thread) (mid : Mid) :
    Renews s (s.createGhost mid).1 ∧ s.minTid < (s.createGhost mid).2 := by
  refine ⟨⟨rfl,Nat.le_succ _,fun n positive => ?_,fun n t row => ?_⟩,Nat.lt_succ_of_le floor⟩
  · rw [ghostTid,if_neg (by omega)]
  · rw [ghostTid] at row
    split at row
    · cases row
      exact Or.inl (Nat.lt_succ_of_le floor)
    · exact Or.inr row

theorem floor (renews : Renews s s') (floor : s.minTid ≤ s.thread) : s'.minTid ≤ s'.thread := by
  rw [renews.minTid]
  exact floor.trans renews.thread

end Renews

theorem visitKeeps {κ S : Type} {body : κ → S → S × Bool} {P : S → Prop} (keeps : ∀ k st,P st → P (body k st).1)
    (ks : List κ) {st : S} (holds : P st) : P (visit body ks st).1 := by
  induction ks generalizing st with
  | nil => exact holds
  | cons k ks ih =>
    have next := keeps k st holds
    unfold visit
    split
    · rename_i st' step
      rw [step] at next
      exact ih next
    · rename_i st' step
      rw [step] at next
      exact next

theorem pagesKeeps {κ S : Type} [LinearOrder κ] {keys : S → List κ} {body : κ → S → S × Bool} {P : S → Prop}
    (keeps : ∀ k st,P st → P (body k st).1) (limit fuel : Nat) (prev : κ) {st : S} (holds : P st) :
    P (pages keys body limit fuel prev st) := by
  induction fuel generalizing prev st with
  | zero => exact holds
  | succ fuel ih =>
    have next := visitKeeps keeps (((keys st).filter (fun k => prev ≤ k)).take limit) holds
    simp only [pages]
    split
    · exact holds
    · split
      · rename_i step
        rw [step] at next
        exact next
      · rename_i step
        rw [step] at next
        split
        · exact ih _ next
        · exact next

theorem eachByMidKeeps {σ : Type} {cb : Int → Row δ → OverIdx δ × σ → (OverIdx δ × σ) × Bool} {P : OverIdx δ × σ → Prop}
    (keeps : ∀ num row st,P st → P (cb num row st).1) (mid : Mid) {st : OverIdx δ × σ} (holds : P st) :
    P (eachByMid mid cb st) := by
  refine pagesKeeps (fun num st holds => ?_) _ _ _ holds
  unfold eachRow
  split
  · exact holds
  · exact keeps num _ st holds

structure Found (s : OverIdx δ) (st : OverIdx δ × Resolving) : Prop where
  renews : Renews s st.1
  above : ∀ tid ∈ st.2.tid,s.minTid < tid
  ghosts : ∀ n ∈ st.2.ghostsToDelete,n < 0

theorem resolveRowFound (floor : s.minTid ≤ s.thread) (num : Int) (row : Row δ) {st : OverIdx δ × Resolving} (found : Found s st) :
    Found s (resolveRow num row st).1 := by
  obtain ⟨s',⟨tid,dying⟩⟩ := st
  obtain ⟨renews,above,ghosts⟩ := found
  have next : s.minTid < s'.thread + 1 := Nat.lt_succ_of_le (floor.trans renews.thread)
  have same : s'.minTid = s.minTid := renews.minTid
  unfold resolveRow
  dsimp only
  cases tid with
  | some tid => exact ⟨renews.trans (.merge (same.symm ▸ above tid rfl) _),above,ghosts⟩
  | none =>
    dsimp only
    split
    · rename_i valid
      exact ⟨renews,fun tid mem => Option.some.inj mem ▸ same ▸ valid,ghosts⟩
    · have live : ∀ tid ∈ some s'.nextTid.2,s.minTid < tid := fun tid mem => Option.some.inj mem ▸ next
      have counted : Renews s s'.nextTid.1 := renews.trans (.nextTid s')
      split
      · refine ⟨counted.trans (.setTid ?_ num),live,ghosts⟩
        rw [counted.minTid]
        exact next
      · split
        · rename_i ghost
          refine ⟨counted,live,fun n mem => ?_⟩
          rcases List.mem_append.mp mem with old | new
          · exact ghosts n old
          · exact List.mem_singleton.mp new ▸ ghost
        · exact ⟨counted,live,ghosts⟩

theorem resolveRenews (floor : s.minTid ≤ s.thread) (mid : Mid) :
    Renews s (s.resolveMidToTid mid).1 ∧ s.minTid < (s.resolveMidToTid mid).2 := by
  have found : Found s (eachByMid mid resolveRow (s,⟨none,[]⟩)) :=
    eachByMidKeeps (fun num row st => resolveRowFound floor num row) mid ⟨.refl s,fun _ none => (by cases none),fun _ mem => (by cases mem)⟩
  unfold resolveMidToTid
  generalize eachByMid mid resolveRow (s,⟨none,[]⟩) = st at found ⊢
  obtain ⟨s',⟨tid,dying⟩⟩ := st
  have renews := found.renews.trans (.deleteAll found.ghosts)
  cases tid with
  | some tid => exact ⟨renews,found.above tid rfl⟩
  | none =>
    obtain ⟨made,above⟩ := Renews.createGhost (renews.floor floor) mid
    exact ⟨renews.trans made,renews.minTid ▸ above⟩

theorem linkRefsRenews (floor : s.minTid ≤ s.thread) (refs : List Mid) {oldTid : Option Nat} (above : ∀ tid ∈ oldTid,s.minTid < tid) :
    Renews s (s.linkRefs refs oldTid).1 ∧ s.minTid < (s.linkRefs refs oldTid).2 := by
  cases refs with
  | nil =>
    cases oldTid with
    | some tid => exact ⟨.refl s,above tid rfl⟩
    | none => exact ⟨.nextTid s,Nat.lt_succ_of_le floor⟩
  | cons ref rest =>
    obtain ⟨first,live⟩ := resolveRenews floor ref
    have others : ∀ t : OverIdx δ,Renews s t → Renews s (rest.foldl (fun t ref' =>
        (t.resolveMidToTid ref').1.mergeThreads (s.resolveMidToTid ref).2 (t.resolveMidToTid ref').2) t) := by
      intro t kept
      refine List.foldlRecOn rest _ (motive := fun t => Renews s t) kept fun t kept ref' _ => ?_
      obtain ⟨next,-⟩ := resolveRenews (kept.floor floor) ref'
      have both := kept.trans next
      exact both.trans (.merge (both.minTid.symm ▸ live) _)
    refine ⟨others _ ?_,live⟩
    cases oldTid with
    | none => exact first
    | some old => exact first.trans (.merge (first.minTid.symm ▸ live) old)

structure Added (s : OverIdx δ) (st : OverIdx δ × Adding) : Prop where
  renews : Renews s st.1
  above : ∀ tid ∈ st.2.oldTid,s.minTid < tid

theorem addOverRowAdded (floor : s.minTid ≤ s.thread) (refs : List Mid) (num : Int) (row : Row δ) {st : OverIdx δ × Adding}
    (added : Added s st) : Added s (addOverRow refs num row st).1 := by
  obtain ⟨s',⟨old,vivified⟩⟩ := st
  obtain ⟨renews,above⟩ := added
  have same : s'.minTid = s.minTid := renews.minTid
  have floor' := renews.floor floor
  have fresh : s.minTid < s'.thread + 1 := same ▸ Nat.lt_succ_of_le floor'
  unfold addOverRow
  dsimp only
  split
  · split
    · rename_i valid
      have live : s.minTid < old.getD row.tid := by
        cases old with
        | some o => exact above o rfl
        | none => exact same ▸ valid
      exact ⟨renews.trans (.merge (same.symm ▸ live) _),fun tid mem => Option.some.inj mem ▸ live⟩
    · cases old with
      | some o => exact ⟨renews,above⟩
      | none => exact ⟨renews.trans (.nextTid s'),fun tid mem => Option.some.inj mem ▸ fresh⟩
  · split
    · rename_i ghost
      have linked : ∀ (t : OverIdx δ) (o : Nat),Renews s t → s.minTid < o →
          Added s ((t.linkRefs refs (some o)).1.deleteByNum num,⟨some (t.linkRefs refs (some o)).2,vivified + 1⟩) := by
        intro t o kept live
        obtain ⟨next,live'⟩ := linkRefsRenews (kept.floor floor) refs
          (show ∀ tid ∈ some o,t.minTid < tid from fun tid mem => Option.some.inj mem ▸ kept.minTid.symm ▸ live)
        exact ⟨(kept.trans next).trans (.delete ghost),fun tid mem => Option.some.inj mem ▸ kept.minTid ▸ live'⟩
      cases old with
      | some o => exact linked s' o renews (above o rfl)
      | none =>
        dsimp only
        split
        · rename_i valid
          exact linked s' row.tid renews (same ▸ valid)
        · exact linked s'.nextTid.1 s'.nextTid.2 (renews.trans (.nextTid s')) fresh
    · exact ⟨renews,above⟩

theorem addOverRenews (floor : s.minTid ≤ s.thread) (x : Mail) (cols : δ) :
    (s.addOver x cols).minTid = s.minTid ∧ s.thread ≤ (s.addOver x cols).thread ∧
      (∀ n,0 < n → ((s.addOver x cols).tidOf n = none ↔ n ≠ x.num ∧ s.tidOf n = none)) ∧
      ∀ n t,(s.addOver x cols).tidOf n = some t → s.minTid < t ∨ (n ≠ x.num ∧ s.tidOf n = some t) := by
  have start : Added (s.deleteByNum x.num) (s.deleteByNum x.num,⟨(s.tidOf x.num).filter (fun tid => s.minTid < tid),0⟩) :=
    ⟨.refl _,fun tid mem => of_decide_eq_true (Option.filter_eq_some_iff.mp mem).2⟩
  have rows : Added (s.deleteByNum x.num) (x.mids.foldl (fun st mid => eachByMid mid (addOverRow x.references) st)
      (s.deleteByNum x.num,⟨(s.tidOf x.num).filter (fun tid => s.minTid < tid),0⟩)) :=
    List.foldlRecOn x.mids _ (motive := fun st => Added (s.deleteByNum x.num) st) start fun st kept mid _ =>
      eachByMidKeeps (fun num row _ => addOverRowAdded (s := s.deleteByNum x.num) floor x.references num row) mid kept
  obtain ⟨s',tid,stored,renews,above⟩ : ∃ s' tid,s.addOver x cols = s'.store x ⟨tid,some cols⟩ ∧
      Renews (s.deleteByNum x.num) s' ∧ s.minTid < tid := by
    unfold addOver
    dsimp only
    generalize x.mids.foldl (fun st mid => eachByMid mid (addOverRow x.references) st)
      (s.deleteByNum x.num,⟨(s.tidOf x.num).filter (fun tid => s.minTid < tid),0⟩) = st at rows ⊢
    obtain ⟨s',⟨old,vivified⟩⟩ := st
    have floor' := rows.renews.floor floor
    by_cases none : vivified = 0
    · obtain ⟨linked,live⟩ := linkRefsRenews floor' x.references (fun tid mem => rows.renews.minTid ▸ rows.above tid mem)
      refine ⟨_,_,?_,rows.renews.trans linked,rows.renews.minTid ▸ live⟩
      simp only [none,if_true]
      rfl
    · cases old with
      | some tid =>
        refine ⟨s',tid,?_,rows.renews,rows.above tid rfl⟩
        simp only [none,if_false]
        rfl
      | none =>
        refine ⟨s'.nextTid.1,s'.nextTid.2,?_,rows.renews.trans (.nextTid s'),rows.renews.minTid ▸ Nat.lt_succ_of_le floor'⟩
        simp only [none,if_false]
        rfl
  obtain ⟨thread,-,minTid⟩ := storeRest s' x ⟨tid,some cols⟩
  rw [stored]
  refine ⟨minTid.trans renews.minTid,thread ▸ renews.thread,fun n positive => ?_,fun n t row => ?_⟩
  · rw [storeTid]
    by_cases own : n = x.num
    · simp [own]
    · rw [if_neg own,renews.real n positive,tidDelete,if_neg own]
      exact (and_iff_right own).symm
  · rw [storeTid] at row
    split at row
    · cases row
      exact Or.inl above
    · rename_i other
      rcases renews.tids n t row with new | old
      · exact Or.inl new
      · rw [tidDelete,if_neg other] at old
        exact Or.inr ⟨other,old⟩

/- The rows between rethread_prepare and rethread_done, where the messages of `nums` were added again -/
structure Rethreading (s₀ s : OverIdx δ) (nums : List Int) : Prop where
  minTid : s.minTid = s₀.thread
  floor : s.minTid ≤ s.thread
  real : ∀ n,0 < n → (s.tidOf n = none ↔ n ∉ nums ∧ s₀.tidOf n = none)
  tids : ∀ n t,s.tidOf n = some t → s.minTid < t ∨ (n ∉ nums ∧ s₀.tidOf n = some t)

theorem rethreading (s₀ : OverIdx δ) (mails : List (Mail × δ)) :
    Rethreading s₀ (mails.foldl (fun s x => s.addOver x.1 x.2) s₀.rethreadPrepare) (mails.map fun x => x.1.num) := by
  induction mails using List.reverseRecOn with
  | nil =>
    refine ⟨rfl,Nat.le_refl _,fun n _ => ?_,fun n t row => Or.inr ⟨List.not_mem_nil,row⟩⟩
    exact (and_iff_right List.not_mem_nil).symm
  | append_singleton mails x ih =>
    obtain ⟨minTid,thread,real,tids⟩ := addOverRenews ih.floor x.1 x.2
    rw [List.foldl_append,List.map_append,List.foldl_cons,List.foldl_nil,List.map_singleton]
    refine ⟨minTid.trans ih.minTid,minTid ▸ ih.floor.trans thread,fun n positive => ?_,fun n t row => ?_⟩
    · rw [real n positive,ih.real n positive,List.mem_append,List.mem_singleton,not_or]
      exact ⟨fun all => ⟨⟨all.2.1,all.1⟩,all.2.2⟩,fun all => ⟨all.1.2,all.1.1,all.2⟩⟩
    · rw [minTid,List.mem_append,List.mem_singleton,not_or]
      rcases tids n t row with new | ⟨other,old⟩
      · exact Or.inl new
      · exact (ih.tids n t old).imp_right fun all => ⟨⟨all.1,other⟩,all.2⟩

theorem doneTid (s : OverIdx δ) (n : Int) :
    s.rethreadDone.tidOf n = if n < 0 then (s.tidOf n).filter (fun tid => s.minTid ≤ tid) else s.tidOf n := by
  unfold tidOf rethreadDone
  rw [deletedRow]
  simp only [Table.memKeysWhere,Bool.decide_and,Bool.and_eq_true,decide_eq_true_eq]
  cases found : s.over.get? n with
  | none => simp
  | some row =>
    by_cases ghost : n < 0
    · by_cases stale : row.tid < s.minTid
      · simp [ghost,stale,Option.filter_some]
      · simp [ghost,stale,Option.filter_some,Nat.not_lt.mp stale]
    · simp [ghost]

/- `tid < ?` spares the ghosts of the thread that was the newest one when the rethread began. They
are the only stale rows that are left. -/
theorem rethreadCulls (s₀ : OverIdx δ) (mails : List (Mail × δ))
    (every : ∀ n,0 < n → s₀.tidOf n ≠ none → ∃ x ∈ mails,x.1.num = n) :
    let s := mails.foldl (fun s x => s.addOver x.1 x.2) s₀.rethreadPrepare
    ((∀ n t,n ≠ 0 → s.rethreadDone.tidOf n = some t → s₀.thread < t) ∧
      ∀ n,0 < n → s₀.tidOf n ≠ none → s.rethreadDone.tidOf n ≠ none) ↔
      ∀ n < 0,s₀.tidOf n = some s₀.thread → s.tidOf n ≠ some s₀.thread := by
  obtain ⟨minTid,floor,real,tids⟩ := rethreading s₀ mails
  dsimp only
  generalize mails.foldl (fun s x => s.addOver x.1 x.2) s₀.rethreadPrepare = s at minTid floor real tids ⊢
  constructor
  · rintro ⟨above,-⟩ n ghost - row
    have left : s.rethreadDone.tidOf n = some s₀.thread := by
      rw [doneTid,if_pos ghost,row,minTid]
      simp
    exact absurd (above n _ (by omega) left) (Nat.lt_irrefl _)
  · intro moved
    refine ⟨fun n t some left => ?_,fun n positive there => ?_⟩
    · rw [doneTid] at left
      rcases Int.lt_or_gt_of_ne some with ghost | positive
      · rw [if_pos ghost,minTid] at left
        obtain ⟨row,low⟩ := Option.filter_eq_some_iff.mp left
        have low := of_decide_eq_true low
        refine Nat.lt_of_le_of_ne low fun same => ?_
        subst same
        rcases tids n _ row with above | ⟨-,before⟩
        · rw [minTid] at above
          exact absurd above (Nat.lt_irrefl _)
        · exact moved n ghost before row
      · rw [if_neg (by omega)] at left
        rcases tids n t left with above | ⟨fresh,before⟩
        · exact minTid ▸ above
        · obtain ⟨x,mem,rfl⟩ := every n positive (before ▸ Option.some_ne_none t)
          exact absurd (List.mem_map_of_mem mem) fresh
    · rw [doneTid,if_neg (by omega)]
      exact fun none => there ((real n positive).mp none).2

def replied : OverIdx String := empty.addOver replyToMissing "oid"

theorem repliedCulled :
    let s := [(replyToMissing,"oid")].foldl (fun s x => s.addOver x.1 x.2) replied.rethreadPrepare
    (∀ n t,n ≠ 0 → s.rethreadDone.tidOf n = some t → replied.thread < t) ∧
      ∀ n,0 < n → replied.tidOf n ≠ none → s.rethreadDone.tidOf n ≠ none := by
  refine (rethreadCulls replied [(replyToMissing,"oid")] fun n positive there => ?_).mpr fun n _ _ row => ?_
  · refine ⟨_,List.mem_singleton_self _,?_⟩
    by_contra other
    exact there (((addOverRenews (Nat.le_refl _) replyToMissing "oid").2.2.1 n positive).mpr ⟨Ne.symm other,rfl⟩)
  · obtain ⟨r,found,same⟩ := Option.map_eq_some_iff.mp row
    have all : ∀ r ∈ ([(replyToMissing,"oid")].foldl (fun s x => s.addOver x.1 x.2) replied.rethreadPrepare).over.rows,
      r.2.tid ≠ replied.thread := by decide +kernel
    exact all _ (Table.memRows.mpr found) same

-- The message is gone, and the ghost that it made is in the newest thread.
theorem newestGhostStays :
    let s := (removeOid id replied (some "oid") (cleanMid "b")).1.rethreadPrepare
    s.tidOf 1 = none ∧ s.minTid = 1 ∧ s.rethreadDone.tidOf (-1) = some 1 := by
  decide +kernel

end OverIdx
end PublicInbox
