import PublicInbox.OverIdx.Links

/-! remove_oid: each_by_mid over the rows of a Message-ID, with a callback that deletes the row it is
given. The oid is in the column ddd, which a ghost leaves NULL. -/
namespace PublicInbox
namespace OverIdx
open Keyed Paging
variable {δ β : Type} [DecidableEq β] (blob : δ → β)

def hit (oid : Option β) (row : Row δ) : Bool := oid = none ∨ row.cols.map blob = oid

def removeRow (oid : Option β) (num : Int) (row : Row δ) (st : OverIdx δ × List Int) : (OverIdx δ × List Int) × Bool :=
  let (s,removed) := st
  if hit blob oid row then ((s.deleteByNum num,removed ++ [num]),true) else (st,true)

def removeOid (s : OverIdx δ) (oid : Option β) (mid : Mid) : OverIdx δ × List Int :=
  eachByMid mid (removeRow blob oid) (s,[])

def hits (s : OverIdx δ) (oid : Option β) (nums : List Int) : List Int :=
  nums.filter fun num => (s.over.get? num).any (hit blob oid)

theorem deleteRow (s : OverIdx δ) (num n : Int) :
    (s.deleteByNum num).over.get? n = if n = num then none else s.over.get? n := Table.getErase s.over num n

theorem deleteLinks (s : OverIdx δ) (num n : Int) :
    (s.deleteByNum num).id2num.get? n = if n = num then none else s.id2num.get? n := Table.getErase s.id2num num n

theorem deletedRow (nums : List Int) (s : OverIdx δ) (n : Int) :
    (nums.foldl deleteByNum s).over.get? n = if n ∈ nums then none else s.over.get? n := by
  induction nums generalizing s with
  | nil => rfl
  | cons num nums ih =>
    rw [List.foldl_cons,ih,deleteRow]
    by_cases same : n = num
    · simp [same]
    · simp [same]

theorem deletedLinks (nums : List Int) (s : OverIdx δ) (n : Int) :
    (nums.foldl deleteByNum s).id2num.get? n = if n ∈ nums then none else s.id2num.get? n := by
  induction nums generalizing s with
  | nil => rfl
  | cons num nums ih =>
    rw [List.foldl_cons,ih,deleteLinks]
    by_cases same : n = num
    · simp [same]
    · simp [same]

theorem deletedRest (nums : List Int) (s : OverIdx δ) : (nums.foldl deleteByNum s).thread = s.thread ∧
    (nums.foldl deleteByNum s).ghosts = s.ghosts ∧ (nums.foldl deleteByNum s).minTid = s.minTid :=
  List.foldlRecOn nums deleteByNum (motive := fun t : OverIdx δ => t.thread = s.thread ∧ t.ghosts = s.ghosts ∧ t.minTid = s.minTid)
    ⟨rfl,rfl,rfl⟩ fun _ kept _ _ => kept

section
variable {blob} {oid : Option β} {mid : Mid}

theorem eachRowHit {num : Int} {st : OverIdx δ × List Int} (hits : (st.1.over.get? num).any (hit blob oid) = true) :
    eachRow (removeRow blob oid) num st = ((st.1.deleteByNum num,st.2 ++ [num]),true) := by
  unfold eachRow
  split
  · rename_i found
    rw [found] at hits
    cases hits
  · rename_i row found
    rw [found] at hits
    exact if_pos hits

theorem eachRowMiss {num : Int} {st : OverIdx δ × List Int} (misses : ¬ (st.1.over.get? num).any (hit blob oid) = true) :
    eachRow (removeRow blob oid) num st = (st,true) := by
  unfold eachRow
  split
  · rfl
  · rename_i row found
    rw [found] at misses
    exact if_neg misses

theorem removeFramed : Framed (fun st : OverIdx δ × List Int => st.1.numsOf mid) (eachRow (removeRow blob oid)) (fun _ => True) := by
  intro k st _ _
  by_cases hits : (st.1.over.get? k).any (hit blob oid) = true
  · rw [eachRowHit hits]
    refine ⟨rfl,trivial,fun j above => ?_⟩
    rw [memNumsOf,memNumsOf,linkedDelete]
    exact and_iff_right (ne_of_gt above)
  · rw [eachRowMiss hits]
    exact ⟨rfl,trivial,fun _ _ => Iff.rfl⟩

theorem removeAgain (k : Int) (st : OverIdx δ × List Int) :
    eachRow (removeRow blob oid) k (eachRow (removeRow blob oid) k st).1 = ((eachRow (removeRow blob oid) k st).1,true) := by
  by_cases hits : (st.1.over.get? k).any (hit blob oid) = true
  · rw [eachRowHit hits]
    exact eachRowMiss (by rw [deleteRow,if_pos rfl]; exact Bool.false_ne_true)
  · rw [eachRowMiss hits]
    exact eachRowMiss hits

theorem visitRemove {nums : List Int} (apart : nums.Nodup) (s : OverIdx δ) (removed : List Int) :
    (visit (eachRow (removeRow blob oid)) nums (s,removed)).1 =
      ((hits blob s oid nums).foldl deleteByNum s,removed ++ hits blob s oid nums) := by
  induction nums generalizing s removed with
  | nil => simp [visit,hits]
  | cons num nums ih =>
    obtain ⟨fresh,rest⟩ := List.nodup_cons.mp apart
    by_cases here : (s.over.get? num).any (hit blob oid) = true
    · have later : hits blob (s.deleteByNum num) oid nums = hits blob s oid nums := by
        refine List.filter_congr fun j mem => ?_
        have other : j ≠ num := fun same => fresh (same ▸ mem)
        rw [deleteRow,if_neg other]
      simp only [visit,@eachRowHit _ _ _ _ oid num (s,removed) here,ih rest,later]
      simp [hits,here]
    · simp only [visit,@eachRowMiss _ _ _ _ oid num (s,removed) here,ih rest]
      simp [hits,here]

theorem removePages (s : OverIdx δ) {fuel : Nat} (enough : (s.numsOf mid).length < fuel) :
    pages (fun st : OverIdx δ × List Int => st.1.numsOf mid) (eachRow (removeRow blob oid)) 10 fuel (-s.ghosts) (s,[]) =
      ((hits blob s oid ((s.numsOf mid).filter fun n => -(s.ghosts : Int) ≤ n)).foldl deleteByNum s,
        hits blob s oid ((s.numsOf mid).filter fun n => -(s.ghosts : Int) ≤ n)) := by
  have sorted : ∀ st : OverIdx δ × List Int,(st.1.numsOf mid).Pairwise (· < ·) := fun st => numsOfSorted st.1 mid
  have apart : ((s.numsOf mid).filter fun n => -(s.ghosts : Int) ≤ n).Nodup := ((numsOfSorted s mid).imp ne_of_lt).filter _
  have short := List.length_filter_le (fun n => decide (-(s.ghosts : Int) ≤ n)) (s.numsOf mid)
  rw [pagesVisit (by decide) sorted removeFramed (fun k st _ _ (_ : True) => removeAgain k st) trivial rfl
    (short.trans_lt enough) (fun _ _ _ _ _ => trivial),visitRemove apart]
  rfl

end

/- remove_oid on any store: the loop ends, what it removed is every row of the Message-ID with that
blob, once each, and the other rows, their links and the counters stay. A row from the ghost
counter on is any that there is, real messages have positive numbers. -/
theorem removeOidExact (s : OverIdx δ) (oid : β) (mid : Mid) :
    let (s',removed) := removeOid blob s (some oid) mid
    (∀ fuel > (s.numsOf mid).length,pages (fun st : OverIdx δ × List Int => st.1.numsOf mid)
      (eachRow (removeRow blob (some oid))) 10 fuel (-s.ghosts) (s,[]) = (s',removed)) ∧
    removed.Nodup ∧
    (∀ n,n ∈ removed ↔ -(s.ghosts : Int) ≤ n ∧ s.Linked n mid ∧ ∃ row,s.over.get? n = some row ∧ row.cols.map blob = some oid) ∧
    (∀ n,s'.over.get? n = if n ∈ removed then none else s.over.get? n) ∧
    (∀ n,s'.id2num.get? n = if n ∈ removed then none else s.id2num.get? n) ∧
    s'.thread = s.thread ∧ s'.ghosts = s.ghosts ∧ s'.minTid = s.minTid := by
  have pages := fun fuel enough => @removePages _ _ _ blob (some oid) mid s fuel enough
  have done : removeOid blob s (some oid) mid = _ := pages _ (Nat.lt_succ_self _)
  rw [done]
  dsimp only
  refine ⟨pages,?_,fun n => ?_,deletedRow _ s,deletedLinks _ s,deletedRest _ s⟩
  · exact (((numsOfSorted s mid).imp ne_of_lt).filter _).filter _
  · rw [hits,List.mem_filter,List.mem_filter,memNumsOf,decide_eq_true_eq]
    simp only [Option.any_eq_true,hit,reduceCtorEq,false_or,decide_eq_true_eq]
    rw [and_assoc,and_left_comm]

end OverIdx
end PublicInbox
