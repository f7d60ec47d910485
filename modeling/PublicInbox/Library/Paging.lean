import Mathlib.Order.Lattice
import Mathlib.Data.List.Basic

/-! Reading an ordered listing in pages while the loop body changes what is listed. A page
starts AT the last key of the page before it (key >= ?), so that key is visited twice
where its row survives the first visit. -/
namespace Paging
variable {κ S : Type}

def visit (body : κ → S → S × Bool) : List κ → S → S × Bool
  | [], st => (st,true)
  | k :: ks, st => match body k st with
    | (st,true) => visit body ks st
    | (st,false) => (st,false)

def pages [LinearOrder κ] (keys : S → List κ) (body : κ → S → S × Bool) (limit : Nat) : Nat → κ → S → S
  | 0, _, st => st
  | fuel + 1, prev, st =>
    let page := ((keys st).filter (fun k => prev ≤ k)).take limit
    match page.getLast? with
    | none => st
    | some last => match visit body page st with
      | (st,false) => st
      | (st,true) => if page.length = limit then pages keys body limit fuel last st else st

theorem visitAppend (body : κ → S → S × Bool) (ks js : List κ) (st : S)
    (go : (visit body ks st).2 = true) :
    visit body (ks ++ js) st = visit body js (visit body ks st).1 := by
  induction ks generalizing st with
  | nil => rfl
  | cons k ks ih =>
    cases step : body k st with
    | mk next more =>
      cases more with
      | false => simp [visit,step] at go
      | true =>
        simp only [List.cons_append,visit,step] at go ⊢
        exact ih next go

section
variable [LinearOrder κ] {keys : S → List κ} {body : κ → S → S × Bool} {P : S → Prop}

def Framed (keys : S → List κ) (body : κ → S → S × Bool) (P : S → Prop) : Prop :=
  ∀ k st, P st → k ∈ keys st → (body k st).2 = true ∧ P (body k st).1 ∧
    ∀ j, k < j → (j ∈ keys (body k st).1 ↔ j ∈ keys st)

theorem visitFramed (framed : Framed keys body P) {ks : List κ} {st : S} (holds : P st)
    (order : ks.Pairwise (· < ·)) (inside : ∀ k ∈ ks, k ∈ keys st) :
    (visit body ks st).2 = true ∧ P (visit body ks st).1 ∧
      ∀ j, (∀ k ∈ ks, k < j) → (j ∈ keys (visit body ks st).1 ↔ j ∈ keys st) := by
  induction ks generalizing st with
  | nil => exact ⟨rfl,holds,fun _ _ => Iff.rfl⟩
  | cons k ks ih =>
    obtain ⟨higher,order⟩ := List.pairwise_cons.mp order
    obtain ⟨more,next,above⟩ := framed k st holds (inside k List.mem_cons_self)
    cases step : body k st with
    | mk st' go =>
      rw [step] at more next above
      cases more
      simp only [visit,step]
      have still : ∀ j ∈ ks, j ∈ keys st' := fun j mem =>
        (above j (higher j mem)).mpr (inside j (List.mem_cons_of_mem _ mem))
      obtain ⟨goes,kept,rest⟩ := ih next order still
      refine ⟨goes,kept,fun j high => ?_⟩
      exact (rest j (fun i mem => high i (List.mem_cons_of_mem _ mem))).trans
        (above j (high k List.mem_cons_self))

theorem visitInduct (framed : Framed keys body P) {Q : List κ → S → Prop}
    (step : ∀ k ks st, P st → k ∈ keys st → (k :: ks).Pairwise (· < ·) → Q (k :: ks) st →
      Q ks (body k st).1)
    {ks : List κ} {st : S} (holds : P st) (order : ks.Pairwise (· < ·))
    (inside : ∀ k ∈ ks, k ∈ keys st) (start : Q ks st) :
    Q [] (visit body ks st).1 ∧ P (visit body ks st).1 := by
  induction ks generalizing st with
  | nil => exact ⟨start,holds⟩
  | cons k ks ih =>
    obtain ⟨more,next,above⟩ := framed k st holds (inside k List.mem_cons_self)
    have after := step k ks st holds (inside k List.mem_cons_self) order start
    obtain ⟨higher,order⟩ := List.pairwise_cons.mp order
    cases run : body k st with
    | mk st' go =>
      rw [run] at more next above after
      cases more
      simp only [visit,run]
      exact ih next order (fun j mem =>
        (above j (higher j mem)).mpr (inside j (List.mem_cons_of_mem _ mem))) after

theorem sortedFilter {l m : List κ} (sortedL : l.Pairwise (· < ·)) (sortedM : m.Pairwise (· < ·))
    (same : ∀ k, k ∈ l ↔ k ∈ m) : l = m :=
  List.Perm.eq_of_pairwise (fun _ _ _ _ h g => absurd (h.trans g) (lt_irrefl _)) sortedL sortedM
    ((List.perm_ext_iff_of_nodup (sortedL.imp ne_of_lt) (sortedM.imp ne_of_lt)).mpr same)

theorem nextListing {st st' : S} {prev last : κ} {front rest : List κ}
    (sorted : ∀ st, (keys st).Pairwise (· < ·))
    (listing : (keys st).filter (fun k => prev ≤ k) = front ++ last :: rest)
    (above : ∀ j, last < j → (j ∈ keys st' ↔ j ∈ keys st)) :
    (keys st').filter (fun k => last ≤ k) = if last ∈ keys st' then last :: rest else rest := by
  have order := listing ▸ (sorted st).filter (fun k => prev ≤ k)
  obtain ⟨_,tail,cross⟩ := List.pairwise_append.mp order
  obtain ⟨high,restSorted⟩ := List.pairwise_cons.mp tail
  have low : prev ≤ last := by
    have mem : last ∈ (keys st).filter (fun k => prev ≤ k) := by rw [listing]; simp
    simpa using (List.mem_filter.mp mem).2
  have inRest : ∀ j, last < j → (j ∈ keys st' ↔ j ∈ rest) := by
    intro j beyond
    have listed : j ∈ keys st ↔ j ∈ front ++ last :: rest := by
      rw [← listing,List.mem_filter]
      simp [low.trans beyond.le]
    rw [above j beyond,listed,List.mem_append,List.mem_cons]
    constructor
    · rintro (before | rfl | after)
      · exact absurd (cross j before last List.mem_cons_self) (not_lt.mpr beyond.le)
      · exact absurd beyond (lt_irrefl _)
      · exact after
    · exact fun after => Or.inr (Or.inr after)
  by_cases present : last ∈ keys st'
  · rw [if_pos present]
    refine sortedFilter ((sorted st').filter _) tail ?_
    intro j
    rw [List.mem_filter,List.mem_cons,decide_eq_true_eq]
    constructor
    · rintro ⟨mem,le⟩
      rcases le.eq_or_lt with same | beyond
      · exact Or.inl same.symm
      · exact Or.inr ((inRest j beyond).mp mem)
    · rintro (rfl | mem)
      · exact ⟨present,le_refl _⟩
      · exact ⟨(inRest j (high j mem)).mpr mem,(high j mem).le⟩
  · rw [if_neg present]
    refine sortedFilter ((sorted st').filter _) restSorted ?_
    intro j
    rw [List.mem_filter,decide_eq_true_eq]
    constructor
    · rintro ⟨mem,le⟩
      rcases le.eq_or_lt with same | beyond
      · exact absurd (same ▸ mem) present
      · exact (inRest j beyond).mp mem
    · exact fun mem => ⟨(inRest j (high j mem)).mpr mem,(high j mem).le⟩

theorem pageEnds (framed : Framed keys body P) {page front : List κ} {last : κ} {st : S} (holds : P st)
    (is : page = front ++ [last]) (order : page.Pairwise (· < ·)) (inside : ∀ k ∈ page, k ∈ keys st) :
    ∃ st', P (visit body front st).1 ∧ last ∈ keys (visit body front st).1 ∧
      body last (visit body front st).1 = (st',true) ∧ visit body page st = (st',true) ∧ P st' ∧
      ∀ j, last < j → (j ∈ keys st' ↔ j ∈ keys st) := by
  obtain ⟨frontSorted,-,cross⟩ := List.pairwise_append.mp (is ▸ order)
  have top : ∀ k ∈ front, k < last := fun k mem => cross k mem last List.mem_cons_self
  obtain ⟨goes,before,kept⟩ := visitFramed framed holds frontSorted
    fun k mem => inside k (is ▸ List.mem_append_left _ mem)
  have lastInside := (kept last top).mpr (inside last (is ▸ List.mem_append_right _ List.mem_cons_self))
  obtain ⟨more,after,-⟩ := framed last _ before lastInside
  have above := (visitFramed framed holds order inside).2.2
  have run : visit body page st = body last (visit body front st).1 := by
    rw [is,visitAppend body front [last] st goes]
    cases step : body last (visit body front st).1 with
    | mk st' go =>
      rw [step] at more
      cases more
      simp [visit,step]
  rw [run] at above
  cases step : body last (visit body front st).1 with
  | mk st' go =>
    rw [step] at more after above
    cases more
    refine ⟨st',before,lastInside,rfl,run.trans step,after,fun j beyond => above j fun k mem => ?_⟩
    rw [is] at mem
    rcases List.mem_append.mp mem with inFront | same
    · exact (top k inFront).trans beyond
    · exact (List.mem_singleton.mp same) ▸ beyond

theorem lastLate {page front rest listing : List κ} {last : κ} {late : κ → Prop} (several : 2 ≤ page.length)
    (is : page = front ++ [last]) (split : listing = front ++ last :: rest) (order : listing.Pairwise (· < ·))
    (lates : ∀ j ∈ listing, ∀ k ∈ listing, j < k → late k) : late last := by
  obtain ⟨-,-,cross⟩ := List.pairwise_append.mp (split ▸ order)
  have lastListed : last ∈ listing := by rw [split]; simp
  cases front with
  | nil =>
    rw [is] at several
    simp at several
  | cons j front =>
    have first : j ∈ listing := by rw [split]; simp
    exact lates j first last lastListed (cross j List.mem_cons_self last List.mem_cons_self)

theorem pagesVisit {limit : Nat} (several : 2 ≤ limit) {late : κ → Prop}
    (sorted : ∀ st, (keys st).Pairwise (· < ·)) (framed : Framed keys body P)
    (again : ∀ k st, P st → k ∈ keys st → late k → body k (body k st).1 = ((body k st).1,true))
    {fuel : Nat} {prev : κ} {st : S} {listing : List κ} (holds : P st)
    (listed : (keys st).filter (fun k => prev ≤ k) = listing) (enough : listing.length < fuel)
    (lates : ∀ j ∈ listing, ∀ k ∈ listing, j < k → late k) :
    pages keys body limit fuel prev st = (visit body listing st).1 := by
  induction fuel generalizing prev st listing with
  | zero => omega
  | succ fuel ih =>
    have order : listing.Pairwise (· < ·) := listed ▸ (sorted st).filter _
    have inside : ∀ k ∈ listing, k ∈ keys st := by
      intro k mem
      rw [← listed] at mem
      exact (List.mem_filter.mp mem).1
    simp only [pages,listed]
    cases ends : (listing.take limit).getLast? with
    | none =>
      have empty : listing = [] := by
        rcases List.take_eq_nil_iff.mp (List.getLast?_eq_none_iff.mp ends) with zero | nil
        · omega
        · exact nil
      simp [empty,visit]
    | some last =>
      obtain ⟨front,page⟩ := List.getLast?_eq_some_iff.mp ends
      have split : listing = front ++ last :: listing.drop limit := by
        have whole := List.take_append_drop limit listing
        rw [page,List.append_assoc,List.singleton_append] at whole
        exact whole.symm
      obtain ⟨st',before,lastInside,step,pageRun,after,above⟩ := pageEnds framed holds page
        (order.sublist (List.take_sublist _ _)) fun k mem => inside k (List.mem_of_mem_take mem)
      have whole : visit body listing st = visit body (listing.drop limit) st' := by
        conv_lhs => rw [← List.take_append_drop limit listing]
        rw [visitAppend body _ _ st (by rw [pageRun]),pageRun]
      rw [pageRun,whole]
      dsimp only
      split
      · rename_i full
        have next := nextListing sorted (listed.trans split) above
        have shorter : (listing.drop limit).length + limit = listing.length := by
          rw [List.length_drop]
          have := List.length_take (i := limit) (l := listing)
          omega
        have lastListed : last ∈ listing := by rw [split]; simp
        have inListing : ∀ k ∈ listing.drop limit, k ∈ listing := fun k mem => List.mem_of_mem_drop mem
        by_cases present : last ∈ keys st'
        · rw [if_pos present] at next
          have idle : body last st' = (st',true) := by
            have := again last _ before lastInside (lastLate (full.symm ▸ several) page split order lates)
            rw [step] at this
            exact this
          have inBoth : ∀ k ∈ last :: listing.drop limit, k ∈ listing := by
            intro k mem
            rcases List.mem_cons.mp mem with rfl | rest
            · exact lastListed
            · exact inListing k rest
          rw [ih after next (by simp only [List.length_cons]; omega)
            fun j hj k hk => lates j (inBoth j hj) k (inBoth k hk)]
          simp [visit,idle]
        · rw [if_neg present] at next
          exact ih after next (by omega) (fun j hj k hk => lates j (inListing j hj) k (inListing k hk))
      · rename_i short
        have all : listing.drop limit = [] := by
          rw [List.drop_eq_nil_iff]
          rw [List.length_take] at short
          omega
        rw [all]
        rfl

end
end Paging
