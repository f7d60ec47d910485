import Mathlib.Order.Lattice
import Mathlib.Data.List.Basic

/-! The first entries of a listing in descending order of a key that several entries may share. -/
namespace Windows
variable {α κ : Type} [LinearOrder κ] {key : α → κ} {l : List α} {n : Nat}

theorem aboveInside (sorted : l.Pairwise fun a b => key b ≤ key a) {m x : α} (inside : m ∈ l.take n) (mem : x ∈ l)
    (above : key m < key x) : x ∈ l.take n := by
  rw [← List.take_append_drop n l] at sorted mem
  rcases List.mem_append.mp mem with here | behind
  · exact here
  · exact absurd ((List.pairwise_append.mp sorted).2.2 m inside x behind) (not_le.mpr above)

theorem lastLeast (sorted : l.Pairwise fun a b => key b ≤ key a) {last : α} (is : (l.take n).getLast? = some last) :
    ∀ m ∈ l.take n,key last ≤ key m := by
  obtain ⟨most,shape⟩ := List.getLast?_eq_some_iff.mp is
  have part := sorted.sublist (List.take_sublist n l)
  rw [shape] at part ⊢
  intro m mem
  rcases List.mem_append.mp mem with before | same
  · exact (List.pairwise_append.mp part).2.2 m before last (List.mem_singleton.mpr rfl)
  · exact le_of_eq (congrArg key (List.mem_singleton.mp same)).symm

theorem fullBeyond (sorted : l.Pairwise fun a b => key b ≤ key a) {last : α} (is : (l.take n).getLast? = some last)
    (full : (l.take n).length = n) (few : (l.filter fun x => decide (key x = key last)).length < n) :
    ∃ m ∈ l.take n,key last < key m := by
  refine Classical.byContradiction fun no => ?_
  have same : ∀ m ∈ l.take n,decide (key m = key last) = true := by
    intro m mem
    rw [decide_eq_true_iff]
    exact le_antisymm (not_lt.mp fun above => no ⟨m,mem,above⟩) (lastLeast sorted is m mem)
  have whole : (l.take n).filter (fun x => decide (key x = key last)) = l.take n := List.filter_eq_self.mpr same
  have part := ((List.take_sublist n l).filter fun x => decide (key x = key last)).length_le
  rw [whole,full] at part
  exact absurd few (Nat.not_lt.mpr part)

end Windows
