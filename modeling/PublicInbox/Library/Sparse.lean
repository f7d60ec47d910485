import Mathlib.Data.List.ReduceOption
import Mathlib.Data.List.Nodup
import Mathlib.Data.List.Induction
import Mathlib.Algebra.BigOperators.Group.List.Basic
import Mathlib.Algebra.Ring.Int.Defs

/-! Lists with holes. An entry that is taken out leaves a hole behind, so that the others keep their
positions. -/
namespace Sparse
variable {α β : Type}

def left (xs : List α) (holes : List Nat) : List (Option α) :=
  xs.mapIdx fun i x => if i ∈ holes then none else some x

def numbered (xs : List (Option α)) : List (Nat × α) :=
  xs.zipIdx.filterMap fun (x,i) => x.map (Prod.mk i)

theorem leftNil (xs : List α) : left xs [] = xs.map some := by
  apply List.ext_getElem?
  intro i
  rw [left,List.getElem?_mapIdx,List.getElem?_map]
  rfl

theorem leftGet (xs : List α) (holes : List Nat) (i : Nat) :
    (left xs holes)[i]?.join = if i ∈ holes then none else xs[i]? := by
  rw [left,List.getElem?_mapIdx]
  cases xs[i]? with
  | none => simp
  | some x => simp only [Option.map_some,Option.join_some]

theorem leftSet (xs : List α) (holes : List Nat) (i : Nat) :
    (left xs holes).set i none = left xs (holes ++ [i]) := by
  apply List.ext_getElem?
  intro j
  rw [List.getElem?_set,left,left,List.getElem?_mapIdx,List.getElem?_mapIdx,List.length_mapIdx]
  split
  · rename_i same
    subst same
    split
    · rename_i within
      simp [List.getElem?_eq_getElem within]
    · rename_i past
      rw [List.getElem?_eq_none (Nat.le_of_not_lt past),Option.map_none]
  · rename_i other
    simp [Ne.symm other]

theorem numberedFrom {xs ys : List (Option α)} (same : ∀ i : Nat,xs[i]?.join = ys[i]?.join) (n : Nat) :
    (xs.zipIdx n).filterMap (fun (x,i) => x.map (Prod.mk i)) = (ys.zipIdx n).filterMap fun (x,i) => x.map (Prod.mk i) := by
  have empty : ∀ (zs : List (Option α)) (n : Nat),(∀ i : Nat,zs[i]?.join = none) →
      (zs.zipIdx n).filterMap (fun (x,i) => x.map (Prod.mk i)) = [] := by
    intro zs n holes
    refine List.filterMap_eq_nil_iff.mpr fun ⟨x,i⟩ mem => ?_
    have there := holes (i - n)
    rw [(List.mem_zipIdx_iff_le_and_getElem?_sub.mp mem).2] at there
    cases x with
    | none => rfl
    | some x => cases there
  induction xs generalizing ys n with
  | nil => exact (empty ys n fun i => (same i).symm).symm
  | cons x xs ih =>
    cases ys with
    | nil => exact empty (x :: xs) n same
    | cons y ys =>
      have first : x = y := same 0
      rw [List.zipIdx_cons,List.zipIdx_cons,List.filterMap_cons,List.filterMap_cons,first,ih (fun i => same (i + 1))]

theorem numberedEq {xs ys : List (Option α)} (same : ∀ i : Nat,xs[i]?.join = ys[i]?.join) : numbered xs = numbered ys :=
  numberedFrom same 0

theorem reduceNumbered (xs : List (Option α)) : xs.reduceOption = (numbered xs).map Prod.snd := by
  rw [numbered,List.map_filterMap,List.reduceOption]
  conv_lhs => rw [← List.zipIdx_map_fst 0 xs,List.filterMap_map]
  refine List.filterMap_congr fun ⟨x,i⟩ _ => ?_
  cases x <;> rfl

theorem reduceEq {xs ys : List (Option α)} (same : ∀ i : Nat,xs[i]?.join = ys[i]?.join) : xs.reduceOption = ys.reduceOption := by
  rw [reduceNumbered,reduceNumbered,numberedEq same]

theorem setPerm {xs : List (Option α)} {i : Nat} {x : α} (there : xs[i]?.join = some x) :
    xs.reduceOption.Perm (x :: (xs.set i none).reduceOption) := by
  induction xs generalizing i with
  | nil => cases there
  | cons y ys ih =>
    cases i with
    | zero =>
      obtain rfl : y = some x := there
      rw [List.set_cons_zero,List.reduceOption_cons_of_some,List.reduceOption_cons_of_none]
    | succ i =>
      have rest := ih (i := i) there
      rw [List.set_cons_succ]
      cases y with
      | none =>
        rw [List.reduceOption_cons_of_none,List.reduceOption_cons_of_none]
        exact rest
      | some y =>
        rw [List.reduceOption_cons_of_some,List.reduceOption_cons_of_some]
        exact (rest.cons y).trans (.swap x y _)

theorem sumSet {f : α → Int} {xs : List (Option α)} {i : Nat} {x : α} (there : xs[i]?.join = some x) :
    ((xs.set i none).reduceOption.map f).sum = (xs.reduceOption.map f).sum - f x := by
  rw [((setPerm there).map f).sum_eq,List.map_cons,List.sum_cons]
  omega

theorem reduceLeft {xs : List α} {holes : List Nat} (apart : holes.Nodup) (within : ∀ i ∈ holes,i < xs.length) :
    (left xs holes).reduceOption.length + holes.length = xs.length := by
  induction holes using List.reverseRecOn with
  | nil =>
    have : (xs.map some).reduceOption = xs := by rw [List.reduceOption,List.filterMap_map]; exact List.filterMap_some
    rw [leftNil,this,List.length_nil,Nat.add_zero]
  | append_singleton holes i ih =>
    obtain ⟨before,-,fresh⟩ := List.nodup_append.mp apart
    have small : i < xs.length := within i (by simp)
    have there : (left xs holes)[i]?.join = some xs[i] := by
      rw [leftGet,if_neg fun mem => fresh i mem i (by simp) rfl,List.getElem?_eq_getElem small]
    have count := (setPerm there).length_eq
    have old := ih before fun j mem => within j (List.mem_append_left _ mem)
    rw [leftSet,List.length_cons] at count
    rw [List.length_append,List.length_singleton]
    omega

end Sparse
