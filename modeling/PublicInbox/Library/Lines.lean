import Mathlib.Data.List.Basic

/-! Text as lines, each with the newline that ends it; the last may have none. -/
namespace Lines

def lines : List Char → List (List Char)
  | [] => []
  | c :: cs =>
    if c = '\n' then [c] :: lines cs
    else match lines cs with
      | [] => [[c]]
      | l :: ls => (c :: l) :: ls

def Complete (l : List Char) : Prop := ∃ w,l = w ++ ['\n'] ∧ '\n' ∉ w

@[simp] theorem linesFlatten (t : List Char) : (lines t).flatten = t := by
  induction t with
  | nil => rfl
  | cons c cs ih =>
    unfold lines
    split
    · rw [List.flatten_cons,ih,List.singleton_append]
    · split
      · rename_i none
        rw [none] at ih
        rw [← ih]
        rfl
      · rename_i l ls is
        rw [is] at ih
        rw [← ih]
        rfl

theorem linesFilled (t : List Char) : ∀ l ∈ lines t,l ≠ [] := by
  induction t with
  | nil => exact fun _ mem => nomatch mem
  | cons c cs ih =>
    unfold lines
    split
    · exact List.forall_mem_cons.mpr ⟨List.cons_ne_nil _ _,ih⟩
    · split
      · exact List.forall_mem_singleton.mpr (List.cons_ne_nil _ _)
      · rename_i l ls is
        rw [is] at ih
        exact List.forall_mem_cons.mpr ⟨List.cons_ne_nil _ _,fun k mem => ih k (List.mem_cons_of_mem _ mem)⟩

theorem linesComplete {l : List Char} (complete : Complete l) (t : List Char) : lines (l ++ t) = l :: lines t := by
  obtain ⟨w,rfl,inside⟩ := complete
  induction w with
  | nil => simp [lines]
  | cons c w ih =>
    obtain ⟨first,rest⟩ := List.ne_and_not_mem_of_not_mem_cons inside
    rw [List.append_assoc] at ih
    rw [List.cons_append,List.cons_append,List.append_assoc,lines,if_neg (Ne.symm first),ih rest]

theorem linesAppend {ls : List (List Char)} (complete : ∀ l ∈ ls,Complete l) (t : List Char) :
    lines (ls.flatten ++ t) = ls ++ lines t := by
  induction ls with
  | nil => rfl
  | cons l ls ih =>
    rw [List.flatten_cons,List.append_assoc,linesComplete (complete l List.mem_cons_self),
      ih fun l mem => complete l (List.mem_cons_of_mem _ mem),List.cons_append]

theorem linesOf {ls : List (List Char)} (complete : ∀ l ∈ ls,Complete l) : lines ls.flatten = ls := by
  have whole := linesAppend complete []
  rwa [List.append_nil,lines,List.append_nil] at whole

def Whole (t : List Char) : Prop := ∀ l ∈ lines t,Complete l

theorem wholeNil : Whole [] := fun _ mem => nomatch mem

theorem wholeAppend {t : List Char} (whole : Whole t) (u : List Char) : lines (t ++ u) = lines t ++ lines u := by
  conv_lhs => rw [← linesFlatten t]
  exact linesAppend whole u

theorem wholeFlatten {ls : List (List Char)} (complete : ∀ l ∈ ls,Complete l) : Whole ls.flatten := by
  rw [Whole,linesOf complete]
  exact complete

theorem wholeConcat {t u : List Char} (whole : Whole t) (also : Whole u) : Whole (t ++ u) := by
  intro l mem
  rw [wholeAppend whole,List.mem_append] at mem
  exact mem.elim (whole l) (also l)

theorem wholeNewline (w : List Char) : Whole (w ++ ['\n']) := by
  induction w with
  | nil =>
    intro l mem
    rw [List.mem_singleton.mp mem]
    exact ⟨[],rfl,List.not_mem_nil⟩
  | cons c w ih =>
    intro l mem
    unfold Whole at ih
    rw [List.cons_append,lines] at mem
    split at mem
    · rename_i newline
      rcases List.mem_cons.mp mem with rfl | rest
      · exact ⟨[],by rw [newline]; rfl,List.not_mem_nil⟩
      · exact ih l rest
    · rename_i other
      split at mem
      · rename_i none
        have flat := linesFlatten (w ++ ['\n'])
        rw [none] at flat
        exact absurd flat.symm (by simp)
      · rename_i l' ls is
        rw [is] at ih
        rcases List.mem_cons.mp mem with rfl | rest
        · obtain ⟨v,rfl,inside⟩ := ih l' List.mem_cons_self
          exact ⟨c :: v,rfl,List.not_mem_cons_of_ne_of_not_mem (Ne.symm other) inside⟩
        · exact ih l (List.mem_cons_of_mem _ rest)

end Lines
