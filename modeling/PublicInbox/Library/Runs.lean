import Mathlib.Data.List.Induction
import Mathlib.Data.List.Infix

/-! Replacing the maximal runs of a class of letters in a text. -/
namespace Runs
variable {α : Type} {inRun : α → Bool} {replace : List α → List α}

def subst (inRun : α → Bool) (replace : List α → List α) : List α → List α → List α
  | run,[] => replace run
  | run,c :: t => if inRun c then subst inRun replace (run ++ [c]) t else replace run ++ c :: subst inRun replace [] t

def Stops (inRun : α → Bool) (c : Option α) : Prop := ∀ x ∈ c,inRun x = false

theorem substRun {w : List α} (all : ∀ c ∈ w,inRun c = true) (run t : List α) :
    subst inRun replace run (w ++ t) = subst inRun replace (run ++ w) t := by
  induction w generalizing run with
  | nil => rw [List.append_nil,List.nil_append]
  | cons c w ih =>
    rw [List.cons_append,subst,if_pos (all c List.mem_cons_self),ih (fun x mem => all x (List.mem_cons_of_mem _ mem)),
      List.append_assoc,List.singleton_append]

theorem substStop (empty : replace [] = []) {t : List α} (stops : Stops inRun t.head?) (run : List α) :
    subst inRun replace run t = replace run ++ subst inRun replace [] t := by
  cases t with
  | nil => rw [subst,subst,empty,List.append_nil]
  | cons c t =>
    have outside : inRun c = false := stops c rfl
    simp only [subst,outside,Bool.false_eq_true,if_false,empty,List.nil_append]

theorem substPast (empty : replace [] = []) {c : α} (outside : inRun c = false) (run x y : List α) :
    subst inRun replace run (x ++ c :: y) = subst inRun replace run (x ++ [c]) ++ subst inRun replace [] y := by
  induction x generalizing run with
  | nil =>
    simp only [List.nil_append,subst,outside,Bool.false_eq_true,if_false,List.append_assoc,List.cons_append,empty]
  | cons d x ih =>
    simp only [List.cons_append,subst,ih]
    split <;> simp only [List.append_assoc,List.cons_append]

theorem substSplit (empty : replace [] = []) {x : List α} (stops : Stops inRun x.getLast?) (y : List α) :
    subst inRun replace [] (x ++ y) = subst inRun replace [] x ++ subst inRun replace [] y := by
  rcases List.eq_nil_or_concat x with rfl | ⟨front,c,rfl⟩
  · rw [List.nil_append,subst,empty,List.nil_append]
  · rw [List.concat_eq_append] at stops ⊢
    rw [List.append_assoc,List.singleton_append]
    exact substPast empty (stops c List.getLast?_concat) [] front y

theorem substClean {run t : List α} (clean : ∀ w,w <:+: run ++ t → replace w = w) :
    subst inRun replace run t = run ++ t := by
  induction t generalizing run with
  | nil =>
    rw [subst,List.append_nil]
    exact clean run (List.infix_append' [] run [])
  | cons c t ih =>
    rw [subst]
    split
    · rw [ih (fun w part => clean w (by rwa [List.append_assoc,List.singleton_append] at part)),List.append_assoc,
        List.singleton_append]
    · rw [clean run (List.infix_append' [] run _),@ih [] fun w part => clean w
        (part.trans ⟨run ++ [c],[],by rw [List.nil_append,List.append_nil,List.append_assoc,List.singleton_append]⟩),
        List.nil_append]

theorem lastRun (inRun : α → Bool) (x : List α) : ∃ front run,x = front ++ run ∧ (∀ c ∈ run,inRun c = true) ∧
    Stops inRun front.getLast? ∧ (run = [] ↔ Stops inRun x.getLast?) := by
  induction x using List.reverseRecOn with
  | nil => exact ⟨[],[],rfl,List.forall_mem_nil _,fun _ none => (nomatch none),fun _ _ none => (nomatch none),fun _ => rfl⟩
  | append_singleton x c ih =>
    have last : (x ++ [c]).getLast? = some c := List.getLast?_concat
    rw [last]
    cases letter : inRun c with
    | true =>
      obtain ⟨front,run,rfl,all,stops,-⟩ := ih
      refine ⟨front,run ++ [c],List.append_assoc _ _ _,?_,stops,fun none => absurd none (by simp),fun none => ?_⟩
      · rw [List.forall_mem_append]
        exact ⟨all,List.forall_mem_singleton.mpr letter⟩
      · exact absurd (none c rfl) (by rw [letter]; exact Bool.noConfusion)
    | false =>
      have stops : Stops inRun (some c) := fun d same => Option.some.inj same ▸ letter
      exact ⟨x ++ [c],[],(List.append_nil _).symm,List.forall_mem_nil _,last ▸ stops,fun _ => stops,fun _ => rfl⟩

theorem firstRun (inRun : α → Bool) (y : List α) : ∃ run rest,y = run ++ rest ∧ (∀ c ∈ run,inRun c = true) ∧
    Stops inRun rest.head? ∧ (run = [] ↔ Stops inRun y.head?) := by
  induction y with
  | nil => exact ⟨[],[],rfl,List.forall_mem_nil _,fun _ none => (nomatch none),fun _ _ none => (nomatch none),fun _ => rfl⟩
  | cons c y ih =>
    cases letter : inRun c with
    | true =>
      obtain ⟨run,rest,rfl,all,stops,-⟩ := ih
      refine ⟨c :: run,rest,rfl,List.forall_mem_cons.mpr ⟨letter,all⟩,stops,fun none => (nomatch none),fun none => ?_⟩
      exact absurd (none c rfl) (by rw [letter]; exact Bool.noConfusion)
    | false =>
      have stops : Stops inRun (some c) := fun d same => Option.some.inj same ▸ letter
      exact ⟨[],c :: y,rfl,List.forall_mem_nil _,stops,fun _ => stops,fun _ => rfl⟩

theorem substAround (empty : replace [] = []) {w : List α} (all : ∀ c ∈ w,inRun c = true) (x y : List α) :
    ∃ front before after rest,x = front ++ before ∧ y = after ++ rest ∧
      (before = [] ↔ Stops inRun x.getLast?) ∧ (after = [] ↔ Stops inRun y.head?) ∧
      subst inRun replace [] (x ++ (w ++ y)) =
        subst inRun replace [] front ++ (replace (before ++ (w ++ after)) ++ subst inRun replace [] rest) := by
  obtain ⟨front,before,rfl,earlier,ends,none⟩ := lastRun inRun x
  obtain ⟨after,rest,rfl,later,begins,none'⟩ := firstRun inRun y
  refine ⟨front,before,after,rest,rfl,rfl,none,none',?_⟩
  rw [List.append_assoc,substSplit empty ends,substRun earlier,substRun all,substRun later,substStop empty begins,
    List.nil_append,List.append_assoc]

end Runs
