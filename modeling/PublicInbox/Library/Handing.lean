import Mathlib.Data.List.TakeWhile
import Mathlib.Data.List.Nodup

/-! A mark that is handed on along a list: an element that has it gives it to all of a set and loses
it itself. -/
namespace Handing
variable {α : Type} [DecidableEq α] (v : α → Bool)

def hand (h : α → Bool) (m : α) : α → Bool := fun k => if h m then k ≠ m && (h k || v k) else h k

def last (h : α → Bool) (ms : List α) : Option α := ((ms.dropWhile (fun m => !h m)).filter (fun m => h m || v m)).getLast?

variable {v}

theorem idle {h : α → Bool} {ms : List α} (none : ∀ m ∈ ms,h m = false) : ms.foldl (hand v) h = h := by
  induction ms with
  | nil => rfl
  | cons m ms ih =>
    have first : hand v h m = h := by
      funext k
      simp [hand,none m List.mem_cons_self]
    rw [List.foldl_cons,first]
    exact ih fun k mem => none k (List.mem_cons_of_mem _ mem)

theorem handed {h h₀ : α → Bool} {ms : List α} {known : α → Prop} {holder : α} (apart : ms.Nodup)
    (past : ∀ k,known k → (h k = true ↔ v k = true ∧ k ≠ holder)) (next : ∀ m ∈ ms,h m = (h₀ m || v m))
    (fresh : ∀ m ∈ ms,¬ known m) (k : α) (own : known k ∨ k ∈ ms) :
    (ms.foldl (hand v) h) k = true ↔ v k = true ∧ k ≠ ((ms.filter (fun m => h₀ m || v m)).getLast?).getD holder := by
  induction ms generalizing h known holder with
  | nil => exact past k (own.resolve_right List.not_mem_nil)
  | cons m ms ih =>
    obtain ⟨new,rest⟩ := List.nodup_cons.mp apart
    have turn := next m List.mem_cons_self
    have other : ∀ j ∈ ms,j ≠ m := fun j mem same => new (same ▸ mem)
    rw [List.foldl_cons]
    have own' : (known k ∨ k = m) ∨ k ∈ ms := by
      rcases own with before | mem
      · exact Or.inl (Or.inl before)
      · exact (List.mem_cons.mp mem).imp_left Or.inr
    have fresh' : ∀ j ∈ ms,¬ (known j ∨ j = m) := fun j mem => not_or.mpr ⟨fresh j (List.mem_cons_of_mem _ mem),other j mem⟩
    cases has : h₀ m || v m with
    | true =>
      rw [has] at turn
      have step := @ih (hand v h m) (fun k => known k ∨ k = m) m rest ?_ ?_ fresh' own'
      · have keeps : (m :: ms).filter (fun m => h₀ m || v m) = m :: ms.filter (fun m => h₀ m || v m) := List.filter_cons_of_pos has
        rw [step,keeps]
        cases later : (ms.filter (fun m => h₀ m || v m)).getLast? with
        | none => rw [List.getLast?_cons,later]; rfl
        | some e => rw [List.getLast?_cons,later]; rfl
      · rintro j (before | rfl)
        · have apart' : j ≠ m := fun same => fresh m List.mem_cons_self (same ▸ before)
          have was := past j before
          simp only [hand,turn,if_true,Bool.and_eq_true,decide_eq_true_eq,Bool.or_eq_true,was,apart',ne_eq,not_false_eq_true,true_and,and_true]
          exact ⟨fun either => either.elim And.left id,Or.inr⟩
        · simp [hand,turn]
      · intro j mem
        have was := next j (List.mem_cons_of_mem _ mem)
        simp only [hand,turn,if_true,was,other j mem,ne_eq,not_false_eq_true,decide_true,Bool.true_and,Bool.or_assoc,Bool.or_self]
    | false =>
      rw [has] at turn
      have same : hand v h m = h := by
        funext k
        simp [hand,turn]
      obtain ⟨-,out⟩ := Bool.or_eq_false_iff.mp has
      have step := @ih h (fun k => known k ∨ k = m) holder rest ?_
        (fun j mem => next j (List.mem_cons_of_mem _ mem)) fresh' own'
      · have drops : (m :: ms).filter (fun m => h₀ m || v m) = ms.filter (fun m => h₀ m || v m) :=
          List.filter_cons_of_neg (by rw [has]; exact Bool.false_ne_true)
        rw [same,step,drops]
      · rintro j (before | rfl)
        · exact past j before
        · simp [turn,out]

theorem atEnd {h : α → Bool} {ms : List α} (apart : ms.Nodup) {k : α} (own : k ∈ ms) :
    (if ms.all (fun m => !h m) then h k || v k else (ms.foldl (hand v) h) k) = true ↔ v k = true ∧ last v h ms ≠ some k := by
  have split := List.takeWhile_append_dropWhile (p := fun m => !h m) (l := ms)
  have front : ∀ m ∈ ms.takeWhile (fun m => !h m),h m = false := fun m mem => by simpa using List.mem_takeWhile_imp mem
  cases found : ms.dropWhile (fun m => !h m) with
  | nil =>
    have none := List.dropWhile_eq_nil_iff.mp found
    rw [if_pos (List.all_eq_true.mpr none),last,found]
    have lacks : h k = false := by simpa using none k own
    simp [lacks]
  | cons f rest =>
    have first : h f = true := by
      have head := List.head?_dropWhile_not (fun m => !h m) ms
      rw [found] at head
      simpa using head
    have some : ¬ ms.all (fun m => !h m) = true := by
      intro all
      rw [List.dropWhile_eq_nil_iff.mpr (List.all_eq_true.mp all)] at found
      cases found
    rw [found] at split
    have apart' := split ▸ apart
    obtain ⟨-,tail,cross⟩ := List.nodup_append.mp apart'
    obtain ⟨new,rest'⟩ := List.nodup_cons.mp tail
    rw [if_neg some]
    conv_lhs => rw [← split]
    rw [List.foldl_append,idle front,List.foldl_cons]
    have result := @handed _ _ v (hand v h f) h rest (fun k => k ∈ ms.takeWhile (fun m => !h m) ∨ k = f) f rest' ?_ ?_ ?_ k ?_
    · rw [result,last,found]
      have keeps : (f :: rest).filter (fun m => h m || v m) = f :: rest.filter (fun m => h m || v m) :=
        List.filter_cons_of_pos (by rw [first]; rfl)
      rw [keeps,List.getLast?_cons]
      exact and_congr_right fun _ => ⟨fun apart same => apart (Option.some.inj same).symm,fun apart same => apart (congrArg Option.some same.symm)⟩
    · rintro j (before | rfl)
      · have apart : j ≠ f := cross j before f List.mem_cons_self
        simp [hand,first,front j before,apart]
      · simp [hand,first]
    · intro j mem
      have apart : j ≠ f := fun same => new (same ▸ mem)
      simp [hand,first,apart]
    · rintro j mem (before | rfl)
      · exact cross j before j (List.mem_cons_of_mem _ mem) rfl
      · exact new mem
    · rw [← split] at own
      rcases List.mem_append.mp own with before | after
      · exact Or.inl (Or.inl before)
      · exact (List.mem_cons.mp after).imp_left Or.inr

end Handing
