import Mathlib.Data.List.Nodup
import Mathlib.Order.Lattice

/-! A listing read on from the last key of each page (key > ?), and a listing with only the first entry of each key. -/
namespace Listing

theorem madeFrom {α β : Type} {r : α → β → Prop} {l : List α} {m : List β} (made : List.Forall₂ r l m) {b : β} (mem : b ∈ m) :
    ∃ a ∈ l,r a b := by
  induction made with
  | nil => cases mem
  | cons has _ ih =>
    rcases List.mem_cons.mp mem with rfl | later
    · exact ⟨_,List.mem_cons_self,has⟩
    · obtain ⟨a,there,is⟩ := ih later
      exact ⟨a,List.mem_cons_of_mem _ there,is⟩

theorem countMade {α β : Type} {r : α → β → Prop} {l : List α} {m : List β} {p : α → Bool} {q : β → Bool}
    (made : List.Forall₂ r l m) (same : ∀ a b,r a b → p a = q b) : l.countP p = m.countP q := by
  induction made with
  | nil => rfl
  | cons has _ ih => rw [List.countP_cons,List.countP_cons,ih,same _ _ has]

theorem countOne {α : Type} {l : List α} (nodup : l.Nodup) {p : α → Bool} : l.countP p = 1 ↔ ∃! a,a ∈ l ∧ p a = true := by
  rw [List.countP_eq_length_filter,List.length_eq_one_iff]
  constructor
  · rintro ⟨a,is⟩
    have mem : ∀ b,b ∈ l ∧ p b = true ↔ b = a := fun b => by rw [← List.mem_filter,is,List.mem_singleton]
    exact ⟨a,(mem a).mpr rfl,fun b has => (mem b).mp has⟩
  · rintro ⟨a,has,unique⟩
    have perm : (l.filter p).Perm [a] := by
      refine (List.perm_ext_iff_of_nodup (nodup.filter p) (List.nodup_singleton a)).mpr fun b => ?_
      rw [List.mem_filter,List.mem_singleton]
      exact ⟨unique b,fun same => same ▸ has⟩
    exact ⟨a,List.perm_singleton.mp perm⟩

theorem afterPage {α : Type} [LinearOrder α] {l : List α} (sorted : l.Pairwise (· < ·)) {limit : Nat} {last : α}
    (ends : (l.take limit).getLast? = some last) : l.filter (last < ·) = l.drop limit := by
  obtain ⟨front,page⟩ := List.getLast?_eq_some_iff.mp ends
  have whole : l = l.take limit ++ l.drop limit := (List.take_append_drop limit l).symm
  rw [whole] at sorted
  obtain ⟨pageSorted,-,cross⟩ := List.pairwise_append.mp sorted
  have below : (l.take limit).filter (last < ·) = [] := by
    refine List.filter_eq_nil_iff.mpr fun x mem => ?_
    rw [decide_eq_true_eq,not_lt]
    rw [page] at mem pageSorted
    rcases List.mem_append.mp mem with before | same
    · exact ((List.pairwise_append.mp pageSorted).2.2 x before last List.mem_cons_self).le
    · exact (List.mem_singleton.mp same).le
  have above : (l.drop limit).filter (last < ·) = l.drop limit := by
    refine List.filter_eq_self.mpr fun x mem => decide_eq_true (cross last ?_ x mem)
    rw [page]
    exact List.mem_append_right _ List.mem_cons_self
  conv_lhs => rw [whole]
  rw [List.filter_append,below,above,List.nil_append]

variable {α β κ : Type} [DecidableEq κ]

def firsts (key : α → κ) (l : List α) : List α := l.eraseDupsBy fun a b => key a == key b

theorem firstsCons (key : α → κ) (a : α) (l : List α) : firsts key (a :: l) = a :: firsts key (l.filter (key · ≠ key a)) := by
  rw [firsts,List.eraseDupsBy_cons]
  refine congrArg (a :: ·) (congrArg (List.eraseDupsBy _) (List.filter_congr fun b _ => ?_))
  by_cases same : key b = key a <;> simp [same]

theorem firstsSublist (key : α → κ) : (l : List α) → (firsts key l).Sublist l
  | [] => .slnil
  | a :: l => by
    rw [firstsCons]
    exact ((firstsSublist key (l.filter (key · ≠ key a))).trans List.filter_sublist).cons_cons a
  termination_by l => l.length
  decreasing_by exact Nat.lt_succ_of_le (List.length_filter_le _ _)

theorem memFirsts {key : α → κ} {r : α → α → Prop} (asymm : ∀ a b,r a b → ¬ r b a) : (l : List α) → l.Pairwise r →
    ∀ x,x ∈ firsts key l ↔ x ∈ l ∧ ∀ y ∈ l,key y = key x → ¬ r y x
  | [],_,x => by simp [firsts]
  | a :: l,sorted,x => by
    obtain ⟨before,rest⟩ := List.pairwise_cons.mp sorted
    rw [firstsCons,List.mem_cons,memFirsts asymm (l.filter (key · ≠ key a)) (rest.sublist List.filter_sublist) x,List.mem_filter,
      decide_eq_true_eq]
    constructor
    · rintro (rfl | ⟨⟨mem,other⟩,first⟩)
      · refine ⟨List.mem_cons_self,fun y mem _ earlier => ?_⟩
        rcases List.mem_cons.mp mem with rfl | later
        · exact asymm y y earlier earlier
        · exact asymm y x earlier (before y later)
      · refine ⟨List.mem_cons_of_mem _ mem,fun y mem' same earlier => ?_⟩
        rcases List.mem_cons.mp mem' with rfl | later
        · exact other same.symm
        · exact first y (List.mem_filter.mpr ⟨later,decide_eq_true (same ▸ other)⟩) same earlier
    · rintro ⟨mem,first⟩
      rcases List.mem_cons.mp mem with rfl | later
      · exact .inl rfl
      · have other : key x ≠ key a := fun same => first a List.mem_cons_self same.symm (before x later)
        exact .inr ⟨⟨later,other⟩,fun y kept => first y (List.mem_cons_of_mem _ (List.mem_of_mem_filter kept))⟩
  termination_by l => l.length
  decreasing_by exact Nat.lt_succ_of_le (List.length_filter_le _ _)

end Listing
