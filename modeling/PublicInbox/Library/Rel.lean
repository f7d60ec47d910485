import PublicInbox.Library.Table

/-! A table whose rows are their own key: UNIQUE over every column. Rows stand in the order
of the key, which is the order of a SELECT that reads them through that index. -/
namespace Keyed

abbrev Rel (κ : Type) [LinearOrder κ] := Table κ Unit

namespace Rel
variable {κ : Type} [LinearOrder κ]

def Has (t : Rel κ) (k : κ) : Prop := (t.get? k).isSome

instance (t : Rel κ) (k : κ) : Decidable (t.Has k) := inferInstanceAs (Decidable (_ = true))

def add (t : Rel κ) (k : κ) : Rel κ := t.insert k ()

def delete (t : Rel κ) (p : κ → Bool) : Rel κ := t.filter (fun k _ => !p k)

def select (t : Rel κ) (p : κ → Bool) : List κ := t.keysWhere (fun k _ => p k)

def moveOne (f : κ → κ) (t : Rel κ) (k : κ) : Rel κ :=
  if t.Has (f k) then t else (t.delete (fun j => j = k)).add (f k)

def move (t : Rel κ) (p : κ → Bool) (f : κ → κ) : Rel κ := (t.select p).foldl (moveOne f) t

theorem hasKeys {t : Rel κ} {k : κ} : k ∈ t.keys ↔ t.Has k := by
  rw [Table.memKeys,Has,Option.isSome_iff_exists]

@[simp] theorem hasEmpty (k : κ) : ¬ Has (.empty : Rel κ) k := by simp [Has]

@[simp] theorem hasAdd {t : Rel κ} {k j : κ} : (t.add k).Has j ↔ j = k ∨ t.Has j := by
  unfold Has add
  rw [Table.getInsert]
  split
  · rename_i same
    simp [same]
  · rename_i other
    simp [other]

@[simp] theorem hasDelete {t : Rel κ} {p : κ → Bool} {k : κ} :
    (t.delete p).Has k ↔ t.Has k ∧ p k = false := by
  unfold Has delete
  rw [Table.getFilter]
  cases t.get? k <;> cases found : p k <;> simp [Option.filter]

theorem hasSelect {t : Rel κ} {p : κ → Bool} {k : κ} : k ∈ t.select p ↔ t.Has k ∧ p k = true := by
  unfold select Has
  rw [Table.memKeysWhere,Option.isSome_iff_exists,exists_and_right]

theorem selectSorted (t : Rel κ) (p : κ → Bool) : (t.select p).Pairwise (· < ·) :=
  Table.keysWhereSorted _ _

theorem selectNodup (t : Rel κ) (p : κ → Bool) : (t.select p).Nodup :=
  (selectSorted t p).imp ne_of_lt

theorem ext {t u : Rel κ} (same : ∀ k, t.Has k ↔ u.Has k) : t = u := by
  refine Table.ext fun k => ?_
  have both := same k
  unfold Has at both
  cases left : t.get? k <;> cases right : u.get? k <;> simp_all

theorem selectExt {t u : Rel κ} {p : κ → Bool} (same : ∀ k, p k = true → (t.Has k ↔ u.Has k)) :
    t.select p = u.select p := by
  have rows : t.filter (fun k _ => p k) = u.filter (fun k _ => p k) := by
    refine Table.ext fun k => ?_
    rw [Table.getFilter,Table.getFilter]
    cases yes : p k with
    | false => cases t.get? k <;> cases u.get? k <;> rfl
    | true =>
      have both := same k yes
      unfold Has at both
      cases left : t.get? k <;> cases right : u.get? k <;> simp_all
  exact congrArg Table.keys rows

theorem moveOneHas {t : Rel κ} {f : κ → κ} {k j : κ} :
    (moveOne f t k).Has j ↔ (t.Has j ∧ (j = k → t.Has (f k))) ∨ j = f k := by
  unfold moveOne
  split
  · rename_i taken
    constructor
    · exact fun old => Or.inl ⟨old,fun _ => taken⟩
    · rintro (old | rfl)
      · exact old.1
      · exact taken
  · rename_i free
    rw [hasAdd,hasDelete]
    simp only [decide_eq_false_iff_not,free,imp_false]
    exact or_comm

theorem moveHas {t : Rel κ} {p : κ → Bool} {f : κ → κ} (outside : ∀ k, p k = true → p (f k) = false)
    {j : κ} : ((t.move p f).delete p).Has j ↔
      (t.Has j ∧ p j = false) ∨ ∃ k, t.Has k ∧ p k = true ∧ j = f k := by
  have run : ∀ (ks : List κ) (u : Rel κ), (∀ k ∈ ks, p k = true) → ∀ j, p j = false →
      ((ks.foldl (moveOne f) u).Has j ↔ u.Has j ∨ ∃ k ∈ ks, j = f k) := by
    intro ks
    induction ks with
    | nil => simp
    | cons k ks ih =>
      intro u chosen j not
      have other : j ≠ k := by
        rintro rfl
        rw [chosen j List.mem_cons_self] at not
        contradiction
      rw [List.foldl_cons,ih _ (fun x mem => chosen x (List.mem_cons_of_mem _ mem)) j not,moveOneHas]
      simp only [other,false_imp_iff,and_true,List.mem_cons,exists_eq_or_imp,or_assoc]
  have whole := run (t.select p) t (fun k mem => (hasSelect.mp mem).2)
  rw [hasDelete]
  constructor
  · rintro ⟨has,not⟩
    rcases (whole j not).mp has with old | ⟨k,mem,rfl⟩
    · exact Or.inl ⟨old,not⟩
    · obtain ⟨old,yes⟩ := hasSelect.mp mem
      exact Or.inr ⟨k,old,yes,rfl⟩
  · rintro (⟨old,not⟩ | ⟨k,old,yes,rfl⟩)
    · exact ⟨(whole j not).mpr (Or.inl old),not⟩
    · have not := outside k yes
      exact ⟨(whole _ not).mpr (Or.inr ⟨k,hasSelect.mpr ⟨old,yes⟩,rfl⟩),not⟩

end Rel
end Keyed
