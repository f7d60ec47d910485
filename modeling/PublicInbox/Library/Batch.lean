import Mathlib.Data.List.Basic
import Mathlib.Data.List.Perm.Subperm

/-! A loop that reads at most `lim` rows, acts on each, and reads again until a read is short. -/
namespace Batch
variable {S α : Type}

def batches (rows : S → List α) (act : S → α → S) (lim : Nat) : Nat → S → Option S
  | 0, _ => none
  | fuel + 1, s =>
    let page := (rows s).take lim
    let s' := page.foldl act s
    if page.length = lim then batches rows act lim fuel s' else some s'

variable {rows : S → List α} {act : S → α → S} {lim : Nat}

theorem foldAlong (r : S → S → Prop) (refl : ∀ s, r s s) (trans : ∀ {a b c}, r a b → r b c → r a c)
    {xs : List α} (each : ∀ x ∈ xs, ∀ u, r u (act u x)) (s : S) : r s (xs.foldl act s) := by
  induction xs generalizing s with
  | nil => exact refl s
  | cons x xs ih =>
    exact trans (each x List.mem_cons_self s) (ih (fun y mem => each y (List.mem_cons_of_mem _ mem)) (act s x))

theorem batchesKeep (r : S → S → Prop) (refl : ∀ s, r s s) (trans : ∀ {a b c}, r a b → r b c → r a c)
    (each : ∀ s, ∀ x ∈ rows s, ∀ u, r u (act u x)) {fuel : Nat} {s s' : S}
    (run : batches rows act lim fuel s = some s') : r s s' := by
  induction fuel generalizing s with
  | zero => contradiction
  | succ fuel ih =>
    unfold batches at run
    dsimp only at run
    have page : r s (((rows s).take lim).foldl act s) :=
      foldAlong r refl trans (fun x mem => each s x (List.mem_of_mem_take mem)) s
    split at run
    · exact trans page (ih run)
    · cases run
      exact page

theorem batchesEnd (rows : S → List α) (act : S → α → S) (p : S → Prop) (positive : 0 < lim) (nodup : ∀ s, (rows s).Nodup)
    (kept : ∀ s, ∀ x ∈ rows s, ∀ u, p u → p (act u x))
    (clears : ∀ s, p s → ∀ xs : List α, (∀ x ∈ xs, x ∈ rows s) → ∀ y ∈ rows (xs.foldl act s), y ∈ rows s ∧ y ∉ xs)
    {fuel : Nat} {s : S} (holds : p s) (enough : (rows s).length < fuel) :
    ∃ s', batches rows act lim fuel s = some s' ∧ rows s' = [] ∧ p s' := by
  induction fuel generalizing s with
  | zero => omega
  | succ fuel ih =>
    have inside : ∀ x ∈ (rows s).take lim, x ∈ rows s := fun x mem => List.mem_of_mem_take mem
    have after : p (((rows s).take lim).foldl act s) :=
      foldAlong (fun a b => p a → p b) (fun _ => id) (fun first second => second ∘ first)
        (fun x mem => kept s x (inside x mem)) s holds
    have left : ∀ y ∈ rows (((rows s).take lim).foldl act s), y ∈ (rows s).drop lim := by
      intro y mem
      obtain ⟨old,other⟩ := clears s holds _ inside y mem
      rw [← List.take_append_drop lim (rows s)] at old
      exact (List.mem_append.mp old).resolve_left other
    have fewer := (List.Nodup.subperm (nodup _) left).length_le
    rw [List.length_drop] at fewer
    unfold batches
    dsimp only
    split
    · rename_i full
      rw [List.length_take] at full
      exact ih after (by omega)
    · rename_i short
      refine ⟨_,rfl,?_,after⟩
      rw [List.length_take] at short
      exact List.length_eq_zero_iff.mp (by omega)

end Batch
