import Mathlib.Data.Nat.Digits.Defs

/-! Decimal numbers as text. -/
namespace Decimal

def digitVal (c : Char) : Nat := c.toNat - '0'.toNat

def value (ds : List Char) : Nat := ds.foldl (fun n c => 10 * n + digitVal c) 0

def render (n : Nat) : List Char := if n = 0 then ['0'] else ((Nat.digits 10 n).map Nat.digitChar).reverse

theorem digitOfVal {d : Nat} (small : d < 10) :
    (Nat.digitChar d).isDigit = true ∧ digitVal (Nat.digitChar d) = d := by
  match d,small with
  | 0,_ | 1,_ | 2,_ | 3,_ | 4,_ | 5,_ | 6,_ | 7,_ | 8,_ | 9,_ => exact ⟨rfl,rfl⟩

theorem renderDigits (n : Nat) : ∀ c ∈ render n, c.isDigit = true := by
  intro c mem
  unfold render at mem
  split at mem
  · rw [List.mem_singleton.mp mem]
    rfl
  · obtain ⟨d,digit,rfl⟩ := List.mem_map.mp (List.mem_reverse.mp mem)
    exact (digitOfVal (Nat.digits_lt_base (by omega) digit)).1

theorem renderSome (n : Nat) : render n ≠ [] := by
  unfold render
  split
  · exact List.cons_ne_nil _ _
  · rename_i positive
    simp [Nat.digits_ne_nil_iff_ne_zero.mpr positive]

theorem valueDigits {ds : List Nat} (small : ∀ d ∈ ds, d < 10) :
    value (ds.map Nat.digitChar).reverse = Nat.ofDigits 10 ds := by
  unfold value
  rw [List.foldl_reverse]
  induction ds with
  | nil => rfl
  | cons d ds ih =>
    rw [List.map_cons,List.foldr_cons,ih fun e mem => small e (List.mem_cons_of_mem _ mem),
      (digitOfVal (small d List.mem_cons_self)).2,Nat.ofDigits_cons,Nat.add_comm]

@[simp] theorem valueRender (n : Nat) : value (render n) = n := by
  unfold render
  split
  · rename_i zero
    rw [zero]
    rfl
  · rw [valueDigits fun d mem => Nat.digits_lt_base (by omega) mem,Nat.ofDigits_digits]

theorem valueGrows (ds : List Char) (n : Nat) : n ≤ ds.foldl (fun n c => 10 * n + digitVal c) n := by
  induction ds generalizing n with
  | nil => exact Nat.le_refl n
  | cons c ds ih =>
    have step : n ≤ 10 * n + digitVal c := by omega
    exact step.trans (ih _)

theorem valuePositive {c : Char} {ds : List Char} (digit : c.isDigit = true) (some : c ≠ '0') : 0 < value (c :: ds) := by
  have low : 48 ≤ c.toNat := by
    simp only [Char.isDigit,ge_iff_le,Bool.and_eq_true,decide_eq_true_eq] at digit
    exact digit.1
  have other : c.toNat ≠ 48 := fun same => some (Char.toNat_inj.mp same)
  have first : 0 < 10 * 0 + digitVal c := by
    rw [digitVal,show '0'.toNat = 48 from rfl]
    omega
  exact first.trans_le (valueGrows ds _)

end Decimal
