import Mathlib.Data.Prod.Lex
import Mathlib.Order.WellFounded

/-! Machines that take one event after another, each of them only where it fits, and ranks that every step lowers. -/
namespace Descent
variable {σ ε ρ : Type}

def runs (step : σ → ε → Option σ) : σ → List ε → Option σ
  | s,[] => some s
  | s,e :: es => (step s e).bind fun t => runs step t es

def Later (step : σ → ε → Option σ) (t s : σ) : Prop := ∃ e,step s e = some t

def Final (step : σ → ε → Option σ) (s : σ) : Prop := ∀ e,step s e = none

variable {step : σ → ε → Option σ}

theorem runsCons {s u : σ} {e : ε} {es : List ε} (run : runs step s (e :: es) = some u) :
    ∃ t,step s e = some t ∧ runs step t es = some u := Option.bind_eq_some_iff.mp run

theorem runsFinal {s t : σ} {es : List ε} (final : Final step s) (run : runs step s es = some t) : es = [] ∧ t = s := by
  cases es with
  | nil => exact ⟨rfl,(Option.some.inj run).symm⟩
  | cons e es =>
    obtain ⟨u,taken,-⟩ := runsCons run
    exact absurd (final e) (by rw [taken]; exact Option.some_ne_none u)

theorem keeps (inv : σ → Prop) (kept : ∀ s e t,inv s → step s e = some t → inv t) {s t : σ} {es : List ε} (start : inv s)
    (run : runs step s es = some t) : inv t := by
  induction es generalizing s with
  | nil => exact Option.some.inj run ▸ start
  | cons e es ih =>
    obtain ⟨u,taken,run⟩ := runsCons run
    exact ih (kept s e u start taken) run

theorem ends [LT ρ] [WellFoundedLT ρ] (inv : σ → Prop) (rank : σ → ρ) (kept : ∀ s e t,inv s → step s e = some t → inv t)
    (lowers : ∀ s e t,inv s → step s e = some t → rank t < rank s) {s : σ} (start : inv s) : Acc (Later step) s := by
  have acc : Acc (· < ·) (rank s) := wellFounded_lt.apply (rank s)
  generalize same : rank s = r at acc
  induction acc generalizing s with
  | intro r _ ih =>
    subst same
    refine Acc.intro s fun t later => ?_
    obtain ⟨e,taken⟩ := later
    exact ih (rank t) (lowers s e t start taken) (kept s e t start taken) rfl

end Descent
