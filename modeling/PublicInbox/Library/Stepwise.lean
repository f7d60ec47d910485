/-! Folding a step along a list while a condition holds of every state a step starts from,
and what such a run keeps. -/
namespace Stepwise
variable {σ τ α β : Type}

def Along (step : σ → α → σ) (p : σ → α → Prop) : σ → List α → Prop
  | _, [] => True
  | s, x :: xs => p s x ∧ Along step p (step s x) xs

instance decidableAlong (step : σ → α → σ) (p : σ → α → Prop) [∀ s x, Decidable (p s x)] (s : σ) :
    (xs : List α) → Decidable (Along step p s xs)
  | [] => inferInstanceAs (Decidable True)
  | x :: xs =>
    have := decidableAlong step p (step s x) xs
    inferInstanceAs (Decidable (p s x ∧ Along step p (step s x) xs))

theorem alongAppend {step : σ → α → σ} {p : σ → α → Prop} {s : σ} {xs ys : List α} :
    Along step p s (xs ++ ys) ↔ Along step p s xs ∧ Along step p (xs.foldl step s) ys := by
  induction xs generalizing s with
  | nil => simp [Along]
  | cons x xs ih => simp only [List.cons_append,Along,List.foldl_cons,ih,and_assoc]

theorem alongAll {step : σ → α → σ} {p : σ → α → Prop} (all : ∀ s x, p s x) (s : σ) (xs : List α) :
    Along step p s xs := by
  induction xs generalizing s with
  | nil => trivial
  | cons x xs ih => exact ⟨all s x,ih (step s x)⟩

theorem keeps (inv : σ → Prop) {step : σ → α → σ} {p : σ → α → Prop}
    (kept : ∀ s x, inv s → p s x → inv (step s x)) {s : σ} {xs : List α}
    (start : inv s) (run : Along step p s xs) : inv (xs.foldl step s) := by
  induction xs generalizing s with
  | nil => exact start
  | cons x xs ih => exact ih (kept s x start run.1) run.2

theorem alongMono (inv : σ → Prop) {step : σ → α → σ} {p q : σ → α → Prop} (gives : ∀ s x, inv s → p s x → q s x)
    (kept : ∀ s x, inv s → p s x → inv (step s x)) {s : σ} {xs : List α} (start : inv s) (run : Along step p s xs) :
    Along step q s xs := by
  induction xs generalizing s with
  | nil => trivial
  | cons x xs ih => exact ⟨gives s x start run.1,ih (kept s x start run.1) run.2⟩

theorem alongIff (inv : σ → Prop) {step : σ → α → σ} {p q : σ → α → Prop} (same : ∀ s x, inv s → (p s x ↔ q s x))
    (kept : ∀ s x, inv s → p s x → inv (step s x)) {s : σ} {xs : List α} (start : inv s) :
    Along step p s xs ↔ Along step q s xs := by
  induction xs generalizing s with
  | nil => exact Iff.rfl
  | cons x xs ih =>
    simp only [Along,← same s x start]
    exact and_congr_right fun met => ih (kept s x start met)

theorem alongShown (inv good : σ → Prop) {step : σ → α → σ} {p : σ → α → Prop} (gives : ∀ s, inv s → good s)
    (kept : ∀ s x, inv s → p s x → inv (step s x)) (shown : ∀ s x, inv s → good (step s x) → p s x) {s : σ} {xs : List α}
    (start : inv s) : (∀ n, good ((xs.take n).foldl step s)) ↔ Along step p s xs := by
  induction xs generalizing s with
  | nil =>
    simp only [List.take_nil,List.foldl_nil]
    exact ⟨fun _ => trivial,fun _ _ => gives s start⟩
  | cons x xs ih =>
    constructor
    · intro all
      have met := shown s x start (all 1)
      exact ⟨met,(ih (kept s x start met)).mp fun n => all (n + 1)⟩
    · rintro ⟨met,rest⟩ n
      cases n with
      | zero => exact gives s start
      | succ n => exact (ih (kept s x start met)).mpr rest n

def outputs (step : σ → α → σ) (out : σ → α → β) : σ → List α → List β
  | _, [] => []
  | s, x :: xs => out s x :: outputs step out (step s x) xs

theorem sameOutputs (rel : σ → τ → Prop) {step : σ → α → σ} {step' : τ → α → τ} {out : σ → α → β} {out' : τ → α → β}
    {p : σ → α → Prop} (sim : ∀ s u x, rel s u → p s x → rel (step s x) (step' u x))
    (same : ∀ s u x, rel s u → p s x → out s x = out' u x) {s : σ} {u : τ} {xs : List α}
    (start : rel s u) (run : Along step p s xs) : outputs step out s xs = outputs step' out' u xs := by
  induction xs generalizing s u with
  | nil => rfl
  | cons x xs ih =>
    rw [outputs,outputs,same s u x start run.1,ih (sim s u x start run.1) run.2]

theorem keepsAll (inv : σ → Prop) {step : σ → α → σ} {xs : List α}
    (kept : ∀ s, ∀ x ∈ xs, inv s → inv (step s x)) {s : σ} (start : inv s) :
    inv (xs.foldl step s) := by
  induction xs generalizing s with
  | nil => exact start
  | cons x xs ih =>
    exact ih (fun s y mem => kept s y (List.mem_cons_of_mem _ mem))
      (kept s x List.mem_cons_self start)

theorem stays {step : σ → α → σ} {s : σ} {xs : List α} (idle : ∀ x ∈ xs, step s x = s) :
    xs.foldl step s = s := by
  induction xs with
  | nil => rfl
  | cons x xs ih =>
    rw [List.foldl_cons,idle x List.mem_cons_self]
    exact ih (fun y mem => idle y (List.mem_cons_of_mem _ mem))

end Stepwise
