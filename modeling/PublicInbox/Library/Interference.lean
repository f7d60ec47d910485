/-! A program of atomic steps that runs beside steps of an environment. An outline names what
holds between any two of its steps; each such assertion has to survive the environment and to
imply the safety property. -/
namespace Interference
variable {M S : Type}

structure World (M S : Type) where
  exec : M → S → S → Prop
  env : S → S → Prop
  safe : S → Prop

variable (w : World M S)

structure World.Stable (P : S → Prop) : Prop where
  env : ∀ {s t}, P s → w.env s t → P t
  safe : ∀ {s}, P s → w.safe s

inductive World.Outline : (S → Prop) → List M → (S → Prop) → Prop where
  | nil {P Q} (before : w.Stable P) (after : w.Stable Q) (imp : ∀ {s}, P s → Q s) : Outline P [] Q
  | cons {P R Q m ms} (stable : w.Stable P) (step : ∀ {s t}, P s → w.exec m s t → R t)
      (rest : Outline R ms Q) : Outline P (m :: ms) Q

structure System (M S : Type) extends World M S where
  Op : Type
  program : Op → S → List M
  start : S

inductive System.Reach (y : System M S) (allowed : y.Op → S → Prop) : List M → S → Prop where
  | start : Reach y allowed [] y.start
  | op {s} (o : y.Op) (may : allowed o s) (at_ : Reach y allowed [] s) :
      Reach y allowed (y.program o s) s
  | step {m ms s t} (at_ : Reach y allowed (m :: ms) s) (exec : y.exec m s t) :
      Reach y allowed ms t
  | env {ms s t} (at_ : Reach y allowed ms s) (env : y.env s t) : Reach y allowed ms t

variable {w}

theorem outlineStable {P Q : S → Prop} {ms : List M} (h : w.Outline P ms Q) : w.Stable P := by
  cases h with
  | nil before _ _ => exact before
  | cons stable _ _ => exact stable

theorem outlineStay {P : S → Prop} (stable : w.Stable P) : w.Outline P [] P :=
  .nil stable stable id

theorem outlineFrom {P R Q : S → Prop} {ms : List M} (stable : w.Stable P)
    (imp : ∀ {s}, P s → R s) (h : w.Outline R ms Q) : w.Outline P ms Q := by
  cases h with
  | nil _ after last => exact .nil stable after fun holds => last (imp holds)
  | cons _ step rest => exact .cons stable (fun holds exec => step (imp holds) exec) rest

theorem outlineAppend {P R Q : S → Prop} {ms ns : List M} (first : w.Outline P ms R)
    (second : w.Outline R ns Q) : w.Outline P (ms ++ ns) Q := by
  induction first with
  | nil before _ imp => exact outlineFrom before imp second
  | cons stable step _ ih => exact .cons stable step (ih second)

theorem outlineTo {P Q R : S → Prop} {ms : List M} (h : w.Outline P ms Q) (before : w.Stable Q)
    (after : w.Stable R) (imp : ∀ {s}, Q s → R s) : w.Outline P ms R := by
  have both := outlineAppend h (.nil before after imp)
  rw [List.append_nil] at both
  exact both

theorem outlineOne {P Q : S → Prop} {m : M} (before : w.Stable P) (after : w.Stable Q)
    (step : ∀ {s t}, P s → w.exec m s t → Q t) : w.Outline P [m] Q :=
  .cons before step (outlineStay after)

theorem reachOutline {y : System M S} {allowed : y.Op → S → Prop} {I : S → Prop} (init : I y.start)
    (stable : y.Stable I)
    (ops : ∀ o s, I s → allowed o s → ∃ P, P s ∧ y.Outline P (y.program o s) I)
    {ms : List M} {s : S} (reach : y.Reach allowed ms s) : ∃ P, P s ∧ y.Outline P ms I := by
  induction reach with
  | start => exact ⟨I,init,outlineStay stable⟩
  | op o may _ ih =>
    obtain ⟨P,holds,outline⟩ := ih
    cases outline with
    | nil _ _ imp => exact ops o _ (imp holds) may
  | step _ exec ih =>
    obtain ⟨P,holds,outline⟩ := ih
    cases outline with
    | cons _ step rest => exact ⟨_,step holds exec,rest⟩
  | env _ env ih =>
    obtain ⟨P,holds,outline⟩ := ih
    exact ⟨P,(outlineStable outline).env holds env,outline⟩

theorem reachSafe {y : System M S} {allowed : y.Op → S → Prop} {I : S → Prop} (init : I y.start)
    (stable : y.Stable I)
    (ops : ∀ o s, I s → allowed o s → ∃ P, P s ∧ y.Outline P (y.program o s) I)
    {ms : List M} {s : S} (reach : y.Reach allowed ms s) : y.safe s := by
  obtain ⟨P,holds,outline⟩ := reachOutline init stable ops reach
  exact (outlineStable outline).safe holds

end Interference
