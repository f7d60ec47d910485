import Mathlib.Data.Nat.Notation
import Mathlib.Logic.Basic
import Mathlib.Tactic.Tauto

/-! Items that carry a colour, and steps that move whole classes of items to one label. A
colour above `floor` is live; the items of a live colour only ever move together, those of
a dead one may be picked off one by one. Items may vanish; a vanished item never returns,
new items are ones that were not `used` before. The label itself may have no item. -/
namespace Colouring
variable {ι : Type}

structure State (ι : Type) where
  colour : ι → Option Nat
  used : ι → Prop

structure Absorbs (floor : Nat) (f : State ι) (label : Option Nat) (g : State ι)
    (label' : Option Nat) : Prop where
  live : ∀ l ∈ label', floor < l
  labelled : label'.isSome ∨ label = none
  track : ∀ l ∈ label, ∀ i, f.colour i = some l → g.colour i = none ∨ g.colour i = label'
  moved : ∀ i t, g.colour i = some t → label' = some t ∨ f.colour i = some t
  together : ∀ c, floor < c →
    (∀ i, f.colour i = some c → g.colour i = none ∨ g.colour i = some c) ∨
    (label'.isSome ∧ ∀ i, f.colour i = some c → g.colour i = none ∨ g.colour i = label')
  grows : ∀ i, f.used i → g.used i
  dead : ∀ i, f.used i → f.colour i = none → g.colour i = none

namespace Absorbs
variable {floor : Nat} {f g h : State ι} {label label' label'' : Option Nat}

theorem refl (live : ∀ l ∈ label, floor < l) : Absorbs floor f label f label where
  live := live
  labelled := by cases label <;> simp
  track := fun _ mem i found => Or.inr (found.trans mem.symm)
  moved := fun _ _ found => Or.inr found
  together := fun _ _ => Or.inl (fun _ found => Or.inr found)
  grows := fun _ used => used
  dead := fun _ _ gone => gone

theorem trans (present : ∀ i t, f.colour i = some t → f.used i)
    (first : Absorbs floor f label g label') (second : Absorbs floor g label' h label'') :
    Absorbs floor f label h label'' where
  live := second.live
  labelled := by
    rcases second.labelled with some | none
    · exact Or.inl some
    · subst none
      exact first.labelled.elim (fun h => absurd h (by simp)) Or.inr
  track := by
    intro l mem i found
    rcases first.track l mem i found with gone | here
    · exact Or.inl (second.dead i (first.grows i (present i l found)) gone)
    · cases label' with
      | none => exact Or.inl (second.dead i (first.grows i (present i l found)) here)
      | some l' => exact second.track l' rfl i here
  moved := by
    intro i t found
    rcases second.moved i t found with here | before
    · exact Or.inl here
    · rcases first.moved i t before with same | old
      · rcases second.track t same i before with gone | here
        · rw [gone] at found
          contradiction
        · exact Or.inl (here.symm.trans found)
      · exact Or.inr old
  together := by
    intro c alive
    have lost : ∀ i, f.colour i = some c → g.colour i = none → h.colour i = none :=
      fun i found gone => second.dead i (first.grows i (present i c found)) gone
    rcases first.together c alive with kept | ⟨some,went⟩
    · rcases second.together c alive with kept' | ⟨some',went'⟩
      · refine Or.inl (fun i found => ?_)
        rcases kept i found with gone | here
        · exact Or.inl (lost i found gone)
        · exact kept' i here
      · refine Or.inr ⟨some',fun i found => ?_⟩
        rcases kept i found with gone | here
        · exact Or.inl (lost i found gone)
        · exact went' i here
    · obtain ⟨l',rfl⟩ := Option.isSome_iff_exists.mp some
      have some' : label''.isSome := second.labelled.resolve_right (by simp)
      refine Or.inr ⟨some',fun i found => ?_⟩
      rcases went i found with gone | here
      · exact Or.inl (lost i found gone)
      · exact second.track l' rfl i here
  grows := fun i used => second.grows i (first.grows i used)
  dead := fun i used gone => second.dead i (first.grows i used) (first.dead i used gone)

theorem same (step : Absorbs floor f label g label') {i j : ι} {c t u : Nat} (alive : floor < c)
    (left : f.colour i = some c) (right : f.colour j = some c)
    (left' : g.colour i = some t) (right' : g.colour j = some u) : t = u := by
  rcases step.together c alive with kept | ⟨_,went⟩
  · have a := (kept i left).resolve_left (by simp [left'])
    have b := (kept j right).resolve_left (by simp [right'])
    rw [left'] at a
    rw [right'] at b
    exact Option.some.inj (a.trans b.symm)
  · have a := (went i left).resolve_left (by simp [left'])
    have b := (went j right).resolve_left (by simp [right'])
    rw [left'] at a
    rw [right'] at b
    exact Option.some.inj (a.trans b.symm)

theorem staysLive (step : Absorbs floor f label g label') {i : ι} {c t : Nat} (alive : floor < c)
    (before : f.colour i = some c) (after : g.colour i = some t) : floor < t := by
  rcases step.moved i t after with same | old
  · exact step.live t same
  · rw [before] at old
    exact (Option.some.inj old) ▸ alive

theorem start {l : Nat} (alive : floor < l) : Absorbs floor f none f (some l) where
  live := by simpa using alive
  labelled := Or.inr rfl
  track := by simp
  moved := fun _ _ found => Or.inr found
  together := fun _ _ => Or.inl (fun _ found => Or.inr found)
  grows := fun _ used => used
  dead := fun _ _ gone => gone

theorem pick {l : Nat} {k : ι} {d : Nat} (alive : floor < l) (old : f.colour k = some d)
    (dying : d ≤ floor) (used : g.used = f.used) (here : g.colour k = some l)
    (others : ∀ i, i ≠ k → g.colour i = f.colour i) : Absorbs floor f none g (some l) where
  live := by simpa using alive
  labelled := Or.inr rfl
  track := by simp
  moved := by
    intro i t found
    by_cases same : i = k
    · subst same
      exact Or.inl (here.symm.trans found)
    · exact Or.inr ((others i same).symm.trans found)
  together := by
    intro c high
    refine Or.inl (fun i found => ?_)
    by_cases same : i = k
    · subst same
      rw [old] at found
      cases found
      exact absurd high (Nat.not_lt.mpr dying)
    · exact Or.inr ((others i same).trans found)
  grows := fun i => by rw [used]; exact id
  dead := by
    intro i _ gone
    have other : i ≠ k := fun same => by rw [same,old] at gone; contradiction
    exact (others i other).trans gone

theorem merge {l q : Nat} (alive : floor < l) (used : g.used = f.used)
    (map : ∀ i, g.colour i = (f.colour i).map (fun t => if t = q then l else t)) :
    Absorbs floor f (some l) g (some l) where
  live := by simpa using alive
  labelled := Or.inl rfl
  track := by
    intro l' mem i found
    cases mem
    right
    rw [map i,found]
    by_cases same : l = q
    · simp [same]
    · simp [same]
  moved := by
    intro i t found
    rw [map i] at found
    cases old : f.colour i with
    | none => simp [old] at found
    | some u =>
      simp only [old,Option.map_some,Option.some.injEq] at found
      split at found
      · exact Or.inl (congrArg some found)
      · exact Or.inr (congrArg some found)
  together := by
    intro c _
    by_cases same : c = q
    · exact Or.inr ⟨rfl,fun i found => Or.inr (by rw [map i,found]; simp [same])⟩
    · exact Or.inl (fun i found => Or.inr (by rw [map i,found]; simp [same]))
  grows := fun i => by rw [used]; exact id
  dead := fun i _ gone => by rw [map i,gone]; rfl

theorem unify {o p l : Nat} (step : Absorbs floor f none g (some p)) (liveO : floor < o)
    (which : l = o ∨ l = p) (used : h.used = g.used)
    (map : ∀ i, h.colour i = (g.colour i).map (fun t => if t = o ∨ t = p then l else t)) :
    Absorbs floor f (some o) h (some l) where
  live := by
    intro l' mem
    cases mem
    rcases which with rfl | rfl
    · exact liveO
    · exact step.live _ rfl
  labelled := Or.inl rfl
  track := by
    intro o' mem i found
    cases mem
    rw [map i]
    rcases step.together o liveO with kept | ⟨_,went⟩
    · rcases kept i found with gone | here
      · simp [gone]
      · simp [here]
    · rcases went i found with gone | here
      · simp [gone]
      · simp [here]
  moved := by
    intro i t found
    rw [map i] at found
    cases old : g.colour i with
    | none => simp [old] at found
    | some u =>
      simp only [old,Option.map_some,Option.some.injEq] at found
      split at found
      · exact Or.inl (congrArg some found)
      · rename_i other
        subst found
        rcases step.moved i u old with same | before
        · exact absurd (Or.inr (Option.some.inj same).symm) other
        · exact Or.inr before
  together := by
    intro c alive
    by_cases sameO : c = o
    · subst sameO
      refine Or.inr ⟨rfl,fun i found => ?_⟩
      rw [map i]
      rcases step.together c alive with kept | ⟨_,went⟩
      · rcases kept i found with gone | here
        · simp [gone]
        · simp [here]
      · rcases went i found with gone | here
        · simp [gone]
        · simp [here]
    · rcases step.together c alive with kept | ⟨_,went⟩
      · by_cases sameP : c = p
        · refine Or.inr ⟨rfl,fun i found => ?_⟩
          rw [map i]
          rcases kept i found with gone | here
          · simp [gone]
          · simp [here,sameP]
        · refine Or.inl (fun i found => ?_)
          rw [map i]
          rcases kept i found with gone | here
          · simp [gone]
          · simp [here,sameO,sameP]
      · refine Or.inr ⟨rfl,fun i found => ?_⟩
        rw [map i]
        rcases went i found with gone | here
        · simp [gone]
        · simp [here]
  grows := fun i was => by rw [used]; exact step.grows i was
  dead := fun i was gone => by rw [map i,step.dead i was gone]; rfl

theorem vanish {k : ι} (live : ∀ l ∈ label, floor < l) (used : g.used = f.used)
    (here : g.colour k = none) (others : ∀ i, i ≠ k → g.colour i = f.colour i) :
    Absorbs floor f label g label where
  live := live
  labelled := by cases label <;> simp
  track := by
    intro l mem i found
    by_cases same : i = k
    · exact Or.inl (same ▸ here)
    · exact Or.inr ((others i same).trans (found.trans mem.symm))
  moved := by
    intro i t found
    by_cases same : i = k
    · rw [same,here] at found
      contradiction
    · exact Or.inr ((others i same).symm.trans found)
  together := by
    intro c _
    refine Or.inl (fun i found => ?_)
    by_cases same : i = k
    · exact Or.inl (same ▸ here)
    · exact Or.inr ((others i same).trans found)
  grows := fun i => by rw [used]; exact id
  dead := by
    intro i _ gone
    by_cases same : i = k
    · exact same ▸ here
    · exact (others i same).trans gone

theorem appear {k : ι} {l : Nat} (present : ∀ i t, f.colour i = some t → f.used i)
    (alive : floor < l) (new : ¬ f.used k) (used : ∀ i, f.used i → g.used i) (here : g.colour k = some l)
    (others : ∀ i, i ≠ k → g.colour i = f.colour i) : Absorbs floor f none g (some l) where
  live := by simpa using alive
  labelled := Or.inr rfl
  track := by simp
  moved := by
    intro i t found
    by_cases same : i = k
    · exact Or.inl (by rw [← found,same,here])
    · exact Or.inr ((others i same).symm.trans found)
  together := by
    intro c _
    refine Or.inl (fun i found => Or.inr ?_)
    have other : i ≠ k := fun same => new (same ▸ present i c found)
    exact (others i other).trans found
  grows := used
  dead := by
    intro i was gone
    have other : i ≠ k := fun same => new (same ▸ was)
    exact (others i other).trans gone

end Absorbs
end Colouring
