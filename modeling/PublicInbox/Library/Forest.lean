import Mathlib.Logic.Relation
import Mathlib.Data.List.Nodup
import Mathlib.Data.List.Flatten

/-! Forests given by a parent function. A depth that grows from every parent to its children
rules cycles out; putting a node under one that does not climb to it keeps such a depth. A
preorder walk of children lists ends, meets every node below its start, and none twice. -/
namespace Forest
variable {κ : Type} {parent parent' : κ → Option κ} {kids : κ → List κ}

def Climbs (parent : κ → Option κ) : κ → κ → Prop :=
  Relation.ReflTransGen (fun c p => parent c = some p)

def Deepens (parent : κ → Option κ) (depth : κ → Nat) : Prop :=
  ∀ c p, parent c = some p → depth p < depth c

def Acyclic (parent : κ → Option κ) : Prop := ∃ depth, Deepens parent depth

theorem climbsDepth {depth : κ → Nat} (deepens : Deepens parent depth) {b a : κ}
    (climb : Climbs parent b a) : depth a ≤ depth b := by
  induction climb with
  | refl => exact Nat.le_refl _
  | tail _ step ih => exact Nat.le_trans (Nat.le_of_lt (deepens _ _ step)) ih

theorem noLoop (acyclic : Acyclic parent) {c p : κ} (under : parent c = some p) :
    ¬ Climbs parent p c := by
  obtain ⟨depth,deepens⟩ := acyclic
  intro climb
  have low := deepens c p under
  have high := climbsDepth deepens climb
  omega

theorem climbsLinear {x a b : κ} (left : Climbs parent x a) (right : Climbs parent x b) :
    Climbs parent a b ∨ Climbs parent b a := by
  induction left with
  | refl => exact Or.inl right
  | tail _ step ih =>
    rcases ih with up | down
    · rcases Relation.ReflTransGen.cases_head up with same | ⟨q,first,rest⟩
      · exact Or.inr (same ▸ .single step)
      · cases first.symm.trans step
        exact Or.inl rest
    · exact Or.inr (down.tail step)

open Classical in
theorem link (acyclic : Acyclic parent) {c p : κ} (apart : ¬ Climbs parent p c)
    (here : parent' c = some p) (others : ∀ x, x ≠ c → parent' x = parent x) : Acyclic parent' := by
  obtain ⟨depth,deepens⟩ := acyclic
  -- everything below `c` sinks below `p`
  refine ⟨fun x => if Climbs parent x c then depth x + depth p + 1 else depth x,?_⟩
  intro x y under
  by_cases moved : x = c
  · subst moved
    cases here.symm.trans under
    have self : Climbs parent x x := .refl
    simp only [if_neg apart,if_pos self]
    omega
  · have old := (others x moved).symm.trans under
    have deeper := deepens x y old
    have climb : Climbs parent x c ↔ Climbs parent y c := by
      constructor
      · intro below
        rcases Relation.ReflTransGen.cases_head below with same | ⟨q,first,rest⟩
        · exact absurd same moved
        · cases first.symm.trans old
          exact rest
      · exact fun below => .head old below
    by_cases below : Climbs parent y c
    · simp only [if_pos below,if_pos (climb.mpr below)]
      omega
    · simp only [if_neg below,if_neg (fun h => below (climb.mp h))]
      exact deeper

theorem climbsRoot (acyclic : Acyclic parent) (x : κ) :
    ∃ r, Climbs parent x r ∧ parent r = none := by
  obtain ⟨depth,deepens⟩ := acyclic
  induction level : depth x using Nat.strongRecOn generalizing x with
  | ind n ih =>
    cases under : parent x with
    | none => exact ⟨x,.refl,under⟩
    | some p =>
      have lower := deepens x p under
      obtain ⟨r,climb,root⟩ := ih (depth p) (level ▸ lower) p rfl
      exact ⟨r,.head under climb,root⟩

inductive Walk (kids : κ → List κ) : List κ → List κ → Prop where
  | nil : Walk kids [] []
  | cons {k : κ} {rest inner outer : List κ} (below : Walk kids (kids k) inner)
      (after : Walk kids rest outer) : Walk kids (k :: rest) (k :: (inner ++ outer))

def Below (kids : κ → List κ) : κ → κ → Prop := Relation.ReflTransGen (fun p c => c ∈ kids p)

theorem walkMem {ks out : List κ} (walk : Walk kids ks out) (x : κ) :
    x ∈ out ↔ ∃ k ∈ ks, Below kids k x := by
  induction walk with
  | nil => simp
  | @cons k rest inner outer _ _ ihBelow ihAfter =>
    rw [List.mem_cons,List.mem_append,ihBelow,ihAfter]
    constructor
    · rintro (rfl | ⟨c,mem,path⟩ | ⟨j,mem,path⟩)
      · exact ⟨x,List.mem_cons_self,.refl⟩
      · exact ⟨k,List.mem_cons_self,.head mem path⟩
      · exact ⟨j,List.mem_cons_of_mem _ mem,path⟩
    · rintro ⟨j,mem,path⟩
      rcases List.mem_cons.mp mem with rfl | later
      · rcases Relation.ReflTransGen.cases_head path with same | ⟨c,first,tail⟩
        · exact Or.inl same.symm
        · exact Or.inr (Or.inl ⟨c,first,tail⟩)
      · exact Or.inr (Or.inr ⟨j,later,path⟩)

theorem walkExists {node : κ → Prop} {depth : κ → Nat} {bound : Nat}
    (closed : ∀ k, node k → ∀ c ∈ kids k, node c ∧ depth k < depth c)
    (bounded : ∀ k, node k → depth k ≤ bound) {ks : List κ} (nodes : ∀ k ∈ ks, node k) :
    ∃ out, Walk kids ks out := by
  have level : ∀ n ks, (∀ k ∈ ks, node k ∧ bound - depth k < n) → ∃ out, Walk kids ks out := by
    intro n
    induction n with
    | zero =>
      intro ks high
      cases ks with
      | nil => exact ⟨[],.nil⟩
      | cons k rest => exact absurd (high k List.mem_cons_self).2 (Nat.not_lt_zero _)
    | succ n ih =>
      intro ks high
      induction ks with
      | nil => exact ⟨[],.nil⟩
      | cons k rest ihRest =>
        obtain ⟨inside,near⟩ := high k List.mem_cons_self
        obtain ⟨inner,below⟩ := ih (kids k) (by
          intro c mem
          obtain ⟨good,deeper⟩ := closed k inside c mem
          have := bounded c good
          exact ⟨good,by omega⟩)
        obtain ⟨outer,after⟩ := ihRest (fun j mem => high j (List.mem_cons_of_mem _ mem))
        exact ⟨_,.cons below after⟩
  exact level (bound + 1) ks (fun k mem => ⟨nodes k mem,by omega⟩)

theorem belowClimbs (under : ∀ p c, c ∈ kids p → parent c = some p) {k x : κ}
    (path : Below kids k x) : Climbs parent x k := by
  induction path with
  | refl => exact .refl
  | tail _ step ih => exact .head (under _ _ step) ih

theorem walkNodup (acyclic : Acyclic parent) (under : ∀ p c, c ∈ kids p → parent c = some p)
    (distinct : ∀ p, (kids p).Nodup) {ks out : List κ} (walk : Walk kids ks out) (nodup : ks.Nodup)
    (apart : ∀ a ∈ ks, ∀ b ∈ ks, a ≠ b → ¬ Climbs parent b a) : out.Nodup := by
  induction walk with
  | nil => exact List.nodup_nil
  | @cons k rest inner outer below after ihBelow ihAfter =>
    obtain ⟨fresh,restNodup⟩ := List.nodup_cons.mp nodup
    have inKids : ∀ x ∈ inner, ∃ c, parent c = some k ∧ Climbs parent x c := by
      intro x mem
      obtain ⟨c,first,path⟩ := (walkMem below x).mp mem
      exact ⟨c,under k c first,belowClimbs under path⟩
    have inRest : ∀ x ∈ outer, ∃ b ∈ rest, Climbs parent x b := by
      intro x mem
      obtain ⟨b,listed,path⟩ := (walkMem after x).mp mem
      exact ⟨b,listed,belowClimbs under path⟩
    have other : ∀ b ∈ rest, k ≠ b ∧ ¬ Climbs parent b k ∧ ¬ Climbs parent k b := by
      intro b mem
      have differ : k ≠ b := fun same => fresh (same ▸ mem)
      have late := List.mem_cons_of_mem k mem
      exact ⟨differ,apart k List.mem_cons_self b late differ,
        apart b late k List.mem_cons_self differ.symm⟩
    refine List.nodup_cons.mpr ⟨?_,List.nodup_append.mpr ⟨?_,?_,?_⟩⟩
    · intro mem
      rcases List.mem_append.mp mem with inside | outside
      · obtain ⟨c,child,climb⟩ := inKids k inside
        exact noLoop acyclic child climb
      · obtain ⟨b,listed,climb⟩ := inRest k outside
        exact (other b listed).2.2 climb
    · refine ihBelow (distinct k) ?_
      intro a memA b memB differ climb
      rcases Relation.ReflTransGen.cases_head climb with same | ⟨q,first,up⟩
      · exact differ same.symm
      · cases first.symm.trans (under k b memB)
        exact noLoop acyclic (under k a memA) up
    · exact ihAfter restNodup (fun a memA b memB =>
        apart a (List.mem_cons_of_mem _ memA) b (List.mem_cons_of_mem _ memB))
    · rintro x inside y outside rfl
      obtain ⟨c,child,climb⟩ := inKids x inside
      obtain ⟨b,listed,climb'⟩ := inRest x outside
      obtain ⟨_,low,high⟩ := other b listed
      rcases climbsLinear (climb.tail child) climb' with up | down
      · exact high up
      · exact low down

end Forest
