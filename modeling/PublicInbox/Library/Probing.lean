import Mathlib.Data.List.Nodup
import Mathlib.Data.List.Perm.Basic
import Mathlib.Data.List.Range
import Mathlib.Logic.Function.Basic
import Mathlib.Tactic.SplitIfs

/-! Linear probing in a ring of n slots. An element is looked for from its home on, so that all slots
between its home and its own have to be in use; a slot that is given up takes in what comes after it. -/
namespace Probing
variable {α : Type}

def far (n a b : Nat) : Nat := if a ≤ b then b - a else b + n - a

def next (n i : Nat) : Nat := (i + 1) % n

section
variable {n a b c i j k p : Nat}

theorem nextIs (inside : i < n) : next n i = if i + 1 = n then 0 else i + 1 := by
  rw [next]
  split
  · rename_i last
    rw [last,Nat.mod_self]
  · exact Nat.mod_eq_of_lt (by omega)

theorem nextInside (inside : i < n) : next n i < n := Nat.mod_lt _ (Nat.zero_lt_of_lt inside)

theorem farLt (inside : b < n) : far n a b < n := by
  unfold far
  split <;> omega

theorem farSelf (n a : Nat) : far n a a = 0 := by rw [far,if_pos (Nat.le_refl a),Nat.sub_self]

theorem farZero (inside : a < n) (same : far n a b = 0) : a = b := by
  unfold far at same
  split at same <;> omega

theorem farInj (insideA : a < n) (insideB : b < n) (insideC : c < n) (same : far n a b = far n a c) : b = c := by
  unfold far at same
  split_ifs at same <;> omega

theorem farNext (insideA : a < n) (inside : i < n) (other : next n i ≠ a) : far n a (next n i) = far n a i + 1 := by
  rw [nextIs inside] at other ⊢
  unfold far
  split_ifs at other ⊢ <;> omega

theorem farBack (insideA : a < n) (inside : i < n) (back : next n i = a) : far n a i + 1 = n := by
  rw [nextIs inside] at back
  unfold far
  split_ifs at back ⊢ <;> omega

theorem farAdd (insideA : a < n) (insideB : b < n) (insideC : c < n) (le : far n a b ≤ far n a c) : far n a c = far n a b + far n b c := by
  unfold far at le ⊢
  split_ifs at le ⊢ <;> omega

theorem farPasses (insideK : k < n) (insideI : i < n) (insideJ : j < n) (insideP : p < n)
    (passes : far n k i < far n k p) (behind : far n i j < far n i p) : far n k j < far n k p := by
  unfold far at passes behind ⊢
  split_ifs at passes behind ⊢ <;> omega

end

def look (n : Nat) (stop : Nat → Bool) (last : Nat) : Nat → Nat → Option Nat
  | 0,_ => none
  | fuel + 1,i => if stop i then some i else if next n i = last then none else look n stop last fuel (next n i)

def seek (n : Nat) (stop : Nat → Bool) : Nat → Nat → Nat
  | 0,i => i
  | fuel + 1,i => if stop i then i else seek n stop fuel (next n i)

structure First (n : Nat) (stop : Nat → Bool) (a p : Nat) : Prop where
  inside : p < n
  stops : stop p = true
  before : ∀ q < n,far n a q < far n a p → stop q = false

theorem lookFrom {n : Nat} {stop : Nat → Bool} {a e i fuel : Nat} (insideA : a < n) (insideE : e < n) (ends : stop e = true) (inside : i < n)
    (before : ∀ q < n,far n a q < far n a i → stop q = false) (enough : n ≤ far n a i + fuel) :
    ∃ p,look n stop a fuel i = some p ∧ seek n stop fuel i = p ∧ First n stop a p := by
  induction fuel generalizing i with
  | zero => exact absurd (farLt (a := a) inside) (by omega)
  | succ fuel ih =>
    rw [look,seek]
    split
    · rename_i stops
      exact ⟨i,rfl,rfl,inside,stops,before⟩
    · rename_i goes
      have through : ∀ q < n,far n a q < far n a i + 1 → stop q = false := by
        intro q insideQ near
        rcases Nat.lt_succ_iff_lt_or_eq.mp near with less | same
        · exact before q insideQ less
        · exact farInj insideA insideQ inside same ▸ Bool.eq_false_iff.mpr goes
      split
      · rename_i back
        have past := through e insideE (by rw [farBack insideA inside back]; exact farLt insideE)
        rw [ends] at past
        cases past
      · rename_i other
        have step := farNext insideA inside other
        exact ih (nextInside inside) (step ▸ through) (by omega)

theorem lookFirst {n : Nat} {stop : Nat → Bool} {a e : Nat} (insideA : a < n) (insideE : e < n) (ends : stop e = true) :
    ∃ p,look n stop a n a = some p ∧ seek n stop n a = p ∧ First n stop a p :=
  lookFrom insideA insideE ends insideA (fun q _ less => absurd less (by rw [farSelf]; exact Nat.not_lt_zero _)) (by rw [farSelf]; omega)

/-! What the slots in use hold -/

def content (n : Nat) (used : Nat → Bool) (keys : Nat → α) : List α :=
  (List.range n).filterMap fun i => if used i then some (keys i) else none

section
variable {n p : Nat} {used : Nat → Bool} {keys : Nat → α}

theorem memContent {x : α} : x ∈ content n used keys ↔ ∃ i < n,used i = true ∧ keys i = x := by
  simp only [content,List.mem_filterMap,List.mem_range,Option.ite_none_right_eq_some,Option.some.injEq]

theorem contentCongr {used' : Nat → Bool} {keys' : Nat → α} (same : ∀ i < n,used i = used' i ∧ (used i = true → keys i = keys' i)) :
    content n used keys = content n used' keys' := by
  refine List.filterMap_congr fun i mem => ?_
  obtain ⟨flag,key⟩ := same i (List.mem_range.mp mem)
  rw [← flag]
  split
  · rename_i on
    rw [key on]
  · rfl

theorem contentTake (inside : p < n) (on : used p = true) :
    (content n used keys).Perm (keys p :: content n (Function.update used p false) keys) := by
  have split := List.perm_cons_erase (List.mem_range.mpr inside)
  refine (split.filterMap _).trans ?_
  rw [List.filterMap_cons,if_pos on]
  refine List.Perm.cons _ ?_
  refine List.Perm.trans ?_ (split.filterMap _).symm
  rw [List.filterMap_cons,Function.update_self,if_neg Bool.false_ne_true]
  refine List.Perm.of_eq (List.filterMap_congr fun i mem => ?_)
  rw [Function.update_of_ne (List.nodup_range.mem_erase_iff.mp mem).1]

theorem contentPut (x : α) (inside : p < n) (off : used p = false) :
    (content n (Function.update used p true) (Function.update keys p x)).Perm (x :: content n used keys) := by
  refine (contentTake inside (Function.update_self ..)).trans ?_
  rw [Function.update_self,Function.update_idem]
  refine List.Perm.cons _ (List.Perm.of_eq (contentCongr fun i _ => ?_))
  by_cases same : i = p
  · rw [same,Function.update_self,off]
    exact ⟨rfl,fun on => absurd on Bool.false_ne_true⟩
  · rw [Function.update_of_ne same,Function.update_of_ne same]
    exact ⟨rfl,fun _ => rfl⟩

theorem contentFull (full : ∀ i < n,used i = true) : (content n used keys).length = n := by
  have same : content n used keys = (List.range n).map keys := by
    rw [content,← List.filterMap_eq_map]
    exact List.filterMap_congr fun i mem => if_pos (full i (List.mem_range.mp mem))
  rw [same,List.length_map,List.length_range]

theorem roomLeft (fewer : (content n used keys).length < n) : ∃ e < n,used e = false := by
  by_contra none
  refine absurd (@contentFull _ _ _ keys fun i inside => ?_) fewer.ne
  exact Bool.not_eq_false _ ▸ fun off => none ⟨i,inside,off⟩

end

/-! Every element is reached from its home. -/

def Reaches (n : Nat) (home : α → Nat) (used : Nat → Bool) (keys : Nat → α) : Prop :=
  ∀ p < n,used p = true → ∀ q < n,far n (home (keys p)) q < far n (home (keys p)) p → used q = true

section
variable {n : Nat} {home : α → Nat} {used : Nat → Bool} {keys : Nat → α}

theorem insertReaches {stop : Nat → Bool} {x : α} {p : Nat} (reaches : Reaches n home used keys) (first : First n stop (home x) p)
    (free : ∀ q,stop q = false → used q = true) :
    Reaches n home (Function.update used p true) (Function.update keys p x) := by
  have more : ∀ q,used q = true → Function.update used p true q = true := by
    intro q on
    by_cases same : q = p
    · rw [same,Function.update_self]
    · rwa [Function.update_of_ne same]
  intro r inside on q insideQ before
  by_cases same : r = p
  · rw [same,Function.update_self] at before
    exact more q (free q (first.before q insideQ before))
  · rw [Function.update_of_ne same] at on before
    exact more q (reaches r inside on q insideQ before)

theorem searchMisses {stop : Nat → Bool} {eq : α → Prop} {x : α} {p : Nat} (reaches : Reaches n home used keys) (insideHome : home x < n)
    (first : First n stop (home x) p) (off : used p = false) (holds : ∀ q,used q = true → eq (keys q) → stop q = true)
    (homes : ∀ y,eq y → home y = home x) : ∀ y ∈ content n used keys,¬ eq y := by
  intro y mem equal
  obtain ⟨r,inside,on,rfl⟩ := memContent.mp mem
  rcases lt_trichotomy (far n (home x) r) (far n (home x) p) with less | same | more
  · have := first.before r inside less
    rw [holds r on equal] at this
    cases this
  · rw [farInj insideHome inside first.inside same,off] at on
    cases on
  · rw [← homes _ equal] at more
    have := reaches r inside on p first.inside more
    rw [off] at this
    cases this

/- Slot i is given up. The slots behind it are looked at up to a free one, and what is not reached any more is moved into the gap. -/
def shift (n : Nat) (home : α → Nat) (used : Nat → Bool) : Nat → Nat → Nat → (Nat → α) → Nat × (Nat → α)
  | 0,i,_,keys => (i,keys)
  | fuel + 1,i,j,keys =>
    if next n j = i ∨ used (next n j) = false then (i,keys)
    else if far n (home (keys (next n j))) i < far n (home (keys (next n j))) (next n j) then
      shift n home used fuel (next n j) (next n j) (Function.update keys i (keys (next n j)))
    else shift n home used fuel i (next n j) keys

structure Gap (n : Nat) (home : α → Nat) (used : Nat → Bool) (keys : Nat → α) (i j e : Nat) : Prop where
  gap : i < n
  seen : j < n
  on : used i = true
  reaches : ∀ p < n,p ≠ i → used p = true → ∀ q < n,far n (home (keys p)) q < far n (home (keys p)) p → used q = true
  past : ∀ p < n,p ≠ i → used p = true → far n i p ≤ far n i j → ¬ far n (home (keys p)) i < far n (home (keys p)) p
  ahead : far n i j < far n i e

theorem gapEnds (insideHome : ∀ x,home x < n) {i j e : Nat} (at' : Gap n home used keys i j e) (off : used (next n j) = false) :
    Reaches n home (Function.update used i false) keys := by
  have insideNext := nextInside (n := n) at'.seen
  have other : next n j ≠ i := fun same => absurd at'.on (by rw [← same,off]; exact Bool.false_ne_true)
  intro p inside on q insideQ before
  by_cases gap : p = i
  · rw [gap,Function.update_self] at on
    cases on
  rw [Function.update_of_ne gap] at on
  have used : used q = true := at'.reaches p inside gap on q insideQ before
  by_cases same : q = i
  · exfalso
    rw [same] at before
    rcases Nat.lt_or_ge (far n i j) (far n i p) with behind | near
    · have step := farNext at'.gap at'.seen other
      have strict : far n i (next n j) < far n i p := by
        refine lt_of_le_of_ne (by omega) fun equal => ?_
        rw [← farInj at'.gap insideNext inside equal,off] at on
        cases on
      have := at'.reaches p inside gap on _ insideNext (farPasses (insideHome _) at'.gap insideNext inside before strict)
      rw [off] at this
      cases this
    · exact at'.past p inside gap on near before
  · rwa [Function.update_of_ne same]

theorem gapMoves {i j e : Nat} (here : Gap n home used keys i j e) (freeE : used e = false) (on : used (next n j) = true)
    (other : next n j ≠ i) (passes : far n (home (keys (next n j))) i < far n (home (keys (next n j))) (next n j)) :
    Gap n home used (Function.update keys i (keys (next n j))) (next n j) (next n j) e := by
  have insideNext := nextInside (n := n) here.seen
  have different : e ≠ next n j := fun same => absurd on (by rw [← same,freeE]; exact Bool.false_ne_true)
  refine ⟨insideNext,insideNext,on,?_,?_,?_⟩
  · intro p inside gap onP q insideQ before
    by_cases same : p = i
    · rw [same,Function.update_self] at before
      exact here.reaches _ insideNext other on q insideQ (before.trans passes)
    · rw [Function.update_of_ne same] at before
      exact here.reaches p inside same onP q insideQ before
  · intro p inside gap _ near
    rw [farSelf,Nat.le_zero] at near
    exact absurd (farZero insideNext near).symm gap
  · rw [farSelf]
    exact Nat.pos_of_ne_zero fun zero => different (farZero insideNext zero).symm

theorem gapStays {i j e : Nat} (here : Gap n home used keys i j e) (insideE : e < n) (freeE : used e = false) (on : used (next n j) = true)
    (other : next n j ≠ i) (passes : ¬ far n (home (keys (next n j))) i < far n (home (keys (next n j))) (next n j)) :
    Gap n home used keys i (next n j) e := by
  have insideNext := nextInside (n := n) here.seen
  have step := farNext here.gap here.seen other
  have ahead := here.ahead
  refine ⟨here.gap,insideNext,here.on,here.reaches,?_,?_⟩
  · intro p inside gap onP near
    rcases Nat.lt_or_ge (far n i j) (far n i p) with behind | seen
    · rw [farInj here.gap inside insideNext (by omega)]
      exact passes
    · exact here.past p inside gap onP seen
  · refine lt_of_le_of_ne (by omega) fun same => ?_
    rw [farInj here.gap insideNext insideE same,freeE] at on
    cases on

theorem Gap.other {i j e : Nat} (here : Gap n home used keys i j e) (insideE : e < n) : next n j ≠ i := by
  intro back
  have := farBack here.gap here.seen back
  have := farLt (n := n) (a := i) insideE
  have := here.ahead
  omega

theorem Gap.nearer {i j e fuel : Nat} (here : Gap n home used keys i j e) (insideE : e < n) (enough : far n j e ≤ fuel + 1) :
    far n (next n j) e ≤ fuel := by
  have first := farNext here.gap here.seen (here.other insideE)
  have ahead := here.ahead
  have whole := farAdd here.gap here.seen insideE (by omega)
  have rest := farAdd here.gap (nextInside here.seen) insideE (by omega)
  omega

theorem shiftMore {i j e fuel : Nat} (here : Gap n home used keys i j e) (insideE : e < n) (freeE : used e = false)
    (enough : far n j e ≤ fuel) (more : Nat) : shift n home used (fuel + more) i j keys = shift n home used fuel i j keys := by
  induction fuel generalizing i j keys with
  | zero =>
    have same := farZero here.seen (Nat.le_zero.mp enough)
    exact absurd here.ahead (by rw [same]; exact Nat.lt_irrefl _)
  | succ fuel ih =>
    have other := here.other insideE
    have nearer := here.nearer insideE enough
    rw [Nat.add_right_comm,shift,shift]
    split
    · rfl
    · rename_i goes
      rw [not_or,Bool.not_eq_false] at goes
      split
      · rename_i passes
        exact ih (gapMoves here freeE goes.2 other passes) nearer
      · rename_i passes
        exact ih (gapStays here insideE freeE goes.2 other passes) nearer

theorem shiftGap (insideHome : ∀ x,home x < n) {i j e fuel : Nat} (here : Gap n home used keys i j e) (insideE : e < n) (freeE : used e = false)
    (enough : far n j e ≤ fuel) {hole : Nat} {keys' : Nat → α} (run : shift n home used fuel i j keys = (hole,keys')) :
    hole < n ∧ used hole = true ∧ Reaches n home (Function.update used hole false) keys' ∧
      (content n (Function.update used hole false) keys').Perm (content n (Function.update used i false) keys) := by
  induction fuel generalizing i j keys with
  | zero =>
    have same := farZero here.seen (Nat.le_zero.mp enough)
    exact absurd here.ahead (by rw [same]; exact Nat.lt_irrefl _)
  | succ fuel ih =>
    have insideNext := nextInside (n := n) here.seen
    have other := here.other insideE
    have nearer := here.nearer insideE enough
    rw [shift] at run
    split at run
    · rename_i ends
      cases run
      exact ⟨here.gap,here.on,gapEnds insideHome here (ends.resolve_left other),List.Perm.refl _⟩
    · rename_i goes
      rw [not_or,Bool.not_eq_false] at goes
      split at run
      · rename_i passes
        obtain ⟨inside,on,reaches,left⟩ := ih (gapMoves here freeE goes.2 other passes) nearer run
        refine ⟨inside,on,reaches,left.trans ?_⟩
        -- the element of the next slot fills the gap
        have filled := @contentPut _ _ _ (Function.update (Function.update used i false) (next n j) false) keys (keys (next n j))
          here.gap (by rw [Function.update_of_ne other.symm,Function.update_self])
        have taken := @contentTake _ _ _ (Function.update used i false) keys insideNext (by rw [Function.update_of_ne other,goes.2])
        refine (List.Perm.of_eq (contentCongr fun q _ => ⟨?_,fun _ => rfl⟩)).trans (filled.trans taken.symm)
        by_cases same : q = i
        · rw [same,Function.update_self,Function.update_of_ne other.symm,here.on]
        · rw [Function.update_of_ne same]
          by_cases equal : q = next n j
          · rw [equal,Function.update_self,Function.update_self]
          · rw [Function.update_of_ne equal,Function.update_of_ne equal,Function.update_of_ne same]
      · rename_i passes
        exact ih (gapStays here insideE freeE goes.2 other passes) nearer run

theorem gapStart {i e : Nat} (reaches : Reaches n home used keys) (inside : i < n) (on : used i = true) (freeE : used e = false) :
    Gap n home used keys i i e := by
  refine ⟨inside,inside,on,fun p insideP _ => reaches p insideP,?_,?_⟩
  · intro p insideP gap _ near
    rw [farSelf,Nat.le_zero] at near
    exact absurd (farZero inside near).symm gap
  · rw [farSelf]
    refine Nat.pos_of_ne_zero fun zero => ?_
    rw [farZero inside zero,freeE] at on
    cases on

theorem shiftTakes (insideHome : ∀ x,home x < n) {i e : Nat} (reaches : Reaches n home used keys) (inside : i < n) (on : used i = true) (insideE : e < n) (freeE : used e = false)
    {hole : Nat} {keys' : Nat → α} (run : shift n home used n i i keys = (hole,keys')) :
    hole < n ∧ used hole = true ∧ Reaches n home (Function.update used hole false) keys' ∧
      (content n (Function.update used hole false) keys').Perm (content n (Function.update used i false) keys) :=
  shiftGap insideHome (gapStart reaches inside on freeE) insideE freeE (farLt insideE).le run

end

end Probing
