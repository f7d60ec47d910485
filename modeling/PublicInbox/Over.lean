import PublicInbox.Mbox.Results

/-! Over.pm: expand_thread, with the {min} of a saved search. Mbox.pm has the same with no {min}. -/
namespace PublicInbox.Over
open Mbox (threadAfter memThread threadSorted threadNext)
variable {δ : Type}

structure Ctx where
  ids : List Int
  min : Option Nat
  prev : Option Int
  xids : List Int

def threadPage (o : OverIdx δ) (num above : Int) : List Int :=
  ((o.tidOf num).map fun tid => (threadAfter o tid above).take 1000).getD []

def expandIds (o : OverIdx δ) (lssMin : Int) : List Int → Int → Option (List Int × Int × List Int)
  | [],_ => none
  | num :: ids,prev =>
    let xids := threadPage o num (max prev lssMin)
    match xids.getLast? with
    | some last => some (num :: ids,last,xids)
    | none => expandIds o lssMin ids 0

def lssMin (ctx : Ctx) : Int := (ctx.min.getD 0 : Nat)

def expandThread (o : OverIdx δ) (ctx : Ctx) : Bool × Ctx :=
  match expandIds o (lssMin ctx) ctx.ids (ctx.prev.getD 0) with
  | some (ids,prev,xids) => (true,{ ctx with ids := ids, prev := some prev, xids := xids })
  | none => (false,{ ctx with ids := [], prev := if ctx.ids = [] then ctx.prev else some 0 })

def drain (o : OverIdx δ) : Nat → Ctx → Option (List (List Int) × Ctx)
  | 0,_ => none
  | calls + 1,ctx =>
    match expandThread o ctx with
    | (true,ctx) => (drain o calls ctx).map fun rest => (ctx.xids :: rest.1,rest.2)
    | (false,ctx) => some ([],ctx)

def threadAbove (o : OverIdx δ) (above num : Int) : List Int :=
  ((o.tidOf num).map fun tid => threadAfter o tid above).getD []

theorem memThreadAbove {o : OverIdx δ} {above num n : Int} :
    n ∈ threadAbove o above num ↔ above < n ∧ ∃ tid,o.tidOf num = some tid ∧ o.tidOf n = some tid := by
  rw [threadAbove]
  cases own : o.tidOf num with
  | none => exact ⟨fun mem => (nomatch mem),fun ⟨_,_,unknown,_⟩ => (nomatch unknown)⟩
  | some tid =>
    rw [Option.map_some,Option.getD_some,memThread]
    exact ⟨fun ⟨same,less⟩ => ⟨less,tid,rfl,same⟩,fun ⟨less,_,own,same⟩ => ⟨Option.some.inj own ▸ same,less⟩⟩

theorem threadAboveSorted (o : OverIdx δ) (above num : Int) : (threadAbove o above num).Pairwise (· < ·) := by
  rw [threadAbove]
  cases o.tidOf num with
  | none => exact .nil
  | some tid => exact threadSorted o tid above

theorem pageTake (o : OverIdx δ) (num above : Int) : threadPage o num above = (threadAbove o above num).take 1000 := by
  rw [threadPage,threadAbove]
  cases o.tidOf num <;> rfl

theorem pageLeft {o : OverIdx δ} {num above last : Int} (ends : (threadPage o num above).getLast? = some last) :
    above < last ∧ threadAbove o above num = threadPage o num above ++ threadAbove o last num := by
  rw [pageTake] at ends ⊢
  refine ⟨(memThreadAbove.mp (List.mem_of_mem_take (List.mem_of_getLast? ends))).1,?_⟩
  rw [threadAbove] at ends ⊢
  cases own : o.tidOf num with
  | none =>
    rw [own] at ends
    exact nomatch ends
  | some tid =>
    rw [own,Option.map_some,Option.getD_some] at ends
    simp only [threadAbove,own,Option.map_some,Option.getD_some]
    rw [threadNext ends,List.take_append_drop]

def left (o : OverIdx δ) (lssMin : Int) : List Int → Int → List Int
  | [],_ => []
  | num :: ids,prev => threadAbove o (max prev lssMin) num ++ ids.flatMap (threadAbove o lssMin)

theorem leftStart (o : OverIdx δ) (lssMin : Int) (pos : 0 ≤ lssMin) (ids : List Int) :
    left o lssMin ids 0 = ids.flatMap (threadAbove o lssMin) := by
  cases ids with
  | nil => rfl
  | cons num ids => rw [left,max_eq_right pos,List.flatMap_cons]

theorem expandLeft (o : OverIdx δ) {lssMin : Int} (pos : 0 ≤ lssMin) (ids : List Int) (prev : Int) :
    match expandIds o lssMin ids prev with
    | some (ids',prev',xids) => ids' ≠ [] ∧ xids ≠ [] ∧ left o lssMin ids prev = xids ++ left o lssMin ids' prev'
    | none => left o lssMin ids prev = [] := by
  induction ids generalizing prev with
  | nil => rfl
  | cons num ids ih =>
    rw [expandIds]
    cases ends : (threadPage o num (max prev lssMin)).getLast? with
    | none =>
      have empty : threadAbove o (max prev lssMin) num = [] := by
        have page := List.getLast?_eq_none_iff.mp ends
        rw [pageTake] at page
        exact (List.take_eq_nil_iff.mp page).resolve_left (by omega)
      have skip : left o lssMin (num :: ids) prev = left o lssMin ids 0 := by
        rw [left,empty,List.nil_append,leftStart o lssMin pos]
      simp only [skip]
      exact ih 0
    | some last =>
      obtain ⟨above,whole⟩ := pageLeft ends
      refine ⟨List.cons_ne_nil _ _,fun none => ?_,?_⟩
      · rw [none] at ends
        exact nomatch ends
      · have high : max last lssMin = last := max_eq_left (le_of_lt (lt_of_le_of_lt (le_max_right _ _) above))
        rw [left,left,whole,high,List.append_assoc]

theorem drainLeft (o : OverIdx δ) (ctx : Ctx) : ∃ calls pages ctx',drain o calls ctx = some (pages,ctx') ∧
    pages.flatten = left o (lssMin ctx) ctx.ids (ctx.prev.getD 0) ∧ ctx'.ids = [] ∧
      (ctx.prev.getD 0 = 0 ∨ ctx.ids ≠ [] → ctx'.prev.getD 0 = 0) := by
  induction long : (left o (lssMin ctx) ctx.ids (ctx.prev.getD 0)).length using Nat.strong_induction_on generalizing ctx with
  | _ size ih =>
    have least : 0 ≤ lssMin ctx := Int.natCast_nonneg _
    have step := expandLeft o least ctx.ids (ctx.prev.getD 0)
    cases now : expandIds o (lssMin ctx) ctx.ids (ctx.prev.getD 0) with
    | none =>
      rw [now] at step
      refine ⟨1,[],{ ctx with ids := [], prev := if ctx.ids = [] then ctx.prev else some 0 },?_,step.symm,rfl,?_⟩
      · simp only [drain,expandThread,now]
      · intro fresh
        dsimp only
        split
        next empty => exact fresh.resolve_right (not_not.mpr empty)
        · rfl
    | some page =>
      obtain ⟨ids,prev,xids⟩ := page
      rw [now] at step
      obtain ⟨more,some,whole⟩ := step
      have shorter : (left o (lssMin ctx) ids prev).length < size := by
        have := List.length_pos_of_ne_nil some
        rw [← long,whole,List.length_append]
        omega
      obtain ⟨calls,pages,last,runs,rest,done,fresh⟩ :=
        ih _ shorter { ctx with ids := ids, prev := Option.some prev, xids := xids } rfl
      refine ⟨calls + 1,xids :: pages,last,?_,?_,done,fun _ => fresh (.inr more)⟩
      · simp only [drain,expandThread,now,runs,Option.map_some]
      · rw [List.flatten_cons,rest,whole]
        rfl

/- Called until it returns nothing, expand_thread gives the thread of each id, whole and in order; $ctx can then be filled
again. -/
theorem expandThreadWhole (o : OverIdx δ) (ctx : Ctx) (fresh : ctx.prev.getD 0 = 0) : ∃ calls pages ctx',
    drain o calls ctx = some (pages,ctx') ∧ pages.flatten = ctx.ids.flatMap (threadAbove o (lssMin ctx)) ∧
      (∀ num,(threadAbove o (lssMin ctx) num).Pairwise (· < ·) ∧ ∀ n,n ∈ threadAbove o (lssMin ctx) num ↔
        lssMin ctx < n ∧ ∃ tid,o.tidOf num = some tid ∧ o.tidOf n = some tid) ∧
      ctx'.ids = [] ∧ ctx'.prev.getD 0 = 0 := by
  obtain ⟨calls,pages,ctx',runs,whole,done,again⟩ := drainLeft o ctx
  refine ⟨calls,pages,ctx',runs,?_,fun num => ⟨threadAboveSorted o _ num,fun n => memThreadAbove⟩,done,again (.inl fresh)⟩
  rw [whole,fresh]
  exact leftStart o (lssMin ctx) (Int.natCast_nonneg _) ctx.ids

def twoThreads : OverIdx Unit :=
  ⟨⟨[(1,⟨7,some ()⟩),(3,⟨7,some ()⟩),(4,⟨9,some ()⟩)],by decide⟩,.empty,0,0,0⟩

theorem expandTwoThreads : ∃ calls pages ctx',drain twoThreads calls ⟨[3,2,4],some 1,none,[]⟩ = some (pages,ctx') ∧
    pages.flatten = [3,4] ∧ ctx'.ids = [] := by
  obtain ⟨calls,pages,ctx',runs,whole,-,done,-⟩ := expandThreadWhole twoThreads ⟨[3,2,4],some 1,none,[]⟩ rfl
  exact ⟨calls,pages,ctx',runs,whole,done⟩

end PublicInbox.Over
