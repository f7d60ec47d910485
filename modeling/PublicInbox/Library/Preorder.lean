import Mathlib.Data.List.Basic

/-! A tree whose nodes are expanded on the way, visited with a stack of queues: limits on the number of visits and on the depth. -/
namespace Preorder
variable {α : Type}

structure Level (α : Type) where
  queue : List α
  path : List Nat
  idx : Nat

structure Visit (α : Type) where
  found : α
  node : α
  idx : List Nat
  inner : Bool

def next : Level α → List (Level α) → Option (α × Level α × List (Level α))
  | ⟨sub :: queue,path,idx⟩,s => some (sub,⟨queue,path,idx + 1⟩,s)
  | ⟨[],_,_⟩,⟨sub :: queue,path,idx⟩ :: s => some (sub,⟨queue,path,idx + 1⟩,s)
  | _,_ => none

def push (p : Level α) (s : List (Level α)) : List (Level α) := if p.queue.isEmpty then s else p :: s

section
variable (expand : Nat → α → α × Option (List α)) (limit nesting : Nat)

def visits : Nat → Level α → List (Level α) → List (Visit α)
  | 0,_,_ => []
  | left + 1,p,s =>
    match next p s with
    | none => []
    | some (sub,p,s) =>
      let idx := p.path ++ [p.idx]
      match if idx.length < nesting then expand (limit - left) sub else (sub,none) with
      | (node,some kids) => ⟨sub,node,idx,true⟩ :: visits left ⟨kids,idx,0⟩ (push p s)
      | (node,none) => ⟨sub,node,idx,false⟩ :: visits left p s

end

def preorder (children : α → α × Option (List α)) : Nat → List Nat → Nat → List α → List (Visit α)
  | _,_,_,[] => []
  | 0,path,i,a :: as => ⟨a,a,path ++ [i],false⟩ :: preorder children 0 path (i + 1) as
  | below + 1,path,i,a :: as =>
    match children a with
    | (node,some kids) => ⟨a,node,path ++ [i],true⟩ :: (preorder children below (path ++ [i]) 1 kids ++ preorder children (below + 1) path (i + 1) as)
    | (node,none) => ⟨a,node,path ++ [i],false⟩ :: preorder children (below + 1) path (i + 1) as
termination_by below _ _ as => (below,as)

theorem visitsLength (expand : Nat → α → α × Option (List α)) (limit nesting left : Nat) (p : Level α) (s : List (Level α)) :
    (visits expand limit nesting left p s).length ≤ left := by
  induction left generalizing p s with
  | zero => exact Nat.le_refl _
  | succ left ih =>
    rw [visits]
    split
    · exact Nat.zero_le _
    · dsimp only
      split <;> exact Nat.succ_le_succ (ih _ _)

theorem nextSome {p p' : Level α} {s s' : List (Level α)} {sub : α} (is : next p s = some (sub,p',s')) :
    ∃ q,q.queue = sub :: p'.queue ∧ q.path = p'.path ∧ p'.idx = q.idx + 1 ∧ (q = p ∧ s = s' ∨ p.queue = [] ∧ s = q :: s') := by
  obtain ⟨queue,path,idx⟩ := p
  cases queue with
  | cons a queue =>
    cases is
    exact ⟨⟨_ :: _,path,idx⟩,rfl,rfl,rfl,.inl ⟨rfl,rfl⟩⟩
  | nil =>
    cases s with
    | nil => cases is
    | cons q s =>
      obtain ⟨queue,path',idx'⟩ := q
      cases queue with
      | nil => cases is
      | cons a queue =>
        cases is
        exact ⟨⟨_ :: _,path',idx'⟩,rfl,rfl,rfl,.inr ⟨rfl,rfl⟩⟩

theorem nextLevels {p p' : Level α} {s s' : List (Level α)} {sub : α} (is : next p s = some (sub,p',s')) :
    ∃ q,q.queue = sub :: p'.queue ∧ q.path = p'.path ∧ p'.idx = q.idx + 1 ∧ (q :: s').Sublist (p :: s) := by
  obtain ⟨q,queue,path,idx,from'⟩ := nextSome is
  refine ⟨q,queue,path,idx,?_⟩
  rcases from' with ⟨rfl,rfl⟩ | ⟨_,rfl⟩
  · exact .refl _
  · exact (List.Sublist.refl _).cons _

theorem pushSublist (p : Level α) (s : List (Level α)) : (push p s).Sublist (p :: s) := by
  unfold push
  split
  · exact (List.Sublist.refl _).cons _
  · exact .refl _

section
variable {expand : Nat → α → α × Option (List α)} {limit nesting : Nat}

def Pending (ps : List (Level α)) (idx : List Nat) : Prop := ∃ q ∈ ps,∃ j r,q.idx < j ∧ idx = q.path ++ j :: r

theorem visitsPending {left : Nat} {p : Level α} {s : List (Level α)} :
    ∀ v ∈ visits expand limit nesting left p s,Pending (p :: s) v.idx := by
  induction left generalizing p s with
  | zero => exact fun _ mem => nomatch mem
  | succ left ih =>
    intro v mem
    rw [visits] at mem
    split at mem
    · cases mem
    · rename_i sub p' s' is
      obtain ⟨q,_,path,idx,levels⟩ := nextLevels is
      have here : Pending (p :: s) (p'.path ++ [p'.idx]) :=
        ⟨q,levels.subset List.mem_cons_self,p'.idx,[],by omega,by rw [path]⟩
      have later {u : List Nat} (old : Pending (p' :: s') u) : Pending (p :: s) u := by
        obtain ⟨q',inside,j,r,after,same⟩ := old
        rcases List.mem_cons.mp inside with rfl | inside
        · exact ⟨q,levels.subset List.mem_cons_self,j,r,by omega,by rw [path,same]⟩
        · exact ⟨q',levels.subset (List.mem_cons_of_mem _ inside),j,r,after,same⟩
      dsimp only at mem
      split at mem
      · rcases List.mem_cons.mp mem with rfl | mem
        · exact here
        · obtain ⟨q',inside,j,r,after,same⟩ := ih v mem
          rcases List.mem_cons.mp inside with rfl | inside
          -- a node of the node that is visited here
          · exact ⟨q,levels.subset List.mem_cons_self,p'.idx,j :: r,by omega,by rw [path,same,List.append_assoc]; rfl⟩
          · exact later ⟨q',(pushSublist p' s').subset inside,j,r,after,same⟩
      · rcases List.mem_cons.mp mem with rfl | mem
        · exact here
        · exact later (ih v mem)

def Nested (ps : List (Level α)) : Prop := ps.Pairwise fun q q' => ∃ r,q.path = q'.path ++ q'.idx :: r

theorem later {path r r' : List Nat} {i j : Nat} (lt : i < j) : path ++ i :: r < path ++ j :: r' := by
  induction path with
  | nil => exact List.Lex.rel lt
  | cons a path ih => exact List.Lex.cons ih

theorem deeper (idx : List Nat) (j : Nat) (r : List Nat) : idx < idx ++ j :: r := by
  induction idx with
  | nil => exact List.Lex.nil
  | cons a idx ih => exact List.Lex.cons ih

theorem nestedNext {p p' : Level α} {s s' : List (Level α)} {sub : α} (is : next p s = some (sub,p',s')) (nested : Nested (p :: s))
    (kids : List α) : Nested (p' :: s') ∧ Nested (⟨kids,p'.path ++ [p'.idx],0⟩ :: push p' s') := by
  obtain ⟨q,_,path,_,levels⟩ := nextLevels is
  have sub := List.Pairwise.sublist levels nested
  obtain ⟨inside,rest⟩ := List.pairwise_cons.mp sub
  have here : Nested (p' :: s') := List.pairwise_cons.mpr ⟨fun q' mem => path ▸ inside q' mem,rest⟩
  refine ⟨here,List.pairwise_cons.mpr ⟨fun q' mem => ?_,List.Pairwise.sublist (pushSublist p' s') here⟩⟩
  rcases List.mem_cons.mp ((pushSublist p' s').subset mem) with rfl | mem
  · exact ⟨[],rfl⟩
  · obtain ⟨r,same⟩ := (List.pairwise_cons.mp here).1 q' mem
    exact ⟨r ++ [p'.idx],by show p'.path ++ [p'.idx] = _; rw [same,List.append_assoc]; rfl⟩

theorem pendingLater {p : Level α} {s : List (Level α)} (nested : Nested (p :: s)) {u : List Nat} (pending : Pending (p :: s) u) :
    p.path ++ [p.idx] < u := by
  obtain ⟨q,mem,j,r,after,rfl⟩ := pending
  rcases List.mem_cons.mp mem with rfl | mem
  · exact later after
  · obtain ⟨r',same⟩ := (List.pairwise_cons.mp nested).1 q mem
    rw [same,List.append_assoc]
    exact later after

theorem visitsOrdered {left : Nat} {p : Level α} {s : List (Level α)} (nested : Nested (p :: s)) :
    ((visits expand limit nesting left p s).map Visit.idx).Pairwise (· < ·) := by
  induction left generalizing p s with
  | zero => exact .nil
  | succ left ih =>
    rw [visits]
    split
    · exact .nil
    · rename_i sub p' s' is
      dsimp only
      split
      · rename_i node kids _
        obtain ⟨here,inner⟩ := nestedNext is nested kids
        refine List.pairwise_cons.mpr ⟨fun u mem => ?_,ih inner⟩
        obtain ⟨v,own,rfl⟩ := List.mem_map.mp mem
        obtain ⟨q,levels,j,r,after,same⟩ := visitsPending v own
        rcases List.mem_cons.mp levels with rfl | levels
        · rw [same]
          exact deeper _ _ _
        · exact pendingLater here ⟨q,(pushSublist p' s').subset levels,j,r,after,same⟩
      · obtain ⟨here,_⟩ := nestedNext is nested []
        refine List.pairwise_cons.mpr ⟨fun u mem => ?_,ih here⟩
        obtain ⟨v,own,rfl⟩ := List.mem_map.mp mem
        exact pendingLater here (visitsPending v own)

def Numbered (ps : List (Level α)) (path : List Nat) (i : Nat) : Prop := ∃ q ∈ ps,q.path = path ∧ i ≤ q.idx

theorem numberedNext {p p' : Level α} {s s' : List (Level α)} {sub : α} (is : next p s = some (sub,p',s')) {path : List Nat} {i : Nat}
    (numbered : Numbered (p' :: s') path i) : path ++ [i] = p'.path ++ [p'.idx] ∨ Numbered (p :: s) path i := by
  obtain ⟨q,_,path',idx,levels⟩ := nextLevels is
  obtain ⟨q',mem,rfl,le⟩ := numbered
  rcases List.mem_cons.mp mem with rfl | mem
  · rcases Nat.lt_or_ge q.idx i with new | old
    · have last : i = q'.idx := by omega
      exact .inl (by rw [last])
    · exact .inr ⟨q,levels.subset List.mem_cons_self,path',old⟩
  · exact .inr ⟨q',levels.subset (List.mem_cons_of_mem _ mem),rfl,le⟩

theorem visitsNumbered {left : Nat} {p : Level α} {s : List (Level α)} {path : List Nat} {j : Nat}
    (mem : path ++ [j] ∈ (visits expand limit nesting left p s).map Visit.idx) {i : Nat} (first : 1 ≤ i) (before : i < j) :
    path ++ [i] ∈ (visits expand limit nesting left p s).map Visit.idx ∨ Numbered (p :: s) path i := by
  induction left generalizing p s with
  | zero => cases mem
  | succ left ih =>
    rw [visits] at mem ⊢
    split at mem
    · cases mem
    · rename_i sub p' s' is
      have here (same : path ++ [j] = p'.path ++ [p'.idx]) : Numbered (p :: s) path i := by
        obtain ⟨rfl,last⟩ := List.append_inj' same rfl
        obtain ⟨q,_,path',idx,levels⟩ := nextLevels is
        have last' := (List.cons.inj last).1
        exact ⟨q,levels.subset List.mem_cons_self,path',by omega⟩
      have rest (v : Visit α) (own : v.idx = p'.path ++ [p'.idx]) {vs : List (Visit α)}
          (old : path ++ [i] ∈ vs.map Visit.idx ∨ Numbered (p' :: s') path i) :
          path ++ [i] ∈ (v :: vs).map Visit.idx ∨ Numbered (p :: s) path i := by
        rcases old with inside | numbered
        · exact .inl (List.mem_cons_of_mem _ inside)
        · rcases numberedNext is numbered with same | numbered
          · exact .inl (by rw [same,← own]; exact List.mem_cons_self)
          · exact .inr numbered
      dsimp only at mem ⊢
      split at mem
      · rcases List.mem_cons.mp mem with same | mem
        · exact .inr (here same)
        · refine rest _ rfl ((ih mem).imp_right fun numbered => ?_)
          obtain ⟨q,levels,same,le⟩ := numbered
          rcases List.mem_cons.mp levels with rfl | levels
          · have none : i ≤ 0 := le
            omega
          · exact ⟨q,(pushSublist p' s').subset levels,same,le⟩
      · rcases List.mem_cons.mp mem with same | mem
        · exact .inr (here same)
        · exact rest _ rfl (ih mem)

theorem visitsDepth {left : Nat} {p : Level α} {s : List (Level α)} (levels : ∀ q ∈ p :: s,q.path.length < nesting) :
    ∀ v ∈ visits expand limit nesting left p s,1 ≤ v.idx.length ∧ v.idx.length ≤ nesting := by
  induction left generalizing p s with
  | zero => exact fun _ mem => nomatch mem
  | succ left ih =>
    intro v mem
    rw [visits] at mem
    split at mem
    · cases mem
    · rename_i sub p' s' is
      obtain ⟨q,_,path,_,old⟩ := nextLevels is
      have levels' : ∀ q ∈ p' :: s',q.path.length < nesting := by
        refine List.forall_mem_cons.mpr ⟨path ▸ levels q (old.subset List.mem_cons_self),fun q' mem => ?_⟩
        exact levels q' (old.subset (List.mem_cons_of_mem _ mem))
      have size : (p'.path ++ [p'.idx]).length = p'.path.length + 1 := List.length_append
      have here := levels' p' List.mem_cons_self
      dsimp only at mem
      split at mem
      · rename_i node kids found
        have enters : (p'.path ++ [p'.idx]).length < nesting := by
          refine Decidable.byContradiction fun deep => ?_
          rw [if_neg deep] at found
          cases found
        rcases List.mem_cons.mp mem with rfl | mem
        · exact ⟨by show 1 ≤ (p'.path ++ [p'.idx]).length; omega,Nat.le_of_lt enters⟩
        · refine ih (List.forall_mem_cons.mpr ⟨enters,fun q' inside => ?_⟩) v mem
          exact levels' q' ((pushSublist p' s').subset inside)
      · rcases List.mem_cons.mp mem with rfl | mem
        · exact ⟨by show 1 ≤ (p'.path ++ [p'.idx]).length; omega,by show (p'.path ++ [p'.idx]).length ≤ nesting; omega⟩
        · exact ih levels' v mem

end

section
variable {expand : Nat → α → α × Option (List α)} {limit nesting : Nat}

theorem visitsPositive {left : Nat} {p : Level α} {s : List (Level α)} (levels : ∀ q ∈ p :: s,∀ n ∈ q.path,1 ≤ n) :
    ∀ v ∈ visits expand limit nesting left p s,∀ n ∈ v.idx,1 ≤ n := by
  induction left generalizing p s with
  | zero => exact fun _ mem => nomatch mem
  | succ left ih =>
    intro v mem
    rw [visits] at mem
    split at mem
    · cases mem
    · rename_i sub p' s' is
      obtain ⟨q,_,path,idx,old⟩ := nextLevels is
      have levels' : ∀ q ∈ p' :: s',∀ n ∈ q.path,1 ≤ n := by
        refine List.forall_mem_cons.mpr ⟨path ▸ levels q (old.subset List.mem_cons_self),fun q' mem => ?_⟩
        exact levels q' (old.subset (List.mem_cons_of_mem _ mem))
      have here : ∀ n ∈ p'.path ++ [p'.idx],1 ≤ n := by
        refine List.forall_mem_append.mpr ⟨levels' p' List.mem_cons_self,List.forall_mem_singleton.mpr ?_⟩
        rw [idx]
        exact Nat.succ_pos _
      dsimp only at mem
      split at mem
      · rcases List.mem_cons.mp mem with rfl | mem
        · exact here
        · refine ih (List.forall_mem_cons.mpr ⟨here,fun q' inside => ?_⟩) v mem
          exact levels' q' ((pushSublist p' s').subset inside)
      · rcases List.mem_cons.mp mem with rfl | mem
        · exact here
        · exact ih levels' v mem

end

section
variable {expand : Nat → α → α × Option (List α)} {children : α → α × Option (List α)} {limit nesting : Nat}

def pending (children : α → α × Option (List α)) (nesting : Nat) (p : Level α) : List (Visit α) :=
  preorder children (nesting - (p.path.length + 1)) p.path (p.idx + 1) p.queue

def Agrees (expand : Nat → α → α × Option (List α)) (children : α → α × Option (List α)) (nr left : Nat) (a : α) : Prop :=
  (expand nr a).1 = (children a).1 ∧ (expand nr a).2.map (·.take left) = (children a).2.map (·.take left)

def Fair (expand : Nat → α → α × Option (List α)) (children : α → α × Option (List α)) (limit nesting left : Nat) (vs : List (Visit α)) : Prop :=
  ∀ i v,vs[i]? = some v → i < left → v.idx.length < nesting → Agrees expand children (limit - (left - (i + 1))) (left - (i + 1)) v.found

def subtree (children : α → α × Option (List α)) : Nat → List Nat → Nat → α → List (Visit α)
  | 0,path,i,a => [⟨a,a,path ++ [i],false⟩]
  | below + 1,path,i,a =>
    match children a with
    | (node,some kids) => ⟨a,node,path ++ [i],true⟩ :: preorder children below (path ++ [i]) 1 kids
    | (node,none) => [⟨a,node,path ++ [i],false⟩]

theorem preorderCons (below : Nat) (path : List Nat) (i : Nat) (a : α) (as : List α) :
    preorder children below path i (a :: as) = subtree children below path i a ++ preorder children below path (i + 1) as := by
  cases below with
  | zero =>
    rw [preorder,subtree]
    rfl
  | succ below =>
    rw [preorder,subtree]
    split <;> rfl

theorem subtreeSome (below : Nat) (path : List Nat) (i : Nat) (a : α) : ∃ v vs,subtree children below path i a = v :: vs := by
  cases below with
  | zero => exact ⟨_,_,rfl⟩
  | succ below =>
    rw [subtree]
    split <;> exact ⟨_,_,rfl⟩

theorem preorderPrefix {below i left : Nat} {path : List Nat} {as as' : List α} (same : as.take left = as'.take left) (vs : List (Visit α)) :
    (preorder children below path i as ++ vs).take left = (preorder children below path i as' ++ vs).take left := by
  induction as generalizing i left as' with
  | nil =>
    cases left with
    | zero => rfl
    | succ left =>
      cases as' with
      | nil => rfl
      | cons a as' => cases same
  | cons a as ih =>
    cases left with
    | zero => rfl
    | succ left =>
      cases as' with
      | nil => cases same
      | cons a' as' =>
        obtain ⟨rfl,rest⟩ := List.cons.inj same
        obtain ⟨v,w,is⟩ := @subtreeSome α children below path i a
        have shorter : as.take (left - w.length) = as'.take (left - w.length) := by
          have cut := congrArg (List.take (left - w.length)) rest
          rwa [List.take_take,List.take_take,Nat.min_eq_left (Nat.sub_le _ _)] at cut
        have join (u : List (Visit α)) : (w ++ u).take left = w.take left ++ u.take (left - w.length) := List.take_append
        rw [preorderCons,preorderCons,is,List.append_assoc,List.append_assoc,List.cons_append,List.cons_append,List.take_succ_cons,
          List.take_succ_cons,join,join,ih shorter]

theorem fairTake {left : Nat} {vs vs' : List (Visit α)} (same : vs.take left = vs'.take left)
    (fair : Fair expand children limit nesting left vs) : Fair expand children limit nesting left vs' := by
  intro i v is before
  refine fair i v ?_ before
  rw [← List.getElem?_take_of_lt before,same,List.getElem?_take_of_lt before]
  exact is

theorem fairTail {left : Nat} {v : Visit α} {vs : List (Visit α)} (fair : Fair expand children limit nesting (left + 1) (v :: vs)) :
    Fair expand children limit nesting left vs := by
  intro i v' is before
  have next := fair (i + 1) v' is (Nat.succ_lt_succ before)
  rwa [Nat.add_sub_add_right] at next

def Live (s : List (Level α)) : Prop := ∀ q ∈ s,q.queue ≠ []

theorem nextNone {p : Level α} {s : List (Level α)} (live : Live s) (none : next p s = .none) :
    pending children nesting p ++ s.flatMap (pending children nesting) = [] := by
  obtain ⟨queue,path,idx⟩ := p
  cases queue with
  | cons a queue => cases none
  | nil =>
    cases s with
    | nil => simp [pending,preorder]
    | cons q s =>
      obtain ⟨queue,path',idx'⟩ := q
      cases queue with
      | nil => exact absurd rfl (live _ List.mem_cons_self)
      | cons a queue => cases none

theorem pushPending (p : Level α) (s : List (Level α)) :
    (push p s).flatMap (pending children nesting) = pending children nesting p ++ s.flatMap (pending children nesting) := by
  unfold push
  split
  · rename_i empty
    rw [pending,List.isEmpty_iff.mp empty,preorder]
    rfl
  · exact List.flatMap_cons

theorem nextPending {p p' : Level α} {s s' : List (Level α)} {sub : α} (is : next p s = some (sub,p',s')) :
    pending children nesting p ++ s.flatMap (pending children nesting) =
      subtree children (nesting - (p'.path.length + 1)) p'.path p'.idx sub ++ (push p' s').flatMap (pending children nesting) := by
  obtain ⟨q,queue,path,idx,from'⟩ := nextSome is
  have here : pending children nesting q = subtree children (nesting - (p'.path.length + 1)) p'.path p'.idx sub ++ pending children nesting p' := by
    rw [pending,pending,queue,preorderCons,path,idx]
  rw [pushPending,← List.append_assoc,← here]
  rcases from' with ⟨rfl,rfl⟩ | ⟨empty,rfl⟩
  · rfl
  · rw [pending,empty,preorder,List.flatMap_cons]
    rfl

theorem nextLive {p p' : Level α} {s s' : List (Level α)} {sub : α} (is : next p s = some (sub,p',s')) (live : Live s) :
    Live s' ∧ Live (push p' s') := by
  obtain ⟨q,_,_,_,from'⟩ := nextSome is
  have rest : Live s' := by
    rcases from' with ⟨_,rfl⟩ | ⟨_,rfl⟩
    · exact live
    · exact fun q' mem => live q' (List.mem_cons_of_mem _ mem)
  refine ⟨rest,?_⟩
  unfold push
  split
  · exact rest
  · rename_i some
    exact List.forall_mem_cons.mpr ⟨fun empty => some (List.isEmpty_iff.mpr empty),rest⟩

theorem visitsPreorder {left : Nat} {p : Level α} {s : List (Level α)} (live : Live s)
    (fair : Fair expand children limit nesting left (pending children nesting p ++ s.flatMap (pending children nesting))) :
    visits expand limit nesting left p s = (pending children nesting p ++ s.flatMap (pending children nesting)).take left := by
  induction left generalizing p s with
  | zero => rfl
  | succ left ih =>
    rw [visits]
    split
    · rename_i none
      rw [nextNone live none]
      rfl
    · rename_i sub p' s' is
      obtain ⟨rest,stack⟩ := nextLive is live
      rw [nextPending is] at fair ⊢
      have size : (p'.path ++ [p'.idx]).length = p'.path.length + 1 := List.length_append
      -- a leaf: what is left are the level and the stack
      have leaf (v : Visit α) (fair : Fair expand children limit nesting (left + 1) (v :: (push p' s').flatMap (pending children nesting))) :
          v :: visits expand limit nesting left p' s' = (v :: (push p' s').flatMap (pending children nesting)).take (left + 1) := by
        have tail := fairTail fair
        rw [pushPending] at tail ⊢
        rw [List.take_succ_cons,ih rest tail]
      dsimp only
      by_cases enters : p'.path.length + 1 < nesting
      · obtain ⟨below,levels⟩ : ∃ below,nesting - (p'.path.length + 1) = below + 1 := ⟨nesting - (p'.path.length + 1) - 1,by omega⟩
        rw [levels,subtree] at fair ⊢
        rw [size,if_pos enters]
        cases found : children sub with
        | mk node kids =>
          rw [found] at fair
          have agrees : Agrees expand children (limit - left) left sub := by
            cases kids with
            | none => exact fair 0 _ rfl (Nat.succ_pos _) (size ▸ enters)
            | some kids => exact fair 0 _ rfl (Nat.succ_pos _) (size ▸ enters)
          obtain ⟨same,kidsSame⟩ := agrees
          cases got : expand (limit - left) sub with
          | mk node' kids' =>
            rw [found,got] at same kidsSame
            have same : node' = node := same
            subst same
            cases kids with
            | none =>
              cases kids' with
              | some kids' => cases kidsSame
              | none => exact leaf _ fair
            | some kids =>
              cases kids' with
              | none => cases kidsSame
              | some kids' =>
                have cut : kids'.take left = kids.take left := Option.some.inj kidsSame
                have inner (kids : List α) : pending children nesting ⟨kids,p'.path ++ [p'.idx],0⟩ =
                    preorder children below (p'.path ++ [p'.idx]) 1 kids := by
                  have depth : nesting - ((p'.path ++ [p'.idx]).length + 1) = below := by omega
                  rw [pending,depth]
                have both : (pending children nesting ⟨kids,p'.path ++ [p'.idx],0⟩ ++ (push p' s').flatMap (pending children nesting)).take left =
                    (pending children nesting ⟨kids',p'.path ++ [p'.idx],0⟩ ++ (push p' s').flatMap (pending children nesting)).take left := by
                  rw [inner,inner]
                  exact (preorderPrefix cut _).symm
                have tail := fairTail fair
                rw [← inner] at tail
                dsimp only
                rw [ih stack (fairTake both tail),← both,List.cons_append,List.take_succ_cons,inner]
      · have levels : nesting - (p'.path.length + 1) = 0 := by omega
        rw [levels,subtree] at fair ⊢
        rw [size,if_neg enters]
        exact leaf _ fair

end

end Preorder
