import PublicInbox.DS.Timers

/-! What every run of the timers keeps. -/
namespace PublicInbox.DS

section
variable {T D : Type} [LinearOrder T] {plus : T → D → T}

def Sorted (timers : List (Timer T)) : Prop := timers.Pairwise fun a b => a.fireTime ≤ b.fireTime

/-! Insertion -/

theorem spliced {timer : Timer T} {timers : List (Timer T)} (sorted : Sorted timers)
    (later : ∃ x ∈ timers,timer.fireTime < x.fireTime) :
    ∃ l,splice timer timers = .ok l ∧ Sorted l ∧ l.Perm (timer :: timers) := by
  induction timers with
  | nil =>
    obtain ⟨x,none,_⟩ := later
    cases none
  | cons x xs ih =>
    obtain ⟨first,rest⟩ := List.pairwise_cons.mp sorted
    unfold splice
    by_cases before : timer.fireTime < x.fireTime
    · rw [if_pos before]
      refine ⟨_,rfl,List.pairwise_cons.mpr ⟨fun y mem => ?_,sorted⟩,.refl _⟩
      rcases List.mem_cons.mp mem with rfl | mem
      · exact before.le
      · exact before.le.trans (first y mem)
    · rw [if_neg before]
      have later : ∃ y ∈ xs,timer.fireTime < y.fireTime := by
        obtain ⟨y,mem,after⟩ := later
        rcases List.mem_cons.mp mem with rfl | mem
        · exact absurd after before
        · exact ⟨y,mem,after⟩
      obtain ⟨l,ok,sorted',perm⟩ := ih rest later
      refine ⟨x :: l,by rw [ok]; rfl,List.pairwise_cons.mpr ⟨fun y mem => ?_,sorted'⟩,?_⟩
      · rcases List.mem_cons.mp (perm.mem_iff.mp mem) with rfl | mem
        · exact le_of_not_gt before
        · exact first y mem
      · exact (perm.cons x).trans (.swap timer x xs)

theorem inserted (timer : Timer T) {timers : List (Timer T)} (sorted : Sorted timers) :
    ∃ l,insertion timer timers = .ok l ∧ Sorted l ∧ l.Perm (timer :: timers) := by
  have pushed : (timers ++ [timer]).Perm (timer :: timers) := List.perm_append_singleton _ _
  unfold insertion
  split
  · rename_i empty
    rw [List.getLast?_eq_none_iff] at empty
    subst empty
    exact ⟨_,rfl,List.pairwise_singleton _ _,pushed⟩
  · rename_i last found
    obtain ⟨init,rfl⟩ := List.getLast?_eq_some_iff.mp found
    split
    · rename_i after
      refine ⟨_,rfl,List.pairwise_append.mpr ⟨sorted,List.pairwise_singleton _ _,?_⟩,pushed⟩
      intro x mem y only
      rw [List.mem_singleton.mp only]
      rcases List.mem_append.mp mem with mem | mem
      · exact ((List.pairwise_append.mp sorted).2.2 x mem last List.mem_cons_self).trans after
      · rw [List.mem_singleton.mp mem]
        exact after
    · rename_i before
      exact spliced sorted ⟨last,by simp,lt_of_not_ge before⟩

/-! What a step does -/

def Frame.now? : Frame T → Option T
  | nextTick => none
  | loop now | callback now => some now

structure Kept (s s' : State T) : Prop where
  timers : s'.timers = s.timers
  uniqTimer : s'.uniqTimer = s.uniqTimer
  made : s'.made = s.made
  fired : s'.fired = s.fired
  clock : s.clock ≤ s'.clock
  stack : ∀ f ∈ s'.stack,f ∈ s.stack ∨ ∀ now ∈ f.now?,now = s.clock ∨ Frame.callback now ∈ s.stack

def enter (s : State T) (name : Option String) (timer : Timer T) : String → Option (Timer T) := fun n =>
  if name = some n then some timer else s.uniqTimer n

inductive Effect (plus : T → D → T) (s : State T) : Act T D → State T → Prop
  | kept {a s'} (kept : Kept s s') : Effect plus s a s'
  | added {a} (name : Option String) (secs : D) (l : List (Timer T))
      (ok : insertion ⟨plus s.clock secs,name,s.made⟩ s.timers = .ok l) (free : ∀ n ∈ name,s.uniqTimer n = none) :
      Effect plus s a { s with timers := l, uniqTimer := enter s name ⟨plus s.clock secs,name,s.made⟩, made := s.made + 1 }
  | fired (toRun : Timer T) (rest : List (Timer T)) (now : T) (up : List (Frame T)) (stack : s.stack = .loop now :: up)
      (timers : s.timers = toRun :: rest) (due : toRun.fireTime ≤ now) : Effect plus s .expire (fire s toRun rest now up)

theorem Kept.refl (s : State T) : Kept s s := ⟨rfl,rfl,rfl,rfl,le_rfl,fun _ mem => .inl mem⟩

theorem Kept.called {s : State T} {stack : List (Frame T)}
    (frames : ∀ f ∈ stack,f ∈ s.stack ∨ ∀ now ∈ f.now?,now = s.clock ∨ Frame.callback now ∈ s.stack) :
    Kept s { s with stack := stack } := ⟨rfl,rfl,rfl,rfl,le_rfl,frames⟩

theorem Kept.popped {s : State T} {f : Frame T} {stack : List (Frame T)} (is : s.stack = f :: stack) :
    Kept s { s with stack := stack } := .called fun _ mem => .inl (is ▸ List.mem_cons_of_mem _ mem)

theorem Kept.pushed {s : State T} {f : Frame T} {stack : List (Frame T)} (old : ∀ g ∈ stack,g ∈ s.stack)
    (entered : ∀ now ∈ f.now?,now = s.clock ∨ Frame.callback now ∈ s.stack) :
    Kept s { s with stack := f :: stack } :=
  .called fun g mem => by
    rcases List.mem_cons.mp mem with rfl | mem
    · exact .inr entered
    · exact .inl (old g mem)

theorem addTimerEffect {s s' : State T} {secs : D} (ok : step plus s (.addTimer secs) = .ok s') :
    Effect plus s (.addTimer secs) s' := by
  simp only [step,addTimer,addNamedTimer] at ok
  split at ok
  · cases found : insertion ⟨plus s.clock secs,none,s.made⟩ s.timers with
    | error e =>
      rw [found] at ok
      cases ok
    | ok l =>
      rw [found] at ok
      cases ok
      exact .added none secs l found nofun
  · cases ok

theorem addUniqTimerEffect {s s' : State T} {name : String} {secs : D} (ok : step plus s (.addUniqTimer name secs) = .ok s') :
    Effect plus s (.addUniqTimer name secs) s' := by
  simp only [step,addUniqTimer,addNamedTimer] at ok
  split at ok
  · split at ok
    · cases ok
      exact .kept (.refl s)
    · rename_i free
      cases found : insertion ⟨plus s.clock secs,some name,s.made⟩ s.timers with
      | error e =>
        rw [found] at ok
        cases ok
      | ok l =>
        rw [found] at ok
        cases ok
        have table : (fun n => if n = name then some (⟨plus s.clock secs,some name,s.made⟩ : Timer T) else s.uniqTimer n) =
            enter s (some name) ⟨plus s.clock secs,some name,s.made⟩ := by
          funext n
          simp [enter,eq_comm]
        show Effect plus s _ { s with timers := l, uniqTimer := _, made := s.made + 1 }
        rw [table]
        refine .added (some name) secs l found ?_
        rintro n ⟨⟩
        exact free
  · cases ok

theorem stepEffect {s s' : State T} {a : Act T D} (ok : step plus s a = .ok s') : Effect plus s a s' := by
  cases a with
  | passes clock =>
    simp only [step] at ok
    split at ok
    · rename_i later
      cases ok
      exact .kept ⟨rfl,rfl,rfl,rfl,later,fun _ mem => .inl mem⟩
    · cases ok
  | addTimer secs => exact addTimerEffect ok
  | addUniqTimer name secs => exact addUniqTimerEffect ok
  | runTimers =>
    simp only [step] at ok
    split at ok
    · cases ok
      exact .kept (.pushed (fun _ mem => mem) nofun)
    · cases ok
  | ticked =>
    simp only [step] at ok
    split at ok
    · rename_i up stack
      split at ok
      · cases ok
        exact .kept (.popped stack)
      · cases ok
        exact .kept (.pushed (fun _ mem => stack ▸ List.mem_cons_of_mem _ mem) fun now is => .inl (Option.some.inj is).symm)
    · cases ok
  | expire =>
    simp only [step] at ok
    split at ok
    · rename_i now up toRun rest stack timers
      split at ok
      · rename_i due
        cases ok
        exact .fired toRun rest now up stack timers due
      · cases ok
    · cases ok
  | ran =>
    simp only [step] at ok
    split at ok
    · rename_i now up stack
      cases ok
      refine .kept (.pushed (fun _ mem => stack ▸ List.mem_cons_of_mem _ mem) fun now' is => .inr ?_)
      rw [← Option.some.inj is,stack]
      exact List.mem_cons_self
    · cases ok
  | done =>
    simp only [step] at ok
    split at ok
    · rename_i up stack _
      cases ok
      exact .kept (.popped stack)
    · rename_i up _ _ stack _
      split at ok
      · cases ok
      · cases ok
        exact .kept (.popped stack)
    · cases ok
  | unwind =>
    cases ok
    exact .kept (.called fun f mem => .inl (List.mem_of_mem_tail mem))

/-! The invariant -/

structure Inv (s : State T) : Prop where
  sorted : Sorted s.timers
  once : (s.timers.map Timer.serial ++ s.fired.map (·.1.serial)).Perm (List.range s.made)
  due : ∀ f ∈ s.fired,f.1.fireTime ≤ f.2
  nows : ∀ f ∈ s.stack,∀ now ∈ f.now?,now ≤ s.clock

theorem startInv (clock : T) : Inv (start clock) := ⟨List.Pairwise.nil,.refl _,nofun,nofun⟩

theorem Kept.inv {s s' : State T} (kept : Kept s s') (inv : Inv s) : Inv s' := by
  obtain ⟨timers,_,made,fired,clock,stack⟩ := kept
  refine ⟨timers ▸ inv.sorted,?_,fired ▸ inv.due,fun f mem now is => ?_⟩
  · rw [timers,made,fired]
    exact inv.once
  · rcases stack f mem with mem | entered
    · exact (inv.nows f mem now is).trans clock
    · rcases entered now is with rfl | called
      · exact clock
      · exact (inv.nows _ called now rfl).trans clock

theorem Inv.added {s : State T} (inv : Inv s) {timer : Timer T} {l : List (Timer T)} (table : String → Option (Timer T))
    (ok : insertion timer s.timers = .ok l) (serial : timer.serial = s.made) :
    Inv { s with timers := l, uniqTimer := table, made := s.made + 1 } := by
  obtain ⟨l',ok',sorted,perm⟩ := inserted timer inv.sorted
  cases ok.symm.trans ok'
  refine ⟨sorted,?_,inv.due,inv.nows⟩
  have all : (l.map Timer.serial ++ s.fired.map (·.1.serial)).Perm (timer.serial :: List.range s.made) :=
    ((perm.map Timer.serial).append_right _).trans (inv.once.cons timer.serial)
  have more : (s.made :: List.range s.made).Perm (List.range (s.made + 1)) := by
    rw [List.range_succ]
    exact (List.perm_append_singleton _ _).symm
  exact (serial ▸ all).trans more

theorem Inv.fired {s : State T} (inv : Inv s) {toRun : Timer T} {rest : List (Timer T)} {now : T} {up : List (Frame T)}
    (stack : s.stack = .loop now :: up) (timers : s.timers = toRun :: rest) (due : toRun.fireTime ≤ now) :
    Inv (fire s toRun rest now up) := by
  have here : now ≤ s.clock := inv.nows _ (stack ▸ List.mem_cons_self) now rfl
  have sorted := inv.sorted
  have once := inv.once
  rw [timers] at sorted once
  refine ⟨(List.pairwise_cons.mp sorted).2,?_,?_,?_⟩
  · exact List.perm_middle.trans once
  · exact List.forall_mem_cons.mpr ⟨due.trans here,inv.due⟩
  · refine List.forall_mem_cons.mpr ⟨fun now' is => Option.some.inj is ▸ here,fun f mem => inv.nows f ?_⟩
    rw [stack]
    exact List.mem_cons_of_mem _ mem

theorem stepInv {s s' : State T} {a : Act T D} (ok : step plus s a = .ok s') (inv : Inv s) : Inv s' := by
  cases stepEffect ok with
  | kept kept => exact kept.inv inv
  | added name secs l found free => exact inv.added _ found rfl
  | fired toRun rest now up stack timers due => exact inv.fired stack timers due

end

/-! Unique timers -/

section
variable {T : Type}

def pending (s : State T) (name : String) : List (Timer T) := s.timers.filter fun t => t.name = some name

def Tabled (s : State T) (name : String) : Prop := (pending s name).Perm (s.uniqTimer name).toList

theorem Tabled.one {s : State T} {name : String} (tabled : Tabled s name) :
    (pending s name).length ≤ 1 ∧ ((s.uniqTimer name).isSome ↔ pending s name ≠ []) := by
  unfold Tabled at tabled
  cases found : s.uniqTimer name with
  | none =>
    rw [found] at tabled
    rw [List.Perm.eq_nil tabled]
    simp
  | some t =>
    rw [found] at tabled
    rw [List.perm_singleton.mp tabled]
    simp

theorem firedTabled {s : State T} {toRun : Timer T} {rest : List (Timer T)} {now : T} {up : List (Frame T)}
    (timers : s.timers = toRun :: rest) {n : String} (clear : toRun.name = none → n = "" → pending s n = [])
    (tabled : Tabled s n) : Tabled (fire s toRun rest now up) n := by
  have parts : pending s n = if toRun.name = some n then toRun :: rest.filter (fun t => t.name = some n) else
      rest.filter fun t => t.name = some n := by
    unfold pending
    rw [timers,List.filter_cons]
    simp
  unfold Tabled at tabled
  show (rest.filter _).Perm (if n = toRun.name.getD "" then none else s.uniqTimer n).toList
  by_cases own : toRun.name = some n
  · rw [if_pos own] at parts
    rw [parts] at tabled
    have none : rest.filter (fun t => t.name = some n) = [] := by
      cases found : s.uniqTimer n with
      | none =>
        rw [found] at tabled
        cases tabled.eq_nil
      | some t =>
        rw [found] at tabled
        exact (List.cons.inj (List.perm_singleton.mp tabled)).2
    rw [none,own,Option.getD_some,if_pos rfl]
    exact .refl _
  · rw [if_neg own] at parts
    rw [parts] at tabled
    by_cases taken : n = toRun.name.getD ""
    · rw [if_pos taken]
      cases named : toRun.name with
      | some m =>
        rw [named] at own taken
        exact absurd (congrArg some taken.symm) own
      | none =>
        rw [named] at taken
        have none := clear named taken
        rw [parts] at none
        rw [none]
        exact .refl _
    · rw [if_neg taken]
      exact tabled

end

section
variable {T D : Type} [LinearOrder T] {plus : T → D → T}

theorem addedTabled {s : State T} {name : Option String} {timer : Timer T} {l : List (Timer T)} (inv : Inv s)
    (ok : insertion timer s.timers = .ok l) (named : timer.name = name) (free : ∀ n ∈ name,s.uniqTimer n = none) {n : String}
    (tabled : Tabled s n) : Tabled { s with timers := l, uniqTimer := enter s name timer, made := s.made + 1 } n := by
  obtain ⟨l',ok',_,perm⟩ := inserted timer inv.sorted
  cases ok.symm.trans ok'
  have filtered := perm.filter fun t => t.name = some n
  show (l.filter _).Perm (enter s name timer n).toList
  unfold enter
  by_cases own : name = some n
  · have before : pending s n = [] := by
      unfold Tabled at tabled
      rw [free n own] at tabled
      exact tabled.eq_nil
    rw [List.filter_cons_of_pos (by simpa [named] using own)] at filtered
    rw [if_pos own]
    have whole : (timer :: s.timers.filter fun t => t.name = some n) = [timer] := congrArg (timer :: ·) before
    rw [whole] at filtered
    exact filtered
  · rw [List.filter_cons_of_neg (by simpa [named] using own)] at filtered
    rw [if_neg own]
    exact filtered.trans tabled

end

end PublicInbox.DS
