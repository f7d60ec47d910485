import PublicInbox.DS.Unique

/-! Timers over whole runs: in order, once, not before their time, and one at a time under a name. -/
namespace PublicInbox.DS

section
variable {T D : Type} [LinearOrder T] {plus : T → D → T}

def Clear (s : State T) (a : Act T D) : Prop :=
  a = .expire → ∀ toRun rest now up,s.stack = .loop now :: up → s.timers = toRun :: rest → toRun.fireTime ≤ now →
    toRun.name = none → pending s "" = []

theorem stepTabled {s s' : State T} {a : Act T D} {n : String} (ok : step plus s a = .ok s') (inv : Inv s)
    (clear : n = "" → Clear s a) (tabled : Tabled s n) : Tabled s' n := by
  cases stepEffect ok with
  | kept kept =>
    unfold Tabled pending
    rw [kept.timers,kept.uniqTimer]
    exact tabled
  | added name secs l found free => exact addedTabled inv found rfl free tabled
  | fired toRun rest now up stack timers due =>
    refine firedTabled timers (fun unnamed empty => ?_) tabled
    have none := clear empty rfl toRun rest now up stack timers due unnamed
    rwa [← empty] at none

/-! Runs -/

theorem runInv {s s' : State T} {acts : List (Act T D)} (ran : run plus s acts = .ok s') (inv : Inv s) : Inv s' := by
  induction acts generalizing s with
  | nil =>
    cases ran
    exact inv
  | cons a acts ih =>
    unfold run at ran
    cases ok : step plus s a with
    | error e =>
      rw [ok] at ran
      cases ran
    | ok s₁ =>
      rw [ok] at ran
      exact ih ran (stepInv ok inv)

theorem runTabled {s : State T} {n : String} {acts : List (Act T D)} (inv : Inv s) (tabled : Tabled s n)
    (clear : ∀ before a rest,acts = before ++ a :: rest → ∀ s',run plus s before = .ok s' → n = "" → Clear s' a)
    {before rest : List (Act T D)} (parts : acts = before ++ rest) {s' : State T} (ran : run plus s before = .ok s') :
    Tabled s' n := by
  induction before generalizing s acts with
  | nil =>
    cases ran
    exact tabled
  | cons a before ih =>
    unfold run at ran
    cases ok : step plus s a with
    | error e =>
      rw [ok] at ran
      cases ran
    | ok s₁ =>
      rw [ok] at ran
      refine ih (stepInv ok inv) (stepTabled ok inv (clear [] a (before ++ rest) parts s rfl) tabled) ?_ rfl ran
      intro before' a' rest' parts' s₂ ran'
      refine clear (a :: before') a' rest' ?_ s₂ ?_
      · rw [parts,List.cons_append,parts']
        rfl
      · unfold run
        rw [ok]
        exact ran'

theorem runAppend {s s₁ s₂ : State T} {acts : List (Act T D)} {a : Act T D} (ran : run plus s acts = .ok s₁)
    (ok : step plus s₁ a = .ok s₂) : run plus s (acts ++ [a]) = .ok s₂ := by
  induction acts generalizing s with
  | nil =>
    cases ran
    simp only [List.nil_append,run]
    rw [ok]
    rfl
  | cons b acts ih =>
    unfold run at ran
    rw [List.cons_append,run]
    cases ok' : step plus s b with
    | error e =>
      rw [ok'] at ran
      cases ran
    | ok s' =>
      rw [ok'] at ran
      exact ih ran

/-! What every state has -/

structure Right (plus : T → D → T) (s : State T) : Prop where
  sorted : Sorted s.timers
  lives : ∀ (a : Act T D) (msg : String),step plus s a ≠ .error (.dies msg)
  once : (s.timers.map Timer.serial ++ s.fired.map (·.1.serial)).Perm (List.range s.made)
  due : ∀ f ∈ s.fired,f.1.fireTime ≤ f.2
  earliest : ∀ s',step plus s .expire = .ok s' → ∃ t,s'.fired = (t,s.clock) :: s.fired ∧ ∀ u ∈ s.timers,t.fireTime ≤ u.fireTime
  drained : ∀ now up,s.stack = .loop now :: up → ∀ s',step plus s .done = .ok s' → ∀ t ∈ s'.timers,now < t.fireTime
  unique : ∀ name,(pending s name).length ≤ 1 ∧ ((s.uniqTimer name).isSome ↔ pending s name ≠ [])

theorem addLives {s : State T} (inv : Inv s) (name : Option String) (secs : D) :
    ∃ l,addNamedTimer plus name secs s = .ok (⟨plus s.clock secs,name,s.made⟩,{ s with timers := l, made := s.made + 1 }) := by
  obtain ⟨l,ok,_,_⟩ := inserted ⟨plus s.clock secs,name,s.made⟩ inv.sorted
  refine ⟨l,?_⟩
  simp only [addNamedTimer,ok]
  rfl

theorem stepLives {s : State T} (inv : Inv s) (a : Act T D) (msg : String) : step plus s a ≠ .error (.dies msg) := by
  intro same
  cases a with
  | addTimer secs =>
    obtain ⟨l,ok⟩ := addLives inv none secs
    simp only [step,addTimer] at same
    rw [ok] at same
    split at same <;> cases same
  | addUniqTimer name secs =>
    obtain ⟨l,ok⟩ := addLives inv (some name) secs
    simp only [step,addUniqTimer] at same
    rw [ok] at same
    split at same
    · split at same <;> cases same
    · cases same
  | passes clock =>
    simp only [step] at same
    split at same <;> cases same
  | runTimers =>
    simp only [step] at same
    split at same <;> cases same
  | ticked =>
    simp only [step] at same
    split at same
    · split at same <;> cases same
    · cases same
  | expire =>
    simp only [step] at same
    split at same
    · split at same <;> cases same
    · cases same
  | ran =>
    simp only [step] at same
    split at same <;> cases same
  | done =>
    simp only [step] at same
    split at same
    · cases same
    · split at same <;> cases same
    · cases same
  | unwind => cases same

theorem firesEarliest {s s' : State T} (inv : Inv s) (ok : step plus s .expire = .ok s') :
    ∃ t,s'.fired = (t,s.clock) :: s.fired ∧ ∀ u ∈ s.timers,t.fireTime ≤ u.fireTime := by
  have sorted := inv.sorted
  simp only [step] at ok
  split at ok
  · rename_i now up toRun rest stack timers
    split at ok
    · cases ok
      refine ⟨toRun,rfl,?_⟩
      rw [timers] at sorted ⊢
      exact List.forall_mem_cons.mpr ⟨le_rfl,(List.pairwise_cons.mp sorted).1⟩
    · cases ok
  · cases ok

theorem loopDrains {s s' : State T} (inv : Inv s) {now : T} {up : List (Frame T)} (stack : s.stack = .loop now :: up)
    (ok : step plus s .done = .ok s') : ∀ t ∈ s'.timers,now < t.fireTime := by
  have sorted := inv.sorted
  simp only [step] at ok
  split at ok
  · rename_i timers
    cases ok
    intro t mem
    rw [timers] at mem
    cases mem
  · rename_i now' up' toRun rest stack' timers
    split at ok
    · cases ok
    · rename_i later
      cases ok
      obtain ⟨same,_⟩ := List.cons.inj (stack.symm.trans stack')
      cases same
      have later : now < toRun.fireTime := lt_of_not_ge later
      show ∀ t ∈ s.timers,_
      rw [timers] at sorted ⊢
      exact List.forall_mem_cons.mpr ⟨later,fun t mem => later.trans_le ((List.pairwise_cons.mp sorted).1 t mem)⟩
  · cases ok

/- In every state of a run, exactly if every step of it is clear -/
theorem timersRight (plus : T → D → T) (clock : T) (acts : List (Act T D)) :
    (∀ before rest,acts = before ++ rest → ∀ s,run plus (start clock) before = .ok s → Right plus s) ↔
      ∀ before a rest,acts = before ++ a :: rest → ∀ s,run plus (start clock) before = .ok s → Clear s a := by
  constructor
  · intro right before a rest parts s ran expires toRun others now up stack timers due unnamed
    by_contra some
    have ok : step plus s a = .ok (fire s toRun others now up) := by
      subst expires
      simp only [step,stack,timers]
      exact if_pos due
    have after := right (before ++ [a]) rest (by rw [parts,List.append_assoc]; rfl) _ (runAppend ran ok)
    have gone : (fire s toRun others now up).uniqTimer "" = none := by
      show (if "" = toRun.name.getD "" then none else _) = none
      rw [unnamed]
      rfl
    have left : pending (fire s toRun others now up) "" = pending s "" := by
      unfold pending
      rw [timers,List.filter_cons_of_neg (by simp [unnamed])]
      rfl
    have held := (after.unique "").2
    rw [gone,left] at held
    cases held.mpr some
  · intro clear before rest parts s ran
    have inv : Inv s := runInv ran (startInv clock)
    refine ⟨inv.sorted,stepLives inv,inv.once,inv.due,fun s' => firesEarliest inv,fun now up stack s' => loopDrains inv stack,
      fun name => Tabled.one ?_⟩
    exact runTabled (startInv clock) (.refl _) (fun before a rest parts s ran _ => clear before a rest parts s ran) parts ran

end

/- Two timers under the empty name, after one without a name was run -/
theorem twoUnnamed : (run (· + ·) (start 0) [.addUniqTimer "" 10,.addTimer 0,.runTimers,.ticked,.expire,.ran,.done,
    .addUniqTimer "" 10]).toOption.map (fun s : State Nat => (pending s "").length) = some 2 := by
  decide

end PublicInbox.DS
