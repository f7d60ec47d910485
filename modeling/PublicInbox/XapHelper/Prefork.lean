import PublicInbox.XapHelper

/-! What a run of prefork_loop keeps of its table, and the order of signals that breaks it. -/
namespace PublicInbox.XapHelper
namespace Parent

variable {p : Parent}

structure Placed (p : Parent) : Prop where
  slots : ∀ pid,pid ≠ 0 → p.workerPids.count pid = p.children.count pid
  nodup : p.children.Nodup
  positive : 0 ∉ p.children

theorem Placed.once (placed : p.Placed) {pid : Nat} (child : pid ∈ p.children) : p.workerPids.count pid = 1 := by
  have pos : pid ≠ 0 := fun zero => placed.positive (zero ▸ child)
  rw [placed.slots pid pos,List.count_eq_one_of_mem placed.nodup child]

structure Same (p q : Parent) : Prop where
  alive : q.alive = p.alive
  nworker : q.nworker = p.nworker
  hwm : q.nworkerHwm = p.nworkerHwm
  length : q.workerPids.length = p.workerPids.length
  faults : q.faults = p.faults
  ended : q.ended = p.ended

theorem Same.refl (p : Parent) : p.Same p := ⟨rfl,rfl,rfl,rfl,rfl,rfl⟩

theorem Same.trans {a b c : Parent} (first : a.Same b) (second : b.Same c) : a.Same c :=
  ⟨second.alive.trans first.alive,second.nworker.trans first.nworker,second.hwm.trans first.hwm,
    second.length.trans first.length,second.faults.trans first.faults,second.ended.trans first.ended⟩

structure Fills (p q : Parent) : Prop where
  same : p.Same q
  children : ∀ pid ∈ p.children,pid ∈ q.children ∧ (pid ≠ 0 → q.workerPids.count pid = p.workerPids.count pid)
  placed : p.Placed → q.Placed

theorem Fills.refl (p : Parent) : p.Fills p := ⟨.refl p,fun _ child => ⟨child,fun _ => rfl⟩,id⟩

theorem Fills.trans {a b c : Parent} (first : a.Fills b) (second : b.Fills c) : a.Fills c :=
  ⟨first.same.trans second.same,
    fun pid child => have ⟨kept,count⟩ := first.children pid child
      have ⟨kept',count'⟩ := second.children pid kept
      ⟨kept',fun pos => (count' pos).trans (count pos)⟩,
    second.placed ∘ first.placed⟩

theorem refillFills (fork : Fork) {nr : Nat} (inside : nr < p.workerPids.length) : p.Fills (refill fork p nr) := by
  have found : p.workerPids[nr]? = some p.workerPids[nr] := List.getElem?_eq_getElem inside
  simp only [refill,read,found]
  split
  · rename_i empty
    unfold startWorker
    cases forked : fork.pid nr p.children with
    | none => exact .refl p
    | some pid =>
      obtain ⟨positive,new⟩ := fork.fresh nr p.children pid forked
      simp only [insertPid,read,found,empty,if_true,write,if_pos inside]
      have count : ∀ other,other ≠ 0 → (p.workerPids.set nr pid).count other =
          p.workerPids.count other + if pid = other then 1 else 0 := by
        intro other nonzero
        rw [List.count_set inside,empty]
        simp [Ne.symm nonzero]
      refine ⟨⟨rfl,rfl,rfl,List.length_set,rfl,rfl⟩,fun other child => ⟨List.mem_cons_of_mem _ child,fun nonzero => ?_⟩,
        fun placed => ?_⟩
      · dsimp only
        rw [count other nonzero,if_neg]
        · rfl
        · rintro rfl
          exact new child
      · refine ⟨fun other nonzero => ?_,List.nodup_cons.mpr ⟨new,placed.nodup⟩,?_⟩
        · dsimp only
          rw [count other nonzero,List.count_cons,placed.slots other nonzero]
          simp
        · exact fun zero => (List.mem_cons.mp zero).elim (fun same => positive same.symm) placed.positive
  · exact .refl p

theorem startWorkersFills (fork : Fork) (allocated : p.nworker ≤ p.workerPids.length) : p.Fills (p.startWorkers fork) := by
  refine Stepwise.keepsAll (fun q => p.Fills q) (fun q nr mem fills => ?_) (.refl p)
  exact fills.trans (refillFills fork (fills.same.length ▸ Nat.lt_of_lt_of_le (List.mem_range.mp mem) allocated))

structure Scanned (p : Parent) (nrs : List Nat) (q : Parent) : Prop where
  alive : q.alive = p.alive
  nworker : q.nworker = p.nworker
  hwm : q.nworkerHwm = p.nworkerHwm
  pids : q.workerPids = p.workerPids
  children : q.children = p.children
  ended : q.ended = p.ended
  faults : q.faults = p.faults ++ (nrs.filter (p.workerPids.length ≤ ·)).map .bounds

theorem readScanned (p : Parent) (nr : Nat) : p.Scanned [nr] (p.read nr).1 := by
  unfold read
  by_cases inside : nr < p.workerPids.length
  · rw [List.getElem?_eq_getElem inside]
    exact ⟨rfl,rfl,rfl,rfl,rfl,rfl,by simp [inside]⟩
  · rw [List.getElem?_eq_none (Nat.not_lt.mp inside)]
    exact ⟨rfl,rfl,rfl,rfl,rfl,rfl,by simp [fault,Nat.not_lt.mp inside]⟩

theorem Scanned.append {p q r : Parent} {xs ys : List Nat} (first : p.Scanned xs q) (second : q.Scanned ys r) : p.Scanned (xs ++ ys) r := by
  refine ⟨second.alive.trans first.alive,second.nworker.trans first.nworker,second.hwm.trans first.hwm,
    second.pids.trans first.pids,second.children.trans first.children,second.ended.trans first.ended,?_⟩
  rw [second.faults,first.faults,first.pids]
  simp

theorem scan {σ : Type} (view : σ → Parent) {f : σ → Nat → σ} (reads : ∀ s nr,(view s).Scanned [nr] (view (f s nr))) (s : σ) (nrs : List Nat) :
    (view s).Scanned nrs (view (nrs.foldl f s)) := by
  induction nrs generalizing s with
  | nil => exact ⟨rfl,rfl,rfl,rfl,rfl,rfl,by simp⟩
  | cons nr nrs ih => exact (reads s nr).append (ih (f s nr))

theorem killFromScanned (p : Parent) (sig : Signal) : p.Scanned (List.range' p.nworker (p.nworkerHwm - p.nworker)) (p.killFrom sig) := by
  refine scan id (fun q nr => ?_) p _
  have kept := readScanned q nr
  dsimp only [id]
  split
  · exact kept
  · exact ⟨kept.alive,kept.nworker,kept.hwm,kept.pids,kept.children,kept.ended,kept.faults⟩

theorem livingWorkersScanned (p : Parent) : p.Scanned (List.range p.nworkerHwm) p.livingWorkers.1 :=
  scan Prod.fst (f := tally) (fun s nr => readScanned s.1 nr) (p,0) _

theorem livingWorkersNone (none : p.livingWorkers.2 = 0) {nr pid : Nat} (below : nr < p.nworkerHwm)
    (slot : p.workerPids[nr]? = some pid) : pid = 0 := by
  have count : ∀ (nrs : List Nat) (q : Parent) ret,q.workerPids = p.workerPids → (nrs.foldl tally (q,ret)).2 =
      ret + (nrs.filter fun nr => p.workerPids[nr]?.getD 0 ≠ 0).length := by
    intro nrs
    induction nrs with
    | nil => exact fun q ret _ => rfl
    | cons nr nrs ih =>
      intro q ret same
      have value : (q.read nr).2 = p.workerPids[nr]?.getD 0 := by
        rw [← same,read]
        cases q.workerPids[nr]? <;> rfl
      rw [List.foldl_cons,tally,ih _ _ ((readScanned q nr).pids.trans same),value,List.filter_cons]
      by_cases empty : p.workerPids[nr]?.getD 0 = 0
      · simp [empty]
      · simp [empty,Nat.add_assoc,Nat.add_comm]
  have total := (count (List.range p.nworkerHwm) p 0 rfl).symm.trans none
  rw [Nat.zero_add,List.length_eq_zero_iff,List.filter_eq_nil_iff] at total
  simpa [slot] using total nr (List.mem_range.mpr below)

theorem clearFound {pid k n i : Nat} (low : k ≤ i) (high : i < k + n) (slot : p.workerPids[i]? = some pid) :
    ∃ nr,p.workerPids[nr]? = some pid ∧ p.clear pid (List.range' k n) = ({ p with workerPids := p.workerPids.set nr 0 },some nr) := by
  obtain ⟨bound,value⟩ := List.getElem?_eq_some_iff.mp slot
  induction n generalizing k with
  | zero => omega
  | succ n ih =>
    have here : p.workerPids[k]? = some p.workerPids[k] := List.getElem?_eq_getElem (by omega)
    rw [List.range'_succ,clear]
    simp only [read,here]
    split
    · rename_i same
      exact ⟨k,same ▸ here,by rw [write,if_pos (by omega)]⟩
    · rename_i other
      have apart : k ≠ i := by
        rintro rfl
        exact other value
      exact ih (by omega) (by omega)

end Parent

open Parent

structure Inv (p : Parent) : Prop where
  placed : p.Placed
  faults : p.faults = []
  allocated : p.nworker ≤ p.workerPids.length
  bounded : p.workerPids.length ≤ p.nworkerHwm
  ended : p.ended = true → p.children = []

/- The state after a step: no fault so far, each child in exactly one slot below nworker_hwm, and the
loop ends without children. -/
structure Sound (p : Parent) : Prop where
  faults : p.faults = []
  slots : ∀ pid ∈ p.children,(p.workerPids.take p.nworkerHwm).count pid = 1
  ended : p.ended = true → p.children = []

def Allowed (p : Parent) (e : Event) : Prop :=
  p.ended = false → match e with
    | .turn => p.alive = false → p.nworkerHwm ≤ p.workerPids.length
    | .reaped _ _ _ => True
    | .byte .chld => True
    | .byte .ttou => p.alive = true → 1 < p.nworker → p.nworkerHwm ≤ p.workerPids.length
    | .byte .usr1 => p.nworkerHwm ≤ p.workerPids.length
    | .byte (.ttin memory _) => p.alive = true → p.nworker < workerMax → memory = true →
      ∀ pid ∈ p.workerPids.drop p.nworker,pid = 0

variable {p : Parent}

theorem Inv.sound (inv : Inv p) : Sound p :=
  ⟨inv.faults,fun pid child => by rw [List.take_of_length_le inv.bounded]; exact inv.placed.once child,inv.ended⟩

theorem Inv.startWorkers (inv : Inv p) (fork : Fork) (running : p.ended = false) : Inv (p.startWorkers fork) := by
  have fills := startWorkersFills fork inv.allocated
  refine ⟨fills.placed inv.placed,fills.same.faults.trans inv.faults,?_,?_,fun ended => ?_⟩
  · rw [fills.same.nworker,fills.same.length]
    exact inv.allocated
  · rw [fills.same.hwm,fills.same.length]
    exact inv.bounded
  · rw [fills.same.ended,running] at ended
    cases ended

theorem Inv.scanned {q : Parent} {nrs : List Nat} (inv : Inv p) (scanned : p.Scanned nrs q) (running : p.ended = false)
    (inside : ∀ nr ∈ nrs,nr < p.workerPids.length) : Inv q := by
  refine ⟨⟨?_,?_,?_⟩,?_,?_,?_,fun ended => ?_⟩
  · rw [scanned.pids,scanned.children]
    exact inv.placed.slots
  · rw [scanned.children]
    exact inv.placed.nodup
  · rw [scanned.children]
    exact inv.placed.positive
  · rw [scanned.faults,inv.faults]
    simpa using inside
  · rw [scanned.nworker,scanned.pids]
    exact inv.allocated
  · rw [scanned.hwm,scanned.pids]
    exact inv.bounded
  · rw [scanned.ended,running] at ended
    cases ended

theorem Inv.reaped (inv : Inv p) {pid : Nat} (child : pid ∈ p.children) (st : Status) (fork : Fork) (running : p.ended = false) :
    Inv ({ p with children := p.children.erase pid }.reapedPreforkWorker pid st fork) := by
  have positive : pid ≠ 0 := fun zero => inv.placed.positive (zero ▸ child)
  have slot : pid ∈ p.workerPids := List.count_pos_iff.mp (by rw [inv.placed.once child]; exact Nat.one_pos)
  obtain ⟨i,inside,value⟩ := List.getElem_of_mem slot
  obtain ⟨nr,there,cleared⟩ := @clearFound { p with children := p.children.erase pid } pid 0 p.nworkerHwm i
    (Nat.zero_le _) (by have := inv.bounded; omega) (List.getElem?_eq_some_iff.mpr ⟨inside,value⟩)
  obtain ⟨bound,here⟩ := List.getElem?_eq_some_iff.mp there
  rw [reapedPreforkWorker,List.range_eq_range',cleared]
  have emptied : ∀ alive,Inv { p with
      alive := alive
      workerPids := p.workerPids.set nr 0
      children := p.children.erase pid } := by
    intro alive
    refine ⟨⟨fun other nonzero => ?_,inv.placed.nodup.erase pid,fun zero => inv.placed.positive (List.mem_of_mem_erase zero)⟩,
      inv.faults,?_,?_,fun ended => ?_⟩
    · dsimp only at bound here ⊢
      rw [List.count_set bound,List.count_erase,inv.placed.slots other nonzero,here]
      simp [Ne.symm nonzero]
    · simpa using inv.allocated
    · simpa using inv.bounded
    · rw [running] at ended
      cases ended
  dsimp only
  split
  · exact emptied false
  · split
    · exact (emptied p.alive).startWorkers fork running
    · exact emptied p.alive

namespace Parent

def grown (p : Parent) : Parent :=
  { p with
    nworker := p.nworker + 1
    nworkerHwm := Nat.max p.nworkerHwm (p.nworker + 1)
    workerPids := p.workerPids.take p.nworker ++ [0]
    faults := p.faults ++ if (p.workerPids[p.nworker]?).any (· ≠ 0) then [.overwritten p.nworker] else [] }

theorem reallocPids (allocated : p.nworker ≤ p.workerPids.length) :
    (p.realloc (p.nworker + 1)).workerPids = p.workerPids.take p.nworker ++ [p.workerPids[p.nworker]?.getD 0] := by
  unfold realloc
  dsimp only
  rcases Nat.lt_or_ge p.nworker p.workerPids.length with more | all
  · rw [Nat.sub_eq_zero_of_le more,List.replicate_zero,List.append_nil,List.take_succ_eq_append_getElem more,
      List.getElem?_eq_getElem more,Option.getD_some]
  · obtain same : p.workerPids.length = p.nworker := Nat.le_antisymm all allocated
    rw [← same,List.take_length,List.take_of_length_le (Nat.le_succ _),Nat.add_sub_cancel_left,List.getElem?_eq_none (Nat.le_refl _)]
    rfl

theorem ttinGrown (allocated : p.nworker ≤ p.workerPids.length) (alive : p.alive = true) (few : p.nworker < workerMax) (fork : Fork) :
    p.doSigttin true fork = p.grown.startWorkers fork := by
  have pids := reallocPids allocated
  have length : (p.workerPids.take p.nworker).length = p.nworker := List.length_take_of_le allocated
  have old : ((p.realloc (p.nworker + 1)).workerPids[(p.realloc (p.nworker + 1)).nworker]?).any (· ≠ 0) =
      (p.workerPids[p.nworker]?).any (· ≠ 0) := by
    rw [show (p.realloc (p.nworker + 1)).nworker = p.nworker from rfl,pids,List.getElem?_append_right (Nat.le_of_eq length),length,Nat.sub_self,List.getElem?_cons_zero]
    cases p.workerPids[p.nworker]? <;> simp
  have set : (p.realloc (p.nworker + 1)).workerPids.set p.nworker 0 = p.workerPids.take p.nworker ++ [0] := by
    rw [pids,List.set_append_right _ _ (Nat.le_of_eq length),length,Nat.sub_self,List.set_cons_zero]
  have bound : p.nworker < (p.realloc (p.nworker + 1)).workerPids.length := by
    rw [pids,List.length_append,length]
    exact Nat.lt_succ_self _
  unfold doSigttin
  simp only [alive,Bool.not_true,Bool.false_eq_true,if_false,Nat.not_le.mpr few]
  have written : ∀ q : Parent,q.nworker = p.nworker → q.workerPids = (p.realloc (p.nworker + 1)).workerPids →
      q.write q.nworker 0 = { q with workerPids := p.workerPids.take p.nworker ++ [0] } := by
    intro q nworker same
    rw [write,nworker,same,if_pos bound,set]
  rw [old]
  congr 1
  unfold grown
  split
  · rw [written ((p.realloc (p.nworker + 1)).fault (.overwritten (p.realloc (p.nworker + 1)).nworker)) rfl rfl]
    rfl
  · rw [written (p.realloc (p.nworker + 1)) rfl rfl,List.append_nil]
    rfl

end Parent

theorem grownLength (allocated : p.nworker ≤ p.workerPids.length) : p.grown.workerPids.length = p.nworker + 1 := by
  simp [grown,Nat.min_eq_left allocated]

theorem grownCount {pid : Nat} (nonzero : pid ≠ 0) :
    p.grown.workerPids.count pid + (p.workerPids.drop p.nworker).count pid = p.workerPids.count pid := by
  have parts : (p.workerPids.take p.nworker ++ p.workerPids.drop p.nworker).count pid = p.workerPids.count pid := by
    rw [List.take_append_drop]
  rw [← parts,List.count_append,grown]
  simp [Ne.symm nonzero]

theorem Inv.ttin (inv : Inv p) (fork : Fork) (running : p.ended = false) (memory : Bool)
    (free : p.alive = true → p.nworker < workerMax → memory = true → ∀ pid ∈ p.workerPids.drop p.nworker,pid = 0) :
    Inv (p.doSigttin memory fork) := by
  by_cases goes : p.alive = true ∧ p.nworker < workerMax ∧ memory = true
  · obtain ⟨alive,few,rfl⟩ := goes
    have free := free alive few rfl
    rw [ttinGrown inv.allocated alive few]
    refine Inv.startWorkers (p := p.grown) ⟨⟨fun pid nonzero => ?_,inv.placed.nodup,inv.placed.positive⟩,?_,?_,?_,inv.ended⟩ fork running
    · have none : (p.workerPids.drop p.nworker).count pid = 0 := List.count_eq_zero.mpr fun mem => nonzero (free pid mem)
      have count := grownCount (p := p) nonzero
      rw [none,Nat.add_zero] at count
      exact count.trans (inv.placed.slots pid nonzero)
    · have empty : (p.workerPids[p.nworker]?).any (· ≠ 0) = false := by
        cases slot : p.workerPids[p.nworker]? with
        | none => rfl
        | some pid =>
          have mem : pid ∈ p.workerPids.drop p.nworker :=
            List.mem_of_getElem? (i := 0) (List.getElem?_drop.trans slot)
          simp [free pid mem]
      simp only [grown,inv.faults,empty]
      rfl
    · rw [grownLength inv.allocated]
      exact Nat.le_refl _
    · rw [grownLength inv.allocated]
      exact Nat.le_max_right _ _
  · have idle : p.doSigttin memory fork = p := by
      unfold doSigttin
      split
      · rfl
      · split
        · rfl
        · split
          · rfl
          · rename_i alive few room
            exact absurd ⟨by simpa using alive,Nat.not_le.mp few,by simpa using room⟩ goes
    rw [idle]
    exact inv

theorem ttinFree (inv : Inv p) (fork : Fork) (alive : p.alive = true) (few : p.nworker < workerMax)
    (sound : Sound (p.doSigttin true fork)) {pid : Nat} (mem : pid ∈ p.workerPids.drop p.nworker) : pid = 0 := by
  by_contra nonzero
  rw [ttinGrown inv.allocated alive few] at sound
  have fills := startWorkersFills (p := p.grown) fork (by rw [grownLength inv.allocated]; exact Nat.le_refl _)
  have child : pid ∈ p.children := List.count_pos_iff.mp
    (inv.placed.slots pid nonzero ▸ List.count_pos_iff.mpr (List.mem_of_mem_drop mem))
  obtain ⟨kept,count⟩ := fills.children pid child
  have one := sound.slots pid kept
  have all := count nonzero
  have parts := grownCount (p := p) nonzero
  have total := inv.placed.once child
  have dropped := List.count_pos_iff.mpr mem
  have below := ((p.grown.startWorkers fork).workerPids.take_sublist (p.grown.startWorkers fork).nworkerHwm).count_le pid
  omega

theorem handleInv (inv : Inv p) (running : p.ended = false) {e : Event} (allowed : Allowed p e) : Inv (p.handle e) := by
  cases e with
  | turn =>
    dsimp only [handle]
    split
    · exact inv
    · rename_i stopped
      have whole := allowed running (by simpa using stopped)
      have scanned := p.livingWorkersScanned
      have kept := inv.scanned scanned running fun nr mem => Nat.lt_of_lt_of_le (List.mem_range.mp mem) whole
      refine ⟨⟨kept.placed.slots,kept.placed.nodup,kept.placed.positive⟩,kept.faults,kept.allocated,kept.bounded,fun ended => ?_⟩
      have none : p.livingWorkers.2 = 0 := of_decide_eq_true ended
      refine List.eq_nil_iff_forall_not_mem.mpr fun pid child => ?_
      have child : pid ∈ p.children := scanned.children ▸ child
      have slot : pid ∈ p.workerPids := List.count_pos_iff.mp (by rw [inv.placed.once child]; exact Nat.one_pos)
      obtain ⟨i,inside,value⟩ := List.getElem_of_mem slot
      have zero := livingWorkersNone none (Nat.lt_of_lt_of_le inside inv.bounded) (List.getElem?_eq_some_iff.mpr ⟨inside,value⟩)
      exact inv.placed.positive (zero ▸ child)
  | reaped pid st fork =>
    dsimp only [handle]
    split
    · exact inv.reaped ‹_› st fork running
    · exact inv
  | byte b =>
    cases b with
    | chld => exact inv
    | ttou =>
      dsimp only [handle,doSigttou]
      split
      · exact inv
      · rename_i may
        have alive : p.alive = true := by
          by_contra dead
          exact may (Or.inl (by simpa using dead))
        have more : 1 < p.nworker := by omega
        have whole := allowed running alive more
        have fewer : Inv { p with nworker := p.nworker - 1 } :=
          ⟨⟨inv.placed.slots,inv.placed.nodup,inv.placed.positive⟩,inv.faults,Nat.le_trans (Nat.sub_le _ _) inv.allocated,
            inv.bounded,inv.ended⟩
        refine fewer.scanned (killFromScanned _ .term) running fun nr mem => ?_
        have := List.mem_range'_1.mp mem
        dsimp only at this ⊢
        omega
    | ttin memory fork => exact inv.ttin fork running memory (allowed running)
    | usr1 =>
      refine inv.scanned (killFromScanned p .usr1) running fun nr mem => ?_
      have := List.mem_range'_1.mp mem
      have whole : p.nworkerHwm ≤ p.workerPids.length := allowed running
      omega

theorem scannedInside {q : Parent} {nrs : List Nat} (scanned : p.Scanned nrs q) (sound : q.faults = []) {nr : Nat} (mem : nr ∈ nrs) :
    nr < p.workerPids.length := by
  rw [scanned.faults,List.append_eq_nil_iff,List.map_eq_nil_iff,List.filter_eq_nil_iff] at sound
  simpa using sound.2 nr mem

theorem handleAllowed (inv : Inv p) {e : Event} (sound : Sound (p.handle e)) : Allowed p e := by
  intro running
  -- Where the allocation is shorter than nworker_hwm, its end is one of the slots.
  have whole : ∀ {q : Parent} {low},low ≤ p.workerPids.length → p.Scanned (List.range' low (p.nworkerHwm - low)) q → q.faults = [] →
      p.nworkerHwm ≤ p.workerPids.length := by
    intro q low start scanned fine
    by_contra short
    exact absurd (@scannedInside _ _ _ scanned fine p.workerPids.length (List.mem_range'_1.mpr (by omega))) (Nat.lt_irrefl _)
  cases e with
  | turn =>
    intro stopped
    have scanned := p.livingWorkersScanned
    rw [List.range_eq_range'] at scanned
    refine whole (Nat.zero_le _) scanned ?_
    simpa [handle,stopped] using sound.faults
  | reaped => trivial
  | byte b =>
    cases b with
    | chld => trivial
    | ttou =>
      intro alive more
      have scanned := killFromScanned { p with nworker := p.nworker - 1 } .term
      have fine := sound.faults
      rw [handle,doSigttou,if_neg (by simp [alive]; omega)] at fine
      by_contra short
      have inside := @scannedInside _ _ _ scanned fine p.workerPids.length
        (List.mem_range'_1.mpr (by have := inv.allocated; dsimp only; omega))
      exact Nat.lt_irrefl _ inside
    | ttin memory fork =>
      intro alive few room pid mem
      subst room
      exact ttinFree inv fork alive few sound mem
    | usr1 => exact whole inv.allocated (killFromScanned p .usr1) sound.faults

theorem stepInv (inv : Inv p) {e : Event} (allowed : Allowed p e) : Inv (step p e) := by
  unfold step
  split
  · exact inv
  · rename_i running
    exact handleInv inv (by simpa using running) allowed

theorem stepSound (inv : Inv p) (e : Event) : Allowed p e ↔ Sound (step p e) := by
  refine ⟨fun allowed => (stepInv inv allowed).sound,fun sound running => ?_⟩
  rw [step,if_neg (by simp [running])] at sound
  exact handleAllowed inv sound running

theorem beginInv (nworker : Nat) (fork : Fork) : Inv (begin nworker fork) := by
  refine Inv.startWorkers ⟨⟨fun pid nonzero => ?_,List.nodup_nil,List.not_mem_nil⟩,rfl,?_,?_,fun ended => ?_⟩ fork rfl
  · simp [List.count_replicate,Ne.symm nonzero]
  · simp
  · simp
  · cases ended

/- In a run of prefork_loop the table of workers is right after every step if and only if every step
is allowed in the state before it. -/
theorem workersKept (nworker : Nat) (fork : Fork) (turns : List Turn) :
    (Sound (begin nworker fork) ∧
      Stepwise.Along step (fun p e => Sound (step p e)) (begin nworker fork) (turns.flatMap Turn.events)) ↔
      Stepwise.Along step Allowed (begin nworker fork) (turns.flatMap Turn.events) := by
  have start := beginInv nworker fork
  have same : Stepwise.Along step Allowed (begin nworker fork) (turns.flatMap Turn.events) ↔ _ :=
    Stepwise.alongIff (fun p => Inv p) (fun p e inv => stepSound inv e) (fun p e inv allowed => stepInv inv allowed) start
  exact (and_iff_right start.sound).trans same.symm

theorem memMax (xs : List Nat) : xs.foldr Nat.max 0 + 1 ∉ xs := by
  have above : ∀ x ∈ xs,x ≤ xs.foldr Nat.max 0 := by
    induction xs with
    | nil => exact fun x mem => by cases mem
    | cons y ys ih =>
      intro x mem
      rcases List.mem_cons.mp mem with rfl | later
      · exact Nat.le_max_left _ _
      · exact Nat.le_trans (ih x later) (Nat.le_max_right _ _)
  exact fun mem => Nat.not_succ_le_self _ (above _ mem)

def counting : Fork where
  pid := fun _ children => some (children.foldr Nat.max 0 + 1)
  fresh := fun _ children new made => by
    obtain rfl := Option.some.inj made
    exact ⟨Nat.succ_ne_zero _,memMax children⟩

/- SIGTTOU and SIGTTIN before the worker has exited: its slot is overwritten. Two SIGTTOU and a SIGTTIN after
both workers were reaped: SIGUSR1 reads behind the allocation. -/
theorem workerOverwritten :
    ¬ (Sound (begin 2 counting) ∧ Stepwise.Along step (fun p e => Sound (step p e)) (begin 2 counting)
        ([⟨[],[.ttou,.ttin true counting]⟩].flatMap Turn.events)) ∧
      ¬ (Sound (begin 3 counting) ∧ Stepwise.Along step (fun p e => Sound (step p e)) (begin 3 counting)
        ([⟨[],[.ttou,.ttou]⟩,⟨[(2,.signaled 15,counting),(3,.signaled 15,counting)],[.ttin true counting,.usr1]⟩].flatMap
          Turn.events)) := by
  have faulty : (preforkLoop 2 counting [⟨[],[.ttou,.ttin true counting]⟩]).faults ≠ [] ∧
      (preforkLoop 3 counting
        [⟨[],[.ttou,.ttou]⟩,⟨[(2,.signaled 15,counting),(3,.signaled 15,counting)],[.ttin true counting,.usr1]⟩]).faults ≠ [] := by
    decide
  have fails : ∀ n turns,(preforkLoop n counting turns).faults ≠ [] →
      ¬ (Sound (begin n counting) ∧
        Stepwise.Along step (fun p e => Sound (step p e)) (begin n counting) (turns.flatMap Turn.events)) :=
    fun n turns wrong ⟨start,along⟩ => wrong (Stepwise.keeps Sound (fun _ _ _ sound => sound) start along).faults
  exact ⟨fails _ _ faulty.1,fails _ _ faulty.2⟩

end PublicInbox.XapHelper
