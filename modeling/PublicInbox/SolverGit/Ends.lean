import PublicInbox.Library.Descent
import PublicInbox.SolverGit

/-! What every step of the solver lowers: as long as patches are looked for, the room for more of them, then the length of
the wanted id and what is left to try for it; behind that, the patches that are left. -/
namespace PublicInbox.SolverGit
open Git (Bytes)
variable {R I : Type} {job : Job R I} {self : Solver R I} {want : Want R I}

abbrev Rank := Nat ×ₗ Nat ×ₗ Nat ×ₗ Nat ×ₗ Nat ×ₗ Nat

def rank (a b c d e f : Nat) : Rank := toLex (a,toLex (b,toLex (c,toLex (d,toLex (e,f)))))

theorem rankLt {a b c d e f a' b' c' d' e' f' : Nat} : rank a b c d e f < rank a' b' c' d' e' f' ↔
    a < a' ∨ a = a' ∧ (b < b' ∨ b = b' ∧ (c < c' ∨ c = c' ∧ (d < d' ∨ d = d' ∧ (e < e' ∨ e = e' ∧ f < f')))) := by
  simp only [rank,Prod.Lex.toLex_lt_toLex]

theorem rankFloor {a b c d e f : Nat} : rank a b c 0 0 0 ≤ rank a b c d e f :=
  not_lt.mp fun less => by have := rankLt.mp less; omega

def room (self : Solver R I) : Nat := maxPatch + 1 - self.patches.length

def ibxsLeft (job : Job R I) (want : Want R I) : Nat := (want.tryIbxs.getD job.inboxes).length

def wantRank (job : Job R I) (room : Nat) (want : Want R I) (stage count : Nat) : Rank :=
  rank 1 room want.oidB.hex.length (ibxsLeft job want) stage count

def queuedRank (job : Job R I) (room : Nat) : List (Want R I) → Rank
  | [] => rank 1 room 0 0 0 0
  | want :: _ =>
    match want.trySmsgs with
    | some smsgs => wantRank job room want 1 (2 * smsgs.length + 1)
    | none => wantRank job room want 0 (2 * (want.tryGits.getD job.gits).length + 1)

def callRank (job : Job R I) (self : Solver R I) : Pending R I → Rank
  | .check want _ others => wantRank job (room self) want 0 (2 * (others.length + 1))
  | .search want _ => wantRank job (room self) want 2 0
  | .cat want _ =>
    wantRank job (room self) want 1 (if (want.trySmsgs.getD []).length = 0 then 0 else 2 * (want.trySmsgs.getD []).length + 2)
  | .updateIndex _ => rank 0 self.patches.length 6 0 0 0
  | .apply _ => rank 0 self.patches.length 5 0 0 0
  | .lsFiles _ => rank 0 self.patches.length 4 0 0 0
  | .size _ => rank 0 self.patches.length 3 0 0 0
  | .finish => rank 0 self.patches.length 1 0 0 0

def stepRank (job : Job R I) (self : Solver R I) : Rank :=
  if self.tmpGit then rank 0 self.patches.length 2 0 0 0 else queuedRank job (room self) self.todo

def measure (job : Job R I) (w : World R I) : Rank :=
  match w.point with
  | .stopped => rank 0 0 0 0 0 0
  | .queued => stepRank job w.self
  | .waiting call => callRank job w.self call

def Unanswered (self : Solver R I) : Prop := self.userCb = true ∧ self.answers = []
def Answered (self : Solver R I) : Prop := self.userCb = false ∧ self.answers.length = 1

def Solving (self : Solver R I) : Prop := self.tmpGit = false ∧ self.todo = [] ∧ self.patches.length ≤ maxPatch
def Applying (self : Solver R I) : Prop := self.tmpGit = true ∧ self.todo = []

def Fits (self : Solver R I) : Pending R I → Prop
  | .check want _ _ => Solving self ∧ want.trySmsgs = none ∧ want.tryIbxs.isSome
  | .search _ _ | .cat _ _ => Solving self
  | _ => Applying self

def Ready (self : Solver R I) : Prop := if self.tmpGit then self.todo = [] else self.todo.length ≤ 1

def Inv (w : World R I) : Prop :=
  match w.point with
  | .stopped => Unanswered w.self ∨ Answered w.self
  | .queued => Unanswered w.self ∧ Ready w.self
  | .waiting call => Unanswered w.self ∧ Fits w.self call

/- What a function may leave behind it where the step is to end below `r`. It dies without an answer only if it may. -/
def Goes (job : Job R I) (r : Rank) (may : Prop) : Ran R I → Prop
  | (self,.ok .next) => Unanswered self ∧ Ready self ∧ stepRank job self < r
  | (self,.ok (.wait call)) => Unanswered self ∧ Fits self call ∧ callRank job self call < r
  | (self,.ok .rest) => Answered self
  | (self,.error _) => Answered self ∨ Unanswered self ∧ may

theorem doneAnswers {res : Answer R} (waits : Unanswered self) : Answered (done self res) := by
  rw [done,if_pos waits.1]
  exact ⟨rfl,by rw [waits.2]; rfl⟩

section
variable {r : Rank} {may : Prop}

theorem doneGoes {res : Answer R} (waits : Unanswered self) : Goes job r may (done self res,.ok .rest) := doneAnswers waits

theorem failedGoes {err : Died} (waits : Unanswered self) : Goes job r may (failed self err) := .inl (doneAnswers waits)

theorem retryGoes (waits : Unanswered self) (solving : Solving self) (lower : queuedRank job (room self) [want] < r) :
    Goes job r may (retryCurrent self want) := by
  obtain ⟨tmpGit,todo,-⟩ := solving
  refine ⟨waits,?_,?_⟩
  · simp [Ready,tmpGit,todo]
  · simp only [stepRank,tmpGit,Bool.false_eq_true,if_false,todo]
    exact lower

theorem queuedBelow {room : Nat} (shorter : Want R I) (longer : shorter.oidB.hex.length < want.oidB.hex.length) :
    queuedRank job room [shorter] < rank 1 room want.oidB.hex.length 0 0 0 := by
  rw [queuedRank]
  split <;> exact rankLt.mpr (by omega)

theorem tryHarderGoes (waits : Unanswered self) (solving : Solving self)
    (again : queuedRank job (room self) [want] < r) (lower : rank 1 (room self) want.oidB.hex.length 0 0 0 ≤ r) :
    Goes job r may (tryHarder self want) := by
  rw [tryHarder]
  split
  · exact retryGoes waits solving again
  · split
    next long =>
      refine retryGoes waits solving (lt_of_lt_of_le (queuedBelow _ ?_) lower)
      have shorter : (want.oidB.chop long).hex.length = want.oidB.hex.length - 1 := List.length_dropLast
      rw [shorter]
      exact Nat.sub_lt (Nat.zero_lt_of_lt long) Nat.one_pos
    · exact doneGoes waits

theorem notExistingGoes {git : R} {others : List R} {isrch : Bool} (waits : Unanswered self)
    (fits : Fits self (.check want git others)) :
    Goes job (callRank job self (.check want git others)) may (notExisting self want others isrch) := by
  obtain ⟨solving,none,some⟩ := fits
  obtain ⟨ibxs,tries⟩ := Option.isSome_iff_exists.mp some
  rw [notExisting]
  split
  · refine retryGoes waits solving ?_
    simp only [queuedRank,none,callRank,wantRank,ibxsLeft,Option.getD_some]
    exact rankLt.mpr (by omega)
  · simp only [tries,Option.getD_some]
    cases ibxs with
    | nil => exact doneGoes waits
    | cons ibx ibxs =>
      have fewer : ∀ e f,rank 1 (room self) want.oidB.hex.length ibxs.length e f <
          callRank job self (.check want git others) := fun e f => by
        simp only [callRank,wantRank,ibxsLeft,tries,Option.getD_some,List.length_cons]
        exact rankLt.mpr (by omega)
      cases isrch with
      | true => exact ⟨waits,solving,fewer 2 0⟩
      | false =>
        refine tryHarderGoes waits solving ?_ ?_
        · simp only [queuedRank,none]
          exact fewer _ _
        · exact rankFloor

theorem ckExistingGoes {git : R} {others : List R} {oidFull : Option Bytes} {type : Option Kind} {size : Option Nat}
    {isrch : Bool} (waits : Unanswered self) (fits : Fits self (.check want git others)) :
    Goes job (callRank job self (.check want git others)) may
      (ckExistingCb job self want git others oidFull type size isrch) := by
  have long : 0 < want.oidB.hex.length := List.length_pos_of_ne_nil want.oidB.wellFormed.1
  obtain ⟨tmpGit,todo,-⟩ := fits.1
  rw [ckExistingCb]
  generalize existing oidFull type = known
  obtain ⟨oidFull,type⟩ := known
  dsimp only
  split
  · split
    · exact doneGoes waits
    · refine ⟨waits,?_,?_⟩
      · simp [Ready,markFound,tmpGit,todo]
      · simp only [stepRank,markFound,tmpGit,Bool.false_eq_true,if_false,todo,queuedRank]
        exact rankLt.mpr (.inr ⟨rfl,.inr ⟨rfl,.inl long⟩⟩)
  · exact notExistingGoes waits fits

theorem findGoes {ibx : I} {res : Searched} (waits : Unanswered self) (fits : Fits self (.search want ibx))
    (dies : res = .died → may) : Goes job (callRank job self (.search want ibx)) may (findResults self want res) := by
  have harder : Goes job (callRank job self (.search want ibx)) may (tryHarder self want) := by
    refine tryHarderGoes waits fits ?_ ?_
    · simp only [queuedRank]
      split <;> exact rankLt.mpr (by omega)
    · exact rankFloor
  cases res with
  | nothing | disappeared => exact harder
  | died => exact .inr ⟨waits,dies rfl⟩
  | messages smsgs =>
    refine @retryGoes _ _ _ { self with tmpDiffs := [] } _ _ _ waits fits ?_
    exact rankLt.mpr (.inr ⟨rfl,.inr ⟨rfl,.inr ⟨rfl,.inr ⟨rfl,.inl (by decide)⟩⟩⟩⟩)

theorem extractKeeps (self : Solver R I) (parts : List Match) :
    ∃ tot diffs,extractDiffs self parts = { self with tot := tot, tmpDiffs := diffs } := by
  induction parts generalizing self with
  | nil => exact ⟨_,_,rfl⟩
  | cons m parts ih =>
    rw [extractDiffs]
    split
    · exact ih self
    · obtain ⟨tot,diffs,same⟩ := ih { self with tot := self.tot + 1, tmpDiffs := self.tmpDiffs ++ [_] }
      exact ⟨tot,diffs,same⟩

theorem extractDoneGoes {smsg : Option Blob} (waits : Unanswered self) (solving : Solving self) :
    Goes job (callRank job self (.cat want smsg)) may (extractDiffsDone self want) := by
  obtain ⟨tmpGit,todo,few⟩ := solving
  rw [extractDiffsDone]
  split
  · refine tryHarderGoes waits ⟨tmpGit,todo,few⟩ ?_ ?_
    · exact rankLt.mpr (.inr ⟨rfl,.inr ⟨rfl,.inr ⟨rfl,.inr ⟨rfl,.inl (by decide)⟩⟩⟩⟩)
    · exact rankFloor
  next di diffs _ =>
    have less : maxPatch + 1 - (di :: diffs ++ self.patches).length < room self := by
      simp only [room,List.length_append,List.length_cons]
      omega
    dsimp only
    split
    · refine ⟨waits,?_,?_⟩
      · simp [Ready,tmpGit,todo]
      · simp only [stepRank,tmpGit,Bool.false_eq_true,if_false,todo]
        exact rankLt.mpr (.inr ⟨rfl,.inl less⟩)
    · refine ⟨waits,?_,?_⟩
      · simp [Ready,tmpGit,todo]
      · simp only [stepRank,tmpGit,Bool.false_eq_true,if_false]
        exact rankLt.mpr (.inr ⟨rfl,.inl less⟩)

theorem nextSmsgGoes {smsg : Option Blob} (waits : Unanswered self) (solving : Solving self) :
    Goes job (callRank job self (.cat want smsg)) may (nextSmsg self want) := by
  rw [nextSmsg]
  split
  next more =>
    refine retryGoes waits solving ?_
    cases smsgs : want.trySmsgs with
    | none => exact absurd (by rw [smsgs]; rfl) more
    | some smsgs' =>
      rw [smsgs,Option.getD_some] at more
      simp only [queuedRank,smsgs,callRank,Option.getD_some,if_neg more]
      exact rankLt.mpr (by omega)
  · exact extractDoneGoes waits solving

theorem catGoes {smsg : Option Blob} {res : Fetched} (waits : Unanswered self) (fits : Fits self (.cat want smsg))
    (dies : ∀ parts,res = .torn parts → may) :
    Goes job (callRank job self (.cat want smsg)) may
      (if job.httpd then extractDiffAsync self want smsg res else extractEml self want res) := by
  have goesOn : ∀ parts,Goes job (callRank job self (.cat want smsg)) may (nextSmsg (extractDiffs self parts) want) := by
    intro parts
    obtain ⟨tot,diffs,same⟩ := extractKeeps self parts
    rw [same]
    exact @nextSmsgGoes R I job { self with tot := tot, tmpDiffs := diffs } want may smsg waits fits
  have torn : ∀ parts,res = .torn parts → Goes job (callRank job self (.cat want smsg)) may
      (extractDiffs self parts,.error .outside) := by
    intro parts died
    obtain ⟨tot,diffs,same⟩ := extractKeeps self parts
    rw [same]
    exact .inr ⟨waits,dies parts died⟩
  cases res with
  | undef =>
    split <;> exact nextSmsgGoes waits fits
  | torn parts =>
    split <;> exact torn parts rfl
  | email oid parts =>
    split
    · rw [extractDiffAsync]
      split
      · exact goesOn parts
      · exact failedGoes waits
    · exact goesOn parts

theorem resolveGoes {todo : List (Want R I)} (waits : Unanswered self) (solving : self.tmpGit = false)
    (last : self.todo = want :: todo) (one : todo = []) :
    Goes job (stepRank job self) True (resolvePatch job { self with todo := todo } want) := by
  subst one
  have now : stepRank job self = queuedRank job (room self) [want] := by
    rw [stepRank,solving,if_neg Bool.false_ne_true,last]
  rw [resolvePatch,now]
  split
  · exact .inr ⟨waits,trivial⟩
  next few =>
    have few : self.patches.length ≤ maxPatch := not_lt.mp few
    split
    next smsgs tries =>
      refine ⟨waits,⟨solving,rfl,few⟩,?_⟩
      simp only [queuedRank,tries,callRank,Option.getD_some,List.length_tail]
      refine rankLt.mpr (.inr ⟨rfl,.inr ⟨rfl,.inr ⟨rfl,.inr ⟨rfl,.inr ⟨rfl,?_⟩⟩⟩⟩⟩)
      split <;> omega
    next tries =>
      split
      · exact .inr ⟨waits,trivial⟩
      · have solve : ∀ seenOid,Goes job (queuedRank job (room self) [want]) True
            (solveExisting job { self with todo := [], seenOid := seenOid }
              { want with tryIbxs := some (want.tryIbxs.getD job.inboxes) }) := by
          intro seenOid
          rw [solveExisting]
          split
          · exact .inr ⟨waits,trivial⟩
          next git others gits =>
            refine ⟨waits,⟨⟨solving,rfl,few⟩,tries,rfl⟩,?_⟩
            simp only [queuedRank,tries,callRank]
            rw [gits]
            refine rankLt.mpr (.inr ⟨rfl,.inr ⟨rfl,.inr ⟨rfl,.inr ⟨rfl,.inr ⟨rfl,?_⟩⟩⟩⟩⟩)
            exact Nat.lt_succ_self _
        dsimp only
        split
        · exact solve _
        · exact solve _

theorem indexGoes {r : Rank} (waits : Unanswered self) (applying : Applying self)
    (lower : ∀ n,rank 0 self.patches.length n 0 0 0 < r) : Goes job r True (prepareIndex self) := by
  rw [prepareIndex]
  split
  · exact .inr ⟨waits,trivial⟩
  next di patches stack =>
    split
    · exact .inr ⟨waits,trivial⟩
    · split
      · refine ⟨waits,?_,?_⟩
        · simp [Ready,applying.1,applying.2]
        · rw [stepRank,applying.1]
          exact lower 2
      · split
        · exact .inr ⟨waits,trivial⟩
        · dsimp only
          split
          · exact .inr ⟨waits,trivial⟩
          · exact ⟨waits,applying,lower 6⟩

theorem batchShorter (job : Job R I) (len : Nat) (di : Di) (patches : List Di) :
    (applyBatch job len di patches).2.length ≤ patches.length := by
  induction patches generalizing len di with
  | nil => exact Nat.le_refl _
  | cons nxt patches ih =>
    rw [applyBatch]
    split
    · exact Nat.le_succ_of_le (ih _ nxt)
    · exact Nat.le_refl _

theorem applyGoes {n : Nat} (waits : Unanswered self) (applying : Applying self) (more : self.patches ≠ []) :
    Goes job (rank 0 self.patches.length n 0 0 0) may (doGitApply job self) := by
  rw [doGitApply]
  split
  next none => exact absurd none more
  next di patches stack =>
    have shorter := batchShorter job (job.cmdLength + argLength di) di patches
    refine ⟨waits,applying,?_⟩
    rw [stack]
    exact rankLt.mpr (.inr ⟨rfl,.inl (Nat.lt_succ_of_le shorter)⟩)

theorem applyResultGoes {di : Di} {qspErr : Bool} (waits : Unanswered self) (applying : Applying self) :
    Goes job (callRank job self (.apply di)) may (applyResult job self di qspErr) := by
  rw [applyResult]
  split
  · split
    next again =>
      refine applyGoes waits applying fun none => ?_
      rw [none] at again
      exact Bool.false_ne_true again
    · exact doneGoes waits
  · refine ⟨waits,applying,?_⟩
    have shorter : (skipIdentical self.patches di.oidB).length ≤ self.patches.length := List.length_dropWhile_le _ _
    refine rankLt.mpr (.inr ⟨rfl,?_⟩)
    dsimp only
    omega

theorem lsFilesGoes {di : Di} {qspErr : Bool} {stdout : Bytes} (waits : Unanswered self) (applying : Applying self) :
    Goes job (callRank job self (.lsFiles di)) may (lsFilesResult self di qspErr stdout) := by
  rw [lsFilesResult]
  split
  · exact failedGoes waits
  · exact ⟨waits,applying,rankLt.mpr (by omega)⟩

theorem indexResultGoes {stdin : Bytes} {qspErr : Bool} (waits : Unanswered self) (applying : Applying self) :
    Goes job (callRank job self (.updateIndex stdin)) may (updateIndexResult self qspErr) := by
  rw [updateIndexResult]
  split
  · exact failedGoes waits
  · refine ⟨waits,?_,?_⟩
    · simp [Ready,applying.1,applying.2]
    · rw [stepRank,applying.1]
      exact rankLt.mpr (by omega)

theorem sizeGoes {di : Di} {oidFull : Option Bytes} {size : Option Nat} (waits : Unanswered self)
    (applying : Applying self) (dies : size = none → may) :
    Goes job (callRank job self (.size di)) may (ckSizeCb self di oidFull size) := by
  cases size with
  | none => exact .inr ⟨waits,dies rfl⟩
  | some size =>
    refine ⟨waits,?_,?_⟩
    · simp [Ready,markFound,applying.1,applying.2]
    · simp only [stepRank,markFound,applying.1,if_true]
      exact rankLt.mpr (.inr ⟨rfl,.inr ⟨rfl,.inl (by decide)⟩⟩)

theorem finishGoes {r : Rank} {oidFull : Option Bytes} {type : Option Kind} (waits : Unanswered self) :
    Goes job r may (finishCb self oidFull type) := by
  rw [finishCb]
  split <;> exact doneGoes waits

theorem bodyGoes (waits : Unanswered self) (ready : Ready self) : Goes job (stepRank job self) True (stepBody job self) := by
  rw [stepBody]
  split
  next want todo stack =>
    rcases Bool.eq_false_or_eq_true self.tmpGit with tmpGit | tmpGit
    · rw [Ready,if_pos tmpGit,stack] at ready
      exact absurd ready (List.cons_ne_nil _ _)
    · rw [Ready,tmpGit,if_neg Bool.false_ne_true,stack] at ready
      exact resolveGoes waits tmpGit stack (List.eq_nil_of_length_eq_zero (Nat.le_zero.mp (Nat.le_of_succ_le_succ ready)))
  next empty =>
    rcases Bool.eq_false_or_eq_true self.tmpGit with tmpGit | tmpGit
    · rw [stepRank,if_pos tmpGit]
      simp only [tmpGit,Bool.not_true,Bool.false_eq_true,if_false]
      split
      next more => exact applyGoes waits ⟨tmpGit,empty⟩ fun none => more (by rw [none]; rfl)
      · rw [if_pos waits.1,doFinish]
        split
        · exact doneGoes waits
        · exact ⟨waits,⟨tmpGit,empty⟩,rankLt.mpr (by omega)⟩
    · have now : stepRank job self = rank 1 (room self) 0 0 0 0 := by
        rw [stepRank,tmpGit,if_neg Bool.false_ne_true,empty,queuedRank]
      simp only [tmpGit,Bool.not_false,if_true]
      rw [now]
      exact @indexGoes R I job { self with tmpGit := true } _ waits ⟨rfl,empty⟩ fun n => rankLt.mpr (.inl Nat.one_pos)

end

end PublicInbox.SolverGit
