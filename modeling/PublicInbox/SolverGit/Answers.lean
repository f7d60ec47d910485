import PublicInbox.SolverGit.Ends

/-! The solver ends, whatever its searches and commands answer, and how often its callback has been called then. -/
namespace PublicInbox.SolverGit
open Descent
open Git (Bytes)
variable {R I : Type} {job : Job R I} {self : Solver R I} {w w' : World R I} {r : Rank} {may fine : Prop}

structure Led (job : Job R I) (r : Rank) (fine : Prop) (w : World R I) : Prop where
  inv : Inv w
  lower : measure job w < r
  answered : fine → w.point = .stopped → Answered w.self

def Low (r : Rank) : Prop := rank 0 0 0 0 0 0 < r

theorem stoppedLed (low : Low r) (answered : Answered self) : Led job r fine ⟨self,.stopped⟩ :=
  ⟨.inr answered,low,fun _ _ => answered⟩

theorem restLed (low : Low r) (answered : Answered self) : Led job r fine (settle job self .rest) := by
  rw [settle,answered.1,Bool.and_false,if_neg Bool.false_ne_true]
  exact stoppedLed low answered

theorem settleLed {flow : Flow R I} (low : Low r) (goes : Goes job r may (self,.ok flow)) :
    Led job r fine (settle job self flow) := by
  cases flow with
  | next =>
    obtain ⟨waits,ready,lower⟩ := goes
    rw [settle,waits.1,Bool.or_true,if_pos rfl]
    exact ⟨⟨waits,ready⟩,lower,fun _ stopped => nomatch stopped⟩
  | rest => exact restLed low goes
  | wait call =>
    obtain ⟨waits,fits,lower⟩ := goes
    exact ⟨⟨waits,fits⟩,lower,fun _ stopped => nomatch stopped⟩

theorem doneTwice {res : Answer R} (answered : Answered self) : done self res = self := by
  rw [done,answered.1,if_neg Bool.false_ne_true]

theorem caughtLed {ran : Ran R I} (low : Low r) (goes : Goes job r may ran) : Led job r fine (caught job ran) := by
  obtain ⟨self,out⟩ := ran
  cases out with
  | ok flow => exact settleLed low goes
  | error err =>
    refine restLed low ?_
    rcases goes with answered | ⟨waits,-⟩
    · rw [doneTwice answered]
      exact answered
    · exact doneAnswers waits

theorem warnedLed {ran : Ran R I} (low : Low r) (goes : Goes job r may ran) (dead : may → job.httpd = true ∧ ¬ fine) :
    Led job r fine (warned job ran) := by
  obtain ⟨self,out⟩ := ran
  cases out with
  | ok flow => exact settleLed low goes
  | error err =>
    rcases goes with answered | ⟨waits,dies⟩
    · exact restLed low answered
    · rw [warned,settle,(dead dies).1,Bool.not_true,Bool.false_and,if_neg Bool.false_ne_true]
      exact ⟨.inl waits,low,fun met => absurd met (dead dies).2⟩

theorem callbackLed {ran : Ran R I} (low : Low r) (goes : Goes job r may ran) (dead : may → job.httpd = true → ¬ fine) :
    Led job r fine (callback job ran) := by
  rw [callback]
  split
  next httpd => exact warnedLed low goes fun dies => ⟨httpd,dead dies httpd⟩
  · exact caughtLed low goes

theorem callLow (call : Pending R I) : Low (callRank job self call) := by
  cases call <;> exact rankLt.mpr (by omega)

theorem stepLow : Low (stepRank job self) := by
  rw [stepRank]
  split
  · exact rankLt.mpr (by omega)
  · rw [queuedRank.eq_def]
    split
    · exact rankLt.mpr (by omega)
    · split <;> exact rankLt.mpr (by omega)

theorem measureLow (goesOn : w.point ≠ .stopped) : Low (measure job w) := by
  obtain ⟨self,point⟩ := w
  cases point with
  | queued => exact stepLow
  | waiting call => exact callLow call
  | stopped => exact absurd rfl goesOn

theorem advanceLed {e : Event} (inv : Inv w) (taken : advance job w e = some w') :
    Led job (measure job w) (job.httpd = true → e.dies = false) w' := by
  rw [advance.eq_def] at taken
  split at taken
  next => exact Option.some.inj taken ▸ caughtLed (measureLow nofun) (bodyGoes inv.1 inv.2)
  next =>
    exact Option.some.inj taken ▸ callbackLed (measureLow nofun) (@ckExistingGoes _ _ _ _ _ False _ _ _ _ _ _ inv.1 inv.2) False.elim
  next res =>
    refine Option.some.inj taken ▸ callbackLed (measureLow nofun) (findGoes inv.1 inv.2 id) fun died httpd fine => ?_
    subst died
    exact Bool.noConfusion (fine httpd)
  next res =>
    refine Option.some.inj taken ▸ callbackLed (measureLow nofun)
      (catGoes inv.1 inv.2 fun parts died => (⟨parts,died⟩ : ∃ parts,res = .torn parts)) fun died httpd fine => ?_
    obtain ⟨parts,rfl⟩ := died
    exact Bool.noConfusion (fine httpd)
  next stdin _ =>
    exact Option.some.inj taken ▸
      warnedLed (measureLow nofun) (@indexResultGoes _ _ _ _ False stdin _ inv.1 inv.2) False.elim
  next => exact Option.some.inj taken ▸ warnedLed (measureLow nofun) (applyResultGoes inv.1 inv.2) False.elim
  next => exact Option.some.inj taken ▸ warnedLed (measureLow nofun) (lsFilesGoes inv.1 inv.2) False.elim
  next size =>
    refine Option.some.inj taken ▸ callbackLed (measureLow nofun) (sizeGoes inv.1 inv.2 id) fun died httpd fine => ?_
    subst died
    exact Bool.noConfusion (fine httpd)
  next => exact Option.some.inj taken ▸ callbackLed (measureLow nofun) (@finishGoes _ _ _ _ False _ _ _ inv.1) False.elim
  next => exact nomatch taken

theorem diesUnanswered {e : Event} (inv : Inv w) (taken : advance job w e = some w') (httpd : job.httpd = true)
    (dies : e.dies = true) : w'.point = .stopped ∧ Unanswered w'.self := by
  have dropped : ∀ {self : Solver R I} {err : Died},Unanswered self →
      some (callback job (self,.error err)) = some w' → w'.point = .stopped ∧ Unanswered w'.self := by
    intro self err waits taken
    rw [callback,if_pos httpd,warned,settle,httpd,Bool.not_true,Bool.false_and,if_neg Bool.false_ne_true] at taken
    exact Option.some.inj taken ▸ ⟨rfl,waits⟩
  rw [advance.eq_def] at taken
  split at taken <;> try exact Bool.noConfusion dies
  next res =>
    cases res with
    | died => exact dropped inv.1 taken
    | nothing | disappeared | messages => exact Bool.noConfusion dies
  next self want smsg res =>
    cases res with
    | torn parts =>
      rw [if_pos httpd] at taken
      obtain ⟨tot,diffs,same⟩ := extractKeeps self parts
      refine dropped ?_ taken
      rw [same]
      exact inv.1
    | undef | email => exact Bool.noConfusion dies
  next size =>
    cases size with
    | none => exact dropped inv.1 taken
    | some size => exact Bool.noConfusion dies
  next => exact nomatch taken

theorem finalStopped : Final (advance job) w ↔ w.point = .stopped := by
  obtain ⟨self,point⟩ := w
  constructor
  · intro final
    cases point with
    | queued => exact nomatch final .step
    | waiting call =>
      cases call with
      | check => exact nomatch final (.checked none none none false)
      | search => exact nomatch final (.searched .nothing)
      | cat => exact nomatch final (.fetched .undef)
      | updateIndex => exact nomatch final (.indexed false)
      | apply => exact nomatch final (.applied false)
      | lsFiles => exact nomatch final (.listed false [])
      | size => exact nomatch final (.sized none none)
      | finish => exact nomatch final (.finished none none)
    | stopped => rfl
  · intro stopped e
    subst stopped
    rfl

theorem startInv (job : Job R I) : Inv (solve job) := by
  rw [solve]
  split
  · exact .inr (doneAnswers ⟨rfl,rfl⟩)
  · exact ⟨⟨rfl,rfl⟩,Nat.le_refl 1⟩

theorem runAnswers {es : List Event} (inv : Inv w) (goesOn : w.point ≠ .stopped)
    (run : runs (advance job) w es = some w') (stopped : w'.point = .stopped) :
    Answered w'.self ↔ (job.httpd = true → ∀ e ∈ es,e.dies = false) := by
  induction es generalizing w with
  | nil => exact absurd (Option.some.inj run ▸ stopped) goesOn
  | cons e es ih =>
    obtain ⟨v,taken,run⟩ := runsCons run
    have led := advanceLed inv taken
    simp only [List.forall_mem_cons]
    by_cases ended : v.point = .stopped
    · obtain ⟨rfl,rfl⟩ := runsFinal (finalStopped.mpr ended) run
      constructor
      · intro answered httpd
        refine ⟨Bool.eq_false_iff.mpr fun dies => ?_,List.forall_mem_nil _⟩
        have waits := (diesUnanswered inv taken httpd dies).2
        exact Bool.false_ne_true (answered.1.symm.trans waits.1)
      · exact fun fine => led.answered (fun httpd => (fine httpd).1) ended
    · rw [ih led.inv ended run]
      refine forall_congr' fun httpd => (and_iff_right (Bool.eq_false_iff.mpr fun dies => ?_)).symm
      exact ended (diesUnanswered inv taken httpd dies).1

theorem answersIff (inv : Inv w) : w.self.answers.length ≤ 1 ∧ (w.self.answers.length = 1 ↔ Answered w.self) := by
  have known : Unanswered w.self ∨ Answered w.self := by
    obtain ⟨self,point⟩ := w
    cases point with
    | queued => exact .inl inv.1
    | waiting call => exact .inl inv.1
    | stopped => exact inv
  rcases known with ⟨userCb,answers⟩ | answered
  · rw [answers]
    exact ⟨Nat.zero_le 1,fun one => (nomatch one),fun answered => absurd (answered.1.symm.trans userCb) Bool.false_ne_true⟩
  · exact ⟨answered.2.le,fun _ => answered,fun answered => answered.2⟩

/- No run goes on for ever and none calls the callback twice. One that is over has called it, unless under pi-httpd a
callback has died where only Git.pm or XhcMset.pm catches it. -/
theorem solveAnswersOnce (job : Job R I) : Acc (Later (advance job)) (solve job) ∧
    ∀ es w,runs (advance job) (solve job) es = some w → w.self.answers.length ≤ 1 ∧
      (Final (advance job) w → (w.self.answers.length = 1 ↔ (job.httpd = true → ∀ e ∈ es,e.dies = false))) := by
  have kept : ∀ w e w',Inv w → advance job w e = some w' → Inv w' := fun _ _ _ inv taken => (advanceLed inv taken).inv
  refine ⟨ends Inv (measure job) kept (fun _ _ _ inv taken => (advanceLed inv taken).lower) (startInv job),?_⟩
  intro es w run
  have inv := keeps Inv kept (startInv job) run
  refine ⟨(answersIff inv).1,fun final => (answersIff inv).2.trans ?_⟩
  by_cases zero : job.oidWant.zero = true
  · have start : (solve job).point = .stopped := by rw [solve,if_pos zero]
    obtain ⟨rfl,rfl⟩ := runsFinal (finalStopped.mpr start) run
    refine iff_of_true ?_ fun _ => List.forall_mem_nil _
    rw [solve,if_pos zero]
    exact doneAnswers ⟨rfl,rfl⟩
  · refine runAnswers (startInv job) ?_ run (finalStopped.mp final)
    rw [solve,if_neg zero]
    exact nofun

def newFile : Job Unit Unit := ⟨true,[()],[()],false,⟨List.replicate 7 49,by decide⟩,2048,80⟩

def newFilePatch : Match :=
  ⟨some [97,47,102],some [98,47,102],none,some [49,48,48,54,52,52],⟨List.replicate 7 48,by decide⟩,newFile.oidWant,none,none,some [98,47,102]⟩

def newFileUnsized : List Event :=
  [.step,.checked none (some .missing) none true,.searched (.messages [[50]]),.step,.fetched (.email [50] [newFilePatch]),
    .step,.step,.applied false,.listed false ([49,48,48,54,52,52,32] ++ List.replicate 40 49 ++ [32,48,9,102,0]),
    .sized (some (List.replicate 40 49)) none]

theorem sizeUnknown : (runs (advance newFile) (solve newFile) newFileUnsized).map
    (fun w => (w.point == .stopped,w.self.answers)) = some (true,[]) := by
  decide +kernel

end PublicInbox.SolverGit
