import PublicInbox.POP3
import PublicInbox.POP3D.Rows

/-! What one step can do. Apart from the logins, a step moves nothing but its own session, or ends a
session, or is the second half of unlock_mailbox, or the death of a process. -/
namespace PublicInbox.POP3
open POP3D

section
variable {D : Type}

structure Client.Keeps (old new : Client D) : Prop where
  pop3d : new.pop3d = old.pop3d
  salt : new.salt = old.salt
  userId : new.userId = old.userId
  txnId : new.txnId = old.txnId
  uidDele : new.uidDele = old.uidDele
  uidBase : new.uidBase = old.uidBase
  uidMax : new.uidMax = old.uidMax
  selected : old.salt = none → new.selected = old.selected

namespace Client.Keeps

theorem refl (self : Client D) : self.Keeps self := ⟨rfl,rfl,rfl,rfl,rfl,rfl,rfl,fun _ => rfl⟩

theorem trans {a b c : Client D} (first : a.Keeps b) (second : b.Keeps c) : a.Keeps c :=
  ⟨second.pop3d.trans first.pop3d,second.salt.trans first.salt,second.userId.trans first.userId,
    second.txnId.trans first.txnId,second.uidDele.trans first.uidDele,second.uidBase.trans first.uidBase,
    second.uidMax.trans first.uidMax,
    fun none => (second.selected (first.salt.trans none)).trans (first.selected none)⟩

end Client.Keeps

open Client

variable (env : Env) (self : Client D)

theorem userKeeps (mailbox : List Char) : self.Keeps (cmdUser env self mailbox).1 := by
  unfold cmdUser
  by_cases salt : self.salt = none
  · rw [if_pos salt]
    exact .refl self
  · have named : ∀ (l m : Option _) s,self.Keeps { self with limits := l, uidmax := m, selected := s } :=
      fun l m s => ⟨rfl,rfl,rfl,rfl,rfl,rfl,rfl,fun none => absurd none salt⟩
    rw [if_neg salt]
    dsimp only
    repeat' split
    all_goals first | exact .refl self | exact named _ _ _

theorem cachedKeeps : self.Keeps (cached env self) := by
  unfold cached
  split
  · exact ⟨rfl,rfl,rfl,rfl,rfl,rfl,rfl,fun _ => rfl⟩
  · exact .refl self

theorem markDeleKeeps (off : Nat) : self.Keeps (markDele env self off).1 := by
  unfold markDele
  split
  · exact .refl self
  · exact ⟨rfl,rfl,rfl,rfl,rfl,rfl,rfl,fun _ => rfl⟩

theorem servedKeeps (cmd : Cmd) : self.Keeps (served env self cmd).1 := by
  have kept := cachedKeeps env self
  cases cmd with
  | stat | list | uidl => exact kept
  | retr msn topNr =>
    refine kept.trans ?_
    dsimp only [served,cmdRetr]
    split
    · exact .refl _
    · exact ⟨rfl,rfl,rfl,rfl,rfl,rfl,rfl,fun _ => rfl⟩
  | rset => exact ⟨rfl,rfl,rfl,rfl,rfl,rfl,rfl,fun _ => rfl⟩
  | dele msn =>
    refine kept.trans ?_
    dsimp only [served,cmdDele]
    split
    · exact markDeleKeeps _ _ _
    · exact .refl _
  | user | pass | apop | noop | capa | quit => exact .refl self

theorem commandKeeps (cmd : Cmd) : self.Keeps (command env self cmd).1 := by
  cases cmd with
  | user mailbox => exact userKeeps env self mailbox
  | noop => exact .refl self
  | capa => exact ⟨rfl,rfl,rfl,rfl,rfl,rfl,rfl,fun _ => rfl⟩
  | retr msn topNr =>
    cases topNr with
    | none =>
      dsimp only [command]
      split
      · exact .refl self
      · exact servedKeeps env self _
    | some lines =>
      dsimp only [command]
      split
      · exact .refl self
      · split
        · exact .refl self
        · exact servedKeeps env self _
  | stat | list | uidl | rset | dele | pass | apop | quit =>
    dsimp only [command]
    split
    · exact .refl self
    · exact servedKeeps env self _

theorem retrCbKeeps {self new : Client D} {req : Req} {out : Cat} {reply : Option Reply}
    (made : retrCb self req out = some (new,reply)) : self.Keeps new ∧ reply ≠ some .inUse := by
  unfold retrCb at made
  repeat' split at made
  all_goals cases made
  all_goals exact ⟨⟨rfl,rfl,rfl,rfl,rfl,rfl,rfl,fun _ => rfl⟩,by simp⟩

theorem userAnswers (mailbox : List Char) : (cmdUser env self mailbox).2 ≠ .inUse := by
  unfold cmdUser
  dsimp only
  repeat' split
  all_goals exact Reply.noConfusion

theorem servedAnswers (cmd : Cmd) : (served env self cmd).2 ≠ some .inUse := by
  have listed : ∀ desc col (self : Client D) msn,listing desc col self msn ≠ .inUse := by
    intro desc col self msn
    unfold listing
    repeat' split
    all_goals simp
  cases cmd with
  | stat => simp [served,cmdStat]
  | list msn | uidl msn => exact fun same => listed _ _ _ msn (Option.some.inj same)
  | retr msn topNr =>
    dsimp only [served,cmdRetr]
    split <;> simp
  | dele msn =>
    dsimp only [served,cmdDele]
    repeat' split
    all_goals simp
  | rset | user | pass | apop | noop | capa | quit => simp [served]

theorem needTxnAnswers {err : Reply} (held : needTxn self = some err) : some err ≠ some .inUse := by
  obtain ⟨salt,-,rfl⟩ := Option.map_eq_some_iff.mp held
  simp

theorem commandAnswers (cmd : Cmd) : (command env self cmd).2 ≠ some .inUse := by
  cases cmd with
  | user mailbox => exact fun same => userAnswers env self mailbox (Option.some.inj same)
  | noop | capa => simp [command,cmdCapa]
  | retr msn topNr =>
    cases topNr with
    | none =>
      dsimp only [command]
      split
      · exact needTxnAnswers self ‹_›
      · exact servedAnswers env self _
    | some lines =>
      dsimp only [command]
      split
      · simp
      · split
        · exact needTxnAnswers self ‹_›
        · exact servedAnswers env self _
  | stat | list | uidl | rset | dele | pass | apop | quit =>
    dsimp only [command]
    split
    · exact needTxnAnswers self ‹_›
    · exact servedAnswers env self _

end

section
variable {D : Type} (env : Env) {s : State} (linked : s.Linked) (self : Client D) (userId txnId : Nat)
include linked

theorem quitLinked : (quitState env s self userId txnId).Linked := by
  unfold quitState
  cases self.txnMaxUid with
  | some max => exact (seenExtends _ userId env.time).linked (updateLinked txnId _ _ linked) rfl
  | none =>
    dsimp only
    split
    · exact (seenExtends _ userId env.time).linked (cleanupLinked userId txnId linked) rfl
    · exact cleanupLinked userId txnId linked

theorem quitRow {k : Nat} {r : Delete} {m : Maildrop} : (quitState env s self userId txnId).Row k r m ↔
    match self.txnMaxUid with
    | some max => ∃ old,s.Row k old m ∧ r = if k = txnId then raise max old else old
    | none => s.Row k r m ∧ (k = txnId → r.uidDele ≠ -1) := by
  unfold quitState
  cases self.txnMaxUid with
  | some max => exact ((seenExtends _ userId env.time).row (updateLinked txnId _ _ linked) rfl).trans (updateRow txnId _ _)
  | none =>
    dsimp only
    split
    · exact ((seenExtends _ userId env.time).row (cleanupLinked userId txnId linked) rfl).trans (cleanupRow s userId txnId)
    · exact cleanupRow s userId txnId

theorem quitOther {k : Nat} {r : Delete} {m : Maildrop} (other : k ≠ txnId) (here : s.Row k r m) :
    (quitState env s self userId txnId).Row k r m := by
  rw [quitRow env linked]
  cases self.txnMaxUid with
  | some max => exact ⟨r,here,(if_neg other).symm⟩
  | none => exact ⟨here,fun same => absurd same other⟩

end

namespace World
variable {P D C : Type} [DecidableEq P] [DecidableEq D] [DecidableEq C] (proc : D → P)

def attempt (w : World P D C) (env : Env) : Event P D C → Option (C × Client D × Selected)
  | .line c (.pass pass) => do
    let self ← w.live proc c
    let named ← self.selected
    if self.salt ≠ none ∧ pass = "anonymous".toList then some (c,self,named) else none
  | .line c (.apop mailbox hex) => do
    let self ← w.live proc c
    match cmdUser env self mailbox with
    | (self,.ok _) => do
      let named ← self.selected
      let salt ← self.salt
      if env.apop salt hex then some (c,self,named) else none
    | _ => none
  | _ => none

def login (w : World P D C) (env : Env) (c : C) (self : Client D) (named : Selected) : World P D C :=
  let (shared,self,_) := loginOk proc env w.shared self named
  { w.put c (some self) with shared := shared }

inductive Moves (env : Env) (w : World P D C) (e : Event P D C) : World P D C → Prop
  | stay : Moves env w e w
  | accept {c : C} {d : D} (salt : List Char) (new : w.clients c = none) (idle : w.unlocking (proc d) = none) :
      Moves env w e (w.put c (some (fresh d salt)))
  | session {c : C} {self new : Client D} (live : w.live proc c = some self) (keeps : self.Keeps new) :
      Moves env w e (w.put c (some new))
  | leave {c : C} {self : Client D} (live : w.live proc c = some self) (out : self.userId = none ∨ self.txnId = none) :
      Moves env w e (w.put c none)
  | quit {c : C} {self : Client D} {userId txnId : Nat} (live : w.live proc c = some self)
      (user : self.userId = some userId) (txn : self.txnId = some txnId) (sent : e = .line c .quit) :
      Moves env w e (w.quit proc env c self)
  | close {c : C} {self : Client D} {userId txnId : Nat} (live : w.live proc c = some self)
      (user : self.userId = some userId) (txn : self.txnId = some txnId) : Moves env w e (w.close proc c self)
  | unlock {p : P} {d : D} {txnId : Nat} (pending : w.unlocking p = some (d,txnId)) :
      Moves env w e { w with
        shared := w.shared.unlock p d txnId
        unlocking := Function.update w.unlocking p none }
  | died (p : P) : Moves env w e (w.die proc p)

variable {proc} {w : World P D C} {env : Env} {e : Event P D C}

theorem attemptLogin {c : C} {self : Client D} {named : Selected} (tries : w.attempt proc env e = some (c,self,named)) :
    (∃ old,w.live proc c = some old ∧ old.Keeps self ∧ self.salt ≠ none ∧ self.selected = some named) ∧
      w.perform proc env e = (w.login proc env c self named,some (loginOk proc env w.shared self named).2.2) := by
  unfold attempt at tries
  split at tries
  · rename_i c' pass
    simp only [bind,Option.bind_eq_some_iff] at tries
    obtain ⟨old,live,named',selected,tries⟩ := tries
    split at tries
    · rename_i right
      cases tries
      refine ⟨⟨_,live,.refl _,right.1,selected⟩,?_⟩
      simp only [perform,live,line,cmdPass,selected,right,if_false,if_true,login]
    · cases tries
  · rename_i c' mailbox hex
    simp only [bind,Option.bind_eq_some_iff] at tries
    obtain ⟨old,live,tries⟩ := tries
    split at tries
    · rename_i self' text user
      have keeps : old.Keeps self' := by simpa [user] using userKeeps env old mailbox
      obtain ⟨named',selected,salt,salted,tries⟩ : ∃ named',self'.selected = some named' ∧ ∃ salt,self'.salt = some salt ∧
          (if env.apop salt hex then some (c',self',named') else none) = some (c,self,named) := by
        simpa only [bind,Option.bind_eq_some_iff] using tries
      split at tries
      · rename_i right
        cases tries
        refine ⟨⟨_,live,keeps,by simp [salted],selected⟩,?_⟩
        simp only [perform,live,line,cmdApop,user,selected,salted,right,if_true,login]
      · cases tries
    · cases tries
  · cases tries

theorem closeMoves {c : C} {self : Client D} (live : w.live proc c = some self) : Moves proc env w e (w.close proc c self) := by
  cases user : self.userId with
  | none =>
    rw [show w.close proc c self = w.put c none by simp [close,user]]
    exact .leave live (Or.inl user)
  | some userId => cases txn : self.txnId with
    | none =>
      rw [show w.close proc c self = w.put c none by simp [close,txn]]
      exact .leave live (Or.inr txn)
    | some txnId => exact .close live user txn

theorem quitMoves {c : C} {self : Client D} (live : w.live proc c = some self) :
    Moves proc env w (.line c .quit) (w.quit proc env c self) := by
  cases user : self.userId with
  | none =>
    rw [show w.quit proc env c self = w.put c none by simp [quit,user]]
    exact .leave live (Or.inl user)
  | some userId => cases txn : self.txnId with
    | none =>
      rw [show w.quit proc env c self = w.put c none by simp [quit,txn]]
      exact .leave live (Or.inr txn)
    | some txnId => exact .quit live user txn rfl

omit [DecidableEq C] in
theorem passMoves {c : C} {self : Client D} {pass : List Char} (live : w.live proc c = some self)
    (other : w.attempt proc env (.line c (.pass pass)) = none) :
    ∃ reply,cmdPass proc env w.shared self pass = (w.shared,self,reply) ∧ reply ≠ .inUse := by
  unfold cmdPass
  split
  · exact ⟨_,rfl,by simp⟩
  · rename_i named selected
    split
    · exact ⟨_,rfl,by simp⟩
    · rename_i salted
      split
      · rename_i right
        have tries : w.attempt proc env (.line c (.pass pass)) = some (c,self,named) := by
          simp only [attempt,live,selected,bind,Option.bind_some]
          exact if_pos ⟨salted,right⟩
        rw [other] at tries
        cases tries
      · exact ⟨_,rfl,by simp⟩

omit [DecidableEq C] in
theorem apopMoves {c : C} {self : Client D} {mailbox hex : List Char} (live : w.live proc c = some self)
    (other : w.attempt proc env (.line c (.apop mailbox hex)) = none) :
    ∃ new reply,cmdApop proc env w.shared self mailbox hex = (w.shared,new,reply) ∧ self.Keeps new ∧ reply ≠ .inUse := by
  have keeps := userKeeps env self mailbox
  have answers := userAnswers env self mailbox
  unfold cmdApop
  split
  · rename_i new text user
    rw [user] at keeps
    split
    · rename_i named salt selected salted
      split
      · rename_i right
        have tries : w.attempt proc env (.line c (.apop mailbox hex)) = some (c,new,named) := by
          simp only [attempt,live,user,selected,salted,bind,Option.bind_some]
          exact if_pos right
        rw [other] at tries
        cases tries
      · exact ⟨_,_,rfl,keeps,by simp⟩
    · exact ⟨_,_,rfl,keeps,by simp⟩
  · rename_i new reply user
    rw [user] at keeps answers
    exact ⟨_,_,rfl,keeps,answers⟩

theorem lineMoves {c : C} {self : Client D} {cmd : Cmd} (live : w.live proc c = some self)
    (other : w.attempt proc env (.line c cmd) = none) :
    Moves proc env w (.line c cmd) (w.line proc env c self cmd).1 ∧ (w.line proc env c self cmd).2 ≠ some .inUse := by
  have plain : ∀ cmd,Moves proc env w (.line c cmd) (w.put c (some (command env self cmd).1)) ∧ (command env self cmd).2 ≠ some .inUse :=
    fun cmd => ⟨.session live (commandKeeps env self cmd),commandAnswers env self cmd⟩
  cases cmd with
  | pass pass =>
    obtain ⟨reply,made,answers⟩ := passMoves live other
    simp only [line,made]
    exact ⟨.session live (.refl self),by simpa using answers⟩
  | apop mailbox hex =>
    obtain ⟨new,reply,made,keeps,answers⟩ := apopMoves live other
    simp only [line,made]
    exact ⟨.session live keeps,by simpa using answers⟩
  | quit => exact ⟨quitMoves live,by simp [line]⟩
  | user mailbox => exact plain (.user mailbox)
  | stat => exact plain .stat
  | list msn => exact plain (.list msn)
  | uidl msn => exact plain (.uidl msn)
  | retr msn topNr => exact plain (.retr msn topNr)
  | noop => exact plain .noop
  | rset => exact plain .rset
  | dele msn => exact plain (.dele msn)
  | capa => exact plain .capa

theorem performMoves (other : w.attempt proc env e = none) :
    Moves proc env w e (w.perform proc env e).1 ∧ (w.perform proc env e).2 ≠ some .inUse := by
  cases e with
  | accept c d salt =>
    dsimp only [perform]
    split
    · rename_i free
      exact ⟨.accept salt free.1 free.2,by simp⟩
    · exact ⟨.stay,by simp⟩
  | line c cmd =>
    cases live : w.live proc c with
    | none =>
      simp only [perform,live]
      exact ⟨.stay,by simp⟩
    | some self =>
      simp only [perform,live]
      exact lineMoves live other
  | fetched c out =>
    cases live : w.live proc c with
    | none =>
      simp only [perform,live]
      exact ⟨.stay,by simp⟩
    | some self =>
      simp only [perform,live]
      split
      · rename_i req later queue
        split
        · rename_i new reply made
          obtain ⟨keeps,answers⟩ := retrCbKeeps made
          have popped : self.Keeps { self with inflight := later } := ⟨rfl,rfl,rfl,rfl,rfl,rfl,rfl,fun _ => rfl⟩
          exact ⟨.session live (popped.trans keeps),answers⟩
        · exact ⟨closeMoves live,by simp⟩
      · exact ⟨.stay,by simp⟩
  | hangup c =>
    cases live : w.live proc c with
    | none =>
      simp only [perform,live]
      exact ⟨.stay,by simp⟩
    | some self =>
      simp only [perform,live]
      exact ⟨closeMoves live,by simp⟩
  | unlock p =>
    cases pending : w.unlocking p with
    | none =>
      simp only [perform,pending]
      exact ⟨.stay,by simp⟩
    | some held =>
      simp only [perform,pending]
      exact ⟨.unlock pending,by simp⟩
  | died p => exact ⟨.died p,by simp [perform]⟩

end World

end PublicInbox.POP3
