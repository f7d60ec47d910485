import PublicInbox.POP3.Sessions

/-! Who has a maildrop locked. A lock is an entry of {txn_locks} and a byte of txn.locks; the first
keeps out the other sessions of a POP3D, the second those of other processes, and neither the ones
of another POP3D in the same process. -/
namespace PublicInbox.POP3.World
open POP3D

variable {P D C : Type}

def maildrop (w : World P D C) (c : C) : Option Maildrop :=
  (w.clients c).bind fun self => self.selected.map Selected.maildrop

def LoggedIn (w : World P D C) (c : C) : Prop := ∃ self,w.clients c = some self ∧ self.txnId ≠ none

def Exclusive (w : World P D C) : Prop :=
  ∀ c c',w.LoggedIn c → w.LoggedIn c' → w.maildrop c = w.maildrop c' → c = c'

section
variable (proc : D → P)

def Holds (w : World P D C) (c : C) : Prop :=
  ∃ self txnId,w.clients c = some self ∧ self.txnId = some txnId ∧
    txnId ∈ w.shared.txnLocks self.pop3d ∧ w.shared.fcntl (txnId - 1) = some (proc self.pop3d)

def Runs (w : World P D C) (c : C) : Event P D C → Prop
  | .line c' cmd => c' = c ∧ cmd.guarded = true ∧ ∃ self,w.live proc c = some self ∧ needTxn self = none
  | _ => False

def Beside (w : World P D C) (d : D) (m : Maildrop) : Prop :=
  ∃ c other,w.clients c = some other ∧ other.txnId ≠ none ∧ other.selected.map Selected.maildrop = some m ∧
    proc other.pop3d = proc d ∧ other.pop3d ≠ d

structure Held (w : World P D C) (client : Client D) (txnId : Nat) : Prop where
  listed : txnId ∈ w.shared.txnLocks client.pop3d
  locked : w.shared.fcntl (txnId - 1) = some (proc client.pop3d)
  salt : client.salt = none
  row : ∃ named r,client.selected = some named ∧ client.userId = some r.userId ∧
    w.shared.state.Row txnId r named.maildrop ∧ client.uidDele.getD (-1) = r.uidDele

structure Inv (w : World P D C) : Prop where
  linked : w.shared.state.Linked
  held : ∀ c self txnId,w.clients c = some self → self.txnId = some txnId → Held proc w self txnId
  one : ∀ c c' self other txnId,w.clients c = some self → w.clients c' = some other →
    self.txnId = some txnId → other.txnId = some txnId → c = c'
  listed : ∀ d txnId,txnId ∈ w.shared.txnLocks d →
    (∃ c self,w.clients c = some self ∧ self.pop3d = d ∧ self.txnId = some txnId) ∨ w.unlocking (proc d) = some (d,txnId)
  pending : ∀ p d txnId,w.unlocking p = some (d,txnId) → w.shared.fcntl (txnId - 1) = some p ∧
    ∀ c self,w.clients c = some self → self.txnId ≠ some txnId

end

variable {proc : D → P} {w : World P D C} {env : Env} {c : C} {self : Client D}

theorem liveClient (live : w.live proc c = some self) : w.clients c = some self ∧ w.unlocking (proc self.pop3d) = none := by
  obtain ⟨found,idle⟩ := Option.filter_eq_some_iff.mp live
  exact ⟨found,of_decide_eq_true idle⟩

theorem putClients [DecidableEq C] (x : Option (Client D)) (c' : C) :
    (w.put c x).clients c' = if c' = c then x else w.clients c' := Function.update_apply _ _ _ _

theorem Held.frame {w' : World P D C} {new : Client D} {txnId : Nat} (held : Held proc w self txnId) (keeps : self.Keeps new)
    (listed : txnId ∈ w'.shared.txnLocks self.pop3d) (locked : w'.shared.fcntl (txnId - 1) = some (proc self.pop3d))
    (row : ∀ r m,w.shared.state.Row txnId r m → w'.shared.state.Row txnId r m) : Held proc w' new txnId := by
  obtain ⟨named,r,selected,user,here,mark⟩ := held.row
  exact ⟨keeps.pop3d ▸ listed,keeps.pop3d ▸ locked,keeps.salt.trans held.salt,
    ⟨named,r,(keeps.selected held.salt).trans selected,keeps.userId.trans user,row r _ here,keeps.uidDele ▸ mark⟩⟩

namespace Inv

theorem exclusive (inv : Inv proc w) : w.Exclusive := by
  intro c c' ⟨self,found,txn⟩ ⟨other,found',txn'⟩ same
  obtain ⟨txnId,has⟩ := Option.ne_none_iff_exists'.mp txn
  obtain ⟨txnId',has'⟩ := Option.ne_none_iff_exists'.mp txn'
  obtain ⟨named,r,selected,-,row,-⟩ := (inv.held c self txnId found has).row
  obtain ⟨named',r',selected',-,row',-⟩ := (inv.held c' other txnId' found' has').row
  have names : named.maildrop = named'.maildrop := by simpa [maildrop,found,found',selected,selected'] using same
  obtain ⟨rfl,-⟩ := row.unique (names ▸ row')
  exact inv.one c c' self other txnId found found' has has'

theorem put [DecidableEq C] (inv : Inv proc w) {x : Option (Client D)}
    (came : ∀ new txnId,x = some new → new.txnId = some txnId → ∃ old,w.clients c = some old ∧ old.Keeps new)
    (still : ∀ old txnId,w.clients c = some old → old.txnId = some txnId → ∃ new,x = some new ∧ old.Keeps new) :
    Inv proc (w.put c x) := by
  have old : ∀ c' new txnId,(w.put c x).clients c' = some new → new.txnId = some txnId →
      ∃ old,w.clients c' = some old ∧ old.Keeps new := by
    intro c' new txnId found txn
    rw [putClients] at found
    split at found
    · rename_i here
      subst here
      exact came new txnId found txn
    · exact ⟨new,found,.refl new⟩
  refine ⟨inv.linked,?_,?_,?_,?_⟩
  · intro c' new txnId found txn
    obtain ⟨was,there,keeps⟩ := old c' new txnId found txn
    have held := inv.held c' was txnId there (keeps.txnId ▸ txn)
    exact held.frame keeps held.listed held.locked fun _ _ row => row
  · intro c₁ c₂ one two txnId found₁ found₂ txn₁ txn₂
    obtain ⟨was₁,there₁,keeps₁⟩ := old c₁ one txnId found₁ txn₁
    obtain ⟨was₂,there₂,keeps₂⟩ := old c₂ two txnId found₂ txn₂
    exact inv.one c₁ c₂ was₁ was₂ txnId there₁ there₂ (keeps₁.txnId ▸ txn₁) (keeps₂.txnId ▸ txn₂)
  · intro d txnId mem
    rcases inv.listed d txnId mem with ⟨c',was,found,rfl,txn⟩ | pending
    · refine Or.inl ⟨c',?_⟩
      simp only [putClients]
      split
      · rename_i here
        subst here
        obtain ⟨new,rfl,keeps⟩ := still was txnId found txn
        exact ⟨new,rfl,keeps.pop3d,keeps.txnId.trans txn⟩
      · exact ⟨was,found,rfl,txn⟩
    · exact Or.inr pending
  · intro p d txnId pending
    refine ⟨(inv.pending p d txnId pending).1,fun c' new found txn => ?_⟩
    obtain ⟨was,there,keeps⟩ := old c' new txnId found txn
    exact (inv.pending p d txnId pending).2 c' was there (keeps.txnId ▸ txn)

theorem apart [DecidableEq C] (inv : Inv proc w) {txnId : Nat} (found : w.clients c = some self) (txn : self.txnId = some txnId)
    {c' : C} {other : Client D} {txnId' : Nat} (left : (w.put c none).clients c' = some other)
    (has : other.txnId = some txnId') : w.clients c' = some other ∧ txnId' ≠ txnId := by
  rw [putClients] at left
  split at left
  · cases left
  · rename_i differ
    refine ⟨left,?_⟩
    rintro rfl
    exact differ (inv.one c' c other self txnId' left found has txn)

section
variable [DecidableEq P] [DecidableEq D] [DecidableEq C]

theorem unlockLocks {s : Shared P D} {p : P} {d d' : D} {txnId txnId' : Nat} :
    txnId' ∈ (s.unlock p d txnId).txnLocks d' ↔ txnId' ∈ s.txnLocks d' ∧ ¬ (d' = d ∧ txnId' = txnId) := by
  dsimp only [Shared.unlock]
  rw [Function.update_apply]
  split
  · rename_i here
    subst here
    simp
  · rename_i differ
    simp [differ]

theorem unlockByte {s : Shared P D} {p : P} {d : D} {txnId txnId' : Nat} (differ : txnId' ≠ txnId) :
    (s.unlock p d txnId).fcntl (txnId' - 1) = s.fcntl (txnId' - 1) := by
  dsimp only [Shared.unlock,unlck]
  split
  · exact Function.update_of_ne (by omega) _ _
  · rfl

theorem ends (inv : Inv proc w) {txnId : Nat} (found : w.clients c = some self) (txn : self.txnId = some txnId) {state : State}
    (linked : state.Linked) (row : ∀ k r m,k ≠ txnId → w.shared.state.Row k r m → state.Row k r m) :
    Inv proc { w.put c none with
      shared := { w.shared with state := state }.unlock (proc self.pop3d) self.pop3d txnId } := by
  have held := inv.held c self txnId found txn
  refine ⟨linked,?_,?_,?_,?_⟩
  · intro c' other txnId' left has
    obtain ⟨there,differ⟩ := inv.apart found txn left has
    have kept := inv.held c' other txnId' there has
    refine kept.frame (.refl other) ?_ ?_ fun r m => row txnId' r m differ
    · exact unlockLocks.mpr ⟨kept.listed,fun same => differ same.2⟩
    · exact (unlockByte differ).trans kept.locked
  · intro c₁ c₂ one two txnId' left₁ left₂ has₁ has₂
    exact inv.one c₁ c₂ one two txnId' (inv.apart found txn left₁ has₁).1 (inv.apart found txn left₂ has₂).1 has₁ has₂
  · intro d txnId' mem
    obtain ⟨mem,differ⟩ := unlockLocks.mp mem
    rcases inv.listed d txnId' mem with ⟨c',other,there,rfl,has⟩ | pending
    · refine Or.inl ⟨c',other,?_,rfl,has⟩
      rw [putClients,if_neg]
      · exact there
      · rintro rfl
        obtain rfl := Option.some.inj (found.symm.trans there)
        exact differ ⟨rfl,Option.some.inj (has.symm.trans txn)⟩
    · exact Or.inr pending
  · intro p d txnId' pending
    obtain ⟨byte,none⟩ := inv.pending p d txnId' pending
    have differ : txnId' ≠ txnId := by
      rintro rfl
      exact none c self found txn
    refine ⟨(unlockByte differ).trans byte,fun c' other left has => ?_⟩
    exact none c' other (inv.apart found txn left has).1 has

omit [DecidableEq D] in
theorem waits (inv : Inv proc w) {txnId : Nat} (live : w.live proc c = some self) (txn : self.txnId = some txnId) {state : State}
    (linked : state.Linked) (row : ∀ k r m,k ≠ txnId → w.shared.state.Row k r m → state.Row k r m) :
    Inv proc { w.put c none with
      shared := { w.shared with state := state }
      unlocking := Function.update w.unlocking (proc self.pop3d) (some (self.pop3d,txnId)) } := by
  obtain ⟨found,idle⟩ := liveClient live
  have held := inv.held c self txnId found txn
  refine ⟨linked,?_,?_,?_,?_⟩
  · intro c' other txnId' left has
    obtain ⟨there,differ⟩ := inv.apart found txn left has
    have kept := inv.held c' other txnId' there has
    exact kept.frame (.refl other) kept.listed kept.locked fun r m => row txnId' r m differ
  · intro c₁ c₂ one two txnId' left₁ left₂ has₁ has₂
    exact inv.one c₁ c₂ one two txnId' (inv.apart found txn left₁ has₁).1 (inv.apart found txn left₂ has₂).1 has₁ has₂
  · intro d txnId' mem
    dsimp only
    rw [Function.update_apply]
    rcases inv.listed d txnId' mem with ⟨c',other,there,rfl,has⟩ | pending
    · by_cases here : c' = c
      · subst here
        obtain rfl := Option.some.inj (found.symm.trans there)
        obtain rfl := Option.some.inj (has.symm.trans txn)
        exact Or.inr (if_pos rfl)
      · exact Or.inl ⟨c',other,by rw [putClients,if_neg here]; exact there,rfl,has⟩
    · rw [if_neg]
      · exact Or.inr pending
      · intro same
        rw [same,idle] at pending
        cases pending
  · intro p d txnId' pending
    dsimp only at pending
    rw [Function.update_apply] at pending
    split at pending
    · rename_i here
      cases pending
      subst here
      exact ⟨held.locked,fun c' other left has => (inv.apart found txn left has).2 rfl⟩
    · obtain ⟨byte,none⟩ := inv.pending p d txnId' pending
      exact ⟨byte,fun c' other left has => none c' other (inv.apart found txn left has).1 has⟩

omit [DecidableEq C] in
theorem unlock (inv : Inv proc w) {p : P} {d : D} {txnId : Nat} (pending : w.unlocking p = some (d,txnId)) :
    Inv proc { w with
      shared := w.shared.unlock p d txnId
      unlocking := Function.update w.unlocking p none } := by
  have free := (inv.pending p d txnId pending).2
  refine ⟨inv.linked,?_,inv.one,?_,?_⟩
  · intro c self txnId' found has
    have kept := inv.held c self txnId' found has
    have differ : txnId' ≠ txnId := by
      rintro rfl
      exact free c self found has
    exact kept.frame (.refl self) (unlockLocks.mpr ⟨kept.listed,fun same => differ same.2⟩)
      ((unlockByte differ).trans kept.locked) fun _ _ row => row
  · intro d' txnId' mem
    obtain ⟨mem,differ⟩ := unlockLocks.mp mem
    rcases inv.listed d' txnId' mem with session | other
    · exact Or.inl session
    · dsimp only
      rw [Function.update_of_ne]
      · exact Or.inr other
      · rintro rfl
        rw [pending] at other
        cases other
        exact differ ⟨rfl,rfl⟩
  · intro p' d' txnId' other
    dsimp only at other
    rw [Function.update_apply] at other
    split at other
    · cases other
    · rename_i elsewhere
      obtain ⟨byte,none⟩ := inv.pending p' d' txnId' other
      have differ : txnId' ≠ txnId := by
        rintro rfl
        exact elsewhere (Option.some.inj (byte.symm.trans (inv.pending p d txnId' pending).1))
      exact ⟨(unlockByte differ).trans byte,none⟩

omit [DecidableEq D] [DecidableEq C] in
theorem die (inv : Inv proc w) (p : P) : Inv proc (w.die proc p) := by
  have left : ∀ {c other},(w.die proc p).clients c = some other → w.clients c = some other ∧ proc other.pop3d ≠ p := by
    intro c other found
    obtain ⟨there,alive⟩ := Option.filter_eq_some_iff.mp found
    exact ⟨there,of_decide_eq_true alive⟩
  refine ⟨inv.linked,?_,?_,?_,?_⟩
  · intro c self txnId found has
    obtain ⟨there,alive⟩ := left found
    have kept := inv.held c self txnId there has
    refine kept.frame (.refl self) ?_ ?_ fun _ _ row => row
    · dsimp only [World.die]
      rw [if_neg alive]
      exact kept.listed
    · dsimp only [World.die]
      rw [kept.locked,if_neg (by simpa using alive)]
  · intro c₁ c₂ one two txnId found₁ found₂ has₁ has₂
    exact inv.one c₁ c₂ one two txnId (left found₁).1 (left found₂).1 has₁ has₂
  · intro d txnId mem
    dsimp only [World.die] at mem ⊢
    split at mem
    · cases mem
    · rename_i alive
      rcases inv.listed d txnId mem with ⟨c,self,found,rfl,has⟩ | pending
      · exact Or.inl ⟨c,self,Option.filter_eq_some_iff.mpr ⟨found,decide_eq_true alive⟩,rfl,has⟩
      · rw [Function.update_of_ne alive]
        exact Or.inr pending
  · intro p' d txnId pending
    dsimp only [World.die] at pending ⊢
    rw [Function.update_apply] at pending
    split at pending
    · cases pending
    · rename_i alive
      obtain ⟨byte,none⟩ := inv.pending p' d txnId pending
      rw [byte,if_neg (by simpa using alive)]
      exact ⟨rfl,fun c other found has => none c other (left found).1 has⟩

theorem moves (inv : Inv proc w) {w' : World P D C} {e : Event P D C} (moved : Moves proc env w e w') : Inv proc w' := by
  cases moved with
  | stay => exact inv
  | @accept c d salt new idle =>
    refine inv.put (fun self txnId here txn => ?_) fun old txnId there => ?_
    · obtain rfl := Option.some.inj here
      cases txn
    · rw [new] at there
      cases there
  | @session c self new live keeps =>
    obtain ⟨found,-⟩ := liveClient live
    refine inv.put (fun self' txnId here txn => ?_) fun old txnId there txn => ?_
    · obtain rfl := Option.some.inj here
      exact ⟨self,found,keeps⟩
    · obtain rfl := Option.some.inj (found.symm.trans there)
      exact ⟨new,rfl,keeps⟩
  | @leave c self live out =>
    obtain ⟨found,-⟩ := liveClient live
    refine inv.put (fun self' txnId here => by cases here) fun old txnId there txn => ?_
    obtain rfl := Option.some.inj (found.symm.trans there)
    obtain ⟨-,r,-,user,-⟩ := (inv.held c self txnId found txn).row
    rcases out with none | none
    · rw [user] at none
      cases none
    · rw [txn] at none
      cases none
  | @quit c self userId txnId live user txn =>
    simp only [World.quit,user,txn]
    exact inv.ends (liveClient live).1 txn (quitLinked env inv.linked _ userId txnId)
      fun k r m other row => quitOther env inv.linked _ userId txnId other row
  | @close c self userId txnId live user txn =>
    simp only [World.close,user,txn]
    exact inv.waits live txn (cleanupLinked userId txnId inv.linked)
      fun k r m other row => (cleanupRow _ userId txnId).mpr ⟨row,fun same => absurd same other⟩
  | unlock pending => exact inv.unlock pending
  | died p => exact inv.die p

end

theorem restate (inv : Inv proc w) {state : State} (linked : state.Linked)
    (row : ∀ k r m,w.shared.state.Row k r m → state.Row k r m) :
    Inv proc { w with shared := { w.shared with state := state } } :=
  ⟨linked,fun c self txnId found txn =>
      have held := inv.held c self txnId found txn
      held.frame (.refl self) held.listed held.locked (row txnId),
    inv.one,inv.listed,inv.pending⟩

theorem locks [DecidableEq D] [DecidableEq C] (inv : Inv proc w) {txnId : Nat} (found : w.clients c = some self)
    (out : self.txnId = none) {new : Client D} (has : new.txnId = some txnId) (salt : new.salt = none)
    (row : ∃ named r,new.selected = some named ∧ new.userId = some r.userId ∧ w.shared.state.Row txnId r named.maildrop ∧
      new.uidDele.getD (-1) = r.uidDele)
    (free : ∀ c other,w.clients c = some other → other.txnId ≠ some txnId) (idle : ∀ p d,w.unlocking p ≠ some (d,txnId)) :
    Inv proc { w.put c (some new) with
      shared := { w.shared with
        fcntl := Function.update w.shared.fcntl (txnId - 1) (some (proc new.pop3d))
        txnLocks := Function.update w.shared.txnLocks new.pop3d (txnId :: w.shared.txnLocks new.pop3d) } } := by
  have session : ∀ c' other txnId',(w.put c (some new)).clients c' = some other → other.txnId = some txnId' →
      (c' = c ∧ other = new ∧ txnId' = txnId) ∨ (w.clients c' = some other ∧ txnId' ≠ txnId) := by
    intro c' other txnId' there txn
    rw [putClients] at there
    split at there
    · obtain rfl := Option.some.inj there
      exact Or.inl ⟨‹_›,rfl,Option.some.inj (txn.symm.trans has)⟩
    · refine Or.inr ⟨there,?_⟩
      rintro rfl
      exact free c' other there txn
  have listed : ∀ {d txnId'},txnId' ∈ w.shared.txnLocks d →
      txnId' ∈ Function.update w.shared.txnLocks new.pop3d (txnId :: w.shared.txnLocks new.pop3d) d := by
    intro d txnId' mem
    rw [Function.update_apply]
    split
    · rename_i here
      exact List.mem_cons_of_mem _ (here ▸ mem)
    · exact mem
  refine ⟨inv.linked,?_,?_,?_,?_⟩
  · intro c' other txnId' there txn
    rcases session c' other txnId' there txn with ⟨rfl,rfl,rfl⟩ | ⟨old,differ⟩
    · refine ⟨?_,?_,salt,row⟩
      · dsimp only
        rw [Function.update_self]
        exact List.mem_cons_self
      · dsimp only
        rw [Function.update_self]
    · have held := inv.held c' other txnId' old txn
      refine held.frame (.refl other) (listed held.listed) ?_ fun _ _ row => row
      dsimp only
      rw [Function.update_of_ne (by omega)]
      exact held.locked
  · intro c₁ c₂ one two txnId' found₁ found₂ txn₁ txn₂
    rcases session c₁ one txnId' found₁ txn₁ with ⟨rfl,-,rfl⟩ | ⟨old₁,differ₁⟩
    · rcases session c₂ two _ found₂ txn₂ with ⟨rfl,-⟩ | ⟨-,differ₂⟩
      · rfl
      · exact absurd rfl differ₂
    · rcases session c₂ two txnId' found₂ txn₂ with ⟨-,-,same⟩ | ⟨old₂,-⟩
      · exact absurd same differ₁
      · exact inv.one c₁ c₂ one two txnId' old₁ old₂ txn₁ txn₂
  · intro d txnId' mem
    have cases' : (d = new.pop3d ∧ txnId' = txnId) ∨ txnId' ∈ w.shared.txnLocks d := by
      dsimp only at mem
      rw [Function.update_apply] at mem
      split at mem
      · rename_i here
        exact (List.mem_cons.mp mem).imp (fun same => ⟨here,same⟩) fun old => here ▸ old
      · exact Or.inr mem
    rcases cases' with ⟨rfl,rfl⟩ | old
    · exact Or.inl ⟨c,new,by rw [putClients,if_pos rfl],rfl,has⟩
    · rcases inv.listed d txnId' old with ⟨c',other,there,rfl,txn⟩ | pending
      · refine Or.inl ⟨c',other,?_,rfl,txn⟩
        rw [putClients,if_neg]
        · exact there
        · rintro rfl
          obtain rfl := Option.some.inj (found.symm.trans there)
          rw [out] at txn
          cases txn
      · exact Or.inr pending
  · intro p d txnId' pending
    obtain ⟨byte,none⟩ := inv.pending p d txnId' pending
    have differ : txnId' ≠ txnId := by
      rintro rfl
      exact idle p d pending
    refine ⟨?_,fun c' other there txn => ?_⟩
    · dsimp only
      rw [Function.update_of_ne (by omega)]
      exact byte
    · rcases session c' other txnId' there txn with ⟨-,-,same⟩ | ⟨old,-⟩
      · exact differ same
      · exact none c' other old txn

end Inv

section
variable [DecidableEq P] [DecidableEq D]

theorem lockCases (s : Shared P D) (p : P) (d : D) (time : Nat) (m : Maildrop) {state : State} {userId txnId : Nat}
    {uidDele : Option Int} (made : s.state.ensure time m = (state,userId,txnId,uidDele)) :
    let taken := s.fcntl (txnId - 1) ≠ none ∧ s.fcntl (txnId - 1) ≠ some p
    (txnId ∈ s.txnLocks d ∨ taken) ∧ s.lockMailbox p d time m = ({ s with state := state },uidDele,none) ∨
      (txnId ∉ s.txnLocks d ∧ ¬ taken) ∧ s.lockMailbox p d time m =
        ({ state := state
           fcntl := Function.update s.fcntl (txnId - 1) (some p)
           txnLocks := Function.update s.txnLocks d (txnId :: s.txnLocks d) },uidDele,some (userId,txnId)) := by
  intro taken
  simp only [Shared.lockMailbox,made,setlk]
  by_cases own : txnId ∈ s.txnLocks d
  · exact Or.inl ⟨Or.inl own,by rw [if_pos own]⟩
  · by_cases other : taken
    · refine Or.inl ⟨Or.inr other,?_⟩
      rw [if_neg own,if_neg (not_or.mpr other)]
    · refine Or.inr ⟨⟨own,other⟩,?_⟩
      rw [if_neg own,if_pos (by simpa only [taken,ne_eq,← not_or,not_not] using other)]

variable [DecidableEq C]

theorem loginCases (proc : D → P) (w : World P D C) (env : Env) (c : C) (self : Client D) {named : Selected} {state : State}
    {userId txnId : Nat} {uidDele : Option Int} (made : w.shared.state.ensure env.time named.maildrop = (state,userId,txnId,uidDele)) :
    let taken := w.shared.fcntl (txnId - 1) ≠ none ∧ w.shared.fcntl (txnId - 1) ≠ some (proc self.pop3d)
    ((txnId ∈ w.shared.txnLocks self.pop3d ∨ taken) ∧ ∃ new : Client D,new.txnId = self.txnId ∧ new.salt = none ∧
        w.login proc env c self named = { w.put c (some new) with shared := { w.shared with state := state } } ∧
        (loginOk proc env w.shared self named).2.2 = .inUse) ∨
      (txnId ∉ w.shared.txnLocks self.pop3d ∧ ¬ taken) ∧ ∃ new : Client D,new.txnId = some txnId ∧ new.salt = none ∧
        new.pop3d = self.pop3d ∧ new.selected = self.selected ∧ new.userId = some userId ∧
        new.uidDele = (uidDele <|> self.uidDele) ∧
        w.login proc env c self named = { w.put c (some new) with
          shared :=
            { state := state
              fcntl := Function.update w.shared.fcntl (txnId - 1) (some (proc new.pop3d))
              txnLocks := Function.update w.shared.txnLocks new.pop3d (txnId :: w.shared.txnLocks new.pop3d) } } ∧
        (loginOk proc env w.shared self named).2.2 = .ok "logged in" := by
  intro taken
  rcases lockCases w.shared (proc self.pop3d) self.pop3d env.time named.maildrop made with ⟨held,locked⟩ | ⟨free,locked⟩
  · refine Or.inl ⟨held,(loginOk proc env w.shared self named).2.1,?_,?_,?_,?_⟩
    all_goals simp only [login,loginOk,locked]
  · refine Or.inr ⟨free,(loginOk proc env w.shared self named).2.1,?_,?_,?_,?_,?_,?_,?_,?_⟩
    all_goals simp only [login,loginOk,locked]

end

end PublicInbox.POP3.World
