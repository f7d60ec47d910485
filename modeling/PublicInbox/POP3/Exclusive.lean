import PublicInbox.Library.Stepwise
import PublicInbox.POP3.Locks

/-! Runs of the sessions of all workers. A session whose login was answered -ERR [IN-USE] has no
{salt} any more, so that need_txn lets it pass. -/
namespace PublicInbox.POP3.World
open POP3D

variable {P D C : Type} [DecidableEq P] [DecidableEq D] [DecidableEq C]

structure Watched (P D C : Type) where
  world : World P D C
  refused : C → Bool

def Watched.start : Watched P D C := ⟨World.start,fun _ => false⟩

section
variable (proc : D → P)

def watch (v : Watched P D C) (x : Env × Event P D C) : Watched P D C :=
  let (world,reply) := v.world.perform proc x.1 x.2
  ⟨world,fun c => (world.clients c).isSome && (v.refused c || (reply == some .inUse && x.2.session == some c))⟩

def Meets (v : Watched P D C) (x : Env × Event P D C) : Prop :=
  (watch proc v x).world.Exclusive ∧ ∀ c,v.world.Runs proc c x.2 → v.world.Holds proc c

def Alone (w : World P D C) (x : Env × Event P D C) : Prop :=
  ∀ c self named,w.attempt proc x.1 x.2 = some (c,self,named) → ¬ w.Beside proc self.pop3d named.maildrop

def Allowed (v : Watched P D C) (x : Env × Event P D C) : Prop :=
  Alone proc v.world x ∧ ∀ c,v.world.Runs proc c x.2 → v.refused c = false

end

variable {proc : D → P} {w : World P D C} {env : Env} {e : Event P D C}

theorem attemptClient {c : C} {self : Client D} {named : Selected} (inv : Inv proc w)
    (tries : w.attempt proc env e = some (c,self,named)) : ∃ old,w.clients c = some old ∧ w.unlocking (proc self.pop3d) = none ∧
      old.Keeps self ∧ old.salt ≠ none ∧ self.txnId = none ∧ self.selected = some named := by
  obtain ⟨⟨old,live,keeps,salted,selected⟩,-⟩ := attemptLogin tries
  obtain ⟨found,idle⟩ := liveClient live
  have salt : old.salt ≠ none := keeps.salt ▸ salted
  refine ⟨old,found,keeps.pop3d ▸ idle,keeps,salt,?_,selected⟩
  rw [keeps.txnId]
  by_contra txn
  obtain ⟨txnId,has⟩ := Option.ne_none_iff_exists'.mp txn
  exact salt (inv.held c old txnId found has).salt

omit [DecidableEq D] [DecidableEq C] in
theorem besideOf (inv : Inv proc w) {d : D} {m : Maildrop} {txnId : Nat} {r : Delete} {state : State}
    (row : ∀ k r m,w.shared.state.Row k r m → state.Row k r m) (here : state.Row txnId r m)
    (free : txnId ∉ w.shared.txnLocks d ∧ ¬ (w.shared.fcntl (txnId - 1) ≠ none ∧ w.shared.fcntl (txnId - 1) ≠ some (proc d)))
    {c : C} {other : Client D} (found : w.clients c = some other) (txn : other.txnId = some txnId) : w.Beside proc d m := by
  have held := inv.held c other txnId found txn
  obtain ⟨named,r',selected,-,row',-⟩ := held.row
  have name : named.maildrop = m := by
    have there := row _ _ _ row'
    obtain ⟨-,-,one,-⟩ := id there
    obtain ⟨-,-,two,-⟩ := id here
    obtain rfl := Option.some.inj (one.symm.trans two)
    exact there.same here
  refine ⟨c,other,found,by simp [txn],by simp [selected,name],?_,?_⟩
  · by_contra differ
    exact free.2 (by simp [held.locked,differ])
  · rintro rfl
    exact free.1 held.listed

theorem loginInv (inv : Inv proc w) (unset : ∀ c self,w.clients c = some self → self.salt ≠ none → self.uidDele = none) {c : C} {self : Client D} {named : Selected}
    (tries : w.attempt proc env e = some (c,self,named)) (alone : ¬ w.Beside proc self.pop3d named.maildrop) :
    Inv proc (w.login proc env c self named) := by
  obtain ⟨old,found,idle,keeps,salted,out,selected⟩ := attemptClient inv tries
  have oldOut : old.txnId = none := keeps.txnId.symm.trans out
  rcases made : w.shared.state.ensure env.time named.maildrop with ⟨state,userId,txnId,uidDele⟩
  have linked := ensureLinked env.time named.maildrop inv.linked
  have more : ∀ k r m,w.shared.state.Row k r m → state.Row k r m := by
    intro k r m row
    obtain ⟨-,-,there,-⟩ := id row
    have kept := row.extend (ensureExtends _ env.time named.maildrop) rfl ((ensureDeletes _ env.time named.maildrop).1 there)
    rwa [made] at kept
  obtain ⟨r,row,user,mark⟩ := ensureRow w.shared.state env.time named.maildrop
  rw [made] at linked row user mark
  have written := inv.restate linked more
  rcases loginCases proc w env c self made with ⟨-,new,txn,salt,world,-⟩ | ⟨free,new,txn,salt,pop3d,same,newUser,dele,world,-⟩
  · rw [world]
    refine written.put (fun new' txnId' here has => ?_) fun old' txnId' there has => ?_
    · obtain rfl := Option.some.inj here
      rw [txn,out] at has
      cases has
    · obtain rfl := Option.some.inj (found.symm.trans there)
      rw [oldOut] at has
      cases has
  · rw [world]
    have first : self.uidDele = none := keeps.uidDele.trans (unset c old found salted)
    refine written.locks found oldOut txn salt ⟨named,r,same.trans selected,newUser.trans (congrArg some user.symm),row,?_⟩ ?_ ?_
    · rw [dele,← mark,first]
      cases uidDele <;> rfl
    · intro c' other there has
      exact alone (besideOf inv more row free there has)
    · intro p d pending
      have byte := (inv.pending p d txnId pending).1
      refine free.2 ⟨by simp [byte],?_⟩
      rw [byte]
      intro here
      rw [Option.some.inj here,idle] at pending
      cases pending

theorem movesClients {w' : World P D C} (moved : Moves proc env w e w') {c : C} {new : Client D} (found : w'.clients c = some new) :
    (∃ old,w.clients c = some old ∧ old.Keeps new) ∨
      (w.clients c = none ∧ new.salt ≠ none ∧ new.txnId = none ∧ new.uidDele = none) := by
  have put : ∀ {c' : C} {x},(w.put c' x).clients c = some new → w.clients c = some new ∨ (c = c' ∧ x = some new) := by
    intro c' x there
    rw [putClients] at there
    split at there
    · exact Or.inr ⟨‹_›,there⟩
    · exact Or.inl there
  have stays : w.clients c = some new → ∃ old,w.clients c = some old ∧ old.Keeps new := fun there => ⟨new,there,.refl new⟩
  cases moved with
  | stay | unlock => exact Or.inl (stays found)
  | accept salt free idle =>
    rcases put found with there | ⟨rfl,made⟩
    · exact Or.inl (stays there)
    · cases made
      exact Or.inr ⟨free,by simp [fresh],rfl,rfl⟩
  | session live keeps =>
    rcases put found with there | ⟨rfl,made⟩
    · exact Or.inl (stays there)
    · cases made
      exact Or.inl ⟨_,(liveClient live).1,keeps⟩
  | leave =>
    rcases put found with there | ⟨-,made⟩
    · exact Or.inl (stays there)
    · cases made
  | quit live user txn =>
    simp only [World.quit,user,txn] at found
    rcases put found with there | ⟨-,made⟩
    · exact Or.inl (stays there)
    · cases made
  | close live user txn =>
    simp only [World.close,user,txn] at found
    rcases put found with there | ⟨-,made⟩
    · exact Or.inl (stays there)
    · cases made
  | died p => exact Or.inl (stays (Option.filter_eq_some_iff.mp found).1)

structure Told (client : Client D) (refused : Bool) : Prop where
  before : client.salt ≠ none → client.uidDele = none ∧ client.txnId = none ∧ refused = false
  after : client.salt = none → (client.txnId = none ↔ refused = true)

omit [DecidableEq D] in
theorem Told.keeps {old new : Client D} {refused : Bool} (told : Told old refused) (keeps : old.Keeps new) : Told new refused := by
  refine ⟨fun salt => ?_,fun none => ?_⟩
  · rw [keeps.uidDele,keeps.txnId]
    exact told.before (keeps.salt ▸ salt)
  · rw [keeps.txnId]
    exact told.after (keeps.salt.symm.trans none)

structure Watched.Sane (proc : D → P) (v : Watched P D C) : Prop where
  inv : Inv proc v.world
  told : ∀ c self,v.world.clients c = some self → Told self (v.refused c)
  known : ∀ c,v.refused c = true → v.world.clients c ≠ none

omit [DecidableEq P] [DecidableEq D] [DecidableEq C] in
theorem startSane : (Watched.start : Watched P D C).Sane proc where
  inv :=
    { linked := fun k r found => by cases found
      held := fun c self txnId found => by cases found
      one := fun c c' self other txnId found => by cases found
      listed := fun d txnId mem => by cases mem
      pending := fun p d txnId pending => by cases pending }
  told := fun c self found => by cases found
  known := fun c refused => by cases refused

variable {v : Watched P D C} {x : Env × Event P D C}

omit [DecidableEq P] [DecidableEq D] [DecidableEq C] in
theorem attemptSession {c : C} {self : Client D} {named : Selected} (tries : w.attempt proc env e = some (c,self,named)) :
    e.session = some c := by
  unfold attempt at tries
  split at tries
  · simp only [bind,Option.bind_eq_some_iff] at tries
    obtain ⟨_,-,_,-,tries⟩ := tries
    split at tries <;> cases tries
    rfl
  · simp only [bind,Option.bind_eq_some_iff] at tries
    obtain ⟨_,-,tries⟩ := tries
    split at tries
    · simp only [Option.bind_eq_some_iff] at tries
      obtain ⟨_,-,_,-,tries⟩ := tries
      split at tries <;> cases tries
      rfl
    · cases tries
  · cases tries

theorem loginRefused {c : C} {self : Client D} {named : Selected} (tries : v.world.attempt proc x.1 x.2 = some (c,self,named)) :
    (watch proc v x).world = v.world.login proc x.1 c self named ∧
      ∀ c' new,(watch proc v x).world.clients c' = some new → (watch proc v x).refused c' =
        (v.refused c' || ((loginOk proc x.1 v.world.shared self named).2.2 == .inUse && c == c')) := by
  obtain ⟨-,performed⟩ := attemptLogin tries
  have world : (watch proc v x).world = v.world.login proc x.1 c self named := by simp only [watch,performed]
  refine ⟨world,fun c' new found => ?_⟩
  rw [world] at found
  simp only [watch,performed,found,Option.isSome_some,Bool.true_and,attemptSession tries]
  rfl

omit [DecidableEq P] [DecidableEq D] in
theorem loginClients {c c' : C} {y new : Client D} {s : Shared P D}
    (found : ({ w.put c (some y) with shared := s } : World P D C).clients c' = some new) :
    if c' = c then new = y else w.clients c' = some new := by
  have there := (putClients (w := w) (some y) c').symm.trans found
  split at there
  · rename_i own
    rw [if_pos own]
    exact (Option.some.inj there).symm
  · rename_i other
    rwa [if_neg other]

theorem watchInv (sane : v.Sane proc) (alone : Alone proc v.world x) : Inv proc (watch proc v x).world := by
  rcases tries : v.world.attempt proc x.1 x.2 with _ | ⟨c,self,named⟩
  · exact sane.inv.moves (performMoves tries).1
  · rw [(loginRefused tries).1]
    exact loginInv sane.inv (fun c self found salt => ((sane.told c self found).before salt).1) tries (alone c self named tries)

theorem watchSane (sane : v.Sane proc) (alone : Alone proc v.world x) : (watch proc v x).Sane proc := by
  refine ⟨watchInv sane alone,fun c' new there => ?_,fun c refused => ?_⟩
  rotate_left
  · simp only [watch,Bool.and_eq_true] at refused ⊢
    exact Option.isSome_iff_ne_none.mp refused.1
  rcases tries : v.world.attempt proc x.1 x.2 with _ | ⟨c,self,named⟩
  · obtain ⟨moved,quiet⟩ := performMoves tries
    have same : (watch proc v x).refused c' = v.refused c' := by
      simp only [watch] at there ⊢
      rw [there]
      simp [quiet]
    rw [same]
    rcases movesClients moved there with ⟨old,found,keeps⟩ | ⟨free,salt,txn,dele⟩
    · exact (sane.told c' old found).keeps keeps
    · refine ⟨fun _ => ⟨dele,txn,?_⟩,fun none => absurd none salt⟩
      by_contra refused
      exact sane.known c' (by simpa using refused) free
  · obtain ⟨world,refused⟩ := loginRefused tries
    obtain ⟨old,found,-,-,salt,out,-⟩ := attemptClient sane.inv tries
    have fresh := ((sane.told c old found).before salt).2.2
    rw [refused c' new there]
    rw [world] at there
    rcases made : v.world.shared.state.ensure x.1.time named.maildrop with ⟨state,userId,txnId,uidDele⟩
    rcases loginCases proc v.world x.1 c self made with ⟨-,y,txn,none,after,reply⟩ | ⟨-,y,txn,none,-,-,-,-,after,reply⟩
    all_goals
      rw [after] at there
      have which := loginClients there
      rw [reply]
      split at which
    · rename_i own
      subst own which
      exact ⟨fun salt => absurd none salt,fun _ => by simp [txn,out]⟩
    · rename_i other
      rw [beq_false_of_ne (Ne.symm other),Bool.and_false,Bool.or_false]
      exact sane.told c' new which
    · rename_i own
      subst own which
      rw [fresh]
      exact ⟨fun salt => absurd none salt,fun _ => by simp [txn]⟩
    · rename_i other
      rw [beq_false_of_ne (Ne.symm other),Bool.and_false,Bool.or_false]
      exact sane.told c' new which

theorem besideShares (sane : v.Sane proc) {c : C} {self : Client D} {named : Selected}
    (tries : v.world.attempt proc x.1 x.2 = some (c,self,named)) (beside : v.world.Beside proc self.pop3d named.maildrop) :
    ¬ (watch proc v x).world.Exclusive := by
  intro exclusive
  obtain ⟨old,found,idle,keeps,salt,out,selected⟩ := attemptClient sane.inv tries
  obtain ⟨c',other,found',has,name,process,listener⟩ := beside
  obtain ⟨txnId',txn'⟩ := Option.ne_none_iff_exists'.mp has
  have held := sane.inv.held c' other txnId' found' txn'
  obtain ⟨named',r',selected',-,row',-⟩ := held.row
  have same : named'.maildrop = named.maildrop := by simpa [selected'] using name
  rcases made : v.world.shared.state.ensure x.1.time named.maildrop with ⟨state,userId,txnId,uidDele⟩
  obtain ⟨r,row,-⟩ := ensureRow v.world.shared.state x.1.time named.maildrop
  obtain ⟨-,-,there,-⟩ := id row'
  have kept := (same ▸ row').extend (ensureExtends _ x.1.time named.maildrop) rfl ((ensureDeletes _ x.1.time named.maildrop).1 there)
  rw [made] at row kept
  obtain ⟨rfl,-⟩ := kept.unique row
  have free : txnId' ∉ v.world.shared.txnLocks self.pop3d := by
    intro mem
    rcases sane.inv.listed self.pop3d txnId' mem with ⟨c'',third,found'',pop3d,txn''⟩ | pending
    · obtain rfl := sane.inv.one c'' c' third other txnId' found'' found' txn'' txn'
      obtain rfl := Option.some.inj (found''.symm.trans found')
      exact listener pop3d
    · rw [idle] at pending
      cases pending
  rcases loginCases proc v.world x.1 c self made with ⟨held' | taken,-⟩ | ⟨-,new,txn,-,-,sameNamed,-,-,after,-⟩
  · exact free held'
  · exact taken.2 (process ▸ held.locked)
  · have world := (loginRefused tries).1.trans after
    have differ : c' ≠ c := by
      rintro rfl
      obtain rfl := Option.some.inj (found.symm.trans found')
      rw [← keeps.txnId,out] at txn'
      cases txn'
    have first : (watch proc v x).world.clients c = some new := by
      rw [world]
      exact (putClients _ _).trans (if_pos rfl)
    have second : (watch proc v x).world.clients c' = some other := by
      rw [world]
      exact (putClients _ _).trans ((if_neg differ).trans found')
    refine differ (exclusive c' c ⟨other,second,has⟩ ⟨new,first,by simp [txn]⟩ ?_)
    simp [maildrop,first,second,sameNamed,selected,selected',same]

theorem exclusiveIff (sane : v.Sane proc) : (watch proc v x).world.Exclusive ↔ Alone proc v.world x :=
  ⟨fun exclusive _ _ _ tries beside => besideShares sane tries beside exclusive,fun alone => (watchInv sane alone).exclusive⟩

omit [DecidableEq P] [DecidableEq D] [DecidableEq C] in
theorem guardedIff (sane : v.Sane proc) {c : C} (runs : v.world.Runs proc c x.2) :
    v.world.Holds proc c ↔ v.refused c = false := by
  obtain ⟨env,e⟩ := x
  cases e with
  | line c' cmd =>
    obtain ⟨rfl,-,self,live,passes⟩ := runs
    obtain ⟨found,-⟩ := liveClient live
    have salt : self.salt = none := Option.map_eq_none_iff.mp passes
    have told := (sane.told c' self found).after salt
    constructor
    · rintro ⟨self',txnId,there,txn,-⟩
      obtain rfl := Option.some.inj (found.symm.trans there)
      rw [txn] at told
      simpa using told
    · intro fine
      have txn : self.txnId ≠ none := fun none => by rw [told.mp none] at fine; cases fine
      obtain ⟨txnId,has⟩ := Option.ne_none_iff_exists'.mp txn
      have held := sane.inv.held c' self txnId found has
      exact ⟨self,txnId,found,has,held.listed,held.locked⟩
  | accept | fetched | hangup | unlock | died => cases runs

/- The maildrops of a run are exclusive and its guarded commands have their locks if and only if
no session logs in beside another one of its process, through another listener, and none that was
refused goes on. -/
theorem maildropsExclusive (xs : List (Env × Event P D C)) : Stepwise.Along (watch proc) (Meets proc) Watched.start xs ↔
    Stepwise.Along (watch proc) (Allowed proc) Watched.start xs := by
  have same : ∀ (v : Watched P D C) x,v.Sane proc → (Allowed proc v x ↔ Meets proc v x) := by
    intro v x sane
    exact and_congr (exclusiveIff sane).symm (forall_congr' fun c => forall_congr' fun runs => (guardedIff sane runs).symm)
  exact (Stepwise.alongIff (fun v : Watched P D C => v.Sane proc) same (fun v x sane allowed => watchSane sane allowed.1) startSane).symm

def threeMessages : Env where
  lookupNewsgroup := fun ng => if ng = ['g'] then some ⟨['g'],['d']⟩ else none
  numHighwater := fun _ => some 3
  «over» := fun _ => ⟨[(1,⟨10,"a"⟩),(2,⟨10,"b"⟩),(3,⟨10,"c"⟩)],by decide⟩
  apop := fun _ _ => false
  stls := false
  time := 0

def latestOf (uuid : Char) : List Char := List.replicate 32 uuid ++ ['@','g']

def bothNamed {D : Type} (d d' : D) : List (Env × Event Unit D Nat) :=
  [.accept 0 d [],.accept 1 d' [],.line 0 (.user (latestOf 'a')),.line 1 (.user (latestOf 'a')),
    .line 0 (.pass "anonymous".toList)].map fun e => (threeMessages,e)

def secondLogin {D : Type} : Env × Event Unit D Nat := (threeMessages,.line 1 (.pass "anonymous".toList))

/- The second one comes in through another listener of the process and gets the lock, or through
the same, is refused, and has its STAT answered. -/
theorem lockGivenTwice :
    (¬ ∀ xs : List (Env × Event Unit Bool Nat),Stepwise.Along (watch fun _ => ()) (Meets fun _ => ()) Watched.start xs) ∧
      ¬ ∀ xs : List (Env × Event Unit Unit Nat),Stepwise.Along (watch fun _ => ()) (Meets fun _ => ()) Watched.start xs := by
  refine ⟨fun all => ?_,fun all => ?_⟩
  · obtain ⟨⟨exclusive,-⟩,-⟩ := (Stepwise.alongAppend.mp (all (bothNamed false true ++ [secondLogin]))).2
    have logged : ∀ c ∈ [0,1],
        (watch (fun _ => ()) ((bothNamed false true).foldl (watch fun _ => ()) Watched.start) secondLogin).world.LoggedIn c := by
      intro c mem
      obtain ⟨self,found,txn⟩ := Option.map_eq_some_iff.mp ((by decide : ∀ c ∈ [0,1],((watch (fun _ => ())
        ((bothNamed false true).foldl (watch fun _ => ()) Watched.start) secondLogin).world.clients c).map Client.txnId = some (some 1)) c mem)
      exact ⟨self,found,by simp [txn]⟩
    exact absurd (exclusive 0 1 (logged 0 (by simp)) (logged 1 (by simp)) (by decide)) (by decide)
  · obtain ⟨⟨-,guarded⟩,-⟩ := (Stepwise.alongAppend.mp (all ((bothNamed () () ++ [secondLogin]) ++ [(threeMessages,.line 1 .stat)]))).2
    have fields : (((bothNamed () () ++ [secondLogin]).foldl (watch fun _ => ()) Watched.start).world.live (fun _ => ()) 1).map
        (fun self : Client Unit => (self.salt,self.txnId)) = some (none,none) := by decide
    obtain ⟨self,live,unlocked⟩ := Option.map_eq_some_iff.mp fields
    obtain ⟨salt,txn⟩ := Prod.mk.inj unlocked
    obtain ⟨self',txnId,found,has,-⟩ := guarded 1 ⟨rfl,rfl,self,live,by rw [needTxn,salt]; rfl⟩
    obtain rfl := Option.some.inj ((liveClient live).1.symm.trans found)
    rw [txn] at has
    cases has

end PublicInbox.POP3.World
