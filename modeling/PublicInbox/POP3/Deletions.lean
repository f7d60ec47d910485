import PublicInbox.POP3.Exclusive
import PublicInbox.POP3.Marks

/-! uid_dele over a run. Only QUIT raises it, by the largest UID that its session has marked, and a
login lists what lies above it. -/
namespace PublicInbox.POP3.World
open POP3D
open IMAP (uidSlice uidClamp)

variable {P D C : Type}

def uidDele (w : World P D C) (m : Maildrop) : Int := w.shared.state.uidDele m

section
variable {s : State} (linked : s.Linked) (env : Env) (self : Client D) (userId txnId : Nat)
include linked

theorem quitUidDele {m : Maildrop} {r : Delete} (here : s.Row txnId r m) (m' : Maildrop) :
    (quitState env s self userId txnId).uidDele m' =
      if m' = m then self.txnMaxUid.elim r.uidDele (fun n => max r.uidDele n) else s.uidDele m' := by
  have row := fun k r => quitRow (k := k) (r := r) (m := m') env linked self userId txnId
  cases marked : self.txnMaxUid with
  | none =>
    simp only [marked] at row
    have same : (quitState env s self userId txnId).uidDele m' = s.uidDele m' := by
      apply uidDeleSame
      intro k r saysMore
      rw [row]
      exact and_iff_left fun _ => saysMore
    rw [same]
    split
    · rename_i own
      exact own ▸ here.uidDele
    · rfl
  | some n =>
    simp only [marked] at row
    split
    · rename_i own
      subst own
      rw [((row txnId (raise n r)).mpr ⟨r,here,(if_pos rfl).symm⟩).uidDele]
      simp only [Option.elim_some]
      unfold raise
      split
      · rename_i below
        exact (max_eq_right below.le).symm
      · rename_i above
        exact (max_eq_left (not_lt.mp above)).symm
    · rename_i other
      apply uidDeleSame
      intro k r saysMore
      rw [row]
      constructor
      · rintro ⟨old,there,kept⟩
        rw [if_neg] at kept
        · exact kept ▸ there
        · rintro rfl
          exact other (there.same (by
            obtain ⟨-,-,found,-⟩ := id there
            obtain ⟨-,-,found',-⟩ := id here
            exact Option.some.inj (found'.symm.trans found) ▸ here))
      · intro there
        refine ⟨r,there,(if_neg ?_).symm⟩
        rintro rfl
        obtain ⟨-,-,found,-⟩ := id there
        obtain ⟨-,-,found',-⟩ := id here
        obtain rfl := Option.some.inj (found'.symm.trans found)
        exact other (there.same here)

end

variable [DecidableEq P] [DecidableEq D] [DecidableEq C] {proc : D → P} {w : World P D C} {env : Env} {e : Event P D C}

theorem movesUidDele {w' : World P D C} (moved : Moves proc env w e w') (other : ∀ c,e ≠ .line c .quit)
    (m : Maildrop) : w'.uidDele m = w.uidDele m := by
  cases moved with
  | stay | accept | session | leave | unlock | died => rfl
  | quit live user txn sent => exact absurd sent (other _)
  | @close c self userId txnId live user txn =>
    simp only [World.close,user,txn]
    exact cleanupUidDele _ userId txnId m

omit [DecidableEq C] in
theorem loginState (env : Env) (self : Client D) (named : Selected) :
    (loginOk proc env w.shared self named).1.state = (w.shared.state.ensure env.time named.maildrop).1 := by
  rcases made : w.shared.state.ensure env.time named.maildrop with ⟨state,userId,txnId,uidDele⟩
  rcases lockCases w.shared (proc self.pop3d) self.pop3d env.time named.maildrop made with ⟨-,locked⟩ | ⟨-,locked⟩
  all_goals simp only [loginOk,locked]

theorem performUidDele (inv : Inv proc w) (other : ∀ c,e ≠ .line c .quit) (m : Maildrop) :
    (w.perform proc env e).1.uidDele m = w.uidDele m := by
  rcases tries : w.attempt proc env e with _ | ⟨c,self,named⟩
  · exact movesUidDele (performMoves tries).1 other m
  · rw [(attemptLogin tries).2]
    refine (congrArg (fun s : State => s.uidDele m) (loginState env self named)).trans ?_
    exact ensureUidDele env.time named.maildrop inv.linked m

structure Recorded (P D C : Type) where
  watched : Watched P D C
  history : C → History

def Recorded.start : Recorded P D C := ⟨Watched.start,fun _ => .start⟩

abbrev Recorded.world (v : Recorded P D C) : World P D C := v.watched.world

def note (w : World P D C) (env : Env) (history : C → History) : Event P D C → C → History
  | .accept c _ _ => Function.update history c .start
  | .line c cmd => match w.clients c with
    | some self => Function.update history c ((history c).line (cached env self) cmd)
    | none => history
  | .fetched c _ => match (w.clients c).map fun self => (self,self.inflight) with
    | some (self,req :: _) => Function.update history c ((history c).sent self req)
    | _ => history
  | _ => history

def record (proc : D → P) (v : Recorded P D C) (x : Env × Event P D C) : Recorded P D C :=
  let (_,reply) := v.world.perform proc x.1 x.2
  ⟨watch proc v.watched x,if reply.any Reply.isOk then note v.world x.1 v.history x.2 else v.history⟩

def Untouched (client : Client D) : Prop := client.salt ≠ none → client.cache = none ∧ client.inflight = []

structure Kept (client : Client D) (h : History) : Prop where
  marked : Marked client h
  untouched : Untouched client

omit [DecidableEq D] in
theorem Kept.same {old new : Client D} {h : History} (kept : Kept old h) (cache : new.cache = old.cache)
    (txnMaxUid : new.txnMaxUid = old.txnMaxUid) (expire : new.expire = old.expire) (inflight : new.inflight = old.inflight)
    (salt : new.salt ≠ none → old.salt ≠ none) : Kept new h :=
  ⟨kept.marked.same cache txnMaxUid expire,fun salted => by rw [cache,inflight]; exact kept.untouched (salt salted)⟩

omit [DecidableEq D] in
theorem commandUntouched {self : Client D} (untouched : Untouched self) (cmd : Cmd) : Untouched (command env self cmd).1 := by
  intro salted
  have salt : self.salt ≠ none := (commandKeeps env self cmd).salt ▸ salted
  obtain ⟨text,is⟩ := Option.ne_none_iff_exists'.mp salt
  have refused : needTxn self = some (.err "not in TRANSACTION") := by rw [needTxn,is]; rfl
  obtain ⟨cache,inflight⟩ := untouched salt
  cases cmd with
  | user mailbox =>
    dsimp only [command,cmdUser]
    repeat' split
    all_goals exact ⟨cache,inflight⟩
  | retr msn topNr =>
    cases topNr with
    | none => simpa only [command,refused] using ⟨cache,inflight⟩
    | some lines =>
      simp only [command,refused]
      split <;> exact ⟨cache,inflight⟩
  | noop | capa => exact ⟨cache,inflight⟩
  | stat | list | uidl | rset | dele | pass | apop | quit => simpa only [command,refused] using ⟨cache,inflight⟩

structure Recorded.Sane (proc : D → P) (v : Recorded P D C) : Prop where
  watched : v.watched.Sane proc
  kept : ∀ c self,v.world.clients c = some self → Kept self (v.history c)

omit [DecidableEq C] in
theorem loginKept {self : Client D} {h : History} (kept : Kept self h) (env : Env) (named : Selected) :
    Kept (loginOk proc env w.shared self named).2.1 h := by
  rcases made : w.shared.state.ensure env.time named.maildrop with ⟨state,userId,txnId,uidDele⟩
  rcases lockCases w.shared (proc self.pop3d) self.pop3d env.time named.maildrop made with ⟨-,locked⟩ | ⟨-,locked⟩
  all_goals
    simp only [loginOk,locked]
    exact kept.same rfl rfl rfl rfl fun salted => absurd rfl salted

omit [DecidableEq D] in
theorem userKept {self : Client D} {h : History} (kept : Kept self h) (env : Env) (mailbox : List Char) :
    Kept (cmdUser env self mailbox).1 h :=
  ⟨kept.marked.user env mailbox,commandUntouched kept.untouched (.user mailbox)⟩

omit [DecidableEq C] in
theorem passKept {self : Client D} {h : History} (kept : Kept self h) (env : Env) (pass : List Char) :
    Kept (cmdPass proc env w.shared self pass).2.1 h := by
  unfold cmdPass
  repeat' split
  all_goals first | exact kept | exact loginKept kept env _

omit [DecidableEq C] in
theorem apopKept {self : Client D} {h : History} (kept : Kept self h) (env : Env) (mailbox hex : List Char) :
    Kept (cmdApop proc env w.shared self mailbox hex).2.1 h := by
  have named := userKept kept env mailbox
  unfold cmdApop
  split
  · rename_i user
    rw [user] at named
    repeat' split
    all_goals first | exact named | exact loginKept named env _
  · rename_i user
    rw [user] at named
    exact named

theorem lineKept {c : C} {self new : Client D} {h : History} (kept : Kept self h) (cmd : Cmd)
    (left : (w.line proc env c self cmd).1.clients c = some new) :
    Kept new (if (w.line proc env c self cmd).2.any Reply.isOk then h.line (cached env self) cmd else h) := by
  have own : ∀ x,(w.put c (some x)).clients c = some new → x = new := by
    intro x there
    rw [putClients,if_pos rfl] at there
    exact Option.some.inj there
  have plain : ∀ cmd,(w.put c (some (command env self cmd).1)).clients c = some new →
      Kept new (if (command env self cmd).2.any Reply.isOk then h.line (cached env self) cmd else h) := by
    intro cmd there
    exact own _ there ▸ ⟨kept.marked.command env cmd,commandUntouched kept.untouched cmd⟩
  cases cmd with
  | pass pass =>
    rw [show h.line (cached env self) (.pass pass) = h from rfl,ite_self]
    exact own _ left ▸ passKept kept env pass
  | apop mailbox hex =>
    rw [show h.line (cached env self) (.apop mailbox hex) = h from rfl,ite_self]
    exact own _ left ▸ apopKept kept env mailbox hex
  | quit =>
    exfalso
    simp only [line,World.quit] at left
    split at left
    all_goals simp [put] at left
  | user mailbox => exact plain (.user mailbox) left
  | stat => exact plain .stat left
  | list msn => exact plain (.list msn) left
  | uidl msn => exact plain (.uidl msn) left
  | retr msn topNr => exact plain (.retr msn topNr) left
  | noop => exact plain .noop left
  | rset => exact plain .rset left
  | dele msn => exact plain (.dele msn) left
  | capa => exact plain .capa left

omit [DecidableEq D] in
theorem closeOther {c c' : C} {self : Client D} : (w.close proc c self).clients c' = if c' = c then none else w.clients c' := by
  unfold World.close
  split <;> exact putClients none c'

theorem quitOthers {c c' : C} {self : Client D} : (w.quit proc env c self).clients c' = if c' = c then none else w.clients c' := by
  unfold World.quit
  split <;> exact putClients none c'

theorem lineOther {c c' : C} {self : Client D} (cmd : Cmd) (other : c' ≠ c) :
    (w.line proc env c self cmd).1.clients c' = w.clients c' := by
  have kept : ∀ x : Option (Client D),(w.put c x).clients c' = w.clients c' := fun x => (putClients x c').trans (if_neg other)
  cases cmd with
  | quit => exact quitOthers.trans (if_neg other)
  | pass | apop | user | stat | list | uidl | retr | noop | rset | dele | capa => exact kept _

omit [DecidableEq D] in
theorem freshMarked (d : D) (salt : List Char) : Marked (fresh d salt) .start :=
  ⟨rfl,Nat.zero_le _,fun _ => ⟨[],fun i => ⟨fun mem => (by cases mem),fun mem => (by cases mem)⟩,rfl,.nil⟩⟩

section recording
variable {v : Recorded P D C} (sane : v.Sane proc) {c c' : C} {new : Client D} {w' : World P D C} {reply : Option Reply}
include sane

def Recorded.after (v : Recorded P D C) (env : Env) (e : Event P D C) (reply : Option Reply) : C → History :=
  if reply.any Reply.isOk then note v.world env v.history e else v.history

theorem acceptKept {d : D} {salt : List Char} (performed : v.world.perform proc env (.accept c' d salt) = (w',reply))
    (found : w'.clients c = some new) : Kept new (v.after env (.accept c' d salt) reply c) := by
  simp only [perform] at performed
  split at performed
  · obtain ⟨rfl,rfl⟩ := Prod.mk.inj performed
    change Kept new (Function.update v.history c' .start c)
    rw [putClients] at found
    split at found
    · rename_i own
      subst own
      obtain rfl := Option.some.inj found
      rw [Function.update_self]
      exact ⟨freshMarked d salt,fun _ => ⟨rfl,rfl⟩⟩
    · rename_i other
      rw [Function.update_of_ne other]
      exact sane.kept c new found
  · obtain ⟨rfl,rfl⟩ := Prod.mk.inj performed
    exact sane.kept c new found

theorem turnKept {cmd : Cmd} (performed : v.world.perform proc env (.line c' cmd) = (w',reply))
    (found : w'.clients c = some new) : Kept new (v.after env (.line c' cmd) reply c) := by
  unfold Recorded.after
  cases live : v.world.live proc c' with
  | none =>
    simp only [perform,live] at performed
    obtain ⟨rfl,rfl⟩ := Prod.mk.inj performed
    exact sane.kept c new found
  | some self =>
    have there := (liveClient live).1
    simp only [perform,live] at performed
    by_cases own : c = c'
    · subst own
      have kept := @lineKept _ _ _ _ _ _ proc v.world env c self new _ (sane.kept c self there) cmd
      rw [performed] at kept
      have kept := kept found
      split
      · rename_i ok
        rw [if_pos ok] at kept
        simpa only [note,there,Function.update_self] using kept
      · rename_i bad
        rwa [if_neg bad] at kept
    · have same := @lineOther _ _ _ _ _ _ proc v.world env _ _ self cmd own
      rw [performed] at same
      have idle := sane.kept c new (same.symm.trans found)
      split
      · simp only [note,there]
        rw [Function.update_of_ne own]
        exact idle
      · exact idle

omit [DecidableEq P] [DecidableEq D] [DecidableEq C] in
theorem answerKept {self after : Client D} {req : Req} {later : List Req} {out : Cat} {answer : Option Reply}
    (there : v.world.clients c = some self) (queue : self.inflight = req :: later)
    (made : retrCb { self with inflight := later } req out = some (after,answer)) :
    Kept after (if answer.any Reply.isOk then (v.history c).sent self req else v.history c) := by
  obtain ⟨marked,untouched⟩ := sane.kept c self there
  have salted : self.salt = none := by
    by_contra salt
    have none := (untouched salt).2
    rw [queue] at none
    cases none
  have popped : Marked { self with inflight := later } (v.history c) := marked.same rfl rfl rfl
  exact ⟨popped.sent made,fun salt => absurd ((retrCbKeeps made).1.salt.trans salted) salt⟩

theorem fetchedKept {out : Cat} (performed : v.world.perform proc env (.fetched c' out) = (w',reply))
    (found : w'.clients c = some new) : Kept new (v.after env (.fetched c' out) reply c) := by
  unfold Recorded.after
  cases live : v.world.live proc c' with
  | none =>
    simp only [perform,live] at performed
    obtain ⟨rfl,rfl⟩ := Prod.mk.inj performed
    exact sane.kept c new found
  | some self =>
    have there := (liveClient live).1
    simp only [perform,live] at performed
    cases queue : self.inflight with
    | nil =>
      simp only [queue] at performed
      obtain ⟨rfl,rfl⟩ := Prod.mk.inj performed
      exact sane.kept c new found
    | cons req later =>
      simp only [queue] at performed
      cases made : retrCb { self with inflight := later } req out with
      | none =>
        simp only [made] at performed
        obtain ⟨rfl,rfl⟩ := Prod.mk.inj performed
        rw [closeOther] at found
        split at found
        · cases found
        · exact sane.kept c new found
      | some answer =>
        obtain ⟨after,reply'⟩ := answer
        simp only [made] at performed
        obtain ⟨rfl,rfl⟩ := Prod.mk.inj performed
        simp only [note,there,Option.map_some,queue]
        rw [putClients] at found
        split at found
        · rename_i own
          subst own
          obtain rfl := Option.some.inj found
          have kept := answerKept sane there queue made
          split
          · rename_i ok
            rw [if_pos ok] at kept
            rwa [Function.update_self]
          · rename_i bad
            rwa [if_neg bad] at kept
        · rename_i other
          have idle := sane.kept c new found
          split
          · rwa [Function.update_of_ne other]
          · exact idle

theorem hangupKept (performed : v.world.perform proc env (.hangup c') = (w',reply))
    (found : w'.clients c = some new) : Kept new (v.after env (.hangup c') reply c) := by
  simp only [perform] at performed
  split at performed
  · obtain ⟨rfl,rfl⟩ := Prod.mk.inj performed
    rw [closeOther] at found
    split at found
    · cases found
    · exact sane.kept c new found
  · obtain ⟨rfl,rfl⟩ := Prod.mk.inj performed
    exact sane.kept c new found

theorem recordKept {x : Env × Event P D C} (left : (record proc v x).world.clients c = some new) :
    Kept new ((record proc v x).history c) := by
  obtain ⟨env,e⟩ := x
  suffices all : ∀ w' reply,v.world.perform proc env e = (w',reply) → w'.clients c = some new →
      Kept new (v.after env e reply c) from all _ _ rfl left
  intro w' reply performed found
  cases e with
  | accept c' d salt => exact acceptKept sane performed found
  | line c' cmd => exact turnKept sane performed found
  | fetched c' out => exact fetchedKept sane performed found
  | hangup c' => exact hangupKept sane performed found
  | unlock p =>
    simp only [perform] at performed
    split at performed
    all_goals
      obtain ⟨rfl,rfl⟩ := Prod.mk.inj performed
      exact sane.kept c new found
  | died p =>
    obtain ⟨rfl,rfl⟩ := Prod.mk.inj performed
    exact sane.kept c new (Option.filter_eq_some_iff.mp found).1

end recording

theorem recordSane {v : Recorded P D C} {x : Env × Event P D C} (sane : v.Sane proc) (alone : Alone proc v.world x) :
    (record proc v x).Sane proc := ⟨watchSane sane.watched alone,fun _ _ found => recordKept sane found⟩

def Quits (proc : D → P) (w : World P D C) (c : C) (m : Maildrop) (e : Event P D C) : Prop :=
  e = .line c .quit ∧ ∃ self named,w.live proc c = some self ∧ self.txnId ≠ none ∧ self.selected = some named ∧ named.maildrop = m

def Raises (proc : D → P) (v : Recorded P D C) (x : Env × Event P D C) : Prop :=
  ∀ c m,Quits proc v.world c m x.2 → (record proc v x).world.uidDele m =
    (v.history c).marks.max?.elim (v.world.uidDele m) (fun n => max (v.world.uidDele m) n)

def shows (slice : Int) (uidmax : Nat) (limit : Option Nat) (uid : Nat) : Bool :=
  if 0 ≤ slice then
    let first := slice.toNat * uidSlice
    let last := if uidmax / uidSlice = slice.toNat then uidmax else first + uidSlice
    first < uid && uid ≤ first + uidSlice && limit.all (fun l => last < uid + l)
  else 0 < uid && uidmax < uid + limit.getD 1000

def Fits (slice : Int) (uidmax : Nat) (limit : Option Nat) (uidMax : Nat) : Prop :=
  if 0 ≤ slice then limit = none ∨ uidMax ≤ (slice.toNat + 1) * uidSlice
  else uidMax ≤ uidmax - limit.getD 1000 + uidSlice

theorem clampShows {slice : Int} {uidmax uidMax : Nat} {limit : Option Nat} (fits : Fits slice uidmax limit uidMax) (dele : Int)
    (uid : Nat) : let window := uidClamp (uidBaseOf slice uidmax limit) (dele + 1).toNat uidMax
    (window.1 ≤ uid ∧ uid ≤ window.2) ↔ dele < uid ∧ shows slice uidmax limit uid = true ∧ uid ≤ uidMax := by
  intro window
  have low : window.1 ≤ uid ↔ dele < uid ∧ uidBaseOf slice uidmax limit < uid := by
    rw [show window.1 = Nat.max (dele + 1).toNat (uidBaseOf slice uidmax limit + 1) from rfl,Nat.max_le]
    omega
  have high : uid ≤ window.2 ↔ uid ≤ uidMax ∧ uid ≤ uidBaseOf slice uidmax limit + uidSlice := Nat.le_min
  rw [low,high]
  unfold Fits at fits
  unfold shows
  by_cases numbered : 0 ≤ slice
  · simp only [uidBaseOf,if_pos numbered] at fits ⊢
    cases limit with
    | none =>
      simp only [Option.all_none,Bool.and_true,Bool.and_eq_true,decide_eq_true_eq]
      omega
    | some l =>
      have fits : uidMax ≤ slice.toNat * uidSlice + uidSlice := Nat.succ_mul _ _ ▸ (by simpa using fits)
      simp only [Option.all_some,Bool.and_eq_true,decide_eq_true_eq]
      have unit : uidSlice = 50000 := rfl
      split
      · rename_i latest
        have parts := Nat.div_add_mod' uidmax uidSlice
        rw [latest] at parts
        omega
      · omega
  · simp only [uidBaseOf,if_neg numbered,Bool.and_eq_true,decide_eq_true_eq] at fits ⊢
    omega

/- After a login that was answered +OK, the first command that needs {cache} finds the messages above
uid_dele. -/
def Lists (proc : D → P) (v : Recorded P D C) (x : Env × Event P D C) : Prop :=
  ∀ c self named new,v.world.attempt proc x.1 x.2 = some (c,self,named) → (record proc v x).world.clients c = some new →
    new.txnId ≠ none →
    let limit := limitOf self.limits new.uidDele
    let max := (x.1.over named.ibx).max
    Fits named.slice (self.uidmax.getD 0) limit max → new.cache = none ∧
      ∀ env later,new.Keeps later → later.cache = none → (cached env later).listed =
        ⟨((env.over named.ibx).rows.filter fun r => (record proc v x).world.uidDele named.maildrop < r.1 ∧
          shows named.slice (self.uidmax.getD 0) limit r.1 = true ∧ r.1 ≤ max).map fun r => ⟨r.1,r.2.bytes,r.2.blob⟩,[]⟩

structure Remembers (proc : D → P) (v : Recorded P D C) (x : Env × Event P D C) : Prop where
  grows : ∀ m,v.world.uidDele m ≤ (record proc v x).world.uidDele m
  raises : (∀ c,(v.history c).spoilt = true → x.2 ≠ .line c .quit) → Raises proc v x
  others : ∀ m,(∀ c,¬ Quits proc v.world c m x.2) → (record proc v x).world.uidDele m = v.world.uidDele m
  lists : Lists proc v x

variable {v : Recorded P D C} {x : Env × Event P D C}

theorem quitsUidDele (sane : v.Sane proc) {c : C} {m : Maildrop} (quits : Quits proc v.world c m x.2) :
    ∃ self,v.world.clients c = some self ∧ ∀ m',(record proc v x).world.uidDele m' =
      if m' = m then (expired x.1 self).txnMaxUid.elim (v.world.uidDele m) (fun n => max (v.world.uidDele m) n)
      else v.world.uidDele m' := by
  obtain ⟨env,e⟩ := x
  obtain ⟨rfl,self,named,live,logged,selected,rfl⟩ := quits
  obtain ⟨found,-⟩ := liveClient live
  obtain ⟨txnId,txn⟩ := Option.ne_none_iff_exists'.mp logged
  obtain ⟨named',r,selected',user,row,-⟩ := (sane.watched.inv.held c self txnId found txn).row
  obtain rfl := Option.some.inj (selected.symm.trans selected')
  refine ⟨self,found,fun m' => ?_⟩
  have world : (record proc v (env,.line c .quit)).world = v.world.quit proc env c self := by
    simp only [record,watch,perform,live,line]
  rw [world]
  simp only [World.quit,user,txn]
  refine (quitUidDele sane.watched.inv.linked env (expired env self) r.userId txnId row m').trans ?_
  rw [show v.world.uidDele named.maildrop = r.uidDele from row.uidDele]
  rfl

theorem leavesUidDele {c : C} (sane : v.Sane proc) (sent : x.2 = .line c .quit) {m : Maildrop} (other : ∀ c,¬ Quits proc v.world c m x.2) :
    (record proc v x).world.uidDele m = v.world.uidDele m := by
  cases live : v.world.live proc c with
  | none => simp only [record,watch,perform,sent,live]
  | some self =>
    have world : (record proc v x).world = v.world.quit proc x.1 c self := by simp only [record,watch,perform,sent,live,line]
    cases txn : self.txnId with
    | none =>
      rw [world]
      simp only [World.quit,txn]
      split
      · rename_i none
        cases none
      · rfl
    | some txnId =>
      obtain ⟨named,-,selected,-⟩ := (sane.watched.inv.held c self txnId (liveClient live).1 txn).row
      have quits : Quits proc v.world c named.maildrop x.2 := ⟨sent,self,named,live,by simp [txn],selected,rfl⟩
      obtain ⟨_,_,after⟩ := quitsUidDele sane quits
      rw [after m,if_neg]
      rintro rfl
      exact other c quits

omit [DecidableEq P] [DecidableEq D] [DecidableEq C] in
theorem attemptUntouched (kept : ∀ c self,w.clients c = some self → Untouched self) {c : C} {self : Client D} {named : Selected}
    (tries : w.attempt proc env e = some (c,self,named)) : self.cache = none := by
  unfold attempt at tries
  split at tries
  · simp only [bind,Option.bind_eq_some_iff] at tries
    obtain ⟨old,live,named',-,tries⟩ := tries
    split at tries
    · rename_i right
      cases tries
      exact (kept _ _ (liveClient live).1 right.1).1
    · cases tries
  · rename_i c' mailbox hex
    simp only [bind,Option.bind_eq_some_iff] at tries
    obtain ⟨old,live,tries⟩ := tries
    have untouched : Untouched (cmdUser env old mailbox).1 :=
      commandUntouched (kept _ _ (liveClient live).1) (.user mailbox)
    split at tries
    · rename_i self' text user
      rw [user] at untouched
      simp only [Option.bind_eq_some_iff] at tries
      obtain ⟨_,-,salt,salted,tries⟩ := tries
      split at tries
      · cases tries
        exact (untouched (by simp [salted])).1
      · cases tries
    · cases tries
  · cases tries

theorem listsAbove (sane : v.Sane proc) : Lists proc v x := by
  intro c self named new tries found logged limit max fits
  obtain ⟨old,there,-,keeps,salted,out,selected⟩ := attemptClient sane.watched.inv tries
  have unset : self.uidDele = none :=
    keeps.uidDele.trans ((sane.watched.told c old there).before salted).1
  have untouched : self.cache = none := attemptUntouched (fun c self found => (sane.kept c self found).untouched) tries
  have world : (record proc v x).world = v.world.login proc x.1 c self named := (loginRefused tries).1
  have made : new = (loginOk proc x.1 v.world.shared self named).2.1 := by
    rw [world] at found
    exact (Option.some.inj ((if_pos rfl).symm.trans ((putClients _ c).symm.trans found))).symm
  obtain ⟨r,row,-,mark⟩ := ensureRow v.world.shared.state x.1.time named.maildrop
  have floor : (record proc v x).world.uidDele named.maildrop = r.uidDele := by
    rw [world]
    exact (congrArg (fun s : State => s.uidDele named.maildrop) (loginState x.1 self named)).trans row.uidDele
  rcases ensured : v.world.shared.state.ensure x.1.time named.maildrop with ⟨state,userId,txnId,uidDele⟩
  rw [ensured] at mark
  rcases lockCases v.world.shared (proc self.pop3d) self.pop3d x.1.time named.maildrop ensured with ⟨-,locked⟩ | ⟨-,locked⟩
  · simp only [loginOk,locked] at made
    rw [made] at logged
    exact absurd out logged
  · simp only [loginOk,locked,unset] at made
    have salt : new.salt = none := by rw [made]
    have own : new.uidDele.getD (-1) = r.uidDele := by
      rw [made,← mark]
      cases uidDele <;> rfl
    have base : new.uidBase = some (uidBaseOf named.slice (self.uidmax.getD 0) limit) := by
      dsimp only [limit]
      rw [made]
    refine ⟨by rw [made]; exact untouched,fun env later kept none => ?_⟩
    have here : later.selected = some named := (kept.selected salt).trans (by rw [made]; exact selected)
    have uidMax : later.uidMax = some max := kept.uidMax.trans (by rw [made])
    rw [cached,if_pos none]
    simp only [statCache,Client.listed,Option.getD_some,here,uidMax,kept.uidDele,kept.uidBase,base,own,floor]
    congr 2
    refine List.filter_congr fun row _ => ?_
    exact decide_eq_decide.mpr (clampShows fits r.uidDele row.1)

theorem remembers (sane : v.Sane proc) : Remembers proc v x := by
  have others : ∀ m,(∀ c,¬ Quits proc v.world c m x.2) → (record proc v x).world.uidDele m = v.world.uidDele m := by
    intro m other
    by_cases sent : ∃ c,x.2 = .line c .quit
    · obtain ⟨c,sent⟩ := sent
      exact leavesUidDele sane sent other
    · exact performUidDele sane.watched.inv (fun c same => sent ⟨c,same⟩) m
  refine ⟨fun m => ?_,fun fine c m quits => ?_,others,listsAbove sane⟩
  · by_cases quits : ∃ c,Quits proc v.world c m x.2
    · obtain ⟨c,quits⟩ := quits
      obtain ⟨self,-,after⟩ := quitsUidDele sane quits
      rw [after m,if_pos rfl]
      cases (expired x.1 self).txnMaxUid with
      | none => exact le_rfl
      | some n => exact le_max_left _ _
    · exact (others m fun c here => quits ⟨c,here⟩).ge
  · obtain ⟨self,found,after⟩ := quitsUidDele sane quits
    have sound : (v.history c).spoilt = false := by
      by_contra spoilt
      exact fine c (by simpa using spoilt) quits.1
    rw [after m,if_pos rfl,(sane.kept c self found).marked.expired sound x.1]

def session (env : Env) (mailbox : List Char) (events : List (Event Unit Unit Unit)) : List (Env × Event Unit Unit Unit) :=
  ([Event.accept () () [],.line () (.user mailbox),.line () (.pass "anonymous".toList)] ++ events).map fun e => (env,e)

def played (env : Env) (mailbox : List Char) (events : List (Event Unit Unit Unit)) : Recorded Unit Unit Unit :=
  (session env mailbox events).foldl (record fun _ => ()) Recorded.start

def ofA : Maildrop := ⟨List.replicate 32 'a',['g'],-1⟩

def twoSlices : Env :=
  { threeMessages with
    numHighwater := fun _ => some 50001
    «over» := fun _ => ⟨[(50000,⟨10,"a"⟩),(50001,⟨10,"b"⟩)],by decide⟩ }

def retrieve : List (Event Unit Unit Unit) := [.line () .capa,.line () (.retr (some ['1']) none),.fetched () .blob]

def resetThenStat : List (Event Unit Unit Unit) := retrieve ++ [.line () .rset,.line () .stat]

def announcedTwice : List (Event Unit Unit Unit) := retrieve ++ [.line () .capa]

def retrieveZero : List (Event Unit Unit Unit) := [.line () .capa,.line () (.retr (some ['0']) none),.fetched () .blob]

def retrieveWide : List (Event Unit Unit Unit) :=
  [.line () .capa,.line () (.retr (some "99999999999999999999".toList) none),.fetched () .blob]

def deleWide : List (Event Unit Unit Unit) := [.line () (.dele (some "99999999999999999999".toList))]

def rowGone : List (Env × Event Unit Bool Nat) :=
  bothNamed false true ++ secondLogin :: [.hangup 0,.unlock (),.line 1 (.dele (some ['1']))].map fun e => (threeMessages,e)

end PublicInbox.POP3.World
