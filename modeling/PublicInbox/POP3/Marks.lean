import PublicInbox.POP3.Sessions
import Mathlib.Data.List.Forall2
import Mathlib.Data.List.Perm.Subperm

/-! The messages that a session has marked as deleted, by the answers its client got. In the code
they are {txn_max_uid} for DELE and the offsets of {expire} for RETR, which are looked up in {cache}
at QUIT. -/
namespace PublicInbox.POP3
open IMAP (uidSlice)

/- `spoilt` is true once RSET or another CAPA came after a RETR that counts, or such a RETR or a DELE had a
message number below 1 or so large that it wraps. -/
structure History where
  announced : Bool
  deleted : List Nat
  retrieved : List Nat
  spoilt : Bool
  deriving DecidableEq

def Wide (off : Int) : Prop := 2 ^ 63 ≤ off * 3 + 2

instance (off : Int) : Decidable (Wide off) := inferInstanceAs (Decidable (2 ^ 63 ≤ off * 3 + 2))

namespace History
variable {D : Type}

def start : History := ⟨false,[],[],false⟩

def marks (h : History) : List Nat := h.deleted ++ h.retrieved

def line (h : History) (self : Client D) : Cmd → History
  | .dele msn =>
    let off := Decimal.value (msn.getD []) - 1
    if Wide off then { h with spoilt := true }
    else match self.listed.at? off 0 with
      | some (m,_) => { h with deleted := h.deleted ++ [m.num] }
      | none => h
  | .rset => { h with deleted := [], retrieved := [], spoilt := h.spoilt || !h.retrieved.isEmpty }
  | .capa => { h with announced := true, spoilt := h.spoilt || !h.retrieved.isEmpty }
  | _ => h

def sent (h : History) (self : Client D) (req : Req) : History :=
  if req.topNr = none ∧ h.announced = true then match self.listed.at? req.off 2 with
    | some (m,_) => { h with
        retrieved := h.retrieved ++ [m.num]
        spoilt := h.spoilt || decide (req.off < 0 ∨ Wide req.off) }
    | none => h
  else h

end History

def Reply.isOk : Reply → Bool
  | ok _ => true
  | _ => false

variable {D : Type}

namespace Cache

theorem placeSmall (cache : Cache) {off col : Nat} (small : ¬ Wide off) (inside : col < 3) :
    cache.place off col = some (3 * off + col) := by
  unfold Wide at small
  rw [place,show (off : Int) * 3 + col = (3 * off + col : Nat) by omega,Subscript.wordSmall (by omega),Subscript.indexNat]

theorem atSmall (cache : Cache) {off col : Nat} (small : ¬ Wide off) (inside : col < 3) :
    cache.at? off col = if 3 * off + col ∈ cache.undef then none else cache.rows[off]?.map fun m => (m,col) := by
  rw [at?,placeSmall cache small inside,Option.bind_some,cell]
  rw [show (3 * off + col) / 3 = off by omega,show (3 * off + col) % 3 = col by omega]

end Cache

namespace Cache

def Whole (cache : Cache) (marks : List Nat) : Prop := ∀ i,i ∈ cache.undef ↔ i / 3 ∈ marks

theorem Whole.at {cache : Cache} {marks : List Nat} (whole : cache.Whole marks) {off col : Nat} (small : ¬ Wide off)
    (inside : col < 3) : cache.at? off col = if off ∈ marks then none else cache.rows[off]?.map fun m => (m,col) := by
  have hole := whole (3 * off + col)
  rw [show (3 * off + col) / 3 = off by omega] at hole
  rw [atSmall cache small inside]
  exact if_congr hole rfl rfl

end Cache

theorem pageSmall {off : Nat} (few : off ≤ 65535) : ¬ Wide off := by
  unfold Wide
  omega

structure Deletes (old new : Client D) (off uid : Nat) (marks : List Nat) : Prop where
  rows : new.listed.rows = old.listed.rows
  whole : new.listed.Whole (marks ++ [off])
  cache : new.cache ≠ none
  txnMaxUid : new.txnMaxUid = some (Nat.max uid (old.txnMaxUid.getD uid))
  expire : new.expire = old.expire

theorem markedOff (env : Env) {self : Client D} {marks : List Nat} {off : Nat} (whole : self.listed.Whole marks) (small : ¬ Wide off) {m : Msg}
    {col : Nat} (there : self.listed.at? off 0 = some (m,col)) :
    (markDele env self off).2 = true ∧ Deletes self (markDele env self off).1 off m.num marks := by
  have first : col = 0 := by
    rw [whole.at small (by decide)] at there
    split at there
    · cases there
    · obtain ⟨_,-,same⟩ := Option.map_eq_some_iff.mp there
      exact (Prod.mk.inj same).2.symm
  subst first
  have cells : [0,1,2].filterMap (self.listed.place off) = [3 * off,3 * off + 1,3 * off + 2] := by
    simp [Cache.placeSmall _ small]
  unfold markDele
  rw [there]
  refine ⟨rfl,rfl,fun i => ?_,Option.some_ne_none _,rfl,rfl⟩
  have undef : i ∈ self.listed.undef ++ [0,1,2].filterMap (self.listed.place off) ↔ i / 3 ∈ marks ++ [off] := by
    rw [cells,List.mem_append,List.mem_append,List.mem_singleton,whole i]
    refine or_congr_right ?_
    simp only [List.mem_cons,List.not_mem_nil,or_false]
    omega
  exact undef

theorem markedNone (env : Env) {self : Client D} {off : Nat} (there : self.listed.at? off 0 = none) : markDele env self off = (self,false) := by
  rw [markDele,there]

def Awaits (client : Client D) (marks deleted : List Nat) (off uid : Nat) : Prop :=
  off ≤ 65535 ∧ client.cache ≠ none ∧ (∃ m,client.listed.rows[off]? = some m ∧ m.num = uid) ∧ (off ∈ marks → uid ∈ deleted)

structure Sound (client : Client D) (h : History) (marks : List Nat) : Prop where
  whole : client.listed.Whole marks
  deleted : client.txnMaxUid = h.deleted.max?
  retrieved : List.Forall₂ (Awaits client marks h.deleted) (client.expire.getD []) h.retrieved

structure Marked (client : Client D) (h : History) : Prop where
  announced : client.expire.isSome = h.announced
  few : client.listed.rows.length ≤ uidSlice
  sound : h.spoilt = false → ∃ marks,Sound client h marks

namespace Marked
variable {self new : Client D} {h : History}

theorem same (marked : Marked self h) (cache : new.cache = self.cache) (txnMaxUid : new.txnMaxUid = self.txnMaxUid)
    (expire : new.expire = self.expire) : Marked new h := by
  have listed : new.listed = self.listed := by rw [Client.listed,cache,Client.listed]
  refine ⟨expire ▸ marked.announced,listed ▸ marked.few,fun fine => ?_⟩
  obtain ⟨marks,sound⟩ := marked.sound fine
  refine ⟨marks,listed ▸ sound.whole,txnMaxUid ▸ sound.deleted,?_⟩
  rw [expire]
  refine sound.retrieved.imp fun off uid awaits => ?_
  rwa [Awaits,listed,cache]

theorem fewRows (env : Env) (self : Client D) : (statCache env self).listed.rows.length ≤ uidSlice := by
  simp only [statCache,Client.listed,Option.getD_some,List.length_map]
  split
  · rename_i named uidMax selected max
    let window := IMAP.uidClamp (self.uidBase.getD 0) (self.uidDele.getD (-1) + 1).toNat uidMax
    let rows := (env.over named.ibx).rows.filter (fun r => window.1 ≤ r.1 ∧ r.1 ≤ window.2)
    have nodup : (rows.map Prod.fst).Nodup :=
      ((Keyed.Table.keysNodup (env.over named.ibx)).sublist (List.filter_sublist.map Prod.fst))
    have inside : rows.map Prod.fst ⊆ List.range' (self.uidBase.getD 0 + 1) uidSlice := by
      intro n mem
      obtain ⟨r,taken,rfl⟩ := List.mem_map.mp mem
      obtain ⟨low,high⟩ := of_decide_eq_true (List.mem_filter.mp taken).2
      have first : self.uidBase.getD 0 + 1 ≤ window.1 := Nat.le_max_right _ _
      have last : window.2 ≤ self.uidBase.getD 0 + uidSlice := Nat.min_le_right _ _
      exact List.mem_range'_1.mpr (by omega)
    have count := (List.subperm_of_subset nodup inside).length_le
    rwa [List.length_map,List.length_range'] at count
  · exact Nat.zero_le _

theorem cached (marked : Marked self h) (env : Env) : Marked (cached env self) h := by
  unfold POP3.cached
  split
  · rename_i none
    refine ⟨marked.announced,fewRows env self,fun fine => ?_⟩
    obtain ⟨marks,sound⟩ := marked.sound fine
    refine ⟨[],fun i => ⟨fun mem => (by cases mem),fun mem => (by cases mem)⟩,sound.deleted,?_⟩
    exact sound.retrieved.imp fun off uid awaits => absurd none awaits.2.1
  · exact marked

theorem maxSnoc (uids : List Nat) (uid : Nat) : (uids ++ [uid]).max? = some (Nat.max uid (uids.max?.getD uid)) := by
  cases most : uids.max? with
  | none =>
    obtain rfl := List.max?_eq_none_iff.mp most
    simp
  | some max =>
    obtain ⟨mem,above⟩ := List.max?_eq_some_iff.mp most
    refine List.max?_eq_some_iff.mpr ⟨?_,fun b there => ?_⟩
    · rcases Nat.le_total uid max with below | over'
      · rw [Option.getD_some,show Nat.max uid max = max from Nat.max_eq_right below]
        exact List.mem_append_left _ mem
      · rw [Option.getD_some,show Nat.max uid max = uid from Nat.max_eq_left over']
        exact List.mem_append_right _ (List.mem_singleton.mpr rfl)
    · rcases List.mem_append.mp there with old | new
      · exact (above b old).trans (Nat.le_max_right _ _)
      · exact List.mem_singleton.mp new ▸ Nat.le_max_left _ _

theorem markDeleKept (env : Env) (self : Client D) (off : Nat) : (markDele env self off).1.listed.rows = self.listed.rows ∧
    (markDele env self off).1.expire = self.expire := by
  unfold markDele
  split <;> exact ⟨rfl,rfl⟩

theorem Awaits.deletes {marks deleted : List Nat} {off i uid uid' : Nat} (made : Deletes self new off uid marks)
    (there : ∃ m,self.listed.rows[off]? = some m ∧ m.num = uid) (awaits : Awaits self marks deleted i uid') :
    Awaits new (marks ++ [off]) (deleted ++ [uid]) i uid' := by
  obtain ⟨small,-,row,dead⟩ := awaits
  refine ⟨small,made.cache,made.rows ▸ row,fun mem => ?_⟩
  rcases List.mem_append.mp mem with old | own
  · exact List.mem_append_left _ (dead old)
  · obtain rfl := List.mem_singleton.mp own
    obtain ⟨m,here,rfl⟩ := there
    obtain ⟨m',here',rfl⟩ := row
    obtain rfl := Option.some.inj (here.symm.trans here')
    exact List.mem_append_right _ (List.mem_singleton.mpr rfl)

theorem foundRow {marks : List Nat} (whole : self.listed.Whole marks) {off col col' : Nat} (small : ¬ Wide off) (inside : col < 3)
    {m : Msg} (there : self.listed.at? off col = some (m,col')) : off ∉ marks ∧ self.listed.rows[off]? = some m := by
  rw [whole.at small inside] at there
  split at there
  · cases there
  · rename_i fresh
    obtain ⟨m',row,same⟩ := Option.map_eq_some_iff.mp there
    exact ⟨fresh,(Prod.mk.inj same).1 ▸ row⟩

theorem dele (env : Env) (marked : Marked self h) {off : Nat} (small : ¬ Wide off) {m : Msg} {col : Nat}
    (there : self.listed.at? off 0 = some (m,col)) :
    Marked (POP3.markDele env self off).1 { h with deleted := h.deleted ++ [m.num] } := by
  obtain ⟨rows,expire⟩ := markDeleKept env self off
  refine ⟨expire ▸ marked.announced,rows ▸ marked.few,fun fine => ?_⟩
  obtain ⟨marks,sound⟩ := marked.sound fine
  have row := foundRow sound.whole small (by decide) there
  have made := (markedOff env sound.whole small there).2
  refine ⟨marks ++ [off],made.whole,?_,?_⟩
  · rw [made.txnMaxUid,sound.deleted,maxSnoc]
  · rw [expire]
    exact sound.retrieved.imp fun i uid awaits => Awaits.deletes made ⟨m,row.2,rfl⟩ awaits

theorem wide (env : Env) (marked : Marked self h) (off : Nat) : Marked (POP3.markDele env self off).1 { h with spoilt := true } := by
  obtain ⟨rows,expire⟩ := markDeleKept env self off
  exact ⟨expire ▸ marked.announced,rows ▸ marked.few,fun fine => by cases fine⟩

theorem expireNone {marks : List Nat} (sound : Sound self h marks) (retrieved : h.retrieved = []) : self.expire.getD [] = [] := by
  have all := sound.retrieved
  rw [retrieved] at all
  exact List.forall₂_nil_right_iff.mp all

theorem rset (marked : Marked self h) : Marked { self with cache := none, txnMaxUid := none } (h.line self .rset) := by
  refine ⟨marked.announced,Nat.zero_le _,fun fine => ?_⟩
  simp only [History.line,Bool.or_eq_false_iff,Bool.not_eq_false',List.isEmpty_iff] at fine
  obtain ⟨marks,sound⟩ := marked.sound fine.1
  refine ⟨[],fun i => ⟨fun mem => (by cases mem),fun mem => (by cases mem)⟩,rfl,?_⟩
  rw [show (h.line self .rset).retrieved = [] from rfl]
  dsimp only
  rw [expireNone sound fine.2]
  exact .nil

theorem capa (marked : Marked self h) : Marked { self with expire := some [] } (h.line self .capa) := by
  refine ⟨rfl,marked.few,fun fine => ?_⟩
  simp only [History.line,Bool.or_eq_false_iff,Bool.not_eq_false',List.isEmpty_iff] at fine
  obtain ⟨marks,sound⟩ := marked.sound fine.1
  refine ⟨marks,sound.whole,sound.deleted,?_⟩
  rw [show (h.line self .capa).retrieved = h.retrieved from rfl,fine.2]
  exact .nil

theorem packSmall {off n : Nat} (few : off < n) (page : n ≤ uidSlice) : packS off = off := by
  have size : uidSlice = 50000 := rfl
  unfold packS
  rw [if_pos (by omega)]
  omega

theorem retrieve {marks : List Nat} (sound : Sound self h marks) (few : self.listed.rows.length ≤ uidSlice) {off : Int}
    (low : 0 ≤ off) (small : ¬ Wide off) {m : Msg} {col : Nat} (there : self.listed.at? off 2 = some (m,col)) {offs : List Nat}
    (expire : self.expire = some offs) : List.Forall₂ (Awaits self marks h.deleted) (offs ++ [packS off]) (h.retrieved ++ [m.num]) := by
  obtain ⟨n,rfl⟩ := Int.eq_ofNat_of_zero_le low
  have all := sound.retrieved
  rw [expire] at all
  obtain ⟨fresh,row⟩ := foundRow sound.whole small (by decide) there
  obtain ⟨inside,-⟩ := List.getElem?_eq_some_iff.mp row
  have size : uidSlice = 50000 := rfl
  have cache : self.cache ≠ none := by
    intro none
    simp [Client.listed,none] at row
  rw [packSmall inside few]
  exact List.rel_append all (.cons ⟨by omega,cache,⟨m,row,rfl⟩,fun mem => absurd mem fresh⟩ .nil)

theorem sent (marked : Marked self h) {req : Req} {reply : Option Reply} {out : Cat} (made : retrCb self req out = some (new,reply)) :
    Marked new (if reply.any Reply.isOk then h.sent self req else h) := by
  unfold retrCb at made
  split at made
  · obtain ⟨rfl,rfl⟩ := Prod.mk.inj (Option.some.inj made)
    refine ⟨marked.announced,marked.few,fun fine => ?_⟩
    obtain ⟨marks,sound⟩ := marked.sound fine
    exact ⟨marks,sound.whole,sound.deleted,
      sound.retrieved.imp fun _ _ awaits => ⟨awaits.1,Option.some_ne_none _,awaits.2.2⟩⟩
  · rename_i m col there
    split at made
    · cases made
    · obtain ⟨rfl,rfl⟩ := Prod.mk.inj (Option.some.inj made)
      exact marked
    · split at made
      · cases made
      · obtain ⟨rfl,rfl⟩ := Prod.mk.inj (Option.some.inj made)
        simp only [Option.any_some,Reply.isOk,if_true,History.sent,there]
        by_cases counts : req.topNr = none ∧ h.announced = true
        · rw [if_pos counts]
          obtain ⟨retr,announced⟩ := counts
          obtain ⟨offs,expire⟩ := Option.isSome_iff_exists.mp (marked.announced.trans announced)
          rw [if_pos retr,expire,Option.map_some]
          refine ⟨announced.symm,marked.few,fun fine => ?_⟩
          simp only [Bool.or_eq_false_iff,decide_eq_false_iff_not,not_or,Int.not_lt] at fine
          obtain ⟨marks,sound⟩ := marked.sound fine.1
          have all := retrieve sound marked.few fine.2.1 fine.2.2 there expire
          exact ⟨marks,sound.whole,sound.deleted,all⟩
        · rw [if_neg counts]
          refine marked.same rfl rfl ?_
          dsimp only
          split
          · rename_i retr
            have silent : self.expire = none := by
              rw [← Option.not_isSome_iff_eq_none,marked.announced]
              exact fun announced => counts ⟨retr,announced⟩
            rw [silent]
            rfl
          · rfl

theorem served (marked : Marked self h) (env : Env) (cmd : Cmd) : Marked (POP3.served env self cmd).1
    (if (POP3.served env self cmd).2.any Reply.isOk then h.line (POP3.cached env self) cmd else h) := by
  have ready := marked.cached env
  cases cmd with
  | stat | list | uidl =>
    simp only [History.line,ite_self]
    exact ready
  | retr msn topNr =>
    rw [show h.line (POP3.cached env self) (.retr msn topNr) = h from rfl,ite_self]
    dsimp only [POP3.served,cmdRetr]
    split
    · exact ready
    · exact ready.same rfl rfl rfl
  | rset => exact marked.rset
  | dele msn =>
    simp only [POP3.served,cmdDele,Option.any_some]
    split
    · cases there : (POP3.cached env self).listed.at? (Decimal.value (msn.getD []) - 1 : Nat) 0 with
      | none =>
        rw [markedNone env there]
        exact ready
      | some found =>
        obtain ⟨m,col⟩ := found
        have marked : (POP3.markDele env (POP3.cached env self) (Decimal.value (msn.getD []) - 1)).2 = true := by
          rw [POP3.markDele,there]
        rw [marked]
        simp only [Reply.isOk,if_true,History.line]
        by_cases big : Wide (Decimal.value (msn.getD []) - 1 : Nat)
        · rw [if_pos big]
          exact Marked.wide env ready _
        · rw [if_neg big,there]
          exact Marked.dele env ready big there
    · exact ready
  | user | pass | apop | noop | capa | quit =>
    simp only [POP3.served,Option.any_none]
    exact marked

theorem user (marked : Marked self h) (env : Env) (mailbox : List Char) : Marked (cmdUser env self mailbox).1 h := by
  unfold cmdUser
  dsimp only
  repeat' split
  all_goals first | exact marked | exact marked.same rfl rfl rfl

theorem command (marked : Marked self h) (env : Env) (cmd : Cmd) : Marked (POP3.command env self cmd).1
    (if (POP3.command env self cmd).2.any Reply.isOk then h.line (POP3.cached env self) cmd else h) := by
  have refused : ∀ {cmd err},needTxn self = some err →
      Marked self (if (some err).any Reply.isOk then h.line (POP3.cached env self) cmd else h) := by
    intro cmd err held
    obtain ⟨salt,-,rfl⟩ := Option.map_eq_some_iff.mp held
    exact marked
  cases cmd with
  | user mailbox =>
    simp only [History.line,ite_self]
    exact marked.user env mailbox
  | noop =>
    simp only [History.line,ite_self]
    exact marked
  | capa => exact marked.capa
  | retr msn topNr =>
    cases topNr with
    | none =>
      cases held : needTxn self with
      | some err =>
        simp only [POP3.command,held]
        exact refused held
      | none =>
        simp only [POP3.command,held]
        exact marked.served env _
    | some lines =>
      dsimp only [POP3.command]
      split
      · exact marked
      · cases held : needTxn self with
        | some err => exact refused held
        | none => exact marked.served env _
  | stat | list | uidl | rset | dele | pass | apop | quit =>
    cases held : needTxn self with
    | some err =>
      simp only [POP3.command,held]
      exact refused held
    | none =>
      simp only [POP3.command,held]
      exact marked.served env _

theorem sweep (env : Env) {offs : List Nat} {self : Client D} {marks deleted retrieved : List Nat} (whole : self.listed.Whole marks)
    (max : self.txnMaxUid = deleted.max?) (awaits : List.Forall₂ (Awaits self marks deleted) offs retrieved) :
    ∃ all : List Nat,(offs.foldl (fun self off => (POP3.markDele env self off).1) self).txnMaxUid = all.max? ∧
      ∀ u,u ∈ all ↔ u ∈ deleted ∨ u ∈ retrieved := by
  induction offs generalizing self marks deleted retrieved with
  | nil =>
    obtain rfl := List.forall₂_nil_left_iff.mp awaits
    exact ⟨deleted,max,by simp⟩
  | cons off offs ih =>
    obtain ⟨uid,retrieved,first,rest,rfl⟩ := List.forall₂_cons_left_iff.mp awaits
    obtain ⟨page,-,⟨m,row,rfl⟩,dead⟩ := first
    have small := pageSmall page
    have found : self.listed.at? off 0 = _ := whole.at small (by decide)
    rw [List.foldl_cons]
    by_cases gone : off ∈ marks
    · rw [if_pos gone] at found
      rw [markedNone env found]
      obtain ⟨all,found,members⟩ := ih whole max rest
      refine ⟨all,found,fun u => (members u).trans ?_⟩
      rw [List.mem_cons]
      constructor
      · exact Or.imp_right Or.inr
      · rintro (old | rfl | new)
        · exact Or.inl old
        · exact Or.inl (dead gone)
        · exact Or.inr new
    · rw [if_neg gone,row,Option.map_some] at found
      have made := (markedOff env whole small found).2
      obtain ⟨all,found,members⟩ := ih made.whole (by rw [made.txnMaxUid,max,maxSnoc])
        (rest.imp fun i u awaits => Awaits.deletes made ⟨m,row,rfl⟩ awaits)
      refine ⟨all,found,fun u => (members u).trans ?_⟩
      rw [List.mem_append,List.mem_singleton,List.mem_cons,or_assoc]

theorem maxSame {xs ys : List Nat} (same : ∀ u,u ∈ xs ↔ u ∈ ys) : xs.max? = ys.max? := by
  cases most : xs.max? with
  | none =>
    obtain rfl := List.max?_eq_none_iff.mp most
    have empty : ys = [] := List.eq_nil_iff_forall_not_mem.mpr fun u mem => List.not_mem_nil ((same u).mpr mem)
    rw [empty,List.max?_nil]
  | some u =>
    obtain ⟨mem,above⟩ := List.max?_eq_some_iff.mp most
    exact (List.max?_eq_some_iff.mpr ⟨(same u).mp mem,fun b there => above b ((same b).mpr there)⟩).symm

theorem expired (marked : Marked self h) (fine : h.spoilt = false) (env : Env) : (POP3.expired env self).txnMaxUid = h.marks.max? := by
  obtain ⟨marks,sound⟩ := marked.sound fine
  obtain ⟨all,found,members⟩ := @sweep _ env _ { self with expire := none } _ _ _ sound.whole sound.deleted sound.retrieved
  exact found.trans (maxSame fun u => (members u).trans List.mem_append.symm)

end Marked

end PublicInbox.POP3
