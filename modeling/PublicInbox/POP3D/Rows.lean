import PublicInbox.POP3D

/-! What db.sqlite3 marks of a maildrop, and what the statements of a login and of the end of a
session do to it. -/
namespace PublicInbox.POP3D
open Keyed

def State.Row (s : State) (txnId : Nat) (r : Delete) (m : Maildrop) : Prop :=
  ∃ user ngid,s.deletes.get? txnId = some r ∧ s.users.get? r.userId = some user ∧ user.uuid = m.uuid ∧
    s.mailboxes.get? r.mailboxId = some ⟨ngid,m.slice⟩ ∧ s.newsgroups.get? ngid = some m.newsgroup

def State.txnOf (s : State) (m : Maildrop) : Option Nat := do
  let userId ← s.users.keyOf m.uuid
  let ngid ← s.newsgroups.keyOf m.newsgroup
  let mbid ← s.mailboxes.keyOf ⟨ngid,m.slice⟩
  s.deletes.keyOf (userId,mbid)

def State.uidDele (s : State) (m : Maildrop) : Int :=
  (((s.txnOf m).bind s.deletes.get?).map Delete.uidDele).getD (-1)

variable {s : State} {m : Maildrop} {txnId : Nat} {r : Delete}

theorem txnOfRow : s.txnOf m = some txnId ↔ ∃ r,s.Row txnId r m := by
  simp only [State.txnOf,bind,Option.bind_eq_some_iff,Serial.keyOfExact,State.Row]
  constructor
  · rintro ⟨userId,⟨user,foundUser,uuid⟩,ngid,⟨ng,foundNg,rfl⟩,mbid,⟨mb,foundMb,rfl⟩,r,found,owner⟩
    obtain ⟨rfl,rfl⟩ := Prod.mk.inj owner
    exact ⟨r,user,ngid,found,foundUser,uuid,foundMb,foundNg⟩
  · rintro ⟨r,user,ngid,found,foundUser,uuid,foundMb,foundNg⟩
    exact ⟨r.userId,⟨user,foundUser,uuid⟩,ngid,⟨m.newsgroup,foundNg,rfl⟩,r.mailboxId,⟨_,foundMb,rfl⟩,r,found,rfl⟩

theorem State.Row.unique {txnId' : Nat} {r' : Delete} (one : s.Row txnId r m) (other : s.Row txnId' r' m) :
    txnId = txnId' ∧ r = r' := by
  obtain rfl := Option.some.inj ((txnOfRow.mpr ⟨r,one⟩).symm.trans (txnOfRow.mpr ⟨r',other⟩))
  obtain ⟨-,-,found,-⟩ := one
  obtain ⟨-,-,found',-⟩ := other
  exact ⟨rfl,Option.some.inj (found.symm.trans found')⟩

theorem State.Row.same {m' : Maildrop} {r' : Delete} (one : s.Row txnId r m) (other : s.Row txnId r' m') : m = m' := by
  obtain ⟨user,ngid,found,foundUser,uuid,foundMb,foundNg⟩ := one
  obtain ⟨user',ngid',found',foundUser',uuid',foundMb',foundNg'⟩ := other
  obtain rfl := Option.some.inj (found.symm.trans found')
  obtain rfl := Option.some.inj (foundUser.symm.trans foundUser')
  obtain ⟨rfl,slice⟩ := Mailbox.mk.inj (Option.some.inj (foundMb.symm.trans foundMb'))
  cases m
  cases m'
  cases uuid.symm.trans uuid'
  cases slice
  cases Option.some.inj (foundNg.symm.trans foundNg')
  rfl

theorem State.Row.uidDele (here : s.Row txnId r m) : s.uidDele m = r.uidDele := by
  have found : s.deletes.get? txnId = some r := by
    obtain ⟨-,-,found,-⟩ := here
    exact found
  simp [State.uidDele,txnOfRow.mpr ⟨r,here⟩,found]

theorem uidDeleRow {n : Int} (marked : n ≠ -1) : s.uidDele m = n ↔ ∃ txnId r,s.Row txnId r m ∧ r.uidDele = n := by
  constructor
  · intro marks
    cases txn : s.txnOf m with
    | none =>
      rw [State.uidDele,txn] at marks
      exact absurd marks.symm marked
    | some txnId =>
      obtain ⟨r,here⟩ := txnOfRow.mp txn
      exact ⟨txnId,r,here,here.uidDele.symm.trans marks⟩
  · rintro ⟨txnId,r,here,rfl⟩
    exact here.uidDele

theorem uidDeleSame {t : State} (same : ∀ txnId r,r.uidDele ≠ -1 → (t.Row txnId r m ↔ s.Row txnId r m)) :
    t.uidDele m = s.uidDele m := by
  by_cases marked : s.uidDele m = -1
  · by_contra differ
    obtain ⟨txnId,r,here,marks⟩ := (uidDeleRow (marked ▸ differ)).mp rfl
    exact differ (marks.symm.trans (((same txnId r (marks ▸ marked ▸ differ)).mp here).uidDele).symm)
  · obtain ⟨txnId,r,here,marks⟩ := (uidDeleRow marked).mp rfl
    exact ((same txnId r (marks ▸ marked)).mpr here).uidDele.trans marks

def State.Linked (s : State) : Prop := ∀ txnId r,s.deletes.get? txnId = some r → ∃ m,s.Row txnId r m

structure State.Extends (s t : State) : Prop where
  user : ∀ k user,s.users.get? k = some user → ∃ user',t.users.get? k = some user' ∧ user'.uuid = user.uuid
  mailbox : ∀ k mailbox,s.mailboxes.get? k = some mailbox → t.mailboxes.get? k = some mailbox
  newsgroup : ∀ k ng,s.newsgroups.get? k = some ng → t.newsgroups.get? k = some ng

theorem State.Row.extend {t : State} (more : s.Extends t) {r' : Delete} (here : s.Row txnId r m) (owner : r'.owner = r.owner)
    (found : t.deletes.get? txnId = some r') : t.Row txnId r' m := by
  obtain ⟨user,ngid,-,foundUser,uuid,foundMb,foundNg⟩ := here
  obtain ⟨user',foundUser',uuid'⟩ := more.user _ user foundUser
  obtain ⟨sameUser,sameMb⟩ := Prod.mk.inj owner
  exact ⟨user',ngid,found,sameUser ▸ foundUser',uuid'.trans uuid,sameMb ▸ more.mailbox _ _ foundMb,more.newsgroup _ _ foundNg⟩

theorem ensureExtends (s : State) (time : Nat) (m : Maildrop) : s.Extends (s.ensure time m).1 := by
  refine ⟨?_,fun k mailbox found => Serial.internKeeps found,fun k ng found => Serial.internKeeps found⟩
  intro k user found
  have kept := Serial.internKeeps (a := ⟨m.uuid,time⟩) found
  dsimp only [State.ensure]
  split
  · exact ⟨user,kept,rfl⟩
  · rw [Serial.getUpdate,kept]
    split
    · exact ⟨_,rfl,rfl⟩
    · exact ⟨user,rfl,rfl⟩

section
variable (s : State) (time : Nat) (m : Maildrop)

theorem ensureRow : ∃ r,(s.ensure time m).1.Row (s.ensure time m).2.2.1 r m ∧
    r.userId = (s.ensure time m).2.1 ∧ (s.ensure time m).2.2.2.getD (-1) = r.uidDele := by
  obtain ⟨user,foundUser,uuid⟩ := Serial.internHas s.users ⟨m.uuid,time⟩
  obtain ⟨ng,foundNg,sameNg⟩ := Serial.internHas s.newsgroups m.newsgroup
  obtain ⟨mb,foundMb,sameMb⟩ := Serial.internHas s.mailboxes ⟨(s.newsgroups.intern m.newsgroup).2.1,m.slice⟩
  obtain rfl : ng = m.newsgroup := sameNg
  obtain rfl : mb = ⟨(s.newsgroups.intern m.newsgroup).2.1,m.slice⟩ := sameMb
  let own : Delete := ⟨(s.users.intern ⟨m.uuid,time⟩).2.1,
    (s.mailboxes.intern ⟨(s.newsgroups.intern m.newsgroup).2.1,m.slice⟩).2.1,-1⟩
  obtain ⟨r,found,owner⟩ := Serial.internHas s.deletes own
  obtain ⟨sameUser,sameMailbox⟩ := Prod.mk.inj owner
  have kept : ∃ user',(s.ensure time m).1.users.get? r.userId = some user' ∧ user'.uuid = m.uuid := by
    rw [sameUser]
    dsimp only [State.ensure,own]
    split
    · exact ⟨user,foundUser,uuid⟩
    · rw [Serial.getUpdate,if_pos rfl,foundUser]
      exact ⟨_,rfl,uuid⟩
  obtain ⟨user',foundUser',uuid'⟩ := kept
  refine ⟨r,⟨user',_,found,foundUser',uuid',sameMailbox ▸ foundMb,foundNg⟩,sameUser,?_⟩
  change (if (s.deletes.intern own).2.2 = true then none
    else ((s.deletes.intern own).1.get? (s.deletes.intern own).2.1).map Delete.uidDele).getD (-1) = r.uidDele
  rw [found]
  cases key : s.deletes.keyOf own.owner with
  | some k => simp [Serial.internFound (t := s.deletes) (a := own) key]
  | none =>
    obtain ⟨made,get⟩ := Serial.internNew (t := s.deletes) (a := own) key
    rw [get,made,if_pos rfl] at found
    obtain rfl := Option.some.inj found
    simp [made,own]

theorem ensureDeletes {txnId : Nat} {r : Delete} : (s.deletes.get? txnId = some r → (s.ensure time m).1.deletes.get? txnId = some r) ∧
    ((s.ensure time m).1.deletes.get? txnId = some r → s.deletes.get? txnId = some r ∨
      (r.uidDele = -1 ∧ (s.ensure time m).1.Row txnId r m)) := by
  refine ⟨fun found => Serial.internKeeps found,fun found => ?_⟩
  rcases Serial.internOnly found with old | ⟨none,rfl,rfl⟩
  · exact Or.inl old
  · obtain ⟨r,row,-⟩ := ensureRow s time m
    have key : (s.ensure time m).2.2.1 = s.deletes.nextKey := congrArg Prod.fst (Serial.internNew none).1
    rw [key] at row
    obtain ⟨-,-,same,-⟩ := id row
    exact Or.inr ⟨rfl,Option.some.inj (same.symm.trans found) ▸ row⟩

theorem ensureLinked {s : State} (linked : s.Linked) : (s.ensure time m).1.Linked := by
  intro k r found
  rcases (ensureDeletes s time m).2 found with old | ⟨-,new⟩
  · obtain ⟨m',here⟩ := linked k r old
    exact ⟨m',here.extend (ensureExtends s time m) rfl found⟩
  · exact ⟨m,new⟩

theorem ensureUidDele {s : State} (linked : s.Linked) (m' : Maildrop) : (s.ensure time m).1.uidDele m' = s.uidDele m' := by
  apply uidDeleSame
  intro txnId r marked
  have more := ensureExtends s time m
  constructor
  · intro there
    obtain ⟨-,-,found,-⟩ := id there
    rcases (ensureDeletes s time m).2 found with old | ⟨initial,-⟩
    · obtain ⟨m'',here⟩ := linked txnId r old
      obtain rfl := there.same (here.extend more rfl found)
      exact here
    · exact absurd initial marked
  · intro here
    obtain ⟨-,-,found,-⟩ := id here
    exact here.extend more rfl ((ensureDeletes s time m).1 found)

end

section
variable (s : State) (userId own : Nat)

theorem cleanupDeletes {k : Nat} {r : Delete} :
    (s.cleanup userId own).1.deletes.get? k = some r ↔ s.deletes.get? k = some r ∧ (k = own → r.uidDele ≠ -1) := by
  simp only [State.cleanup,Serial.getFilter]
  simp [imp_iff_not_or]

theorem cleanupRow {k : Nat} {r : Delete} {m : Maildrop} :
    (s.cleanup userId own).1.Row k r m ↔ s.Row k r m ∧ (k = own → r.uidDele ≠ -1) := by
  constructor
  · rintro ⟨user,ngid,found,foundUser,uuid,rest⟩
    obtain ⟨old,other⟩ := (cleanupDeletes s userId own).mp found
    refine ⟨⟨user,ngid,old,?_,uuid,rest⟩,other⟩
    dsimp only [State.cleanup] at foundUser
    split at foundUser
    · exact (Serial.getFilter.mp foundUser).1
    · exact foundUser
  · rintro ⟨⟨user,ngid,old,foundUser,uuid,rest⟩,other⟩
    have found := (cleanupDeletes s userId own).mpr ⟨old,other⟩
    refine ⟨user,ngid,found,?_,uuid,rest⟩
    dsimp only [State.cleanup] at found ⊢
    split
    · rename_i nr
      have apart : r.userId ≠ userId := by
        intro same
        have mem := Table.memKeysWhere (p := fun _ r => r.userId == userId).mpr ⟨r,found,by simp [same]⟩
        rw [List.eq_nil_of_length_eq_zero nr] at mem
        cases mem
      exact Serial.getFilter.mpr ⟨foundUser,by simp [apart]⟩
    · exact foundUser

theorem cleanupLinked {s : State} (linked : s.Linked) : (s.cleanup userId own).1.Linked := by
  intro k r found
  obtain ⟨old,other⟩ := (cleanupDeletes s userId own).mp found
  obtain ⟨m,here⟩ := linked k r old
  exact ⟨m,(cleanupRow s userId own).mpr ⟨here,other⟩⟩

theorem cleanupUidDele (m : Maildrop) : (s.cleanup userId own).1.uidDele m = s.uidDele m := by
  apply uidDeleSame
  intro k r marked
  rw [cleanupRow]
  exact and_iff_left fun _ => marked

end

theorem State.Extends.row {s t : State} (more : s.Extends t) (linked : s.Linked) (same : t.deletes = s.deletes) {k : Nat}
    {r : Delete} {m : Maildrop} : t.Row k r m ↔ s.Row k r m := by
  constructor
  · intro there
    obtain ⟨-,-,found,-⟩ := id there
    obtain ⟨m',here⟩ := linked k r (same ▸ found)
    obtain rfl := there.same (here.extend more rfl found)
    exact here
  · intro here
    obtain ⟨-,-,found,-⟩ := id here
    exact here.extend more rfl (same ▸ found)

theorem seenExtends (s : State) (userId time : Nat) :
    s.Extends { s with users := s.users.update userId (fun u => { u with lastSeen := time }) (fun _ => rfl) } := by
  refine ⟨fun k user found => ?_,fun _ _ found => found,fun _ _ found => found⟩
  rw [Serial.getUpdate,found]
  split
  · exact ⟨_,rfl,rfl⟩
  · exact ⟨user,rfl,rfl⟩

section
variable {s : State} (txnId : Nat) (f : Delete → Delete) (same : ∀ r,(f r).owner = r.owner)

theorem updateDeletes {k : Nat} {r : Delete} : (s.deletes.update txnId f same).get? k = some r ↔
    ∃ old,s.deletes.get? k = some old ∧ r = if k = txnId then f old else old := by
  rw [Serial.getUpdate]
  split
  · rw [Option.map_eq_some_iff]
    exact exists_congr fun old => and_congr_right fun _ => eq_comm
  · exact ⟨fun found => ⟨r,found,rfl⟩,fun ⟨old,found,kept⟩ => kept ▸ found⟩

theorem updateRow {k : Nat} {r : Delete} {m : Maildrop} :
    ({ s with deletes := s.deletes.update txnId f same } : State).Row k r m ↔
      ∃ old,s.Row k old m ∧ r = if k = txnId then f old else old := by
  have owner : ∀ old,(if k = txnId then f old else old).owner = old.owner := by
    intro old
    split
    · exact same old
    · rfl
  constructor
  · rintro ⟨user,ngid,found,foundUser,uuid,foundMb,foundNg⟩
    obtain ⟨old,there,rfl⟩ := (updateDeletes txnId f same).mp found
    obtain ⟨sameUser,sameMb⟩ := Prod.mk.inj (owner old)
    exact ⟨old,⟨user,ngid,there,sameUser ▸ foundUser,uuid,sameMb ▸ foundMb,foundNg⟩,rfl⟩
  · rintro ⟨old,⟨user,ngid,there,foundUser,uuid,foundMb,foundNg⟩,rfl⟩
    obtain ⟨sameUser,sameMb⟩ := Prod.mk.inj (owner old)
    exact ⟨user,ngid,(updateDeletes txnId f same).mpr ⟨old,there,rfl⟩,sameUser ▸ foundUser,uuid,sameMb ▸ foundMb,foundNg⟩

theorem updateLinked (linked : s.Linked) : ({ s with deletes := s.deletes.update txnId f same } : State).Linked := by
  intro k r found
  obtain ⟨old,there,rfl⟩ := (updateDeletes txnId f same).mp found
  obtain ⟨m,here⟩ := linked k old there
  exact ⟨m,(updateRow txnId f same).mpr ⟨old,here,rfl⟩⟩

end

theorem State.Extends.linked {s t : State} (more : s.Extends t) (linked : s.Linked) (same : t.deletes = s.deletes) : t.Linked := by
  intro k r found
  obtain ⟨m,here⟩ := linked k r (same ▸ found)
  exact ⟨m,(more.row linked same).mpr here⟩

end PublicInbox.POP3D
