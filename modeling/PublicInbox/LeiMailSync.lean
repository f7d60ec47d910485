import PublicInbox.Library.Serial
import PublicInbox.Library.Stepwise
import Mathlib.Data.List.DropRight
import Mathlib.Logic.Function.Basic

/-! LeiMailSync.pm: the folders and the messages in them that several lei processes share in
mail_sync.sqlite3. Each operation is inside the flock; each process has the ids of the folders it
has used in {fmap}. Locations are stored as blobs. -/
namespace PublicInbox.LeiMailSync
open Keyed

inductive Id where
  | num (uid : Nat)
  | name (basename : List Char)
  deriving DecidableEq

structure Row where
  oidbin : List Char
  fid : Nat
  id : Id
  deriving DecidableEq

structure Db where
  folders : Serial (id : List Char → List Char)
  rows : Row → Option (List Char)

structure World (P : Type) where
  db : Db
  fmap : P → List Char → Option Nat

inductive Op where
  | addFolders (folders : List (List Char))
  | setSrc (oidbin folder : List Char) (id : Id)
  | clearSrc (folder : List Char) (id : Id)
  | mvSrc (folder oidbin id newbn : List Char)
  | forgetFolders (folders : List (List Char))

def isLocal (folder : List Char) : Bool :=
  "maildir:".toList.isPrefixOf (folder.map Char.toLower) || "mh:".toList.isPrefixOf (folder.map Char.toLower)

def isImap (folder : List Char) : Bool :=
  "imap://".toList.isPrefixOf (folder.map Char.toLower) || "imaps://".toList.isPrefixOf (folder.map Char.toLower)

def location (folder : List Char) : List Char :=
  let kept := folder.rdropWhile (· = '/')
  if isLocal kept ∧ '\n' ∉ kept then kept else folder

namespace Db
variable (db : Db)

def fidFor (folder : List Char) : Option Nat :=
  match db.folders.keyOf folder with
  | some fid => some fid
  | none => db.folders.keyOf (location folder)

/- fid_for with $creat. URIimap decides whether an IMAP folder is one: it croaks where it is not. -/
def fidForCreat (uriOk : List Char → Bool) (folder : List Char) : Option (Db × Nat) :=
  match db.fidFor folder with
  | some fid => some (db,fid)
  | none =>
    if isImap folder = true ∧ uriOk folder = false then none
    else
      let (folders,fid,_) := db.folders.intern (location folder)
      some (⟨folders,fun r => if r.fid = fid then none else db.rows r⟩,fid)

def store (r : Row) (loc : List Char) : Db :=
  { db with rows := Function.update db.rows r (some ((db.rows r).getD loc)) }

def delete (p : Row → Bool) : Db := { db with rows := fun r => if p r then none else db.rows r }

/- The UPDATE, where the new name is not taken; the INSERT OR IGNORE that makes up for one without a row. The
DELETEs between them are of rows that are no blobs. -/
def move (oidbin : List Char) (fid : Nat) (id newbn loc : List Char) : Db :=
  match db.rows ⟨oidbin,fid,.name id⟩,db.rows ⟨oidbin,fid,.name newbn⟩ with
  | some owner,none =>
    { db with rows := Function.update (Function.update db.rows ⟨oidbin,fid,.name id⟩ none) ⟨oidbin,fid,.name newbn⟩ (some owner) }
  | _,_ => db.store ⟨oidbin,fid,.name newbn⟩ loc

def forget (fids : List Nat) : Db where
  folders := db.folders.filter fun fid _ => fid ∉ fids
  rows := fun r => if r.fid ∈ fids then none else db.rows r

end Db

def forgetting (db : Db) (fmap : List Char → Option Nat) : List (List Char) → (List Char → Option Nat) × List Nat
  | [] => (fmap,[])
  | f :: fs =>
    let (left,fids) := forgetting db (Function.update fmap f none) fs
    (left,(match fmap f with
      | some fid => some fid
      | none => db.fidFor f).toList ++ fids)

namespace World
variable {P : Type} [DecidableEq P] (uriOk : List Char → Bool) (w : World P) (p : P)

def fid (folder : List Char) : Option (World P × Nat) :=
  match w.fmap p folder with
  | some fid => some (w,fid)
  | none => (w.db.fidForCreat uriOk folder).map fun (db,fid) =>
    (⟨db,Function.update w.fmap p (Function.update (w.fmap p) folder (some fid))⟩,fid)

def addFolders (w : World P) : List (List Char) → World P
  | [] => w
  | f :: fs => match w.fid uriOk p f with
    | none => w
    | some (w,_) => addFolders w fs

def setSrc (oidbin folder : List Char) (id : Id) : World P :=
  match w.fid uriOk p folder with
  | none => w
  | some (w,fid) => { w with db := w.db.store ⟨oidbin,fid,id⟩ (location folder) }

def clearSrc (folder : List Char) (id : Id) : World P :=
  match w.fid uriOk p folder with
  | none => w
  | some (w,fid) => { w with db := w.db.delete fun r => r.fid = fid && r.id = id }

def mvSrc (folder oidbin id newbn : List Char) : World P :=
  match w.fid uriOk p folder with
  | none => w
  | some (w,fid) => { w with db := w.db.move oidbin fid id newbn (location folder) }

def forgetFolders (folders : List (List Char)) : World P :=
  let (left,fids) := forgetting w.db (w.fmap p) folders
  ⟨w.db.forget fids,Function.update w.fmap p left⟩

def step (w : World P) : P × Op → World P
  | (p,.addFolders folders) => w.addFolders uriOk p folders
  | (p,.setSrc oidbin folder id) => w.setSrc uriOk p oidbin folder id
  | (p,.clearSrc folder id) => w.clearSrc uriOk p folder id
  | (p,.mvSrc folder oidbin id newbn) => w.mvSrc uriOk p folder oidbin id newbn
  | (p,.forgetFolders folders) => w.forgetFolders p folders

def start : World P := ⟨⟨.empty,fun _ => none⟩,fun _ _ => none⟩

def Belongs (w : World P) : Prop := ∀ r loc,w.db.rows r = some loc → w.db.folders.get? r.fid = some loc

def Allowed (w : World P) : P × Op → Prop
  | (p,.setSrc oidbin folder id) => ∀ fid,w.fmap p folder = some fid →
      w.db.folders.get? fid = some (location folder) ∨ (w.db.rows ⟨oidbin,fid,id⟩).isSome
  | (p,.mvSrc folder oidbin id newbn) => ∀ fid,w.fmap p folder = some fid →
      w.db.folders.get? fid = some (location folder) ∨ (w.db.rows ⟨oidbin,fid,.name id⟩).isSome ∨
        (w.db.rows ⟨oidbin,fid,.name newbn⟩).isSome
  | (_,.addFolders _) | (_,.clearSrc _ _) | (_,.forgetFolders _) => True

end World

@[simp] theorem locationTwice (folder : List Char) : location (location folder) = location folder := by
  have twice : (folder.rdropWhile (· = '/')).rdropWhile (· = '/') = folder.rdropWhile (· = '/') :=
    List.rdropWhile_idempotent _ _
  unfold location
  by_cases kept : isLocal (folder.rdropWhile (· = '/')) ∧ '\n' ∉ folder.rdropWhile (· = '/')
  · simp only [if_pos kept,twice]
  · simp only [if_neg kept]

namespace Db
variable {db db' : Db} {folder : List Char} {fid : Nat}

/- The locations in the table are without the slashes that fid_for leaves out, and each row is in the
folder whose location it was stored for. -/
structure Sound (db : Db) : Prop where
  tidy : ∀ {fid loc},db.folders.get? fid = some loc → location loc = loc
  belongs : ∀ {r loc},db.rows r = some loc → db.folders.get? r.fid = some loc

theorem fidForFound (sound : db.Sound) (found : db.fidFor folder = some fid) : db.folders.get? fid = some (location folder) := by
  rw [fidFor] at found
  split at found
  · rename_i own
    cases found
    obtain ⟨loc,there,rfl⟩ := Serial.keyOfExact.mp own
    rw [id,sound.tidy there]
    exact there
  · obtain ⟨loc,there,is⟩ := Serial.keyOfExact.mp found
    exact there.trans (congrArg some is)

theorem creatSound {uriOk : List Char → Bool} (sound : db.Sound) (made : db.fidForCreat uriOk folder = some (db',fid)) :
    db'.Sound ∧ db'.folders.get? fid = some (location folder) := by
  rw [fidForCreat] at made
  split at made
  · rename_i found
    cases made
    exact ⟨sound,fidForFound sound found⟩
  · rename_i absent
    split at made
    · cases made
    · have key : db.folders.keyOf (id (location folder)) = none := by
        rw [fidFor] at absent
        split at absent
        · cases absent
        · exact absent
      obtain ⟨is,get⟩ := Serial.internNew key
      obtain ⟨⟨folders,k,new⟩,interned⟩ : ∃ t,db.folders.intern (location folder) = t := ⟨_,rfl⟩
      rw [interned] at is get made
      obtain ⟨rfl,-⟩ := Prod.mk.inj is
      cases made
      refine ⟨⟨fun {fid loc} found => ?_,fun {r loc} found => ?_⟩,by rw [get,if_pos rfl]⟩
      · rw [get] at found
        split at found
        · cases found
          exact locationTwice folder
        · exact sound.tidy found
      · simp only at found
        split at found
        · cases found
        · rename_i other
          rw [get,if_neg other]
          exact sound.belongs found

theorem storeSound (sound : db.Sound) (r : Row) (loc : List Char) :
    (db.store r loc).Sound ↔ db.folders.get? r.fid = some loc ∨ (db.rows r).isSome := by
  constructor
  · intro after
    cases there : db.rows r with
    | some owner => exact .inr rfl
    | none => exact .inl (after.belongs (by simp [store,there]))
  · intro allowed
    refine ⟨sound.tidy,fun {q owner} found => ?_⟩
    simp only [store,Function.update_apply] at found ⊢
    split at found
    · rename_i same
      subst same
      cases there : db.rows q with
      | some kept =>
        rw [there] at found
        cases found
        exact sound.belongs there
      | none =>
        rw [there] at found allowed
        cases found
        exact allowed.resolve_right (by simp)
    · exact sound.belongs found

theorem deleteSound (sound : db.Sound) (p : Row → Bool) : (db.delete p).Sound := by
  refine ⟨sound.tidy,fun {r loc} found => ?_⟩
  simp only [delete] at found
  split at found
  · cases found
  · exact sound.belongs found

theorem forgetSound (sound : db.Sound) (fids : List Nat) : (db.forget fids).Sound := by
  refine ⟨fun {fid loc} found => sound.tidy (Serial.getFilter.mp found).1,fun {r loc} found => ?_⟩
  simp only [forget] at found
  split at found
  · cases found
  · rename_i apart
    exact Serial.getFilter.mpr ⟨sound.belongs found,decide_eq_true apart⟩

theorem moveSound (sound : db.Sound) (oidbin : List Char) (fid : Nat) (id newbn loc : List Char) :
    (db.move oidbin fid id newbn loc).Sound ↔
      db.folders.get? fid = some loc ∨ (db.rows ⟨oidbin,fid,.name id⟩).isSome ∨ (db.rows ⟨oidbin,fid,.name newbn⟩).isSome := by
  have stored := storeSound sound ⟨oidbin,fid,.name newbn⟩ loc
  cases old : db.rows ⟨oidbin,fid,.name id⟩ with
  | none => simpa [move,old] using stored
  | some owner =>
    cases taken : db.rows ⟨oidbin,fid,.name newbn⟩ with
    | some other => simpa [move,old,taken] using stored
    | none =>
      refine iff_of_true ?_ (.inr (.inl rfl))
      simp only [move,old,taken]
      refine ⟨sound.tidy,fun {q kept} found => ?_⟩
      simp only [Function.update_apply] at found
      split at found
      · rename_i same
        cases found
        rw [same]
        exact (sound.belongs old :)
      · split at found
        · cases found
        · exact sound.belongs found

theorem moveFolders (oidbin : List Char) (fid : Nat) (id newbn loc : List Char) :
    (db.move oidbin fid id newbn loc).folders = db.folders := by
  rw [move]
  split <;> rfl

end Db

namespace World
variable {P : Type} [DecidableEq P] {uriOk : List Char → Bool} {w w' : World P} {p : P}

theorem fidSound {folder : List Char} {fid : Nat} (sound : w.db.Sound) (found : w.fid uriOk p folder = some (w',fid)) :
    w'.db.Sound ∧ ((w' = w ∧ w.fmap p folder = some fid) ∨ w.fmap p folder = none ∧ w'.db.folders.get? fid = some (location folder)) := by
  rw [World.fid] at found
  split at found
  · rename_i cached
    cases found
    exact ⟨sound,.inl ⟨rfl,cached⟩⟩
  · rename_i uncached
    obtain ⟨⟨db,k⟩,made,is⟩ := Option.map_eq_some_iff.mp found
    cases is
    obtain ⟨after,there⟩ := Db.creatSound sound made
    exact ⟨after,.inr ⟨uncached,there⟩⟩

theorem fidDied {folder : List Char} (died : w.fid uriOk p folder = none) : w.fmap p folder = none := by
  rw [World.fid] at died
  split at died
  · cases died
  · assumption

theorem addSound {folders : List (List Char)} (sound : w.db.Sound) : (w.addFolders uriOk p folders).db.Sound := by
  induction folders generalizing w with
  | nil => exact sound
  | cons f fs ih =>
    rw [addFolders]
    split
    · exact sound
    · rename_i w' fid found
      exact ih (fidSound sound found).1

theorem stepSound (sound : w.db.Sound) (e : P × Op) : (w.step uriOk e).db.Sound ↔ w.Allowed e := by
  obtain ⟨p,op⟩ := e
  cases op with
  | addFolders folders => exact iff_of_true (addSound sound) trivial
  | forgetFolders folders => exact iff_of_true (Db.forgetSound sound _) trivial
  | clearSrc folder id =>
    refine iff_of_true ?_ trivial
    simp only [step,clearSrc]
    split
    · exact sound
    · rename_i found
      exact Db.deleteSound (fidSound sound found).1 _
  | setSrc oidbin folder id =>
    simp only [step,setSrc,Allowed]
    split
    · rename_i died
      rw [fidDied died]
      exact iff_of_true sound (fun _ is => by cases is)
    · rename_i w' fid found
      obtain ⟨after,⟨rfl,cached⟩ | ⟨uncached,there⟩⟩ := fidSound sound found
      · rw [Db.storeSound after,cached]
        simp
      · rw [uncached]
        exact iff_of_true ((Db.storeSound after _ _).mpr (.inl there)) (fun _ is => by cases is)
  | mvSrc folder oidbin id newbn =>
    simp only [step,mvSrc,Allowed]
    split
    · rename_i died
      rw [fidDied died]
      exact iff_of_true sound (fun _ is => by cases is)
    · rename_i w' fid found
      obtain ⟨after,⟨rfl,cached⟩ | ⟨uncached,there⟩⟩ := fidSound sound found
      · rw [Db.moveSound after,cached]
        simp
      · rw [uncached]
        exact iff_of_true ((Db.moveSound after _ _ _ _ _).mpr (.inl there)) (fun _ is => by cases is)

theorem stepTidy (sound : w.db.Sound) (e : P × Op) {fid : Nat} {loc : List Char}
    (found : (w.step uriOk e).db.folders.get? fid = some loc) : location loc = loc := by
  obtain ⟨p,op⟩ := e
  cases op with
  | addFolders folders => exact (addSound sound).tidy found
  | forgetFolders folders => exact (Db.forgetSound sound _).tidy found
  | clearSrc folder id =>
    simp only [step,clearSrc] at found
    split at found
    · exact sound.tidy found
    · rename_i there
      exact (fidSound sound there).1.tidy found
  | setSrc oidbin folder id =>
    simp only [step,setSrc] at found
    split at found
    · exact sound.tidy found
    · rename_i there
      exact (fidSound sound there).1.tidy found
  | mvSrc folder oidbin id newbn =>
    simp only [step,mvSrc] at found
    split at found
    · exact sound.tidy found
    · rename_i there
      rw [Db.moveFolders] at found
      exact (fidSound sound there).1.tidy found

omit [DecidableEq P] in
theorem startSound : (start : World P).db.Sound := by
  constructor
  · intro fid loc found
    cases found
  · intro r loc found
    cases found

/- Among any processes, the operations are all allowed if and only if after each of them every row is in the
folder whose location it was stored for. -/
theorem rowsBelong (uriOk : List Char → Bool) (run : List (P × Op)) :
    Stepwise.Along (step uriOk) (fun w e => (w.step uriOk e).Belongs) start run ↔
      Stepwise.Along (step uriOk) Allowed start run := by
  have same : ∀ (w : World P) (e : P × Op),w.db.Sound → (w.Allowed e ↔ (w.step uriOk e).Belongs) := by
    intro w e sound
    rw [← stepSound sound e]
    exact ⟨fun after r loc found => after.belongs found,fun belongs => ⟨stepTidy sound e,fun {r loc} found => belongs r loc found⟩⟩
  exact (Stepwise.alongIff (fun w : World P => w.db.Sound) same (fun w e sound allowed => (stepSound sound e).mpr allowed)
    startSound).symm

/- One process keeps the id of a folder that another has forgotten, and stores a message of it in the folder
that has the id now. -/
theorem staleIdStored :
    ¬ Stepwise.Along (step fun _ => true) (fun w e => (w.step (fun _ => true) e).Belongs) (start : World Nat)
      [(0,.addFolders ["maildir:/a".toList]),(1,.forgetFolders ["maildir:/a".toList]),(1,.addFolders ["maildir:/b".toList]),
        (0,.setSrc "oid".toList "maildir:/a".toList (.name "1:2,".toList))] := by
  intro along
  have belongs := along.2.2.2.1 ⟨"oid".toList,1,.name "1:2,".toList⟩ "maildir:/a".toList (by decide)
  exact absurd belongs (by decide)

end World
end PublicInbox.LeiMailSync
