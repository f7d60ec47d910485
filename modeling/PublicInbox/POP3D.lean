import PublicInbox.Library.Serial
import Mathlib.Logic.Function.Basic

/-! POP3D.pm: db.sqlite3 with the messages deleted in each maildrop, and the locks of the maildrops
that are in use. All of `lockMailbox` is inside the flock of db.lock. The files are shared by the
worker processes `P`; each listener `D` of a process has a POP3D object of its own. -/
namespace PublicInbox.POP3D
open Keyed

structure User where
  uuid : List Char
  lastSeen : Nat
  deriving DecidableEq

structure Mailbox where
  newsgroupId : Nat
  slice : Int
  deriving DecidableEq

structure Delete where
  userId : Nat
  mailboxId : Nat
  uidDele : Int
  deriving DecidableEq

def Delete.owner (r : Delete) : Nat × Nat := (r.userId,r.mailboxId)

structure State where
  newsgroups : Serial (id : List Char → List Char)
  mailboxes : Serial (id : Mailbox → Mailbox)
  users : Serial User.uuid
  deletes : Serial Delete.owner

def State.empty : State := ⟨.empty,.empty,.empty,.empty⟩

structure Maildrop where
  uuid : List Char
  newsgroup : List Char
  slice : Int
  deriving DecidableEq

/- The rows that lock_mailbox makes sure of, with user_id, txn_id and the uid_dele of a row that
was there before. -/
def State.ensure (s : State) (time : Nat) (m : Maildrop) : State × Nat × Nat × Option Int :=
  let (users,userId,new) := s.users.intern ⟨m.uuid,time⟩
  let users := if new then users else users.update userId (fun u => { u with lastSeen := time }) (fun _ => rfl)
  let (newsgroups,ngid,_) := s.newsgroups.intern m.newsgroup
  let (mailboxes,mbid,_) := s.mailboxes.intern ⟨ngid,m.slice⟩
  let (deletes,txnId,new) := s.deletes.intern ⟨userId,mbid,-1⟩
  (⟨newsgroups,mailboxes,users,deletes⟩,userId,txnId,
    if new then none else (deletes.get? txnId).map Delete.uidDele)

def State.cleanup (s : State) (userId txnId : Nat) : State × Nat :=
  let deletes := s.deletes.filter (fun k r => !(k == txnId && r.uidDele == -1))
  let nr := (deletes.rows.keysWhere (fun _ r => r.userId == userId)).length
  ({ s with
    deletes := deletes
    users := if nr = 0 then s.users.filter (fun k _ => k != userId) else s.users },nr)

section
variable {P D : Type} [DecidableEq P] [DecidableEq D]

/- db.sqlite3, the owners of the bytes of txn.locks and the {txn_locks} of each POP3D. -/
structure Shared (P D : Type) where
  state : State
  fcntl : Int → Option P
  txnLocks : D → List Nat

-- fcntl F_SETLK with F_WRLCK of one byte: a process is never refused a byte of its own.
def setlk (fcntl : Int → Option P) (p : P) (start : Int) : Option (Int → Option P) :=
  if fcntl start = none ∨ fcntl start = some p then some (Function.update fcntl start (some p)) else none

def unlck (fcntl : Int → Option P) (p : P) (start : Int) : Int → Option P :=
  if fcntl start = some p then Function.update fcntl start none else fcntl

/- lock_mailbox of the POP3D `d` in the process `p`: {uid_dele} where it is set, and user_id and
txn_id where the maildrop is locked. -/
def Shared.lockMailbox (s : Shared P D) (p : P) (d : D) (time : Nat) (m : Maildrop) :
    Shared P D × Option Int × Option (Nat × Nat) :=
  let (state,userId,txnId,uidDele) := s.state.ensure time m
  let s := { s with state := state }
  if txnId ∈ s.txnLocks d then (s,uidDele,none)
  else match setlk s.fcntl p (txnId - 1) with
    | none => (s,uidDele,none)
    | some fcntl =>
      ({ s with fcntl := fcntl, txnLocks := Function.update s.txnLocks d (txnId :: s.txnLocks d) },
        uidDele,some (userId,txnId))

def Shared.unlock (s : Shared P D) (p : P) (d : D) (txnId : Nat) : Shared P D :=
  { s with
    txnLocks := Function.update s.txnLocks d ((s.txnLocks d).filter (· ≠ txnId))
    fcntl := unlck s.fcntl p (txnId - 1) }

end

end PublicInbox.POP3D
