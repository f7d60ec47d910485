/-! A database connection with a transaction open: what it shows and what a crash leaves. -/

structure Txn (α : Type) where
  shown : α
  stored : α
  deriving DecidableEq, Repr

namespace Txn
variable {α : Type}

def commit (t : Txn α) : Txn α := { t with stored := t.shown }

def rollback (t : Txn α) : Txn α := { t with shown := t.stored }

def write (f : α → α) (t : Txn α) : Txn α := { t with shown := f t.shown }

end Txn
