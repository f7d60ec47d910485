import Mathlib.Algebra.Group.Int.Defs
import Mathlib.Algebra.Order.Group.Int
import Mathlib.Data.Int.Order.Basic
import PublicInbox.Library.Table

/-! An SQLite table (key INTEGER PRIMARY KEY AUTOINCREMENT, value NOT NULL UNIQUE) with its
sqlite_sequence entry. The sequence takes in an explicit key before the constraints of its
row are checked, so INSERT OR IGNORE moves it even where the row is ignored. -/
namespace Keyed

def maxRowid : Int := 2^63 - 1

structure Auto (α : Type) where
  rows : Table Int α
  seq : Int
  nonneg : 0 ≤ seq
  below : ∀ k a, rows.get? k = some a → k ≤ seq
  unique : ∀ j k a, rows.get? j = some a → rows.get? k = some a → j = k

namespace Auto
variable {α : Type}

def empty : Auto α := ⟨.empty,0,le_refl 0,by simp,by simp⟩

def max? (t : Auto α) : Option Int := t.rows.keys.getLast?

theorem aboveFree (t : Auto α) : t.rows.get? (t.seq + 1) = none := by
  cases found : t.rows.get? (t.seq + 1) with
  | none => rfl
  | some a =>
    have below := t.below _ a found
    omega

def bump (t : Auto α) (k : Int) : Auto α :=
  { t with
    seq := max t.seq k
    nonneg := le_trans t.nonneg (le_max_left _ _)
    below := fun j a found => le_trans (t.below j a found) (le_max_left _ _) }

def restrict (t : Auto α) (keep : Int → α → Bool) : Auto α where
  rows := t.rows.filter keep
  seq := t.seq
  nonneg := t.nonneg
  below := by
    intro k a found
    rw [Table.getFilter,Option.filter_eq_some_iff] at found
    exact t.below k a found.1
  unique := by
    intro j k a left right
    rw [Table.getFilter,Option.filter_eq_some_iff] at left right
    exact t.unique j k a left.1 right.1

theorem restrictFound {t : Auto α} {keep : Int → α → Bool} {k : Int} {a : α} :
    (t.restrict keep).rows.get? k = some a ↔ t.rows.get? k = some a ∧ keep k a = true := by
  simp only [restrict,Table.getFilter,Option.filter_eq_some_iff]

def deleteKey (t : Auto α) (k : Int) : Auto α := t.restrict (fun j _ => j ≠ k)

variable [DecidableEq α]

def keyOf (t : Auto α) (a : α) : Option Int := (t.rows.keysWhere (fun _ b => b = a)).head?

theorem keyOfExact {t : Auto α} {a : α} {k : Int} : t.keyOf a = some k ↔ t.rows.get? k = some a := by
  unfold keyOf
  constructor
  · intro head
    obtain ⟨b,found,same⟩ := Table.memKeysWhere.mp (List.mem_of_head? head)
    rw [found,of_decide_eq_true same]
  · intro found
    have mem : k ∈ t.rows.keysWhere (fun _ b => b = a) :=
      Table.memKeysWhere.mpr ⟨a,found,decide_eq_true rfl⟩
    cases keys : t.rows.keysWhere (fun _ b => b = a) with
    | nil => rw [keys] at mem; contradiction
    | cons j rest =>
      have first : j ∈ t.rows.keysWhere (fun _ b => b = a) := keys ▸ List.mem_cons_self
      obtain ⟨b,other,same⟩ := Table.memKeysWhere.mp first
      rw [of_decide_eq_true same] at other
      rw [List.head?_cons,t.unique j k a other found]

theorem keyOfNone {t : Auto α} {a : α} : t.keyOf a = none ↔ ∀ k, t.rows.get? k ≠ some a := by
  constructor
  · intro absent k found
    rw [keyOfExact.mpr found] at absent
    contradiction
  · intro absent
    cases found : t.keyOf a with
    | none => rfl
    | some k => exact absurd (keyOfExact.mp found) (absent k)

def add (t : Auto α) (k : Int) (a : α) (_free : t.rows.get? k = none) (fresh : t.keyOf a = none) :
    Auto α where
  rows := t.rows.insert k a
  seq := max t.seq k
  nonneg := le_trans t.nonneg (le_max_left _ _)
  below := by
    intro j b found
    rw [Table.getInsert] at found
    split at found
    · rename_i same
      exact same ▸ le_max_right _ _
    · exact le_trans (t.below j b found) (le_max_left _ _)
  unique := by
    intro i j b left right
    rw [Table.getInsert] at left right
    have absent := keyOfNone.mp fresh
    split at left <;> split at right
    · rename_i hi hj
      exact hi.trans hj.symm
    · cases left
      exact absurd right (absent j)
    · cases right
      exact absurd left (absent i)
    · exact t.unique i j b left right

inductive Inserted where
  | key (k : Int)
  | constraint
  | full
  deriving DecidableEq, Repr

def insert (t : Auto α) (a : α) : Auto α × Inserted :=
  if maxRowid ≤ t.seq then (t,.full)
  else match fresh : t.keyOf a with
    | some _ => (t,.constraint)
    | none => (t.add (t.seq + 1) a t.aboveFree fresh,.key (t.seq + 1))

def insertOrIgnore (t : Auto α) (k : Int) (a : Option α) : Option (Auto α × Nat) :=
  if k < -2^63 ∨ maxRowid < k then none
  else match a with
    | none => some (t.bump k,0)
    | some a => match free : t.rows.get? k, fresh : t.keyOf a with
      | none,none => some (t.add k a free fresh,1)
      | _,_ => some (t.bump k,0)

def deleteValue (t : Auto α) (a : α) : Auto α := t.restrict (fun _ b => b ≠ a)

theorem insertKey {t u : Auto α} {a : α} {k : Int} (done : t.insert a = (u,.key k)) :
    k = t.seq + 1 ∧ u.seq = t.seq + 1 ∧ t.keyOf a = none ∧ u.rows = t.rows.insert k a := by
  unfold insert at done
  split at done
  · simp at done
  · split at done
    · simp at done
    · rename_i fresh
      obtain ⟨rfl,same⟩ := Prod.mk.inj done
      cases same
      exact ⟨rfl,max_eq_right (by omega),fresh,rfl⟩

theorem insertConstraint {t u : Auto α} {a : α} (done : t.insert a = (u,.constraint)) :
    u = t ∧ ∃ k, t.keyOf a = some k := by
  unfold insert at done
  split at done
  · simp at done
  · split at done
    · rename_i k found
      exact ⟨(Prod.mk.inj done).1.symm,k,found⟩
    · simp at done

theorem insertOrIgnoreSpec {t u : Auto α} {k : Int} {a : Option α} {n : Nat}
    (done : t.insertOrIgnore k a = some (u,n)) :
    u.seq = max t.seq k ∧
    (n = 0 ∧ u.rows = t.rows ∨ n = 1 ∧ ∃ b, a = some b ∧ u.rows = t.rows.insert k b) := by
  unfold insertOrIgnore at done
  split at done
  · contradiction
  · split at done
    · obtain ⟨rfl,rfl⟩ := Prod.mk.inj (Option.some.inj done)
      exact ⟨rfl,Or.inl ⟨rfl,rfl⟩⟩
    · split at done
      · obtain ⟨rfl,rfl⟩ := Prod.mk.inj (Option.some.inj done)
        exact ⟨rfl,Or.inr ⟨rfl,_,rfl,rfl⟩⟩
      · obtain ⟨rfl,rfl⟩ := Prod.mk.inj (Option.some.inj done)
        exact ⟨rfl,Or.inl ⟨rfl,rfl⟩⟩

end Auto
end Keyed
