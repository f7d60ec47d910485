import PublicInbox.Library.Table

/-! An SQLite table with an INTEGER PRIMARY KEY, without AUTOINCREMENT, and a UNIQUE set of
columns `col`. A new row has the key above the largest one, so the key of a deleted row can
come back. -/
namespace Keyed

structure Serial {α γ : Type} (col : α → γ) where
  rows : Table Nat α
  unique : ∀ j k a b,rows.get? j = some a → rows.get? k = some b → col a = col b → j = k

namespace Serial
variable {α γ : Type} {col : α → γ}

def empty : Serial col := ⟨.empty,by simp⟩

def get? (t : Serial col) (k : Nat) : Option α := t.rows.get? k

def nextKey (t : Serial col) : Nat := t.rows.keys.getLast?.getD 0 + 1

theorem nextFree (t : Serial col) : t.get? t.nextKey = none := by
  cases found : t.get? t.nextKey with
  | none => rfl
  | some a =>
    have mem : t.nextKey ∈ t.rows.keys := Table.memKeys.mpr ⟨a,found⟩
    obtain ⟨front,last,split⟩ := List.eq_nil_or_concat t.rows.keys |>.resolve_left (List.ne_nil_of_mem mem)
    have sorted := split ▸ Table.keysSorted t.rows
    have next : t.nextKey = last + 1 := by simp [nextKey,split]
    rw [split,next,List.concat_eq_append] at mem
    rw [List.concat_eq_append,List.pairwise_append] at sorted
    rcases List.mem_append.mp mem with before | here
    · have := sorted.2.2 _ before last List.mem_cons_self
      omega
    · simp at here

def update (t : Serial col) (k : Nat) (f : α → α) (same : ∀ a,col (f a) = col a) : Serial col where
  rows := t.rows.update k f
  unique := by
    intro i j a b left right cols
    rw [Table.getUpdate] at left right
    have kept : ∀ {n c},(if n = k then (t.rows.get? n).map f else t.rows.get? n) = some c →
        ∃ d,t.rows.get? n = some d ∧ col d = col c := by
      intro n c found
      split at found
      · obtain ⟨d,own,rfl⟩ := Option.map_eq_some_iff.mp found
        exact ⟨d,own,(same d).symm⟩
      · exact ⟨c,found,rfl⟩
    obtain ⟨c,foundLeft,colLeft⟩ := kept left
    obtain ⟨d,foundRight,colRight⟩ := kept right
    exact t.unique i j c d foundLeft foundRight (colLeft.trans (cols.trans colRight.symm))

@[simp] theorem getUpdate (t : Serial col) (k : Nat) (f : α → α) (same : ∀ a,col (f a) = col a) (j : Nat) :
    (t.update k f same).get? j = if j = k then (t.get? j).map f else t.get? j := Table.getUpdate _ _ _ _

def filter (t : Serial col) (keep : Nat → α → Bool) : Serial col where
  rows := t.rows.filter keep
  unique := by
    intro i j a b left right cols
    rw [Table.getFilter,Option.filter_eq_some_iff] at left right
    exact t.unique i j a b left.1 right.1 cols

theorem getFilter {t : Serial col} {keep : Nat → α → Bool} {k : Nat} {a : α} :
    (t.filter keep).get? k = some a ↔ t.get? k = some a ∧ keep k a = true := by
  simp only [get?,filter,Table.getFilter,Option.filter_eq_some_iff]

variable [DecidableEq γ]

def keyOf (t : Serial col) (c : γ) : Option Nat := (t.rows.keysWhere (fun _ a => col a = c)).head?

theorem keyOfExact {t : Serial col} {c : γ} {k : Nat} :
    t.keyOf c = some k ↔ ∃ a,t.get? k = some a ∧ col a = c := by
  unfold keyOf
  constructor
  · intro head
    obtain ⟨a,found,same⟩ := Table.memKeysWhere.mp (List.mem_of_head? head)
    exact ⟨a,found,of_decide_eq_true same⟩
  · rintro ⟨a,found,rfl⟩
    have mem : k ∈ t.rows.keysWhere (fun _ b => col b = col a) :=
      Table.memKeysWhere.mpr ⟨a,found,decide_eq_true rfl⟩
    cases keys : t.rows.keysWhere (fun _ b => col b = col a) with
    | nil => simp [keys] at mem
    | cons j rest =>
      obtain ⟨b,other,same⟩ := Table.memKeysWhere.mp (keys ▸ List.mem_cons_self : j ∈ t.rows.keysWhere _)
      rw [List.head?_cons,t.unique j k b a other found (of_decide_eq_true same)]

theorem keyOfNone {t : Serial col} {c : γ} : t.keyOf c = none ↔ ∀ k a,t.get? k = some a → col a ≠ c := by
  constructor
  · intro none k a found same
    rw [keyOfExact.mpr ⟨a,found,same⟩] at none
    cases none
  · intro absent
    cases key : t.keyOf c with
    | none => rfl
    | some k =>
      obtain ⟨a,found,same⟩ := keyOfExact.mp key
      exact absurd same (absent k a found)

def intern (t : Serial col) (a : α) : Serial col × Nat × Bool :=
  match key : t.keyOf (col a) with
  | some k => (t,k,false)
  | none =>
    (⟨t.rows.insert t.nextKey a,by
      intro i j b c left right cols
      have absent := keyOfNone.mp key
      simp only [Table.getInsert] at left right
      split at left <;> split at right
      · rename_i here there
        exact here.trans there.symm
      · obtain rfl := Option.some.inj left
        exact absurd cols.symm (absent j c right)
      · obtain rfl := Option.some.inj right
        exact absurd cols (absent i b left)
      · exact t.unique i j b c left right cols⟩,t.nextKey,true)

theorem internFound {t : Serial col} {a : α} {k : Nat} (key : t.keyOf (col a) = some k) : t.intern a = (t,k,false) := by
  unfold intern
  split
  · rename_i found
    rw [Option.some.inj (key.symm.trans found)]
  · rename_i none
    rw [none] at key
    cases key

theorem internNew {t : Serial col} {a : α} (none : t.keyOf (col a) = none) :
    (t.intern a).2 = (t.nextKey,true) ∧ ∀ k,(t.intern a).1.get? k = if k = t.nextKey then some a else t.get? k := by
  unfold intern
  split
  · rename_i found
    rw [none] at found
    cases found
  · exact ⟨rfl,fun k => Table.getInsert _ _ _ _⟩

theorem internHas (t : Serial col) (a : α) : ∃ b,(t.intern a).1.get? (t.intern a).2.1 = some b ∧ col b = col a := by
  cases key : t.keyOf (col a) with
  | some k =>
    rw [internFound key]
    exact keyOfExact.mp key
  | none =>
    obtain ⟨made,get⟩ := internNew key
    exact ⟨a,by rw [get,made,if_pos rfl],rfl⟩

theorem internKeeps {t : Serial col} {a b : α} {k : Nat} (found : t.get? k = some b) : (t.intern a).1.get? k = some b := by
  cases key : t.keyOf (col a) with
  | some j => rwa [internFound key]
  | none =>
    rw [(internNew key).2,if_neg]
    · exact found
    · rintro rfl
      rw [nextFree] at found
      cases found

theorem internOnly {t : Serial col} {a b : α} {k : Nat} (found : (t.intern a).1.get? k = some b) :
    t.get? k = some b ∨ (t.keyOf (col a) = none ∧ k = t.nextKey ∧ b = a) := by
  cases key : t.keyOf (col a) with
  | some j =>
    rw [internFound key] at found
    exact Or.inl found
  | none =>
    rw [(internNew key).2] at found
    split at found
    · rename_i here
      exact Or.inr ⟨rfl,here,(Option.some.inj found).symm⟩
    · exact Or.inl found

end Serial
end Keyed
