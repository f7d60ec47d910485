import Mathlib.Order.Lattice
import Mathlib.Order.Defs.LinearOrder
import Mathlib.Data.List.Basic

/-! A relation with a primary key. Rows are kept in key order, so two rows never share a
key, the stored order is the ORDER BY of the key, and equality is equality of lookups. -/
namespace Keyed

structure Table (κ α : Type) [LinearOrder κ] where
  rows : List (κ × α)
  sorted : rows.Pairwise (fun a b => a.1 < b.1)

namespace Table
variable {κ α β : Type} [LinearOrder κ]

def empty : Table κ α := ⟨[],.nil⟩

def find (k : κ) : List (κ × α) → Option α
  | [] => none
  | r :: rs => if r.1 = k then some r.2 else find k rs

def get? (t : Table κ α) (k : κ) : Option α := find k t.rows

def keys (t : Table κ α) : List κ := t.rows.map Prod.fst

def put (k : κ) (a : α) : List (κ × α) → List (κ × α)
  | [] => [(k,a)]
  | r :: rs => if k < r.1 then (k,a) :: r :: rs
      else if k = r.1 then (k,a) :: rs else r :: put k a rs

theorem putFirst {k : κ} {a : α} {rows : List (κ × α)} {x : κ × α} (mem : x ∈ put k a rows) :
    x = (k,a) ∨ x ∈ rows := by
  induction rows with
  | nil => exact Or.inl (List.mem_singleton.mp mem)
  | cons r rs ih =>
    unfold put at mem
    split at mem
    · rcases List.mem_cons.mp mem with same | rest
      · exact Or.inl same
      · exact Or.inr rest
    · split at mem
      · rcases List.mem_cons.mp mem with same | rest
        · exact Or.inl same
        · exact Or.inr (List.mem_cons_of_mem _ rest)
      · rcases List.mem_cons.mp mem with same | rest
        · exact Or.inr (same ▸ List.mem_cons_self)
        · exact (ih rest).imp id (List.mem_cons_of_mem _)

theorem putSorted {k : κ} {a : α} {rows : List (κ × α)}
    (sorted : rows.Pairwise (fun a b => a.1 < b.1)) :
    (put k a rows).Pairwise (fun a b => a.1 < b.1) := by
  induction rows with
  | nil => simp [put]
  | cons r rs ih =>
    obtain ⟨above,rest⟩ := List.pairwise_cons.mp sorted
    unfold put
    split
    · rename_i below
      refine List.pairwise_cons.mpr ⟨?_,sorted⟩
      intro x mem
      rcases List.mem_cons.mp mem with rfl | inside
      · exact below
      · exact below.trans (above x inside)
    · split
      · rename_i same
        exact List.pairwise_cons.mpr ⟨fun x mem => same ▸ above x mem,rest⟩
      · rename_i notBelow different
        refine List.pairwise_cons.mpr ⟨?_,ih rest⟩
        intro x mem
        rcases putFirst mem with rfl | inside
        · exact lt_of_le_of_ne (not_lt.mp notBelow) (fun h => different h.symm)
        · exact above x inside

def insert (t : Table κ α) (k : κ) (a : α) : Table κ α := ⟨put k a t.rows,putSorted t.sorted⟩

def filter (t : Table κ α) (keep : κ → α → Bool) : Table κ α :=
  ⟨t.rows.filter (fun r => keep r.1 r.2),t.sorted.filter _⟩

def erase (t : Table κ α) (k : κ) : Table κ α := t.filter (fun j _ => j ≠ k)

def map (t : Table κ α) (f : κ → α → β) : Table κ β :=
  ⟨t.rows.map (fun r => (r.1,f r.1 r.2)),List.pairwise_map.mpr t.sorted⟩

theorem findNone {k : κ} {rows : List (κ × α)} (absent : ∀ r ∈ rows, r.1 ≠ k) :
    find k rows = none := by
  induction rows with
  | nil => rfl
  | cons r rs ih =>
    have head := absent r List.mem_cons_self
    simp only [find,if_neg head]
    exact ih (fun x mem => absent x (List.mem_cons_of_mem _ mem))

theorem findMem {k : κ} {a : α} {rows : List (κ × α)} (found : find k rows = some a) :
    (k,a) ∈ rows := by
  induction rows with
  | nil => simp [find] at found
  | cons r rs ih =>
    unfold find at found
    split at found
    · rename_i same
      cases found
      rw [← same]
      exact List.mem_cons_self
    · exact List.mem_cons_of_mem _ (ih found)

theorem memFind {k : κ} {a : α} {rows : List (κ × α)}
    (sorted : rows.Pairwise (fun a b => a.1 < b.1)) (mem : (k,a) ∈ rows) :
    find k rows = some a := by
  induction rows with
  | nil => simp at mem
  | cons r rs ih =>
    obtain ⟨above,rest⟩ := List.pairwise_cons.mp sorted
    rcases List.mem_cons.mp mem with rfl | inside
    · simp [find]
    · have different : r.1 ≠ k := ne_of_lt (above _ inside)
      simp only [find,if_neg different]
      exact ih rest inside

theorem memRows {t : Table κ α} {k : κ} {a : α} : (k,a) ∈ t.rows ↔ t.get? k = some a :=
  ⟨memFind t.sorted,findMem⟩

theorem memKeys {t : Table κ α} {k : κ} : k ∈ t.keys ↔ ∃ a, t.get? k = some a := by
  constructor
  · intro mem
    obtain ⟨⟨j,a⟩,inside,same⟩ := List.mem_map.mp mem
    cases same
    exact ⟨a,memRows.mp inside⟩
  · rintro ⟨a,found⟩
    exact List.mem_map.mpr ⟨(k,a),memRows.mpr found,rfl⟩

theorem keysSorted (t : Table κ α) : t.keys.Pairwise (· < ·) := List.pairwise_map.mpr t.sorted

theorem keysNodup (t : Table κ α) : t.keys.Nodup := (keysSorted t).imp ne_of_lt

@[simp] theorem getEmpty (k : κ) : (empty : Table κ α).get? k = none := rfl

theorem findPut (k : κ) (a : α) (rows : List (κ × α)) (j : κ) :
    find j (put k a rows) = if j = k then some a else find j rows := by
  induction rows with
  | nil =>
    by_cases same : j = k
    · simp [put,find,same]
    · simp [put,find,same,Ne.symm same]
  | cons r rs ih =>
    unfold put
    split
    · by_cases same : j = k
      · simp [find,same]
      · simp [find,same,Ne.symm same]
    · split
      · rename_i eq
        by_cases same : j = k
        · simp [find,same]
        · simp [find,same,Ne.symm same,← eq]
      · rename_i different
        by_cases head : r.1 = j
        · have other : j ≠ k := fun h => different (h.symm.trans head.symm)
          simp [find,head,other]
        · simp only [find,if_neg head]
          exact ih

@[simp] theorem getInsert (t : Table κ α) (k : κ) (a : α) (j : κ) :
    (t.insert k a).get? j = if j = k then some a else t.get? j := findPut k a t.rows j

@[simp] theorem getFilter (t : Table κ α) (keep : κ → α → Bool) (k : κ) :
    (t.filter keep).get? k = (t.get? k).filter (fun a => keep k a) := by
  cases found : t.get? k with
  | none =>
    refine findNone ?_
    rintro ⟨j,a⟩ mem rfl
    have inside := memRows.mp (List.mem_filter.mp mem).1
    rw [found] at inside
    contradiction
  | some a =>
    have mem := memRows.mpr found
    by_cases kept : keep k a
    · have inside : (k,a) ∈ (t.filter keep).rows := List.mem_filter.mpr ⟨mem,kept⟩
      rw [memRows.mp inside,Option.filter_some,if_pos kept]
    · simp only [Option.filter,kept]
      refine findNone ?_
      rintro ⟨j,b⟩ inside rfl
      obtain ⟨old,yes⟩ := List.mem_filter.mp inside
      have same := memRows.mp old
      rw [found] at same
      cases same
      exact kept yes

@[simp] theorem getErase (t : Table κ α) (k j : κ) :
    (t.erase k).get? j = if j = k then none else t.get? j := by
  unfold erase
  rw [getFilter]
  by_cases same : j = k
  · cases found : t.get? j <;> simp [same,Option.filter]
  · cases found : t.get? j <;> simp [same,Option.filter]

@[simp] theorem getMap (t : Table κ α) (f : κ → α → β) (k : κ) :
    (t.map f).get? k = (t.get? k).map (f k) := by
  cases found : t.get? k with
  | none =>
    refine findNone ?_
    rintro ⟨j,b⟩ mem rfl
    obtain ⟨⟨i,a⟩,inside,same⟩ := List.mem_map.mp mem
    cases same
    have old := memRows.mp inside
    rw [found] at old
    contradiction
  | some a =>
    have inside : (k,f k a) ∈ (t.map f).rows :=
      List.mem_map.mpr ⟨(k,a),memRows.mpr found,rfl⟩
    simpa using memRows.mp inside

def update (t : Table κ α) (k : κ) (f : α → α) : Table κ α := t.map (fun j a => if j = k then f a else a)

@[simp] theorem getUpdate (t : Table κ α) (k : κ) (f : α → α) (j : κ) :
    (t.update k f).get? j = if j = k then (t.get? j).map f else t.get? j := by
  unfold update
  rw [getMap]
  by_cases same : j = k
  · simp [same]
  · simp [same]

@[simp] theorem keysUpdate (t : Table κ α) (k : κ) (f : α → α) : (t.update k f).keys = t.keys := by
  simp [keys,update,map]

theorem rowsExt {l m : List (κ × α)} (left : l.Pairwise (fun a b => a.1 < b.1))
    (right : m.Pairwise (fun a b => a.1 < b.1)) (same : ∀ r, r ∈ l ↔ r ∈ m) : l = m := by
  induction l generalizing m with
  | nil =>
    cases m with
    | nil => rfl
    | cons r rs => exact absurd ((same r).mpr List.mem_cons_self) (by simp)
  | cons r rs ih =>
    cases m with
    | nil => exact absurd ((same r).mp List.mem_cons_self) (by simp)
    | cons q qs =>
      obtain ⟨aboveR,restR⟩ := List.pairwise_cons.mp left
      obtain ⟨aboveQ,restQ⟩ := List.pairwise_cons.mp right
      have head : r = q := by
        rcases List.mem_cons.mp ((same r).mp List.mem_cons_self) with h | inQ
        · exact h
        · rcases List.mem_cons.mp ((same q).mpr List.mem_cons_self) with h | inR
          · exact h.symm
          · exact absurd ((aboveQ r inQ).trans (aboveR q inR)) (lt_irrefl _)
      subst head
      have tail : ∀ x, x ∈ rs ↔ x ∈ qs := by
        intro x
        constructor
        · intro mem
          rcases List.mem_cons.mp ((same x).mp (List.mem_cons_of_mem _ mem)) with h | h
          · exact absurd (aboveR x mem) (h ▸ lt_irrefl _)
          · exact h
        · intro mem
          rcases List.mem_cons.mp ((same x).mpr (List.mem_cons_of_mem _ mem)) with h | h
          · exact absurd (aboveQ x mem) (h ▸ lt_irrefl _)
          · exact h
      rw [ih restR restQ tail]

theorem ext {t u : Table κ α} (same : ∀ k, t.get? k = u.get? k) : t = u := by
  have rows : t.rows = u.rows := by
    refine rowsExt t.sorted u.sorted ?_
    rintro ⟨k,a⟩
    rw [memRows,memRows,same k]
  cases t
  cases u
  cases rows
  rfl

def keysWhere (t : Table κ α) (p : κ → α → Bool) : List κ := (t.filter p).keys

theorem memKeysWhere {t : Table κ α} {p : κ → α → Bool} {k : κ} :
    k ∈ t.keysWhere p ↔ ∃ a, t.get? k = some a ∧ p k a = true := by
  unfold keysWhere
  rw [memKeys]
  constructor
  · rintro ⟨a,found⟩
    rw [getFilter,Option.filter_eq_some_iff] at found
    exact ⟨a,found⟩
  · rintro ⟨a,found,yes⟩
    exact ⟨a,by rw [getFilter,Option.filter_eq_some_iff]; exact ⟨found,yes⟩⟩

theorem keysWhereSorted (t : Table κ α) (p : κ → α → Bool) :
    (t.keysWhere p).Pairwise (· < ·) := keysSorted _

theorem putLast {k : κ} {a : α} {rows : List (κ × α)} (last : ∀ r ∈ rows, r.1 < k) :
    put k a rows = rows ++ [(k,a)] := by
  induction rows with
  | nil => rfl
  | cons r rs ih =>
    have below := last r List.mem_cons_self
    simp only [put,if_neg (not_lt.mpr below.le),if_neg (ne_of_gt below),List.cons_append]
    rw [ih (fun x mem => last x (List.mem_cons_of_mem _ mem))]

end Table
end Keyed
