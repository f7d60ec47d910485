import PublicInbox.Library.Table

/-! Reading a table page by page while others change it. Each query starts behind the last key that the one
before it found, and the reading ends with the first query that finds nothing. -/
namespace Cursor
open Keyed

structure Place (κ γ : Type) [LinearOrder κ] where
  past : γ → κ → Bool
  after : κ → γ
  behind : ∀ l k,past (after l) k = true ↔ l < k
  up : ∀ {c l k},past c l = true → l < k → past c k = true

variable {κ α γ : Type} [LinearOrder κ] (cur : Place κ γ) (lim : Nat) (keep : κ → α → Bool)

def page (t : Table κ α) (c : γ) : List (κ × α) := (t.rows.filter fun r => keep r.1 r.2 && cur.past c r.1).take lim

def read (rows : Nat → Table κ α) : Nat → Nat → γ → Option (List (List (κ × α)))
  | 0,_,_ => none
  | fuel + 1,i,c =>
    match (page cur lim keep (rows i) c).getLast? with
    | none => some []
    | some last => (read rows fuel (i + 1) (cur.after last.1)).map (page cur lim keep (rows i) c :: ·)

structure Reads (rows : Nat → Table κ α) (i : Nat) (c : γ) (pages : List (List (κ × α))) : Prop where
  ascending : pages.flatten.Pairwise fun a b => a.1 < b.1
  past : ∀ r ∈ pages.flatten,cur.past c r.1 = true
  real : ∀ r ∈ pages.flatten,∃ j,i ≤ j ∧ j ≤ i + pages.length ∧ (rows j).get? r.1 = some r.2 ∧ keep r.1 r.2 = true
  all : ∀ k,cur.past c k = true → (∀ j,i ≤ j → j ≤ i + pages.length → ∃ a,(rows j).get? k = some a ∧ keep k a = true) →
    ∃ a,(k,a) ∈ pages.flatten

section
variable {cur : Place κ γ} {lim : Nat} {keep : κ → α → Bool} {t : Table κ α} {c : γ}

theorem pageSorted : (page cur lim keep t c).Pairwise fun a b => a.1 < b.1 := (t.sorted.filter _).sublist (List.take_sublist _ _)

theorem memPage {r : κ × α} (mem : r ∈ page cur lim keep t c) : t.get? r.1 = some r.2 ∧ keep r.1 r.2 = true ∧ cur.past c r.1 = true := by
  obtain ⟨there,kept⟩ := List.mem_filter.mp (List.mem_of_mem_take mem)
  exact ⟨Table.memRows.mp there,Bool.and_eq_true_iff.mp kept⟩

theorem pageOrLater {k : κ} {a : α} (found : t.get? k = some a) (kept : keep k a = true) (past : cur.past c k = true) :
    (k,a) ∈ page cur lim keep t c ∨ ∀ r ∈ page cur lim keep t c,r.1 < k := by
  have mem : (k,a) ∈ t.rows.filter fun r => keep r.1 r.2 && cur.past c r.1 :=
    List.mem_filter.mpr ⟨Table.memRows.mpr found,Bool.and_eq_true_iff.mpr ⟨kept,past⟩⟩
  have sorted := t.sorted.filter fun r => keep r.1 r.2 && cur.past c r.1
  rw [page]
  rw [← List.take_append_drop lim (t.rows.filter _)] at mem sorted
  rcases List.mem_append.mp mem with now | later
  · exact .inl now
  · exact .inr fun r here => (List.pairwise_append.mp sorted).2.2 r here _ later

theorem pageEmpty (room : 0 < lim) {k : κ} {a : α} (found : t.get? k = some a) (kept : keep k a = true) (past : cur.past c k = true) :
    page cur lim keep t c ≠ [] := by
  have mem : (k,a) ∈ t.rows.filter fun r => keep r.1 r.2 && cur.past c r.1 :=
    List.mem_filter.mpr ⟨Table.memRows.mpr found,Bool.and_eq_true_iff.mpr ⟨kept,past⟩⟩
  rw [page,ne_eq,List.take_eq_nil_iff]
  rintro (zero | nil)
  · omega
  · rw [nil] at mem
    cases mem

theorem lastMost {p : List (κ × α)} {last : κ × α} (sorted : p.Pairwise fun a b => a.1 < b.1) (ends : p.getLast? = some last) :
    ∀ r ∈ p,r.1 ≤ last.1 := by
  obtain ⟨front,rfl⟩ := List.getLast?_eq_some_iff.mp ends
  intro r mem
  rcases List.mem_append.mp mem with before | same
  · exact ((List.pairwise_append.mp sorted).2.2 r before last List.mem_cons_self).le
  · rw [List.mem_singleton.mp same]

theorem readReads (room : 0 < lim) {rows : Nat → Table κ α} {fuel i : Nat} {pages : List (List (κ × α))}
    (done : read cur lim keep rows fuel i c = some pages) : Reads cur keep rows i c pages := by
  induction fuel generalizing i c pages with
  | zero => cases done
  | succ fuel ih =>
    rw [read] at done
    cases ends : (page cur lim keep (rows i) c).getLast? with
    | none =>
      rw [ends] at done
      cases done
      refine ⟨.nil,fun _ mem => absurd mem List.not_mem_nil,fun _ mem => absurd mem List.not_mem_nil,fun k past always => ?_⟩
      obtain ⟨a,found,kept⟩ := always i (Nat.le_refl i) (Nat.le_add_right _ _)
      exact absurd (List.getLast?_eq_none_iff.mp ends) (pageEmpty room found kept past)
    | some last =>
      rw [ends] at done
      obtain ⟨rest,more,rfl⟩ := Option.map_eq_some_iff.mp done
      obtain ⟨ascending,past,real,all⟩ := ih more
      have most := lastMost pageSorted ends
      have lastPast := (memPage (List.mem_of_getLast? ends)).2.2
      have later : ∀ r ∈ rest.flatten,last.1 < r.1 := fun r mem => (cur.behind _ _).mp (past r mem)
      refine ⟨?_,?_,?_,?_⟩
      · rw [List.flatten_cons]
        exact List.pairwise_append.mpr ⟨pageSorted,ascending,fun r here s there => (most r here).trans_lt (later s there)⟩
      · intro r mem
        rcases List.mem_append.mp (List.flatten_cons ▸ mem) with here | there
        · exact (memPage here).2.2
        · exact cur.up lastPast (later r there)
      · intro r mem
        rcases List.mem_append.mp (List.flatten_cons ▸ mem) with here | there
        · exact ⟨i,Nat.le_refl i,Nat.le_add_right _ _,(memPage here).1,(memPage here).2.1⟩
        · obtain ⟨j,le,most,found⟩ := real r there
          exact ⟨j,by omega,by rw [List.length_cons]; omega,found⟩
      · intro k past always
        obtain ⟨a,found,kept⟩ := always i (Nat.le_refl i) (Nat.le_add_right _ _)
        rw [List.flatten_cons]
        rcases pageOrLater found kept past with now | beyond
        · exact ⟨a,List.mem_append_left _ now⟩
        · obtain ⟨b,there⟩ := all k ((cur.behind _ _).mpr (beyond last (List.mem_of_getLast? ends))) fun j le most =>
            always j (by omega) (by rw [List.length_cons]; omega)
          exact ⟨b,List.mem_append_right _ there⟩

theorem readExact {rows : Nat → Table κ α} {fuel i : Nat} {pages : List (List (κ × α))} (done : read cur lim keep rows fuel i c = some pages) :
    read cur lim keep rows (pages.length + 1) i c = some pages := by
  induction fuel generalizing i c pages with
  | zero => cases done
  | succ fuel ih =>
    rw [read] at done ⊢
    cases ends : (page cur lim keep (rows i) c).getLast? with
    | none =>
      rw [ends] at done
      exact done
    | some last =>
      rw [ends] at done
      obtain ⟨rest,more,rfl⟩ := Option.map_eq_some_iff.mp done
      exact congrArg (Option.map _) (ih more)

theorem readEnds (ks : List κ) {rows : Nat → Table κ α} (bounded : ∀ j k a,(rows j).get? k = some a → keep k a = true → cur.past c k = true → k ∈ ks) {fuel i : Nat}
    (enough : (ks.filter (cur.past c)).length < fuel) : ∃ pages,read cur lim keep rows fuel i c = some pages := by
  induction fuel generalizing i c with
  | zero => cases enough
  | succ fuel ih =>
    rw [read]
    cases ends : (page cur lim keep (rows i) c).getLast? with
    | none => exact ⟨[],rfl⟩
    | some last =>
      obtain ⟨found,kept,past⟩ := memPage (List.mem_of_getLast? ends)
      have mem := bounded i last.1 last.2 found kept past
      have fewer : (ks.filter (cur.past (cur.after last.1))).length < (ks.filter (cur.past c)).length := by
        have nested : ks.filter (cur.past (cur.after last.1)) = (ks.filter (cur.past c)).filter (cur.past (cur.after last.1)) := by
          rw [List.filter_filter]
          refine List.filter_congr fun k _ => ?_
          cases beyond : cur.past (cur.after last.1) k with
          | false => rfl
          | true => rw [cur.up past ((cur.behind _ _).mp beyond)]; rfl
        rw [nested]
        exact List.length_filter_lt_length_iff_exists.mpr
          ⟨last.1,List.mem_filter.mpr ⟨mem,past⟩,fun beyond => lt_irrefl _ ((cur.behind _ _).mp beyond)⟩
      obtain ⟨rest,more⟩ := ih (i := i + 1) (c := cur.after last.1)
        (fun j k a found kept beyond => bounded j k a found kept (cur.up past ((cur.behind _ _).mp beyond))) (by omega)
      exact ⟨_,congrArg (Option.map _) more⟩

end

end Cursor
