import PublicInbox.Library.Table

/-! A table whose rows are kept in several ones, each of them for the keys of one band. -/
namespace Bands
open Keyed
variable {κ ι α : Type} [LinearOrder κ] [LinearOrder ι]

def Placed (band : κ → ι) (t : Table ι (Table κ α)) : Prop := ∀ i u,t.get? i = some u → ∀ k ∈ u.keys,band k = i

def look (band : κ → ι) (t : Table ι (Table κ α)) (k : κ) : Option α := (t.get? (band k)).bind (·.get? k)

def flat (t : Table ι (Table κ α)) : List (κ × α) := t.rows.flatMap (·.2.rows)

variable {band : κ → ι} {t : Table ι (Table κ α)}

theorem memFlat (placed : Placed band t) {k : κ} {a : α} : (k,a) ∈ flat t ↔ look band t k = some a := by
  rw [flat,List.mem_flatMap,look,Option.bind_eq_some_iff]
  constructor
  · rintro ⟨⟨i,u⟩,there,mem⟩
    have found := Table.memRows.mp there
    have same := placed i u found k (Table.memKeys.mpr ⟨a,Table.memRows.mp mem⟩)
    exact ⟨u,same ▸ found,Table.memRows.mp mem⟩
  · rintro ⟨u,found,mem⟩
    exact ⟨(band k,u),Table.memRows.mpr found,Table.memRows.mpr mem⟩

theorem flatSorted (mono : ∀ k l,band k < band l → k < l) (placed : Placed band t) :
    (flat t).Pairwise (fun a b => a.1 < b.1) := by
  rw [flat,List.pairwise_flatMap]
  refine ⟨fun r _ => r.2.sorted,?_⟩
  refine t.sorted.imp_of_mem fun {r q} inR inQ below => ?_
  have band' : ∀ {r : ι × Table κ α},r ∈ t.rows → ∀ x ∈ r.2.rows,band x.1 = r.1 := fun {r} mem x inside =>
    placed r.1 r.2 (Table.memRows.mp mem) x.1 (List.mem_map_of_mem inside)
  intro x inX y inY
  refine mono x.1 y.1 ?_
  rw [band' inR x inX,band' inQ y inY]
  exact below

end Bands
