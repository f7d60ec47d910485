import Mathlib.Data.List.Infix

/-! The first place of a text where a pattern matches: the text before it, and what the match gives. -/
namespace Leftmost
variable {α β : Type}

def find (pattern : List α → Option β) : List α → Option (List α × β)
  | [] => (pattern []).map (([],·))
  | c :: t =>
    match pattern (c :: t) with
    | some b => some ([],b)
    | none => (find pattern t).map fun found => (c :: found.1,found.2)

theorem findSpec {pattern : List α → Option β} {s p : List α} {b : β} (found : find pattern s = some (p,b)) :
    ∃ u,s = p ++ u ∧ pattern u = some b := by
  induction s generalizing p with
  | nil =>
    obtain ⟨b',is,same⟩ := Option.map_eq_some_iff.mp found
    cases same
    exact ⟨[],rfl,is⟩
  | cons c t ih =>
    unfold find at found
    split at found
    · rename_i b' is
      cases found
      exact ⟨c :: t,rfl,is⟩
    · obtain ⟨⟨p',b'⟩,inside,same⟩ := Option.map_eq_some_iff.mp found
      cases same
      obtain ⟨u,parts,is⟩ := ih inside
      exact ⟨u,congrArg (c :: ·) parts,is⟩

theorem findFirst {pattern : List α → Option β} {q u : List α} {b : β} (is : pattern u = some b) :
    ∃ p b',find pattern (q ++ u) = some (p,b') ∧ p.length ≤ q.length := by
  induction q with
  | nil =>
    cases u with
    | nil => exact ⟨[],b,by rw [List.nil_append,find,is]; rfl,le_rfl⟩
    | cons c t => exact ⟨[],b,by rw [List.nil_append,find,is],le_rfl⟩
  | cons c q ih =>
    rw [List.cons_append,find]
    cases here : pattern (c :: (q ++ u)) with
    | some b' => exact ⟨[],b',rfl,Nat.zero_le _⟩
    | none =>
      obtain ⟨p,b',found,before⟩ := ih
      exact ⟨c :: p,b',by simp only [found,Option.map_some],Nat.succ_le_succ before⟩

theorem findNone {pattern : List α → Option β} {s : List α} :
    find pattern s = none ↔ ∀ q u,s = q ++ u → pattern u = none := by
  constructor
  · intro none q u parts
    cases is : pattern u with
    | none => rfl
    | some b =>
      obtain ⟨p,b',found,_⟩ := findFirst (q := q) is
      rw [← parts,none] at found
      cases found
  · intro nowhere
    cases found : find pattern s with
    | none => rfl
    | some m =>
      obtain ⟨u,parts,is⟩ := findSpec found
      rw [nowhere m.1 u parts] at is
      cases is

theorem findMap {γ : Type} {pattern : List α → Option β} {other : List α → Option γ} {f : β → γ} {s : List α}
    (same : ∀ q u,s = q ++ u → other u = (pattern u).map f) :
    find other s = (find pattern s).map fun found => (found.1,f found.2) := by
  induction s with
  | nil =>
    rw [find,find,same [] [] rfl]
    cases pattern [] <;> rfl
  | cons c t ih =>
    rw [find,find,same [] (c :: t) rfl,ih fun q u parts => same (c :: q) u (congrArg (c :: ·) parts)]
    cases pattern (c :: t) with
    | some b => rfl
    | none => cases find pattern t <;> rfl

variable [DecidableEq α]

def strip (w u : List α) : Option (List α) := if w.isPrefixOf u then some (u.drop w.length) else none

theorem stripSome {w u rest : List α} : strip w u = some rest ↔ u = w ++ rest := by
  unfold strip
  split
  · rename_i starts
    have parts := List.prefix_iff_eq_append.mp (List.isPrefixOf_iff_prefix.mp starts)
    rw [Option.some.injEq]
    constructor
    · rintro rfl
      exact parts.symm
    · rintro rfl
      exact List.drop_left
  · rename_i other
    constructor
    · exact fun none => nomatch none
    · rintro rfl
      exact absurd (List.isPrefixOf_iff_prefix.mpr (List.prefix_append w rest)) other

def index (w s : List α) : Option (List α × List α) := find (strip w) s

end Leftmost
