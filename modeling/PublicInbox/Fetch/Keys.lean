import Mathlib.Data.List.Infix
import Mathlib.Data.Set.List
import PublicInbox.Fetch

/-! The keys of a manifest: what the patterns of the fetch make of the key of an epoch. -/
namespace PublicInbox.Fetch
open Decimal

def keyOf (path : Text) (n : Nat) : Text := path ++ slashGit ++ render n ++ dotGit

theorem renderInj {n m : Nat} (same : render n = render m) : n = m := by
  rw [← valueRender n,same,valueRender]

theorem epochNameRender (n : Nat) : epochName (render n ++ dotGit) = some (render n) := by
  have digits : (render n).all Char.isDigit = true := List.all_eq_true.mpr (renderDigits n)
  have cut : (render n ++ dotGit).length - 4 = (render n).length := by
    rw [List.length_append]
    exact Nat.add_sub_cancel _ 4
  simp only [epochName,cut,List.take_left,List.drop_left,digits,renderSome n,ne_eq,not_false_eq_true,and_self,if_true]

theorem renderUnslashed (n : Nat) : ∀ c ∈ render n ++ dotGit, (c != '/') = true := by
  intro c mem
  rcases List.mem_append.mp mem with mem | mem
  · have digit := renderDigits n c mem
    rw [bne_iff_ne]
    rintro rfl
    exact absurd digit (by decide)
  · exact List.all_eq_true.mp (show dotGit.all (· != '/') = true by decide) c mem

theorem behindSlash (front name : Text) (unslashed : ∀ c ∈ name, (c != '/') = true) :
    ((front ++ '/' :: name).reverse.takeWhile (· != '/')).reverse = name := by
  rw [List.reverse_append,List.reverse_cons,List.append_assoc,
    List.takeWhile_append_of_pos fun c mem => unslashed c (List.mem_reverse.mp mem)]
  simp

theorem epochOfKey (path : Text) (n : Nat) : epochOf (keyOf path n) = some (render n) := by
  have shape : keyOf path n = (path ++ ['/','g','i','t']) ++ '/' :: (render n ++ dotGit) := by simp [keyOf,slashGit]
  rw [shape,epochOf,behindSlash _ _ (renderUnslashed n),epochNameRender]
  simp

theorem keyInj {path : Text} {n m : Nat} (same : keyOf path n = keyOf path m) : n = m := by
  have found := epochOfKey path n
  rw [same,epochOfKey] at found
  exact (renderInj (Option.some.inj found)).symm

theorem isEpochOfKey (path : Text) (n : Nat) : isEpochOf path (keyOf path n) = true := by
  have shape : keyOf path n = (path ++ slashGit) ++ (render n ++ dotGit) := by simp [keyOf]
  rw [isEpochOf,shape,List.drop_left,epochNameRender]
  simp

theorem pathNoKey (path : Text) (n : Nat) : path ≠ keyOf path n := by
  intro same
  have short := congrArg List.length same
  simp [keyOf,slashGit] at short

def Keyed (path : Text) (m : Manifest) : Prop := (m.map Prod.fst).Nodup ∧ ∀ k ∈ m.map Prod.fst, ∃ n, k = keyOf path n

theorem Keyed.numbers {path : Text} {m : Manifest} (keyed : Keyed path m) :
    ∃ ns : List Nat, ns.Nodup ∧ m.map Prod.fst = ns.map (keyOf path) := by
  obtain ⟨ns,same⟩ : m.map Prod.fst ∈ Set.range (List.map (keyOf path)) := by
    rw [Set.range_list_map]
    intro k mem
    obtain ⟨n,rfl⟩ := keyed.2 k mem
    exact ⟨n,rfl⟩
  have apart := keyed.1
  rw [← same] at apart
  exact ⟨ns,List.Nodup.of_map _ apart,same.symm⟩

theorem Keyed.filter {path : Text} {m : Manifest} (keyed : Keyed path m) (p : Text × Entry → Bool) :
    Keyed path (m.filter p) := by
  have part : List.Sublist ((m.filter p).map Prod.fst) (m.map Prod.fst) := List.filter_sublist.map _
  exact ⟨keyed.1.sublist part,fun k mem => keyed.2 k (part.subset mem)⟩

theorem lookupNone {path : Text} {m : Manifest} (keyed : Keyed path m) : m.lookup path = none := by
  rw [List.lookup_eq_none_iff]
  intro e mem
  obtain ⟨n,same⟩ := keyed.2 e.1 (List.mem_map.mpr ⟨e,mem,rfl⟩)
  rw [same]
  simpa using pathNoKey path n

theorem deduceKeyed {path : Text} {m : Manifest} (keyed : Keyed (chopSlashes path) m) (nonempty : m ≠ []) :
    (deduceEpochs m path).2 = m.map Prod.fst := by
  have all : (m.map Prod.fst).filter (isEpochOf (chopSlashes path)) = m.map Prod.fst := by
    rw [List.filter_eq_self]
    intro k mem
    obtain ⟨n,rfl⟩ := keyed.2 k mem
    exact isEpochOfKey _ n
  unfold deduceEpochs deduceLoop
  rw [lookupNone keyed,all]
  simp [nonempty]

/- Where the expression made of several numbers matches a key: /git/ stands before the first of them only and .git
behind the last one only. -/
def Swept (keys : List Text) (key : Text) : Prop := ∃ first mids last,keys = first :: (mids ++ [last]) ∧
  (slashGit ++ first <:+: key ∨ (∃ mid ∈ mids,mid <:+: key) ∨ last ++ dotGit <:+ key)

theorem hasIff (part s : Text) : has part s = true ↔ part <:+: s := by
  simp only [has,List.any_eq_true,List.mem_tails,List.isPrefixOf_iff_prefix,List.infix_iff_prefix_suffix]
  exact ⟨fun ⟨t,suffix,before⟩ => ⟨t,before,suffix⟩,fun ⟨t,before,suffix⟩ => ⟨t,suffix,before⟩⟩

theorem laterIff (mids : List Text) (last key : Text) :
    laterMatches (mids ++ [last]) key = true ↔ (∃ mid ∈ mids,mid <:+: key) ∨ last ++ dotGit <:+ key := by
  induction mids with
  | nil => simp [laterMatches]
  | cons mid mids ih =>
    have more : mids ++ [last] ≠ [] := by simp
    have step : laterMatches (mid :: (mids ++ [last])) key = (has mid key || laterMatches (mids ++ [last]) key) := by
      obtain ⟨m,ms,same⟩ := List.exists_cons_of_ne_nil more
      rw [same]
      rfl
    rw [List.cons_append,step,Bool.or_eq_true,hasIff,ih]
    simp [or_assoc]

theorem reIff (first : Text) (mids : List Text) (last key : Text) :
    reMatches (first :: (mids ++ [last])) key = true ↔ Swept (first :: (mids ++ [last])) key := by
  have step : reMatches (first :: (mids ++ [last])) key =
      (has (slashGit ++ first) key || laterMatches (mids ++ [last]) key) := by
    obtain ⟨m,ms,same⟩ := List.exists_cons_of_ne_nil (show mids ++ [last] ≠ [] by simp)
    rw [same]
    rfl
  rw [step,Bool.or_eq_true,hasIff,laterIff]
  constructor
  · intro hit
    exact ⟨first,mids,last,rfl,hit⟩
  · rintro ⟨_,_,_,same,hit⟩
    simp only [List.cons.injEq,List.append_singleton_inj] at same
    obtain ⟨rfl,rfl,rfl⟩ := same
    exact hit

theorem oneIff (path : Text) (n m : Nat) : reMatches [render n] (keyOf path m) = true ↔ n = m := by
  unfold reMatches
  rw [List.isSuffixOf_iff_suffix]
  constructor
  · rintro ⟨front,same⟩
    have found := epochOfKey path m
    rw [← same,show front ++ (slashGit ++ render n ++ dotGit) = keyOf front n by simp [keyOf],epochOfKey] at found
    exact renderInj (Option.some.inj found)
  · rintro rfl
    exact ⟨path,by simp [keyOf]⟩

theorem sweptSkipped {keys : List Text} {n : Nat} (path : Text) (mem : render n ∈ keys) :
    reMatches keys (keyOf path n) = true := by
  rcases keys with _ | ⟨first,rest⟩
  · exact absurd mem List.not_mem_nil
  rcases List.eq_nil_or_concat rest with rfl | ⟨mids,last,rfl⟩
  · rw [List.mem_singleton] at mem
    rw [← mem]
    exact (oneIff path n n).mpr rfl
  · rw [List.concat_eq_append] at mem ⊢
    rw [reIff]
    refine ⟨first,mids,last,rfl,?_⟩
    simp only [List.mem_cons,List.mem_append,List.not_mem_nil,or_false] at mem
    rcases mem with rfl | mid | rfl
    · exact .inl ⟨path,dotGit,by simp [keyOf]⟩
    · exact .inr (.inl ⟨_,mid,path ++ slashGit,dotGit,rfl⟩)
    · exact .inr (.inr ⟨path ++ slashGit,by simp [keyOf]⟩)

theorem sweptOther {keys : List Text} {n : Nat} (path : Text) (other : ∀ k ∈ keys,∃ m,k = render m ∧ m ≠ n)
    (nonempty : keys ≠ []) : reMatches keys (keyOf path n) = true ↔ Swept keys (keyOf path n) := by
  rcases keys with _ | ⟨first,rest⟩
  · exact absurd rfl nonempty
  rcases List.eq_nil_or_concat rest with rfl | ⟨mids,last,rfl⟩
  · obtain ⟨m,rfl,apart⟩ := other first List.mem_cons_self
    rw [oneIff]
    refine ⟨fun same => absurd same apart,?_⟩
    rintro ⟨_,mids,_,same,_⟩
    simp at same
  · rw [List.concat_eq_append]
    exact reIff first mids last _

end PublicInbox.Fetch
