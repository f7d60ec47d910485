import Mathlib.Data.Int.LeastGreatest
import Mathlib.Order.Bounds.Basic
import PublicInbox.Msgmap

/-! NNTP.pm: the selected group and the current article of a connection, and the commands that step to another one. -/
namespace PublicInbox.NNTP

structure Client where
  ibx : Option (Msgmap String)
  article : Option Int

variable (client : Client)

def articleAdj (off : Int) : Client × String :=
  match client.ibx,client.article with
  | none,_ => (client,"412 no newsgroup selected\r\n")
  | some _,none => (client,"420 no current article has been selected\r\n")
  | some mm,some cur =>
    let n := cur + off
    match mm.midFor n with
    | some mid => ({ client with article := some n },"223 " ++ toString n ++ " <" ++ mid ++ "> article retrieved - request text separately\r\n")
    | none => (client,"421 no " ++ (if off > 0 then "next" else "previous") ++ " article in this group\r\n")

def cmdNext : Client × String := articleAdj client 1

def cmdLast : Client × String := articleAdj client (-1)

def Exists (mm : Msgmap String) (n : Int) : Prop := ∃ mid,mm.midFor n = some mid

def Selects (mm : Msgmap String) (n : Int) (after : Client × String) : Prop :=
  ∃ mid,mm.midFor n = some mid ∧ after.1 = ⟨some mm,some n⟩ ∧
    after.2 = "223 " ++ toString n ++ " <" ++ mid ++ "> article retrieved - request text separately\r\n"

structure NextNearest (mm : Msgmap String) (cur : Int) (after : Client × String) : Prop where
  selects : ∀ n,IsLeast {m | cur < m ∧ Exists mm m} n → Selects mm n after
  fails : after = (⟨some mm,some cur⟩,"421 no next article in this group\r\n") ↔ ∀ m,cur < m → ¬ Exists mm m

structure LastNearest (mm : Msgmap String) (cur : Int) (after : Client × String) : Prop where
  selects : ∀ n,IsGreatest {m | m < cur ∧ Exists mm m} n → Selects mm n after
  fails : after = (⟨some mm,some cur⟩,"421 no previous article in this group\r\n") ↔ ∀ m,m < cur → ¬ Exists mm m

section
variable {mm : Msgmap String} {cur : Int}

theorem stepsTo {off : Int} (there : Exists mm (cur + off)) : Selects mm (cur + off) (articleAdj ⟨some mm,some cur⟩ off) := by
  obtain ⟨mid,found⟩ := there
  refine ⟨mid,found,?_,?_⟩ <;> simp only [articleAdj,found]

theorem staysAt {off : Int} (gone : ¬ Exists mm (cur + off)) : articleAdj ⟨some mm,some cur⟩ off =
    (⟨some mm,some cur⟩,"421 no " ++ (if off > 0 then "next" else "previous") ++ " article in this group\r\n") := by
  have none : mm.midFor (cur + off) = none := by
    cases found : mm.midFor (cur + off) with
    | none => rfl
    | some mid => exact absurd ⟨mid,found⟩ gone
  simp only [articleAdj,none]

theorem Selects.moves {n : Int} {after : Client × String} (selects : Selects mm n after) : after.1.article = some n := by
  obtain ⟨_,_,same,_⟩ := selects
  rw [same]

theorem stepsOnly {off n : Int} (selects : Selects mm n (articleAdj ⟨some mm,some cur⟩ off)) (moved : n ≠ cur) :
    Exists mm (cur + off) := by
  by_contra gone
  have article := selects.moves
  rw [staysAt gone] at article
  exact moved (Option.some.inj article).symm

theorem nextIff : NextNearest mm cur (cmdNext ⟨some mm,some cur⟩) ↔ Exists mm (cur + 1) ∨ ∀ m,cur < m → ¬ Exists mm m := by
  constructor
  · intro nearest
    by_cases any : ∃ m,cur < m ∧ Exists mm m
    · obtain ⟨n,is,least⟩ := Int.exists_least_of_bdd ⟨cur,fun z above => above.1.le⟩ any
      exact .inl (stepsOnly (nearest.selects n ⟨is,least⟩) is.1.ne')
    · exact .inr fun m above there => any ⟨m,above,there⟩
  · rintro (there | none)
    · have steps := stepsTo there
      constructor
      · intro n least
        have same : n = cur + 1 := le_antisymm (least.2 ⟨Int.lt_succ cur,there⟩) least.1.1
        exact same ▸ steps
      · refine ⟨fun fails => ?_,fun none => absurd there (none _ (Int.lt_succ cur))⟩
        have article := steps.moves
        rw [show articleAdj ⟨some mm,some cur⟩ 1 = _ from fails] at article
        have := Option.some.inj article
        omega
    · exact ⟨fun n least => absurd least.1.2 (none n least.1.1),fun _ => none,fun _ => staysAt (none _ (Int.lt_succ cur))⟩

theorem lastIff : LastNearest mm cur (cmdLast ⟨some mm,some cur⟩) ↔ Exists mm (cur - 1) ∨ ∀ m,m < cur → ¬ Exists mm m := by
  have neighbour : cur + -1 = cur - 1 := rfl
  constructor
  · intro nearest
    by_cases any : ∃ m,m < cur ∧ Exists mm m
    · obtain ⟨n,is,greatest⟩ := Int.exists_greatest_of_bdd ⟨cur,fun z below => below.1.le⟩ any
      exact .inl (neighbour ▸ stepsOnly (nearest.selects n ⟨is,greatest⟩) is.1.ne)
    · exact .inr fun m below there => any ⟨m,below,there⟩
  · rintro (there | none)
    · have steps := stepsTo (neighbour ▸ there)
      constructor
      · intro n greatest
        have same : n = cur + -1 := le_antisymm (Int.le_sub_one_of_lt greatest.1.1) (greatest.2 ⟨by omega,there⟩)
        exact same ▸ steps
      · refine ⟨fun fails => ?_,fun none => absurd there (none _ (by omega))⟩
        have article := steps.moves
        rw [show articleAdj ⟨some mm,some cur⟩ (-1) = _ from fails] at article
        have := Option.some.inj article
        omega
    · exact ⟨fun n greatest => absurd greatest.1.2 (none n greatest.1.1),fun _ => none,fun _ => staysAt (none _ (by omega))⟩

end

theorem nearestArticle (mm : Msgmap String) (cur : Int) :
    (NextNearest mm cur (cmdNext ⟨some mm,some cur⟩) ↔ Exists mm (cur + 1) ∨ ∀ m,cur < m → ¬ Exists mm m) ∧
      (LastNearest mm cur (cmdLast ⟨some mm,some cur⟩) ↔ Exists mm (cur - 1) ∨ ∀ m,m < cur → ¬ Exists mm m) :=
  ⟨nextIff,lastIff⟩

def gap : Except Died (Msgmap String) := do
  let (mm,_) ← Msgmap.empty.midInsert "a"
  let (mm,_) ← mm.midInsert "b"
  let (mm,_) ← mm.midInsert "c"
  .ok (mm.numDelete 2)

theorem gapNotCrossed : ∃ mm,gap = .ok mm ∧ ¬ NextNearest mm 1 (cmdNext ⟨some mm,some 1⟩) ∧ ¬ LastNearest mm 3 (cmdLast ⟨some mm,some 3⟩) := by
  refine ⟨_,rfl,fun nearest => ?_,fun nearest => ?_⟩
  · rcases nextIff.mp nearest with ⟨mid,found⟩ | none
    · cases (show none = some mid from found)
    · exact none 3 (by decide) ⟨"c",by decide⟩
  · rcases lastIff.mp nearest with ⟨mid,found⟩ | none
    · cases (show none = some mid from found)
    · exact none 1 (by decide) ⟨"a",by decide⟩

end PublicInbox.NNTP
