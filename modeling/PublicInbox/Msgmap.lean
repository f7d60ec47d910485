import PublicInbox.Library.Autoincrement

/-! Msgmap.pm: the bidirectional Message-ID and article number map. The msgmap table is an
AUTOINCREMENT table with UNIQUE mid; of the meta table the two rows that deal with numbers
are kept, `num_highwater` and `skip_artnum`. The random Message-IDs of skip_artnum are an
input of it. Transactions, created_at and last_xap are not part of this model. -/
namespace PublicInbox
open Keyed

structure Msgmap (M : Type) where
  msgmap : Auto M
  highwater : Option Int
  skip : Option Int

inductive Died where
  | full
  | mismatch
  | behind (cur : Int)
  | skipFailed
  deriving DecidableEq, Repr

namespace Msgmap
variable {M : Type}

def metaAccessor {α : Type} (row : Option α) : Option α → Option α × Option α
  | none => (row,row)
  | some value => (row,some value)

def numHighwater (mm : Msgmap M) (num : Option Int) : Msgmap M × Option Int :=
  match num,(metaAccessor mm.highwater none).1 with
  | none,high => (mm,high)
  | some n,none => ({ mm with highwater := (metaAccessor mm.highwater (some n)).2 },some n)
  | some n,some high =>
    if high < n then ({ mm with highwater := (metaAccessor mm.highwater (some n)).2 },some n)
    else (mm,some high)

def max (mm : Msgmap M) : Int := mm.msgmap.max?.getD 0

def newFile (mm : Msgmap M) : Msgmap M := (mm.numHighwater (some mm.max)).1

def empty : Msgmap M := ⟨.empty,none,none⟩

def midFor (mm : Msgmap M) (num : Int) : Option M := mm.msgmap.rows.get? num

def numDelete (mm : Msgmap M) (num : Int) : Msgmap M :=
  { mm with msgmap := mm.msgmap.deleteKey num }

theorem numHighwaterTable (mm : Msgmap M) (n : Int) :
    (mm.numHighwater (some n)).1.msgmap = mm.msgmap := by
  cases set : mm.highwater with
  | none => simp only [numHighwater,metaAccessor,set]
  | some high =>
    simp only [numHighwater,metaAccessor,set]
    split <;> rfl

theorem numHighwaterRaises {mm : Msgmap M} {high : Int} (set : mm.highwater = some high) (n : Int) :
    (mm.numHighwater (some n)).1.highwater = some (Max.max high n) := by
  simp only [numHighwater,metaAccessor,set]
  split
  · rename_i below
    exact congrArg some (max_eq_right below.le).symm
  · rename_i above
    exact set.trans (congrArg some (max_eq_left (not_lt.mp above)).symm)

structure Grows (mm mm' : Msgmap M) : Prop where
  seq : mm.msgmap.seq ≤ mm'.msgmap.seq
  high : ∀ high, mm.highwater = some high → ∃ high', mm'.highwater = some high' ∧ high ≤ high' ∧
    ∀ k a, mm'.midFor k = some a → mm.midFor k = some a ∨ k ≤ high'

theorem kept {mm mm' : Msgmap M} (seq : mm'.msgmap.seq = mm.msgmap.seq)
    (high : mm'.highwater = mm.highwater)
    (rows : ∀ k a, mm'.midFor k = some a → mm.midFor k = some a) : Grows mm mm' where
  seq := seq.ge
  high := fun h set => ⟨h,high.trans set,le_refl h,fun k a found => Or.inl (rows k a found)⟩

theorem Grows.trans {a b c : Msgmap M} (first : Grows a b) (second : Grows b c) : Grows a c where
  seq := first.seq.trans second.seq
  high := by
    intro high set
    obtain ⟨h,setB,leB,rowsB⟩ := first.high high set
    obtain ⟨h',setC,leC,rowsC⟩ := second.high h setB
    refine ⟨h',setC,leB.trans leC,?_⟩
    intro k x found
    rcases rowsC k x found with old | below
    · exact (rowsB k x old).imp id (fun le => le.trans leC)
    · exact Or.inr below

theorem stored {mm : Msgmap M} {tbl : Auto M} {num : Int} {mid : M}
    (seq : mm.msgmap.seq ≤ tbl.seq) (rows : tbl.rows = mm.msgmap.rows.insert num mid) :
    Grows mm (({ mm with msgmap := tbl } : Msgmap M).numHighwater (some num)).1 where
  seq := by rw [numHighwaterTable]; exact seq
  high := by
    intro high set
    have before : ({ mm with msgmap := tbl } : Msgmap M).highwater = some high := set
    refine ⟨_,numHighwaterRaises before num,le_max_left _ _,?_⟩
    intro k a found
    rw [midFor,numHighwaterTable,rows,Table.getInsert] at found
    split at found
    · rename_i same
      exact Or.inr (same ▸ le_max_right _ _)
    · exact Or.inl found

theorem newFileGrows (mm : Msgmap M) : Grows mm mm.newFile where
  seq := by rw [newFile,numHighwaterTable]
  high := by
    intro high set
    refine ⟨_,numHighwaterRaises set _,le_max_left _ _,?_⟩
    intro k a found
    rw [midFor,newFile,numHighwaterTable] at found
    exact Or.inl found

theorem numDeleteGrows (mm : Msgmap M) (num : Int) : Grows mm (mm.numDelete num) :=
  kept rfl rfl (fun _ _ found => (Auto.restrictFound.mp found).1)

variable [DecidableEq M]

def midInsert (mm : Msgmap M) (mid : M) : Except Died (Msgmap M × Option Int) :=
  match mm.msgmap.insert mid with
  | (_,.full) => .error .full
  | (tbl,.constraint) => .ok ({ mm with msgmap := tbl },none)
  | (tbl,.key num) => .ok ((({ mm with msgmap := tbl } : Msgmap M).numHighwater (some num)).1,some num)

def numFor (mm : Msgmap M) (mid : M) : Option Int := mm.msgmap.keyOf mid

def midDelete (mm : Msgmap M) (mid : M) : Msgmap M :=
  { mm with msgmap := mm.msgmap.deleteValue mid }

def midSet (mm : Msgmap M) (num : Int) (mid : Option M) : Except Died (Msgmap M × Nat) :=
  match mm.msgmap.insertOrIgnore num mid with
  | none => .error .mismatch
  | some (tbl,result) =>
    let mm := { mm with msgmap := tbl }
    .ok (if result = 1 then (mm.numHighwater (some num)).1 else mm,result)

-- No row is "0E0" to DBI, which Perl takes for true: the first attempt always is `$ok`.
def truthy (_result : Nat) : Bool := true

def skipAttempts (num : Int) : List M → Msgmap M → Except Died (Msgmap M)
  | [], _ => .error .skipFailed
  | mid :: mids, mm => do
    let (mm,ok) ← mm.midSet num (some mid)
    if truthy ok then .ok (mm.midDelete mid) else skipAttempts num mids mm

def skipArtnum (mm : Msgmap M) (num : Int) (rand : Nat → M) : Except Died (Msgmap M) :=
  let cur := (mm.numHighwater none).2.getD 0
  if num < cur then .error (.behind cur)
  else do
    let mm ← skipAttempts num ((List.range 10).map rand) mm
    .ok { mm with skip := (metaAccessor mm.skip (some num)).2 }

inductive Op (M : Type) where
  | midInsert (mid : M)
  | midSet (num : Int) (mid : M)
  | midDelete (mid : M)
  | numDelete (num : Int)
  | skipArtnum (num : Int) (rand : Nat → M)
  | reopen

def step (mm : Msgmap M) : Op M → Except Died (Msgmap M)
  | .midInsert mid => (mm.midInsert mid).map Prod.fst
  | .midSet num mid => (mm.midSet num (some mid)).map Prod.fst
  | .midDelete mid => .ok (mm.midDelete mid)
  | .numDelete num => .ok (mm.numDelete num)
  | .skipArtnum num rand => mm.skipArtnum num rand
  | .reopen => .ok mm.newFile

theorem midDeleteGrows (mm : Msgmap M) (mid : M) : Grows mm (mm.midDelete mid) :=
  kept rfl rfl (fun _ _ found => (Auto.restrictFound.mp found).1)

theorem midInsertCases {mm mm' : Msgmap M} {mid : M} {result : Option Int}
    (done : mm.midInsert mid = .ok (mm',result)) :
    (result = none ∧ mm' = mm ∧ ∃ k, mm.numFor mid = some k) ∨
    (result = some (mm.msgmap.seq + 1) ∧ mm.numFor mid = none ∧ mm'.msgmap.seq = mm.msgmap.seq + 1 ∧
      mm'.msgmap.rows = mm.msgmap.rows.insert (mm.msgmap.seq + 1) mid ∧ Grows mm mm') := by
  unfold midInsert at done
  split at done
  · contradiction
  · rename_i tbl inserted
    obtain ⟨rfl,found⟩ := Auto.insertConstraint inserted
    obtain ⟨rfl,rfl⟩ := Prod.mk.inj (Except.ok.inj done)
    exact Or.inl ⟨rfl,rfl,found⟩
  · rename_i tbl num inserted
    obtain ⟨rfl,seq,fresh,rows⟩ := Auto.insertKey inserted
    obtain ⟨rfl,rfl⟩ := Prod.mk.inj (Except.ok.inj done)
    refine Or.inr ⟨rfl,fresh,?_,?_,stored (by omega) rows⟩
    · rw [numHighwaterTable]
      exact seq
    · rw [numHighwaterTable]
      exact rows

theorem midSetGrows {mm mm' : Msgmap M} {num : Int} {mid : Option M} {result : Nat}
    (done : mm.midSet num mid = .ok (mm',result)) :
    Grows mm mm' ∧ mm'.msgmap.seq = Max.max mm.msgmap.seq num := by
  unfold midSet at done
  split at done
  · contradiction
  · rename_i tbl n inserted
    obtain ⟨seq,rows⟩ := Auto.insertOrIgnoreSpec inserted
    obtain ⟨rfl,rfl⟩ := Prod.mk.inj (Except.ok.inj done)
    have grown : mm.msgmap.seq ≤ tbl.seq := seq ▸ le_max_left _ _
    rcases rows with ⟨rfl,same⟩ | ⟨rfl,b,_,added⟩
    · refine ⟨⟨grown,?_⟩,seq⟩
      intro high set
      exact ⟨high,set,le_refl high,fun k a found => Or.inl (by rw [midFor,← same]; exact found)⟩
    · refine ⟨stored grown added,?_⟩
      rw [if_pos rfl,numHighwaterTable]
      exact seq

theorem skipAttemptsGrows {num : Int} {mids : List M} {mm mm' : Msgmap M}
    (done : skipAttempts num mids mm = .ok mm') : Grows mm mm' ∧ num ≤ mm'.msgmap.seq := by
  cases mids with
  | nil => contradiction
  | cons mid mids =>
    simp only [skipAttempts,bind,Except.bind,truthy,if_true] at done
    split at done
    · contradiction
    · rename_i result set
      obtain ⟨mm₁,n⟩ := result
      cases Except.ok.inj done
      obtain ⟨grows,seq⟩ := midSetGrows set
      refine ⟨grows.trans (midDeleteGrows _ _),?_⟩
      exact seq ▸ le_max_right _ _

theorem skipArtnumGrows {mm mm' : Msgmap M} {num : Int} {rand : Nat → M}
    (done : mm.skipArtnum num rand = .ok mm') : Grows mm mm' ∧ num ≤ mm'.msgmap.seq := by
  unfold skipArtnum at done
  dsimp only at done
  split at done
  · contradiction
  · simp only [bind,Except.bind] at done
    split at done
    · contradiction
    · rename_i mm₁ attempts
      cases Except.ok.inj done
      obtain ⟨grows,seq⟩ := skipAttemptsGrows attempts
      exact ⟨grows.trans ⟨le_refl _,fun h set => ⟨h,set,le_refl h,fun k a found => Or.inl found⟩⟩,seq⟩

def Op.skips : Op M → List Int
  | .skipArtnum num _ => [num]
  | _ => []

theorem stepGrows {mm mm' : Msgmap M} {op : Op M} (done : mm.step op = .ok mm') :
    Grows mm mm' ∧ ∀ n ∈ op.skips, n ≤ mm'.msgmap.seq := by
  cases op with
  | midInsert mid =>
    cases inserted : mm.midInsert mid with
    | error e => simp [step,inserted,Except.map] at done
    | ok result =>
      simp only [step,inserted,Except.map,Except.ok.injEq] at done
      subst done
      rcases midInsertCases inserted with ⟨_,same,_⟩ | ⟨_,_,_,_,grows⟩
      · exact ⟨same ▸ kept rfl rfl (fun _ _ found => found),by simp [Op.skips]⟩
      · exact ⟨grows,by simp [Op.skips]⟩
  | midSet num mid =>
    cases set : mm.midSet num (some mid) with
    | error e => simp [step,set,Except.map] at done
    | ok result =>
      simp only [step,set,Except.map,Except.ok.injEq] at done
      subst done
      exact ⟨(midSetGrows set).1,by simp [Op.skips]⟩
  | midDelete mid =>
    cases Except.ok.inj done
    exact ⟨midDeleteGrows mm mid,by simp [Op.skips]⟩
  | numDelete num =>
    cases Except.ok.inj done
    exact ⟨numDeleteGrows mm num,by simp [Op.skips]⟩
  | skipArtnum num rand =>
    obtain ⟨grows,seq⟩ := skipArtnumGrows done
    exact ⟨grows,by simpa [Op.skips] using seq⟩
  | reopen =>
    cases Except.ok.inj done
    exact ⟨newFileGrows mm,by simp [Op.skips]⟩

-- The states of one msgmap from its creation on, the present one included, and the
-- arguments skip_artnum has returned for.
inductive Run : Msgmap M → List (Msgmap M) → List Int → Prop where
  | created : Run empty.newFile [empty.newFile] []
  | next {mm past skips mm'} (op : Op M) (run : Run mm past skips) (done : mm.step op = .ok mm') :
      Run mm' (mm' :: past) (op.skips ++ skips)

structure Known (mm : Msgmap M) (past : List (Msgmap M)) (skips : List Int) (high : Int) : Prop where
  mark : mm.highwater = some high
  marks : ∀ old ∈ past, ∃ h, old.highwater = some h ∧ h ≤ high
  rows : ∀ old ∈ past, ∀ k a, old.midFor k = some a → k ≤ high ∧ k ≤ mm.msgmap.seq
  skips : ∀ n ∈ skips, n ≤ mm.msgmap.seq

theorem runKnown {mm : Msgmap M} {past skips} (run : Run mm past skips) :
    mm ∈ past ∧ ∃ high, Known mm past skips high := by
  induction run with
  | created =>
    refine ⟨List.mem_singleton_self _,0,rfl,?_,?_,by simp⟩
    · intro old mem
      cases List.mem_singleton.mp mem
      exact ⟨0,rfl,le_refl 0⟩
    · intro old mem k a found
      cases List.mem_singleton.mp mem
      contradiction
  | @next mm past skips mm' op run done ih =>
    obtain ⟨present,high,known⟩ := ih
    obtain ⟨grows,skipped⟩ := stepGrows done
    obtain ⟨high',mark,le,rows⟩ := grows.high high known.mark
    refine ⟨List.mem_cons_self,high',mark,?_,?_,?_⟩
    · intro old mem
      rcases List.mem_cons.mp mem with rfl | before
      · exact ⟨high',mark,le_refl high'⟩
      · obtain ⟨h,set,below⟩ := known.marks old before
        exact ⟨h,set,below.trans le⟩
    · intro old mem k a found
      rcases List.mem_cons.mp mem with rfl | before
      · refine ⟨?_,Auto.below _ k a found⟩
        rcases rows k a found with kept | below
        · exact (known.rows mm present k a kept).1.trans le
        · exact below
      · obtain ⟨belowMark,belowSeq⟩ := known.rows old before k a found
        exact ⟨belowMark.trans le,belowSeq.trans grows.seq⟩
    · intro n mem
      rcases List.mem_append.mp mem with now | before
      · exact skipped n now
      · exact (known.skips n before).trans grows.seq

theorem numbersAreNeverReused {mm : Msgmap M} {past skips} (run : Run mm past skips) :
    (∀ num mid, mm.midFor num = some mid ↔ mm.numFor mid = some num) ∧
    (∃ high, mm.highwater = some high ∧ ∀ old ∈ past,
      (∃ h, old.highwater = some h ∧ h ≤ high) ∧ ∀ num mid, old.midFor num = some mid → num ≤ high) ∧
    (∀ mid mm' result, mm.midInsert mid = .ok (mm',result) →
      (result = none ∧ ∃ num, mm.midFor num = some mid) ∨
      ∃ num, result = some num ∧ mm'.midFor num = some mid ∧
        (∀ old ∈ past, ∀ k m, old.midFor k = some m → k < num) ∧ ∀ n ∈ skips, n < num) := by
  obtain ⟨_,high,known⟩ := runKnown run
  refine ⟨fun num mid => Auto.keyOfExact.symm,⟨high,known.mark,?_⟩,?_⟩
  · intro old mem
    exact ⟨known.marks old mem,fun num mid found => (known.rows old mem num mid found).1⟩
  · intro mid mm' result done
    rcases midInsertCases done with ⟨none,_,num,found⟩ | ⟨some,_,_,rows,_⟩
    · exact Or.inl ⟨none,num,Auto.keyOfExact.mp found⟩
    · refine Or.inr ⟨_,some,?_,?_,?_⟩
      · rw [midFor,rows,Table.getInsert,if_pos rfl]
      · intro old mem k m found
        have below := (known.rows old mem k m found).2
        omega
      · intro n mem
        have below := known.skips n mem
        omega

theorem insertAfterSkip : ∃ mm : Msgmap Nat, ∃ past, Run mm past [10] ∧
    (mm.midInsert 9).map Prod.snd = .ok (some 11) ∧ ∀ n ∈ [10], (n : Int) < 11 := by
  have run := Run.next (.skipArtnum 10 (fun _ => 8))
    (Run.next (.midInsert 7) Run.created rfl) rfl
  refine ⟨_,_,run,rfl,?_⟩
  obtain ⟨num,same,_,_,above⟩ := ((numbersAreNeverReused run).2.2 9 _ _ rfl).resolve_left (by simp)
  cases same
  exact above

end Msgmap
end PublicInbox
