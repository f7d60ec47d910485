import PublicInbox.SearchDates

/-! Where Perl and C++ select the same interval for a date term. -/
namespace PublicInbox.SearchDates
open IMAPsearchqp (strftimeDate strftime)

def parsed (pfx : Pfx) (range : List Char) : List (List Char) := (dateParsePrepare [] pfx range).1

section
variable (date : List Char → Int)

/- The timestamp at $i as a term is finalized: of the last string that was parsed for the terms before it, or the
first of all, or of none. -/
def stale (terms : List (Pfx × List Char)) (k : Nat) : Int :=
  (((terms.flatMap fun (pfx,range) => parsed pfx range).map date)[((terms.take k).flatMap fun (pfx,range) => parsed pfx range).length - 1]?).getD 0

def value (pfx : Pfx) (x : List Char) : Int := if pfx.numeric x then Decimal.value x else pfx.column (date x)

def Fits (pfx : Pfx) (x : List Char) : Prop :=
  pfx = .rt ∧ pfx.numeric x = false ∨ -2 ^ 63 ≤ value date pfx x ∧ value date pfx x < 2 ^ 63

/- A range whose endpoints fit; or a bare rt: date, if it is not in digits, or where the timestamp at $i is the same. -/
def Agrees (last : Int) (pfx : Pfx) (range : List Char) : Prop := match splitDots (stripEnd range) with
  | (b,some e) => (b ≠ [] → Fits date pfx b) ∧ (e ≠ [] → Fits date pfx e)
  | (x,none) => pfx = .rt ∧ (pfx.numeric x = true → Fits date pfx x ∧ last = Decimal.value x)

def endpoint (pfx : Pfx) (x : List Char) : Option Int := if x = [] then none else some (value date pfx x)

def perlInterval (last : Int) (pfx : Pfx) (range : List Char) : Interval :=
  match splitDots (stripEnd range),pfx with
  | (b,some e),_ => ⟨endpoint date pfx b,endpoint date pfx e⟩
  | (x,none),.rt => ⟨endpoint date .rt x,some ((if x = [] ∨ Pfx.rt.numeric x = true then last else date x) + 86400)⟩
  | (x,none),_ => ⟨some (pfx.column (date (withGaps pfx x))),some (pfx.column (date (withGaps pfx x) + 86400))⟩

end

section
variable {date : List Char → Int} {r : List Int} {toParse : List (List Char)} {pfx : Pfx} {x range : List Char}

theorem getPushed (pushed : toParse.map date ++ [date x] <+: r) : r[toParse.length]? = some (date x) := by
  obtain ⟨rest,rfl⟩ := pushed
  simp

theorem finalizePrepared (i : Nat) (inside : (preparePart toParse pfx x).1.map date <+: r) :
    finalizePart r pfx i (preparePart toParse pfx x).2 =
      (endpoint date pfx x,if x = [] ∨ pfx.numeric x = true then i else toParse.length) := by
  unfold preparePart at inside ⊢
  by_cases asIs : x = [] ∨ pfx.numeric x = true
  · rw [if_pos asIs,if_pos asIs]
    rcases asIs with rfl | numeric
    · rfl
    · simp only [finalizePart,endpoint,value,if_pos numeric]
  · rw [if_neg asIs] at inside ⊢
    rw [if_neg asIs]
    obtain ⟨some,other⟩ := not_or.mp asIs
    rw [List.map_append] at inside
    simp only [finalizePart,getPushed inside,endpoint,if_neg some,value,if_neg other,Option.getD_some]

theorem prepareAppends (toParse : List (List Char)) (pfx : Pfx) (x : List Char) :
    (preparePart toParse pfx x).1 = toParse ++ if x = [] ∨ pfx.numeric x = true then [] else [x] := by
  unfold preparePart
  split <;> simp

theorem parsedAppends (toParse : List (List Char)) (pfx : Pfx) (range : List Char) :
    (dateParsePrepare toParse pfx range).1 = toParse ++ parsed pfx range := by
  unfold parsed dateParsePrepare
  split <;> simp only [prepareAppends,List.nil_append,List.append_assoc]

theorem finalizeTerm (inside : (toParse ++ parsed pfx range).map date <+: r) :
    let parts := (dateParsePrepare toParse pfx range).2
    let lo := finalizePart r pfx (toParse.length - 1) parts.1
    let hi := finalizePart r pfx lo.2 parts.2
    (⟨lo.1,hi.1⟩ : Interval) = perlInterval date (r[toParse.length - 1]?.getD 0) pfx range ∧
      hi.2 = (toParse ++ parsed pfx range).length - 1 := by
  rw [← parsedAppends] at inside ⊢
  obtain ⟨⟨x,fin⟩,found⟩ : ∃ t,splitDots (stripEnd range) = t := ⟨_,rfl⟩
  cases fin with
  | some e =>
    simp only [dateParsePrepare,perlInterval,found] at inside ⊢
    have first : (preparePart toParse pfx x).1.map date <+: r := by
      refine List.IsPrefix.trans ?_ inside
      rw [prepareAppends (preparePart toParse pfx x).1,List.map_append]
      exact List.prefix_append _ _
    rw [finalizePrepared _ first,finalizePrepared _ inside,prepareAppends (preparePart toParse pfx x).1,prepareAppends]
    refine ⟨rfl,?_⟩
    split <;> split <;> simp
  | none =>
    cases pfx with
    | rt =>
      simp only [dateParsePrepare,perlInterval,found] at inside ⊢
      rw [finalizePrepared _ inside,prepareAppends]
      simp only [finalizePart,Pfx.column]
      by_cases asIs : x = [] ∨ Pfx.rt.numeric x = true
      · simp [asIs]
      · rw [prepareAppends,if_neg asIs,List.map_append] at inside
        simp [asIs,getPushed inside]
    | d =>
      simp only [dateParsePrepare,perlInterval,found,List.map_append] at inside ⊢
      simp [finalizePart,getPushed inside]
    | dt =>
      simp only [dateParsePrepare,perlInterval,found,List.map_append] at inside ⊢
      simp [finalizePart,getPushed inside]

theorem prepareAllParses (terms : List (Pfx × List Char)) (toParse : List (List Char)) :
    (prepareAll toParse terms).1 = toParse ++ terms.flatMap fun (pfx,range) => parsed pfx range := by
  induction terms generalizing toParse with
  | nil => simp [prepareAll]
  | cons t terms ih =>
    simp only [prepareAll,parsedAppends,ih,List.flatMap_cons,List.append_assoc]

theorem intervalAt (terms : List (Pfx × List Char)) (toParse : List (List Char))
    (inside : (toParse ++ terms.flatMap fun (pfx,range) => parsed pfx range).map date <+: r) (k : Nat) :
    (dateParseFinalize r (toParse.length - 1) (prepareAll toParse terms).2)[k]? = terms[k]?.map fun (pfx,range) =>
      perlInterval date (r[(toParse ++ (terms.take k).flatMap fun (pfx,range) => parsed pfx range).length - 1]?.getD 0) pfx range := by
  induction terms generalizing toParse k with
  | nil => rfl
  | cons t terms ih =>
    obtain ⟨pfx,range⟩ := t
    rw [List.flatMap_cons,← List.append_assoc] at inside
    have head : (toParse ++ parsed pfx range).map date <+: r := by
      rw [List.map_append] at inside
      exact (List.prefix_append _ _).trans inside
    obtain ⟨interval,next⟩ := finalizeTerm head
    simp only [prepareAll,dateParseFinalize]
    cases k with
    | zero => simpa using interval
    | succ k =>
      rw [List.getElem?_cons_succ,List.getElem?_cons_succ,next,parsedAppends,ih _ inside k,List.take_succ_cons,List.flatMap_cons,List.append_assoc]

theorem perlAt (date : List Char → Int) (terms : List (Pfx × List Char)) (k : Nat) :
    (perlIntervals date terms)[k]? = terms[k]?.map fun (pfx,range) => perlInterval date (stale date terms k) pfx range := by
  have inside := intervalAt terms [] (List.prefix_refl (([] ++ terms.flatMap fun (pfx,range) => parsed pfx range).map date)) k
  simp only [perlIntervals,prepareAllParses,List.nil_append] at inside ⊢
  exact inside

theorem columnFits (fits : Fits date pfx x) : toColumnFmt date pfx x = some (value date pfx x) := by
  unfold toColumnFmt value
  rcases fits with ⟨rfl,other⟩ | within
  · rw [other]
    rfl
  · unfold value at within
    split
    · rename_i numeric
      rw [if_pos numeric] at within
      exact if_pos within
    · rename_i other
      rw [if_neg other] at within
      cases pfx with
      | rt => rfl
      | d => exact if_pos within
      | dt => exact if_pos within

theorem columnThrows (not : ¬ Fits date pfx x) : toColumnFmt date pfx x = none := by
  obtain ⟨digits,beyond⟩ := not_or.mp not
  unfold toColumnFmt
  unfold value at beyond
  split
  · rename_i numeric
    rw [if_pos numeric] at beyond
    exact if_neg beyond
  · rename_i other
    rw [if_neg other] at beyond
    cases pfx with
    | rt => exact absurd ⟨rfl,by simpa using other⟩ digits
    | d => exact if_neg beyond
    | dt => exact if_neg beyond

theorem rangeAgrees (b e : List Char) : some ⟨endpoint date pfx b,endpoint date pfx e⟩ = rangeProcessor date pfx b e ↔
    (b ≠ [] → Fits date pfx b) ∧ (e ≠ [] → Fits date pfx e) := by
  have one : ∀ y,bound date pfx y = some (endpoint date pfx y) ↔ (y ≠ [] → Fits date pfx y) := by
    intro y
    by_cases empty : y = []
    · simp [bound,empty,endpoint]
    · by_cases fits : Fits date pfx y
      · simp [bound,empty,endpoint,fits,columnFits fits]
      · simp [bound,empty,fits,columnThrows fits]
  unfold rangeProcessor
  constructor
  · intro same
    obtain ⟨lo,low,rest⟩ := Option.bind_eq_some_iff.mp same.symm
    obtain ⟨hi,high,is⟩ := Option.bind_eq_some_iff.mp rest
    cases Option.some.inj is
    exact ⟨(one b).mp low,(one e).mp high⟩
  · rintro ⟨low,high⟩
    rw [(one b).mpr low,(one e).mpr high]
    rfl

theorem dayColumn (t : Int) : strftimeDate (t + 86400) ≠ strftimeDate t + 86400 := by
  unfold strftimeDate
  have day : (t + 86400) / 86400 = t / 86400 + 1 := by omega
  have next := Calendar.numberNext (t / 86400)
  rw [day]
  omega

theorem secondColumn (t : Int) : strftime (t + 86400) ≠ strftime t + 86400 := by
  unfold strftime
  omega

theorem termAgrees (last : Int) (formed : Formed range) :
    some (perlInterval date last pfx range) = cxxInterval date pfx range ↔ Agrees date last pfx range := by
  obtain ⟨⟨x,fin⟩,found⟩ : ∃ t,splitDots (stripEnd range) = t := ⟨_,rfl⟩
  unfold Formed at formed
  unfold Agrees cxxInterval perlInterval
  cases fin with
  | some e =>
    simp only [found]
    exact rangeAgrees x e
  | none =>
    simp only [found] at formed ⊢
    have apart : ∀ {lo hi : Int},hi ≠ lo + 86400 → some (⟨some lo,some hi⟩ : Interval) ≠ fieldProcessor date pfx x := by
      intro lo hi ne same
      obtain ⟨v,-,is⟩ := Option.bind_eq_some_iff.mp same.symm
      cases Option.some.inj is
      exact ne rfl
    cases pfx with
    | d => exact iff_of_false (apart (dayColumn _)) (by simp)
    | dt => exact iff_of_false (apart (secondColumn _)) (by simp)
    | rt =>
      simp only [endpoint,formed,false_or,true_and]
      by_cases numeric : Pfx.rt.numeric x = true
      · simp only [numeric,forall_true_left]
        have number : value date .rt x = Decimal.value x := if_pos numeric
        by_cases fits : Fits date .rt x
        · simp [fieldProcessor,columnFits fits,number,fits]
        · simp [fieldProcessor,columnThrows fits,fits]
      · have fits : Fits date .rt x := .inl ⟨rfl,by simpa using numeric⟩
        have number : value date .rt x = date x := if_neg numeric
        simp [fieldProcessor,columnFits fits,number,numeric]

end

/- Of a query, each date term selects the same interval in Perl and in C++ if and only if it agrees. -/
theorem datesAgree (isWord : Char → Bool) (date : List Char → Int) (q : Query) (k : Nat) (pfx : Pfx) (range : List Char)
    (there : (q.terms isWord)[k]? = some (pfx,range)) (formed : Formed range) :
    (perlIntervals date (q.terms isWord))[k]? = cxxInterval date pfx range ↔ Agrees date (stale date (q.terms isWord) k) pfx range := by
  rw [perlAt,there]
  exact termAgrees _ formed

theorem rangesAgree : (perlIntervals (fun _ => 749520000) ((Query.string "rt:1993-10-02..".toList).terms Char.isAlphanum))[0]? =
      cxxInterval (fun _ => 749520000) .rt "1993-10-02..".toList ↔
    Agrees (fun _ => 749520000) (stale (fun _ => 749520000) ((Query.string "rt:1993-10-02..".toList).terms Char.isAlphanum) 0) .rt
      "1993-10-02..".toList :=
  datesAgree _ _ _ 0 .rt _ (by decide) (.inl (by decide) : "1993-10-02".toList ≠ [] ∨ ([] : List Char) ≠ [])

-- Nothing was parsed: the end of the range is a day after 0.
example : perlIntervals (fun _ => 749520000) [(.rt,"1286000000".toList)] = [⟨some 1286000000,some 86400⟩] := by decide +kernel

/- d:20101002, the second of October in 2010: C++ adds 86400 to the digits. -/
theorem dayTooLong : (Query.string "d:20101002".toList).terms Char.isAlphanum = [(.d,"20101002".toList)] ∧
    perlIntervals (fun _ => 1285977600) [(.d,"20101002".toList)] = [⟨some 20101002,some 20101003⟩] ∧
    cxxInterval (fun _ => 1285977600) .d "20101002".toList = some ⟨some 20101002,some 20187402⟩ := by
  refine ⟨by decide,by decide +kernel,by decide +kernel⟩

end PublicInbox.SearchDates
