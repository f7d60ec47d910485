import Mathlib.Data.List.TakeWhile
import Mathlib.Data.Nat.Digits.Lemmas
import PublicInbox.Library.Windows
import PublicInbox.View.Recent

/-! Following the links of the recent messages, to the older and to the newer ones. -/
namespace PublicInbox.View
open Decimal
open IMAPsearchqp (fullYear)

/-! The time in a link -/

def FourDigits (ts : Int) : Prop := 1000 ≤ (Calendar.ofCount (ts / 86400)).year ∧ (Calendar.ofCount (ts / 86400)).year ≤ 9999

instance (ts : Int) : Decidable (FourDigits ts) := inferInstanceAs (Decidable (_ ∧ _))

theorem renderLength {n : Nat} (more : 1000 ≤ n) (less : n < 10000) : (render n).length = 4 := by
  have upper := (Nat.digits_length_le_iff (by decide : 1 < 10) n).mpr (show n < 10 ^ 4 from less)
  have lower := (Nat.lt_digits_length_iff (by decide : 1 < 10) n).mpr (show 10 ^ 3 ≤ n from more)
  rw [render,if_neg (by omega),List.length_reverse,List.length_map]
  omega

theorem valueTwo {n : Int} (some : 0 ≤ n) (less : n < 100) : (value (two n) : Int) = n := by
  have tens := (digitOfVal (show n.toNat / 10 < 10 by omega)).2
  have ones := (digitOfVal (show n.toNat % 10 < 10 by omega)).2
  have sum : value (two n) = 10 * (10 * 0 + n.toNat / 10) + n.toNat % 10 := by
    show 10 * (10 * 0 + digitVal _) + digitVal _ = _
    rw [tens,ones]
  omega

theorem twoDigits {n : Int} (some : 0 ≤ n) (less : n < 100) : (two n).all Char.isDigit = true := by
  have tens := (digitOfVal (show n.toNat / 10 < 10 by omega)).1
  have ones := (digitOfVal (show n.toNat % 10 < 10 by omega)).1
  simp [two,tens,ones]

theorem yearFour {year : Int} (more : 1000 ≤ year) (less : year ≤ 9999) :
    (yearText year).length = 4 ∧ (value (yearText year) : Int) = year ∧ (yearText year).all Char.isDigit = true := by
  rw [yearText,if_neg (by omega)]
  refine ⟨renderLength (by omega) (by omega),?_,List.all_eq_true.mpr (renderDigits _)⟩
  rw [valueRender]
  omega

theorem fieldsBack (thisYear : Nat) {year : Text} (four : year.length = 4) (m d hh mm ss : Int) :
    str2ts thisYear (year ++ (two m ++ (two d ++ (two hh ++ (two mm ++ two ss))))) =
      let date : Calendar.Date := ⟨fullYear thisYear (value year),value (two m),value (two d)⟩
      if date.Valid ∧ value (two hh) ≤ 23 ∧ value (two mm) ≤ 59 ∧ value (two ss) ≤ 59 then
        some (86400 * date.count + 3600 * value (two hh) + 60 * value (two mm) + value (two ss))
      else none := by
  obtain ⟨a,b,c,d',rfl⟩ : ∃ a b c d,year = [a,b,c,d] := by
    match year,four with
    | [a,b,c,d],_ => exact ⟨a,b,c,d,rfl⟩
  rfl

theorem timeBack (thisYear : Nat) {ts : Int} (four : FourDigits ts) : str2ts thisYear (ts2str ts) = some ts := by
  obtain ⟨valid,count⟩ := Calendar.ofCountSpec (ts / 86400)
  obtain ⟨length,year,_⟩ := yearFour four.1 four.2
  obtain ⟨month1,month12,day1,dayLast⟩ := valid
  have few := Calendar.monthDaysFew (Calendar.ofCount (ts / 86400)).year (Calendar.ofCount (ts / 86400)).month
  have full : fullYear thisYear (value (yearText (Calendar.ofCount (ts / 86400)).year)) = (Calendar.ofCount (ts / 86400)).year := by
    have more := four.1
    rw [fullYear,if_pos (by omega),year]
  have month := @valueTwo (Calendar.ofCount (ts / 86400)).month (by omega) (by omega)
  have day := @valueTwo (Calendar.ofCount (ts / 86400)).day (by omega) (by omega)
  have hh := @valueTwo (ts % 86400 / 3600) (by omega) (by omega)
  have mm := @valueTwo (ts % 3600 / 60) (by omega) (by omega)
  have ss := @valueTwo (ts % 60) (by omega) (by omega)
  rw [ts2str,fieldsBack thisYear length]
  dsimp only
  rw [full,month,day]
  rw [if_pos ⟨(Calendar.ofCountSpec (ts / 86400)).1,by omega,by omega,by omega⟩,show Calendar.Date.count _ = _ from count,hh,mm,ss]
  congr 1
  omega

theorem timeDigits {ts : Int} (four : FourDigits ts) : (ts2str ts).all Char.isDigit = true ∧ isTime (ts2str ts) = true := by
  obtain ⟨length,_,digits⟩ := yearFour four.1 four.2
  obtain ⟨month1,month12,day1,dayLast⟩ := (Calendar.ofCountSpec (ts / 86400)).1
  have few := Calendar.monthDaysFew (Calendar.ofCount (ts / 86400)).year (Calendar.ofCount (ts / 86400)).month
  have all : (ts2str ts).all Char.isDigit = true := by
    simp only [ts2str,List.all_append,Bool.and_eq_true]
    exact ⟨digits,twoDigits (by omega) (by omega),twoDigits (by omega) (by omega),twoDigits (by omega) (by omega),
      twoDigits (by omega) (by omega),twoDigits (by omega) (by omega)⟩
  have size : (ts2str ts).length = 14 := by
    simp only [ts2str,List.length_append,length]
    rfl
  refine ⟨all,?_⟩
  rw [isTime,all,size]
  rfl

theorem boundsOlder (thisYear : Nat) {ts : Int} (four : FourDigits ts) : bounds thisYear (ts2str ts) = some (none,some ts) := by
  obtain ⟨digits,time⟩ := timeDigits four
  have cut : cutAfter (ts2str ts) = (none,ts2str ts) := by
    rw [cutAfter,List.dropWhile_eq_nil_iff.mpr (List.all_eq_true.mp digits)]
  rw [bounds,cut]
  simp [timeOf,time,timeBack thisYear four]

theorem boundsNewer (thisYear : Nat) {ts : Int} (four : FourDigits ts) :
    bounds thisYear (ts2str ts ++ ['-']) = some (some ts,none) := by
  obtain ⟨digits,time⟩ := timeDigits four
  have whole := List.all_eq_true.mp digits
  have cut : cutAfter (ts2str ts ++ ['-']) = (some (ts2str ts),[]) := by
    have front : (ts2str ts ++ ['-']).takeWhile Char.isDigit = ts2str ts := by
      rw [List.takeWhile_append_of_pos whole]
      exact List.append_nil _
    rw [cutAfter,List.dropWhile_append_of_pos whole,front]
    simp [time]
  rw [bounds,cut]
  simp [timeOf,isTime,timeBack thisYear four]

theorem boundsFirst (thisYear : Nat) : bounds thisYear [] = some (none,none) := rfl

/-! Pages -/

inductive Along (db : Over) (thisYear lim : Nat) (link : Page → Option Text) : Text → List Page → Prop where
  | stop {t : Text} {p : Page} (page : paginateRecent db thisYear lim t = some p) : Along db thisYear lim link t [p]
  | follow {t t' : Text} {p : Page} {ps : List Page} (page : paginateRecent db thisYear lim t = some p)
      (next : link p = some t') (rest : Along db thisYear lim link t' ps) : Along db thisYear lim link t (p :: ps)

def Ends (link : Page → Option Text) (ps : List Page) : Prop := ∀ p ∈ ps.getLast?,link p = none

structure Sparse (db : Over) (lim : Nat) : Prop where
  few : ∀ ts,(db.rows.filter fun r => decide (0 < r.num ∧ r.ts = ts)).length < lim
  years : ∀ r ∈ db.rows,0 < r.num → FourDigits r.ts

section
variable {db : Over} {thisYear lim : Nat}

theorem Sparse.positive (sparse : Sparse db lim) : 0 < lim := Nat.zero_lt_of_lt (sparse.few 0)

theorem Sparse.take (sparse : Sparse db lim) (l : List Row) : limited lim l = l.take lim := by
  rw [limited,if_neg (Nat.ne_of_gt sparse.positive)]

theorem Sparse.fewIn (sparse : Sparse db lim) {q : Row → Bool} {l : List Row} (perm : l.Perm (db.rows.filter q))
    (messages : ∀ r,q r = true → 0 < r.num) (ts : Int) : (l.filter fun r => decide (r.ts = ts)).length < lim := by
  refine Nat.lt_of_le_of_lt ?_ (sparse.few ts)
  rw [(perm.filter _).length_eq,List.filter_filter]
  refine (List.monotone_filter_right db.rows fun r both => ?_).length_le
  rw [Bool.and_eq_true,decide_eq_true_iff] at both
  exact decide_eq_true ⟨messages r both.2,both.1⟩

theorem pageDesc {msgs : List Row} {first last : Row} (sorted : msgs.Pairwise fun a b => b.ts ≤ a.ts) (after before : Option Int)
    (isFirst : msgs.head? = some first) (isLast : msgs.getLast? = some last) :
    pageOf msgs lim after before = ⟨msgs,if after.isSome || before.isSome then some (last.ts,first.ts) else none,
      if after.isSome || before.isSome then some (ts2str first.ts ++ ['-']) else none,
      if msgs.length == lim then some (ts2str last.ts) else none⟩ := by
  have inside : last ∈ msgs := List.mem_of_getLast? isLast
  obtain ⟨rest,shape⟩ := List.head?_eq_some_iff.mp isFirst
  have order : ¬first.ts < last.ts := by
    rw [shape] at sorted inside
    rcases List.mem_cons.mp inside with same | behind
    · rw [same]
      exact lt_irrefl _
    · exact not_lt.mpr ((List.pairwise_cons.mp sorted).1 last behind)
  simp only [pageOf,isFirst,isLast,order,decide_false,Bool.false_eq_true,if_false,Bool.false_and]

theorem pageAsc {msgs : List Row} {last : Row} (sorted : msgs.Pairwise fun a b => a.ts ≤ b.ts) (after : Int)
    (isLast : msgs.getLast? = some last) :
    (pageOf msgs lim (some after) none).msgs = msgs ∧
    (pageOf msgs lim (some after) none).prev = some (ts2str last.ts ++ ['-']) := by
  have inside : last ∈ msgs := List.mem_of_getLast? isLast
  cases isFirst : msgs.head? with
  | none => exact absurd inside (List.head?_eq_none_iff.mp isFirst ▸ List.not_mem_nil)
  | some first =>
    obtain ⟨rest,shape⟩ := List.head?_eq_some_iff.mp isFirst
    have order : first.ts ≤ last.ts := by
      rw [shape] at sorted inside
      rcases List.mem_cons.mp inside with same | behind
      · rw [same]
      · exact (List.pairwise_cons.mp sorted).1 last behind
    simp only [pageOf,isFirst,isLast,Option.isSome_some,Bool.true_or,if_true,true_and]
    by_cases swapped : first.ts < last.ts
    · simp only [swapped,decide_true,if_true]
    · have same : first.ts = last.ts := le_antisymm order (not_lt.mp swapped)
      simp only [same,lt_irrefl,decide_false,Bool.false_eq_true,if_false]

theorem pageEmpty (after before : Option Int) : pageOf [] lim after before = ⟨[],none,none,none⟩ := rfl

/-! To the older messages -/

def upTo (before : Option Int) (r : Row) : Bool := decide (0 < r.num ∧ ∀ b ∈ before,r.ts ≤ b)

def between (after before : Option Int) (r : Row) : Bool :=
  decide (0 < r.num ∧ (∀ a ∈ after,a ≤ r.ts) ∧ ∀ b ∈ before,r.ts ≤ b)

theorem recentDesc (sparse : Sparse db lim) {after before : Option Int} (desc : after = none ∨ before.isSome = true) :
    recent db lim after before = (db.desc (db.rows.filter (between after before))).take lim := by
  rw [← sparse.take]
  have listed {q q' : Row → Bool} (same : ∀ r,q r = q' r) :
      limited lim (db.desc (db.rows.filter q)) = limited lim (db.desc (db.rows.filter q')) := by
    rw [funext same]
  cases before with
  | none =>
    obtain rfl : after = none := desc.resolve_right nofun
    exact listed fun r => by simp [between]
  | some b => cases after with
    | none => exact listed fun r => by simp [between]
    | some a => exact listed fun r => by simp [between]

theorem recentDown (sparse : Sparse db lim) (before : Option Int) :
    recent db lim none before = (db.desc (db.rows.filter (upTo before))).take lim := by
  have same : between none before = upTo before := by
    funext r
    simp [between,upTo]
  rw [recentDesc sparse (.inl rfl),same]

theorem filterShorter {q q' : Row → Bool} {rows : List Row} {m : Row} (part : ∀ r,q' r = true → q r = true) (mem : m ∈ rows)
    (is : q m = true) (gone : q' m = false) : (rows.filter q').length < (rows.filter q).length := by
  have same : rows.filter q' = (rows.filter q).filter q' := by
    rw [List.filter_filter]
    apply List.filter_congr
    intro r _
    cases kept : q' r with
    | false => rfl
    | true => rw [part r kept,Bool.and_self]
  rw [same]
  refine List.length_filter_lt_length_iff_exists.mpr ⟨m,List.mem_filter.mpr ⟨mem,is⟩,?_⟩
  simp [gone]

theorem pageIs {t : Text} {after before : Option Int} (asks : bounds thisYear t = some (after,before)) :
    paginateRecent db thisYear lim t = some (pageOf (recent db lim after before) lim after before) := by
  rw [paginateRecent,asks]
  rfl

theorem pageMsgs (msgs : List Row) (after before : Option Int) : (pageOf msgs lim after before).msgs = msgs := by
  unfold pageOf
  dsimp only
  split <;> rfl

theorem ends_one {link : Page → Option Text} {p : Page} (last : link p = none) : Ends link [p] := by
  intro q is
  cases is
  exact last

theorem ends_cons {link : Page → Option Text} {t : Text} {p : Page} {ps : List Page}
    (along : Along db thisYear lim link t ps) (ends : Ends link ps) : Ends link (p :: ps) := by
  cases along with
  | stop page => exact ends
  | follow page next rest => exact ends

theorem shortWhole {l c : List Row} (perm : l.Perm c) (short : (l.take lim).length ≠ lim) : ∀ r ∈ c,r ∈ l.take lim := by
  intro r mem
  rw [List.length_take] at short
  rw [List.take_of_length_le (by omega)]
  exact perm.mem_iff.mpr mem

theorem fullDown (sparse : Sparse db lim) {before : Option Int} {last : Row}
    (isLast : ((db.desc (db.rows.filter (upTo before))).take lim).getLast? = some last)
    (full : ((db.desc (db.rows.filter (upTo before))).take lim).length = lim) :
    FourDigits last.ts ∧
      (db.rows.filter (upTo (some last.ts))).length < (db.rows.filter (upTo before)).length := by
  have perm := db.descPerm (db.rows.filter (upTo before))
  have sorted := db.descSorted (db.rows.filter (upTo before))
  have messages : ∀ r,upTo before r = true → 0 < r.num := fun r is => (of_decide_eq_true is).1
  obtain ⟨mem,asked⟩ := List.mem_filter.mp (perm.mem_iff.mp (List.mem_of_mem_take (List.mem_of_getLast? isLast)))
  obtain ⟨message,within⟩ := of_decide_eq_true asked
  obtain ⟨m,inPage,above⟩ := Windows.fullBeyond sorted isLast full (sparse.fewIn perm messages last.ts)
  obtain ⟨memM,askedM⟩ := List.mem_filter.mp (perm.mem_iff.mp (List.mem_of_mem_take inPage))
  have narrower : ∀ r,upTo (some last.ts) r = true → upTo before r = true := by
    intro r is
    obtain ⟨positive,le⟩ := of_decide_eq_true is
    exact decide_eq_true ⟨positive,fun b isB => (le _ rfl).trans (within b isB)⟩
  have gone : upTo (some last.ts) m = false := by
    rw [upTo,decide_eq_false_iff_not]
    exact fun both => absurd (both.2 _ rfl) (not_le.mpr above)
  exact ⟨sparse.years last mem message,filterShorter narrower memM askedM gone⟩

theorem headSome {l : List Row} {last : Row} (isLast : l.getLast? = some last) : ∃ first,l.head? = some first := by
  cases is : l.head? with
  | none => simp [List.head?_eq_none_iff.mp is] at isLast
  | some first => exact ⟨first,rfl⟩

theorem olderWalk (sparse : Sparse db lim) {t : Text} {before : Option Int} (asks : bounds thisYear t = some (none,before)) :
    ∃ ps,Along db thisYear lim Page.next t ps ∧ Ends Page.next ps ∧
      ∀ r ∈ db.rows.filter (upTo before),∃ p ∈ ps,r ∈ p.msgs := by
  induction size : (db.rows.filter (upTo before)).length using Nat.strongRecOn generalizing t before with
  | ind n ih =>
    have page := @pageIs db thisYear lim t none before asks
    have perm := db.descPerm (db.rows.filter (upTo before))
    have sorted := db.descSorted (db.rows.filter (upTo before))
    have part := sorted.sublist (List.take_sublist lim _)
    rw [recentDown sparse] at page
    cases isLast : ((db.desc (db.rows.filter (upTo before))).take lim).getLast? with
    | none =>
      have empty := List.getLast?_eq_none_iff.mp isLast
      have short : ((db.desc (db.rows.filter (upTo before))).take lim).length ≠ lim := by
        rw [empty]
        exact Nat.ne_of_lt sparse.positive
      refine ⟨_,.stop page,ends_one ?_,fun r mem => ⟨_,List.mem_singleton.mpr rfl,?_⟩⟩
      · rw [empty,pageEmpty]
      · rw [pageMsgs]
        exact shortWhole perm short r mem
    | some last =>
      obtain ⟨first,isFirst⟩ := headSome isLast
      have shape := @pageDesc lim _ first last part none before isFirst isLast
      by_cases full : ((db.desc (db.rows.filter (upTo before))).take lim).length = lim
      · obtain ⟨four,shorter⟩ := fullDown sparse isLast full
        obtain ⟨ps,along,ends,rest⟩ := ih _ (size ▸ shorter) (boundsOlder thisYear four) rfl
        refine ⟨_,.follow page ?_ along,ends_cons along ends,fun r candidate => ?_⟩
        · rw [shape]
          exact if_pos (beq_iff_eq.mpr full)
        · rcases Int.lt_or_le last.ts r.ts with high | low
          · refine ⟨_,List.mem_cons_self,?_⟩
            rw [pageMsgs]
            exact Windows.aboveInside sorted (List.mem_of_getLast? isLast) (perm.mem_iff.mpr candidate) high
          · obtain ⟨mem,asked⟩ := List.mem_filter.mp candidate
            have older : upTo (some last.ts) r = true := by
              refine decide_eq_true ⟨(of_decide_eq_true asked).1,fun b isB => ?_⟩
              cases isB
              exact low
            obtain ⟨q,later,has⟩ := rest r (List.mem_filter.mpr ⟨mem,older⟩)
            exact ⟨q,List.mem_cons_of_mem _ later,has⟩
      · refine ⟨_,.stop page,ends_one ?_,fun r mem => ⟨_,List.mem_singleton.mpr rfl,?_⟩⟩
        · rw [shape]
          exact if_neg fun same => full (beq_iff_eq.mp same)
        · rw [pageMsgs]
          exact shortWhole perm full r mem

/-! To the newer messages -/

def upFrom (after : Int) (r : Row) : Bool := decide (0 < r.num ∧ after ≤ r.ts)

theorem recentUp (sparse : Sparse db lim) (after : Int) :
    recent db lim (some after) none = (db.asc (db.rows.filter (upFrom after))).take lim := by
  rw [← sparse.take]
  rfl

theorem ascBack (db : Over) (l : List Row) : (db.asc l).Pairwise fun a b => -b.ts ≤ -a.ts :=
  (db.ascSorted l).imp fun le => neg_le_neg le

theorem fullUp (sparse : Sparse db lim) {after : Int} {last : Row}
    (isLast : ((db.asc (db.rows.filter (upFrom after))).take lim).getLast? = some last)
    (full : ((db.asc (db.rows.filter (upFrom after))).take lim).length = lim) :
    FourDigits last.ts ∧
      (db.rows.filter (upFrom last.ts)).length < (db.rows.filter (upFrom after)).length := by
  have perm := db.ascPerm (db.rows.filter (upFrom after))
  have sorted := ascBack db (db.rows.filter (upFrom after))
  have messages : ∀ r,upFrom after r = true → 0 < r.num := fun r is => (of_decide_eq_true is).1
  obtain ⟨mem,asked⟩ := List.mem_filter.mp (perm.mem_iff.mp (List.mem_of_mem_take (List.mem_of_getLast? isLast)))
  obtain ⟨message,within⟩ := of_decide_eq_true asked
  have few := sparse.fewIn perm messages last.ts
  simp only [← neg_inj (b := last.ts)] at few
  obtain ⟨m,inPage,above⟩ := Windows.fullBeyond sorted isLast full few
  obtain ⟨memM,askedM⟩ := List.mem_filter.mp (perm.mem_iff.mp (List.mem_of_mem_take inPage))
  have narrower : ∀ r,upFrom last.ts r = true → upFrom after r = true := by
    intro r is
    obtain ⟨positive,le⟩ := of_decide_eq_true is
    exact decide_eq_true ⟨positive,within.trans le⟩
  have gone : upFrom last.ts m = false := by
    rw [upFrom,decide_eq_false_iff_not]
    exact fun both => absurd both.2 (not_le.mpr (neg_lt_neg_iff.mp above))
  exact ⟨sparse.years last mem message,filterShorter narrower memM askedM gone⟩

theorem newerWalk (sparse : Sparse db lim) {t : Text} {after : Int} (asks : bounds thisYear t = some (some after,none)) :
    ∃ ps,Along db thisYear lim Page.prev t ps ∧ ∀ r ∈ db.rows.filter (upFrom after),∃ p ∈ ps,r ∈ p.msgs := by
  induction size : (db.rows.filter (upFrom after)).length using Nat.strongRecOn generalizing t after with
  | ind n ih =>
    have page := @pageIs db thisYear lim t (some after) none asks
    have perm := db.ascPerm (db.rows.filter (upFrom after))
    have part := (db.ascSorted (db.rows.filter (upFrom after))).sublist (List.take_sublist lim _)
    rw [recentUp sparse] at page
    by_cases full : ((db.asc (db.rows.filter (upFrom after))).take lim).length = lim
    · obtain ⟨last,isLast⟩ : ∃ last,((db.asc (db.rows.filter (upFrom after))).take lim).getLast? = some last := by
        refine Option.isSome_iff_exists.mp (List.getLast?_isSome.mpr fun empty => ?_)
        rw [empty] at full
        exact absurd full (Nat.ne_of_lt sparse.positive)
      obtain ⟨four,shorter⟩ := fullUp sparse isLast full
      obtain ⟨ps,along,rest⟩ := ih _ (size ▸ shorter) (boundsNewer thisYear four) rfl
      refine ⟨_,.follow page (pageAsc part after isLast).2 along,fun r candidate => ?_⟩
      rcases Int.lt_or_le r.ts last.ts with low | high
      · refine ⟨_,List.mem_cons_self,?_⟩
        rw [pageMsgs]
        exact Windows.aboveInside (ascBack db _) (List.mem_of_getLast? isLast) (perm.mem_iff.mpr candidate) (neg_lt_neg low)
      · obtain ⟨mem,asked⟩ := List.mem_filter.mp candidate
        have newer : upFrom last.ts r = true := decide_eq_true ⟨(of_decide_eq_true asked).1,high⟩
        obtain ⟨q,later,has⟩ := rest r (List.mem_filter.mpr ⟨mem,newer⟩)
        exact ⟨q,List.mem_cons_of_mem _ later,has⟩
    · refine ⟨_,.stop page,fun r mem => ⟨_,List.mem_singleton.mpr rfl,?_⟩⟩
      rw [pageMsgs]
      exact shortWhole perm full r mem

theorem newerAll (sparse : Sparse db lim) {t : Text} {p : Page} (page : paginateRecent db thisYear lim t = some p)
    {m : Row} (onPage : m ∈ p.msgs) :
    ∃ ps,Along db thisYear lim Page.prev t ps ∧
      ∀ r ∈ db.rows,0 < r.num → m.ts < r.ts → ∃ q ∈ ps,r ∈ q.msgs := by
  obtain ⟨⟨after,before⟩,asks,is⟩ := Option.map_eq_some_iff.mp page
  replace is : pageOf (recent db lim after before) lim after before = p := is
  rcases Decidable.em (after = none ∨ before.isSome = true) with desc | asc
  · have shown := recentDesc sparse desc
    have perm := db.descPerm (db.rows.filter (between after before))
    have sorted := db.descSorted (db.rows.filter (between after before))
    have part := sorted.sublist (List.take_sublist lim _)
    have msgs : p.msgs = (db.desc (db.rows.filter (between after before))).take lim := by
      rw [← is,pageMsgs,shown]
    rw [msgs] at onPage
    have here {r : Row} (candidate : r ∈ db.rows.filter (between after before)) (above : m.ts < r.ts) : r ∈ p.msgs := by
      rw [msgs]
      exact Windows.aboveInside sorted onPage (perm.mem_iff.mpr candidate) above
    have low := of_decide_eq_true (List.mem_filter.mp (perm.mem_iff.mp (List.mem_of_mem_take onPage))).2
    obtain ⟨last,isLast⟩ := Option.isSome_iff_exists.mp (List.getLast?_isSome.mpr (List.ne_nil_of_mem onPage))
    obtain ⟨first,isFirst⟩ := headSome isLast
    have top := List.mem_filter.mp (perm.mem_iff.mp (List.mem_of_mem_take (List.mem_of_head? isFirst)))
    obtain ⟨message,_,within⟩ := of_decide_eq_true top.2
    have shape := @pageDesc lim _ first last part after before isFirst isLast
    rw [← shown,is] at shape
    by_cases asked : (after.isSome || before.isSome) = true
    · have four := sparse.years first top.1 message
      have prev : p.prev = some (ts2str first.ts ++ ['-']) := by
        rw [shape]
        exact if_pos asked
      obtain ⟨ps,along,newer⟩ := newerWalk sparse (boundsNewer thisYear four)
      refine ⟨p :: ps,.follow page prev along,fun r mem positive above => ?_⟩
      rcases Int.lt_or_le r.ts first.ts with below | high
      · refine ⟨p,List.mem_cons_self,here (List.mem_filter.mpr ⟨mem,decide_eq_true ⟨positive,?_,?_⟩⟩) above⟩
        · exact fun a isA => (low.2.1 a isA).trans (le_of_lt above)
        · exact fun b isB => (le_of_lt below).trans (within b isB)
      · obtain ⟨q,later,has⟩ := newer r (List.mem_filter.mpr ⟨mem,decide_eq_true ⟨positive,high⟩⟩)
        exact ⟨q,List.mem_cons_of_mem _ later,has⟩
    · obtain ⟨rfl,rfl⟩ : after = none ∧ before = none := by simpa using asked
      refine ⟨[p],.stop page,fun r mem positive above => ⟨p,List.mem_singleton.mpr rfl,here ?_ above⟩⟩
      exact List.mem_filter.mpr ⟨mem,decide_eq_true ⟨positive,nofun,nofun⟩⟩
  · obtain ⟨some,isNone⟩ := not_or.mp asc
    obtain ⟨a,rfl⟩ := Option.ne_none_iff_exists'.mp some
    obtain rfl : before = none := by simpa using isNone
    obtain ⟨ps,along,newer⟩ := newerWalk sparse asks
    have msgs : p.msgs = (db.asc (db.rows.filter (upFrom a))).take lim := by
      rw [← is,pageMsgs,recentUp sparse]
    rw [msgs] at onPage
    have low := of_decide_eq_true
      (List.mem_filter.mp ((db.ascPerm _).mem_iff.mp (List.mem_of_mem_take onPage))).2
    refine ⟨ps,along,fun r mem positive above => newer r (List.mem_filter.mpr ⟨mem,?_⟩)⟩
    exact decide_eq_true ⟨positive,low.2.trans (le_of_lt above)⟩

end

theorem linksReachAll (db : Over) (thisYear lim : Nat)
    (few : ∀ ts,(db.rows.filter fun r => decide (0 < r.num ∧ r.ts = ts)).length < lim)
    (years : ∀ r ∈ db.rows,0 < r.num → FourDigits r.ts) :
    (∃ ps,Along db thisYear lim Page.next [] ps ∧ Ends Page.next ps ∧
      ∀ r ∈ db.rows,0 < r.num → ∃ p ∈ ps,r ∈ p.msgs) ∧
    ∀ t p,paginateRecent db thisYear lim t = some p → ∀ m ∈ p.msgs,
      ∃ ps,Along db thisYear lim Page.prev t ps ∧
        ∀ r ∈ db.rows,0 < r.num → m.ts < r.ts → ∃ q ∈ ps,r ∈ q.msgs := by
  have sparse : Sparse db lim := ⟨few,years⟩
  refine ⟨?_,fun t p page m onPage => newerAll sparse page onPage⟩
  obtain ⟨ps,along,ends,all⟩ := olderWalk sparse (boundsFirst thisYear)
  refine ⟨ps,along,ends,fun r mem message => all r (List.mem_filter.mpr ⟨mem,?_⟩)⟩
  exact decide_eq_true ⟨message,nofun⟩

def fewRows : Over where
  rows := [⟨1,1700000000⟩,⟨2,1700000001⟩,⟨3,1700000002⟩,⟨-1,0⟩]
  asc := fun l => l.mergeSort fun a b => decide (a.ts ≤ b.ts)
  desc := fun l => l.mergeSort fun a b => decide (b.ts ≤ a.ts)
  ascPerm := fun l => List.mergeSort_perm l _
  descPerm := fun l => List.mergeSort_perm l _
  ascSorted := fun l => by
    have sorted := @List.pairwise_mergeSort _ (fun a b : Row => decide (a.ts ≤ b.ts))
      (fun a b c => by simpa using le_trans) (fun a b => by simpa using le_total a.ts b.ts) l
    exact sorted.imp of_decide_eq_true
  descSorted := fun l => by
    have sorted := @List.pairwise_mergeSort _ (fun a b : Row => decide (b.ts ≤ a.ts))
      (fun a b c => by simpa using fun ba cb => le_trans cb ba) (fun a b => by simpa using le_total b.ts a.ts) l
    exact sorted.imp of_decide_eq_true

theorem fewOfSecond (ts : Int) : (fewRows.rows.filter fun r => decide (0 < r.num ∧ r.ts = ts)).length < 2 := by
  by_cases first : ts = 1700000000
  · subst first
    decide
  by_cases second : ts = 1700000001
  · subst second
    decide
  by_cases third : ts = 1700000002
  · subst third
    decide
  · have none : ∀ r ∈ fewRows.rows,¬(0 < r.num ∧ r.ts = ts) := by
      intro r mem ⟨positive,same⟩
      simp only [fewRows,List.mem_cons,List.not_mem_nil,or_false] at mem
      rcases mem with rfl | rfl | rfl | rfl
      · exact first same.symm
      · exact second same.symm
      · exact third same.symm
      · exact absurd positive (by decide)
    rw [List.filter_eq_nil_iff.mpr fun r mem => by simpa using none r mem]
    decide

theorem linksReachFew : (∃ ps,Along fewRows 124 2 Page.next [] ps ∧ Ends Page.next ps ∧
      ∀ r ∈ fewRows.rows,0 < r.num → ∃ p ∈ ps,r ∈ p.msgs) ∧
    ∀ t p,paginateRecent fewRows 124 2 t = some p → ∀ m ∈ p.msgs,
      ∃ ps,Along fewRows 124 2 Page.prev t ps ∧ ∀ r ∈ fewRows.rows,0 < r.num → m.ts < r.ts → ∃ q ∈ ps,r ∈ q.msgs :=
  linksReachAll fewRows 124 2 fewOfSecond (by decide)

end PublicInbox.View
