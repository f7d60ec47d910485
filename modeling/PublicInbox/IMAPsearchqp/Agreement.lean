import PublicInbox.IMAP.Ranges
import PublicInbox.IMAPsearchqp

/-! The two compilations of a SEARCH and the keys as RFC 3501 has them. For each key there are
three readings: the condition for over.sqlite3, the range for Xapian, and the key itself. They
differ at some messages, its gap, and the query is compiled right where every message in a gap is
refused by other keys. -/
namespace PublicInbox.IMAPsearchqp
open PublicInbox.IMAP

def rfcElem (part : List Char) : Option Elem :=
  match matchRange part with
  | some e => some e
  | none => match part with
    | '*' :: ':' :: rest =>
      if rest = ['*'] then some .star else if rest ≠ [] ∧ rest.all Char.isDigit then some (.open rest) else none
    | _ => none

def rfcSet (set : List Char) : Option (List Elem) := (set.splitOn ',').mapM rfcElem

def DateText.date (d : DateText) : Option Calendar.Date :=
  (monthOf d.mon).map fun (mm : Nat) => ⟨Decimal.value d.yyyy,mm,Decimal.value d.dd⟩

def Key.Valid : Key → Prop
  | .date _ _ d => dateToken d = true ∧ ∃ date ∈ d.date,date.Valid
  | .uid set | .msn set => (rfcSet set).isSome

def DateText.midnight (d : DateText) : Int := (d.date.map (fun date => 86400 * date.count)).getD 0

namespace DateKey

def Sql (t : Int) (x : Times) : DateKey → Prop
  | sentSince => t ≤ x.ds
  | sentOn => t ≤ x.ds ∧ x.ds ≤ t + 86399
  | sentBefore => x.ds ≤ t
  | since => t ≤ x.ts
  | on => t ≤ x.ts ∧ x.ts ≤ t + 86399
  | before => x.ts ≤ t

def Xap (t z : Int) (x : Times) : DateKey → Prop
  | sentSince => z ≤ x.ds
  | sentOn => z ≤ x.ds ∧ x.ds ≤ t + 86399
  | sentBefore => x.ds ≤ z + 86399
  | since => t ≤ x.ts
  | on => t ≤ x.ts ∧ x.ts ≤ t + 86399
  | before => x.ts ≤ t

def Imap (z : Int) (x : Times) : DateKey → Prop
  | sentSince => z ≤ x.ds
  | sentOn => z ≤ x.ds ∧ x.ds ≤ z + 86399
  | sentBefore => x.ds < z
  | since => z ≤ x.ts
  | on => z ≤ x.ts ∧ x.ts ≤ z + 86399
  | before => x.ts < z

def column : DateKey → XapCol
  | sentSince | sentBefore => .d
  | sentOn => .dt
  | since | on | before => .rt

end DateKey

section
variable (o : Over Times) (base : Nat)

def UidReads (e : Elem) (u : Nat) : Prop := ¬ Misread o base e ∧ e.Names (highest o base) u

def MsnReads (e : Elem) (n : Nat) : Prop :=
  let last := (o.slice base).length
  let beyond := base + uidSlice < o.max
  (¬ MsnMisread last beyond e ∧ e.Names last n) ∨ (MsnMisread last beyond e ∧ e.Instead last n)

variable (thisYear : Nat)

namespace Key

def Sql (u : Nat) (x : Times) : Key → Prop
  | .date k _ d => ∃ t ∈ timegm thisYear d,k.Sql t x
  | .uid set => ∃ e ∈ (rfcSet set).bind List.head?,UidReads o base e u
  | .msn set => ∃ e ∈ (rfcSet set).bind List.head?,∃ n,0 < n ∧ (o.slice base)[n - 1]? = some u ∧ MsnReads o base e n

def Xap (u : Nat) (x : Times) : Key → Prop
  | .date k _ d => ∃ t ∈ timegm thisYear d,k.Xap t d.midnight x
  | .uid set => ∃ es ∈ rfcSet set,∃ e ∈ es,UidReads o base e u
  | .msn set => ∃ es ∈ rfcSet set,∃ e ∈ es,∃ n,0 < n ∧ (o.slice base)[n - 1]? = some u ∧ MsnReads o base e n

def Imap (u : Nat) (x : Times) : Key → Prop
  | .date k _ d => k.Imap d.midnight x
  | .uid set => ∃ es ∈ rfcSet set,Named (highest o base) es u
  | .msn set => ∃ es ∈ rfcSet set,∃ n,0 < n ∧ (o.slice base)[n - 1]? = some u ∧ Named (o.slice base).length es n

def column : Key → XapCol
  | .date k _ _ => k.column
  | .uid _ | .msn _ => .uid

end Key

def token (later : List Key) : Key → Bool
  | .date _ quoted d => !quoted && dateToken d
  | .uid set | .msn set => later.isEmpty && sequenceSet set

def taken : List Key → List Key
  | [] => []
  | k :: later => if token later k then k :: taken later else []

def left (keys : List Key) : List Key := keys.drop (taken keys).length

def Key.Dated : Key → Prop
  | .date _ _ d => (timegm thisYear d).isSome
  | _ => True

variable (grouped : Bool) (keys : List Key) (u : Nat) (x : Times)

/- A message at which a key is read differently, or that a key which is not taken refuses, or that
is in one of two ranges which are joined with OR. -/
def InGap : Prop :=
  (∃ k ∈ taken keys,¬ ((k.Sql o base thisYear u x ↔ k.Imap o base u x) ∧ (k.Xap o base thisYear u x ↔ k.Imap o base u x))) ∨
  (∃ k ∈ left keys,¬ k.Imap o base u x) ∨
  (grouped = true ∧ ∃ k ∈ taken keys,∃ k' ∈ taken keys,k.column = k'.column ∧ k.Xap o base thisYear u x ∧
    ¬ k'.Xap o base thisYear u x)

def SqlRefuses : Prop := ∃ k ∈ taken keys,¬ k.Sql o base thisYear u x

def XapRefuses : Prop := ∃ k ∈ taken keys,¬ k.Xap o base thisYear u x ∧
  (grouped = true → ∀ k' ∈ taken keys,k'.column = k.column → ¬ k'.Xap o base thisYear u x)

def ImapRefuses : Prop := ∃ k ∈ keys,¬ k.Imap o base u x

/- The first key is taken, timegm has the days of the dates that are taken, and every message of
the slice that lies in a gap is refused in each of the three readings. -/
structure Compiles : Prop where
  some : taken keys ≠ []
  dated : ∀ k ∈ taken keys,k.Dated thisYear
  gaps : ∀ u ∈ o.slice base,∀ x ∈ o.get? u,InGap o base thisYear grouped keys u x →
    SqlRefuses o base thisYear keys u x ∧ XapRefuses o base thisYear grouped keys u x ∧ ImapRefuses o base keys u x

end

theorem dateGap {k : DateKey} {t z : Int} {x : Times} (same : t = z) :
    ¬ ((k.Sql t x ↔ k.Imap z x) ∧ (k.Xap t z x ↔ k.Imap z x)) ↔
      match k with
      | .before => x.ts = z
      | .sentBefore => z ≤ x.ds ∧ x.ds ≤ z + 86399
      | _ => False := by
  subst same
  cases k <;> simp only [DateKey.Sql,DateKey.Xap,DateKey.Imap,iff_self,and_self,not_true_eq_false] <;> omega

section
variable {o : Over Times} {base : Nat} {thisYear : Nat} {u : Nat} {x : Times}

theorem xapBetween {k : Key} (sql : k.Sql o base thisYear u x) (imap : k.Imap o base u x) : k.Xap o base thisYear u x := by
  cases k with
  | date k quoted d =>
    obtain ⟨t,there,reads⟩ := sql
    refine ⟨t,there,?_⟩
    change k.Imap d.midnight x at imap
    cases k <;> simp only [DateKey.Sql,DateKey.Xap,DateKey.Imap] at reads imap ⊢ <;> omega
  | uid set =>
    obtain ⟨e,first,reads⟩ := sql
    obtain ⟨es,parsed,head⟩ := Option.bind_eq_some_iff.mp first
    exact ⟨es,parsed,e,List.mem_of_mem_head? head,reads⟩
  | msn set =>
    obtain ⟨e,first,reads⟩ := sql
    obtain ⟨es,parsed,head⟩ := Option.bind_eq_some_iff.mp first
    exact ⟨es,parsed,e,List.mem_of_mem_head? head,reads⟩

def XapKeys (o : Over Times) (base thisYear : Nat) (grouped : Bool) (keys : List Key) (u : Nat) (x : Times) : Prop :=
  ∀ k ∈ taken keys,k.Xap o base thisYear u x ∨
    (grouped = true ∧ ∃ k' ∈ taken keys,k'.column = k.column ∧ k'.Xap o base thisYear u x)

theorem xapRefuses {grouped : Bool} {keys : List Key} :
    XapRefuses o base thisYear grouped keys u x ↔ ¬ XapKeys o base thisYear grouped keys u x := by
  unfold XapRefuses XapKeys
  constructor
  · rintro ⟨k,mem,out,others⟩ all
    rcases all k mem with inside | ⟨joined,k',mem',same,inside⟩
    · exact out inside
    · exact others joined k' mem' same inside
  · intro some
    push Not at some
    obtain ⟨k,mem,out,others⟩ := some
    exact ⟨k,mem,out,fun joined k' mem' same => others joined k' mem' same⟩

theorem takenLeft (keys : List Key) : taken keys ++ left keys = keys := by
  have front : taken keys <+: keys := by
    induction keys with
    | nil => exact List.prefix_rfl
    | cons k later ih =>
      unfold taken
      split
      · exact List.cons_prefix_cons.mpr ⟨rfl,ih⟩
      · exact List.nil_prefix
  exact List.prefix_iff_eq_append.mp front

theorem gapsRefused {grouped : Bool} {keys : List Key} :
    (((∀ k ∈ taken keys,k.Sql o base thisYear u x) ↔ XapKeys o base thisYear grouped keys u x) ∧
      (XapKeys o base thisYear grouped keys u x ↔ ∀ k ∈ keys,k.Imap o base u x)) ↔
    (InGap o base thisYear grouped keys u x → SqlRefuses o base thisYear keys u x ∧
      XapRefuses o base thisYear grouped keys u x ∧ ImapRefuses o base keys u x) := by
  have sqlOut : SqlRefuses o base thisYear keys u x ↔ ¬ ∀ k ∈ taken keys,k.Sql o base thisYear u x := by
    simp [SqlRefuses]
  have imapOut : ImapRefuses o base keys u x ↔ ¬ ∀ k ∈ keys,k.Imap o base u x := by simp [ImapRefuses]
  have split : (∀ k ∈ keys,k.Imap o base u x) ↔ (∀ k ∈ taken keys,k.Imap o base u x) ∧ ∀ k ∈ left keys,k.Imap o base u x := by
    rw [← List.forall_mem_append,takenLeft]
  rw [sqlOut,imapOut,xapRefuses]
  constructor
  · rintro ⟨first,second⟩ gap
    have none : ¬ ∀ k ∈ keys,k.Imap o base u x := by
      intro imap
      have sql := first.mpr (second.mpr imap)
      have own := (split.mp imap).1
      have xap : ∀ k ∈ taken keys,k.Xap o base thisYear u x := fun k mem => xapBetween (sql k mem) (own k mem)
      rcases gap with ⟨k,mem,apart⟩ | ⟨k,mem,out⟩ | ⟨-,k,mem,k',mem',-,-,out⟩
      · exact apart ⟨iff_of_true (sql k mem) (own k mem),iff_of_true (xap k mem) (own k mem)⟩
      · exact out ((split.mp imap).2 k mem)
      · exact out (xap k' mem')
    exact ⟨fun sql => none (second.mp (first.mp sql)),fun xap => none (second.mp xap),none⟩
  · intro refused
    by_cases gap : InGap o base thisYear grouped keys u x
    · obtain ⟨sql,xap,imap⟩ := refused gap
      exact ⟨iff_of_false sql xap,iff_of_false xap imap⟩
    · unfold InGap at gap
      push Not at gap
      obtain ⟨same,rest,single⟩ := gap
      have sql : (∀ k ∈ taken keys,k.Sql o base thisYear u x) ↔ ∀ k ∈ taken keys,k.Imap o base u x :=
        forall₂_congr fun k mem => (same k mem).1
      have xap : XapKeys o base thisYear grouped keys u x ↔ ∀ k ∈ taken keys,k.Imap o base u x := by
        refine forall₂_congr fun k mem => ?_
        rw [← (same k mem).2]
        constructor
        · rintro (inside | ⟨joined,k',mem',column,inside⟩)
          · exact inside
          · exact single joined k' mem' k mem column inside
        · exact Or.inl
      rw [split,sql,xap]
      exact ⟨Iff.rfl,fun all => ⟨all,rest⟩,And.left⟩

theorem dateLe (a b : Int) : strftimeDate a ≤ strftimeDate b ↔ a / 86400 ≤ b / 86400 := by
  obtain ⟨valid,count⟩ := Calendar.ofCountSpec (b / 86400)
  have ends := (Calendar.numberFrom valid (a / 86400)).2
  rw [count] at ends
  exact ends

theorem clock (t : Int) : 0 ≤ strftime t - 1000000 * strftimeDate t ∧ strftime t - 1000000 * strftimeDate t ≤ 235959 := by
  unfold strftime
  omega

theorem dayEnd (n : Int) : strftime (86400 * n + 86399) = 1000000 * strftimeDate (86400 * n) + 235959 := by
  have same : strftimeDate (86400 * n + 86399) = strftimeDate (86400 * n) := by
    unfold strftimeDate
    congr 2
    omega
  unfold strftime
  rw [same]
  omega

def dateTests (t : Int) : DateKey → List Test
  | .sentSince => [⟨.ds,true,t⟩]
  | .sentOn => [⟨.ds,true,t⟩,⟨.ds,false,t + 86399⟩]
  | .sentBefore => [⟨.ds,false,t⟩]
  | .since => [⟨.ts,true,t⟩]
  | .on => [⟨.ts,true,t⟩,⟨.ts,false,t + 86399⟩]
  | .before => [⟨.ts,false,t⟩]

def dateRange (t n : Int) : DateKey → Range
  | .sentSince => ⟨.d,some n,none⟩
  | .sentOn => ⟨.dt,some (1000000 * n),some (strftime (t + 86399))⟩
  | .sentBefore => ⟨.d,none,some n⟩
  | .since => ⟨.rt,some t,none⟩
  | .on => ⟨.rt,some t,some (t + 86399)⟩
  | .before => ⟨.rt,none,some t⟩

theorem dateRun (k : DateKey) (q : Q) {d : DateText} {t n : Int} (number : yyyymmdd d = some n)
    (time : timegm thisYear d = some t) :
    k.run thisYear q d = some ((q.push (.range (dateRange t n k))).andSql (dateTests t k)) := by
  obtain ⟨sql,xap,uid⟩ := q
  cases k <;> cases sql <;>
    simp [DateKey.run,SENTSINCE,SENTON,SENTBEFORE,ON,BEFORE,SINCE,number,time,Q.push,Q.andSql,dateRange,dateTests]

theorem dateDies (k : DateKey) {q : Q} {d : DateText} (sql : q.sql ≠ none) (time : timegm thisYear d = none) :
    k.run thisYear q d = none := by
  obtain ⟨sql',xap,uid⟩ := q
  cases k <;> simp [DateKey.run,SENTSINCE,SENTON,SENTBEFORE,ON,BEFORE,SINCE,time,Q.push] <;>
    exact fun _ _ => sql

theorem dateTestsHold (k : DateKey) (t : Int) : (∀ c ∈ dateTests t k,c.Holds x) ↔ k.Sql t x := by
  cases k <;> simp [dateTests,Test.Holds,DateKey.Sql]

theorem dateRangeMatches (k : DateKey) {d : DateText} {date : Calendar.Date} {t : Int} (there : d.date = some date)
    (valid : date.Valid) (time : timegm thisYear d = some t) :
    (dateRange t date.number k).Matches u x ↔ k.Xap t d.midnight x := by
  have midnight : d.midnight = 86400 * date.count := by simp [DateText.midnight,there]
  obtain ⟨least,most⟩ := Calendar.numberFrom valid (x.ds / 86400)
  have least : date.number ≤ strftimeDate x.ds ↔ date.count ≤ x.ds / 86400 := least
  have most : strftimeDate x.ds ≤ date.number ↔ x.ds / 86400 ≤ date.count := most
  rw [midnight]
  cases k with
  | sentSince =>
    simp only [dateRange,Range.Matches,XapCol.value,DateKey.Xap,Option.mem_some_iff,forall_eq',
      Option.not_mem_none,false_imp_iff,implies_true,and_true,least]
    omega
  | sentBefore =>
    simp only [dateRange,Range.Matches,XapCol.value,DateKey.Xap,Option.mem_some_iff,forall_eq',
      Option.not_mem_none,false_imp_iff,implies_true,true_and,most]
    omega
  | sentOn =>
    obtain ⟨n,day⟩ : ∃ n,t = 86400 * n := by
      obtain ⟨mm,-,rest⟩ := Option.bind_eq_some_iff.mp time
      dsimp only at rest
      split at rest
      · exact ⟨_,(Option.some.inj rest).symm⟩
      · contradiction
    have «end» := dayEnd n
    have own := clock x.ds
    have order := dateLe x.ds (86400 * n)
    simp only [dateRange,Range.Matches,XapCol.value,DateKey.Xap,Option.mem_some_iff,forall_eq',day,«end»]
    have low : 1000000 * date.number ≤ strftime x.ds ↔ date.number ≤ strftimeDate x.ds := by omega
    have high : strftime x.ds ≤ 1000000 * strftimeDate (86400 * n) + 235959 ↔ strftimeDate x.ds ≤ strftimeDate (86400 * n) := by
      omega
    rw [low,high,least,order]
    omega
  | since | on | before =>
    simp [dateRange,Range.Matches,XapCol.value,DateKey.Xap]

theorem tokenElems {set : List Char} {es : List Elem} (token : sequenceSet set = true) (parsed : rfcSet set = some es) :
    elems set = some es := by
  have inside : ∀ (ps : List (List Char)),∀ p ∈ ps,∃ pre post,[','].intercalate ps = pre ++ p ++ post := by
    intro ps
    induction ps with
    | nil => exact fun p mem => absurd mem List.not_mem_nil
    | cons q ps ih =>
      intro p mem
      rcases List.mem_cons.mp mem with rfl | later
      · cases ps with
        | nil => exact ⟨[],[],by simp⟩
        | cons r ps => exact ⟨[],',' :: [','].intercalate (r :: ps),by simp⟩
      · obtain ⟨pre,post,whole⟩ := ih p later
        cases ps with
        | nil => exact absurd later List.not_mem_nil
        | cons r ps => exact ⟨q ++ ',' :: pre,post,by simp [whole]⟩
  have same : ∀ p ∈ set.splitOn ',',rfcElem p = matchRange p := by
    intro p mem
    obtain ⟨pre,post,whole⟩ := inside _ p mem
    rw [List.intercalate_splitOn] at whole
    unfold rfcElem
    split
    · rename_i e found
      exact found.symm
    · rename_i missed
      rw [missed]
      split
      · rename_i rest
        exfalso
        rw [whole] at token
        cases pre with
        | nil => simp [sequenceSet] at token
        | cons c pre =>
          simp only [sequenceSet,List.cons_append,List.append_assoc,List.dropLast_append_cons,List.dropLast_cons_cons,
            List.all_append,List.all_cons,Bool.and_eq_true] at token
          exact absurd token.1.2.2.1 (by decide)
      · rfl
  have mapped : ∀ ps : List (List Char),(∀ p ∈ ps,rfcElem p = matchRange p) → ps.mapM rfcElem = ps.mapM matchRange := by
    intro ps each
    induction ps with
    | nil => rfl
    | cons p ps ih =>
      obtain ⟨own,others⟩ := List.forall_mem_cons.mp each
      rw [List.mapM_cons,List.mapM_cons,own,ih others]
  exact (mapped _ same).symm.trans parsed

theorem csvLength (es : List Elem) (digits : ∀ e ∈ es,e.Digits) : es.length ≤ (csvOf es).length := by
  induction es with
  | nil => exact Nat.zero_le _
  | cons e es ih =>
    obtain ⟨own,others⟩ := List.forall_mem_cons.mp digits
    have text := List.length_pos_iff.mpr (textSome own)
    have rest := ih others
    cases es with
    | nil =>
      have whole : csvOf [e] = e.text := by simp [csvOf]
      rw [whole]
      exact text
    | cons f es =>
      have whole : csvOf (e :: f :: es) = e.text ++ ',' :: csvOf (f :: es) := by simp [csvOf]
      rw [whole]
      simp only [List.length_append,List.length_cons] at rest ⊢
      omega

theorem rangeRows {e : Elem} (mem : u ∈ o.slice base) :
    (Range.mk .uid (some (rangeOf o base e).1) (some (rangeOf o base e).2)).Matches u x ↔ u ∈ rows o base e := by
  rw [memRows,and_iff_right mem]
  simp [Range.Matches,XapCol.value]

theorem uidRangesRead {es : List Elem} (some : es ≠ []) (digits : ∀ e ∈ es,e.Digits) {fuel : Nat} (enough : es.length ≤ fuel) :
    ∃ rs,uidRanges o base fuel (csvOf es) = .some rs ∧ rs ≠ [] ∧ (∀ r ∈ rs,r.col = .uid) ∧
      ∀ u ∈ o.slice base,∀ x,(∃ r ∈ rs,r.Matches u x) ↔ ∃ e ∈ es,u ∈ rows o base e := by
  induction es generalizing fuel with
  | nil => contradiction
  | cons e es ih =>
    obtain ⟨fuel,rfl⟩ : ∃ n,fuel = n + 1 := ⟨fuel - 1,by simp at enough; omega⟩
    obtain ⟨own,others⟩ := List.forall_mem_cons.mp digits
    have first : rangeStep o base (csvOf (e :: es)) = _ := stepFirst o base own
    have single : falsy (restOf es) = true → uidRanges o base (fuel + 1) (csvOf (e :: es)) =
        .some [⟨.uid,.some (rangeOf o base e).1,.some (rangeOf o base e).2⟩] := by
      intro no
      simp only [uidRanges,first,Option.bind_some,no,if_true]
    cases no : falsy (restOf es) with
    | true =>
      refine ⟨_,single no,List.cons_ne_nil _ _,by simp,?_⟩
      intro u mem x
      cases es with
      | nil => simp [rangeRows mem]
      | cons f es =>
        obtain ⟨rfl,rfl⟩ := falsyRest others no
        simp [rangeRows mem,rowsZero]
    | false =>
      obtain ⟨f,es,rfl⟩ : ∃ f rest,es = f :: rest := by
        cases es with
        | nil => simp [restOf,falsy] at no
        | cons f rest => exact ⟨f,rest,rfl⟩
      obtain ⟨rs,read,nonempty,column,matched⟩ := ih (List.cons_ne_nil _ _) others (Nat.le_of_succ_le_succ enough)
      refine ⟨⟨.uid,.some (rangeOf o base e).1,.some (rangeOf o base e).2⟩ :: rs,?_,List.cons_ne_nil _ _,?_,?_⟩
      · have rest : (restOf (f :: es)).getD [] = csvOf (f :: es) := rfl
        rw [uidRanges,first,Option.bind_some]
        dsimp only
        rw [no,if_neg (by decide),rest,read]
        rfl
      · exact List.forall_mem_cons.mpr ⟨rfl,column⟩
      · intro u mem x
        rw [List.exists_mem_cons_iff,List.exists_mem_cons_iff,matched u mem x,rangeRows mem]

def Became (o : Over Times) (base thisYear : Nat) (k : Key) (y : Xap) : Prop :=
  (∀ u ∈ o.slice base,∀ x,y.Matches u x ↔ k.Xap o base thisYear u x) ∧
    (y.column = some k.column ∨ (y.column = none ∧ k.column = .uid))

theorem uidSetXapRead {es : List Elem} (some : es ≠ []) (digits : ∀ e ∈ es,e.Digits) (q : Q) :
    ∃ y,uidSetXap o base q (csvOf es) = .some (q.push y) ∧ (y.column = .some .uid ∨ y.column = none) ∧
      ∀ u ∈ o.slice base,∀ x,y.Matches u x ↔ ∃ e ∈ es,u ∈ rows o base e := by
  have fuel := csvLength es digits
  obtain ⟨rs,read,nonempty,column,matched⟩ := @uidRangesRead o base es some digits ((csvOf es).length + 1) (by omega)
  unfold uidSetXap
  rw [read,Option.map_some]
  match rs,nonempty with
  | [r],_ =>
    refine ⟨.range r,rfl,Or.inl (congrArg _ (column r List.mem_cons_self)),?_⟩
    intro u mem x
    rw [← matched u mem x]
    simp [Xap.Matches]
  | r :: r' :: rs,_ => exact ⟨.either (r :: r' :: rs),rfl,Or.inr rfl,matched⟩

def action (o : Over Times) (base : Nat) (msn2uid : List (Option Nat)) (thisYear : Nat) (q : Q) : Key → Option Q
  | .date k _ d => k.run thisYear q d
  | .uid set => uidSet o base q set
  | .msn set => msnSet o base msn2uid q set

theorem actionDate (msn2uid : List (Option Nat)) (q : Q) (k : DateKey) (quoted : Bool) (d : DateText) :
    action o base msn2uid thisYear q (.date k quoted d) = k.run thisYear q d := rfl

theorem searchToken (msn2uid : List (Option Nat)) (q : Q) (later : List Key) (k : Key) :
    searchKey1 o base msn2uid thisYear q later k =
      if token later k then .of (action o base msn2uid thisYear q k) else .other := by
  cases k <;> rfl

theorem msnRow {e : Elem} (mem : u ∈ o.slice base) :
    u ∈ rows o base (e.mapNumbers (mapNumber (msnToUid ((o.slice base).map some)))) ↔
      ∃ n,0 < n ∧ (o.slice base)[n - 1]? = some u ∧ MsnReads o base e n := by
  constructor
  · intro read
    obtain ⟨j,bound,found⟩ := List.getElem_of_mem mem
    have entry : (o.slice base)[j + 1 - 1]? = some u := by
      rw [Nat.add_sub_cancel,List.getElem?_eq_getElem bound,found]
    exact ⟨j + 1,Nat.succ_pos _,entry,(msnReads ⟨by omega,by omega⟩ entry).mp read⟩
  · rintro ⟨n,positive,entry,reads⟩
    obtain ⟨bound,-⟩ := List.getElem?_eq_some_iff.mp entry
    exact (msnReads ⟨by omega,by omega⟩ entry).mpr reads

theorem setSource {k : Key} (column : k.column = .uid) (valid : k.Valid) (taken : token [] k = true) :
    ∃ es : List Elem,es ≠ [] ∧ (∀ e ∈ es,e.Digits) ∧
      (∀ q,action o base ((o.slice base).map some) thisYear q k = uidSet o base q (csvOf es)) ∧
      ∀ u ∈ o.slice base,∀ x,(k.Sql o base thisYear u x ↔ ∃ e ∈ es.head?,u ∈ rows o base e) ∧
        (k.Xap o base thisYear u x ↔ ∃ e ∈ es,u ∈ rows o base e) := by
  cases k with
  | date k quoted d => cases k <;> cases column
  | uid set =>
    obtain ⟨es,parsed⟩ := Option.isSome_iff_exists.mp valid
    obtain ⟨nonempty,text,digits⟩ := elemsParse (tokenElems taken parsed)
    refine ⟨es,nonempty,digits,fun q => by rw [← text]; rfl,fun u mem x => ⟨?_,?_⟩⟩
    · simp only [Key.Sql,parsed,Option.bind_some,UidReads,elemReads mem]
    · simp only [Key.Xap,parsed,Option.mem_some_iff,exists_eq_left',UidReads,elemReads mem]
  | msn set =>
    obtain ⟨es,parsed⟩ := Option.isSome_iff_exists.mp valid
    obtain ⟨nonempty,text,digits⟩ := elemsParse (tokenElems taken parsed)
    refine ⟨es.map (Elem.mapNumbers (mapNumber (msnToUid ((o.slice base).map some)))),by simpa using nonempty,?_,?_,
      fun u mem x => ⟨?_,?_⟩⟩
    · intro e inside
      obtain ⟨e',-,rfl⟩ := List.mem_map.mp inside
      exact mapDigits _ e'
    · intro q
      rw [← rewritten _ digits,← text]
      rfl
    · simp only [Key.Sql,parsed,Option.bind_some,List.head?_map,Option.mem_def,Option.map_eq_some_iff]
      constructor
      · rintro ⟨e,first,reads⟩
        exact ⟨_,⟨e,first,rfl⟩,(msnRow mem).mpr reads⟩
      · rintro ⟨_,⟨e,first,rfl⟩,read⟩
        exact ⟨e,first,(msnRow mem).mp read⟩
    · simp only [Key.Xap,parsed,Option.mem_some_iff,exists_eq_left',List.mem_map]
      constructor
      · rintro ⟨e,inside,reads⟩
        exact ⟨_,⟨e,inside,rfl⟩,(msnRow mem).mpr reads⟩
      · rintro ⟨_,⟨e,inside,rfl⟩,read⟩
        exact ⟨e,inside,(msnRow mem).mp read⟩

theorem tokenLater {k : Key} {later : List Key} (column : k.column = .uid) (taken : token later k = true) : later = [] := by
  cases k with
  | date k quoted d => cases k <;> cases column
  | uid set | msn set =>
    simp only [token,Bool.and_eq_true,List.isEmpty_iff] at taken
    exact taken.1

theorem dateParts {k : DateKey} {quoted : Bool} {d : DateText} (valid : (Key.date k quoted d).Valid) :
    ∃ date,d.date = some date ∧ date.Valid ∧ yyyymmdd d = some date.number := by
  obtain ⟨-,date,there,valid⟩ := valid
  obtain ⟨mm,month,rfl⟩ := Option.map_eq_some_iff.mp there
  exact ⟨_,there,valid,by simp [yyyymmdd,month,Calendar.Date.number]⟩

variable (o base thisYear)

theorem walkSql (keys : List Key) (valid : ∀ k ∈ keys,k.Valid) (dated : ∀ k ∈ taken keys,k.Dated thisYear) {q : Q}
    {tests : List Test} (sql : q.sql = some tests) (uid : q.uid = []) :
    ∃ q' s,searchKeys o base ((o.slice base).map some) thisYear q keys = some q' ∧ finish o base q' = some s ∧
      ∀ u ∈ o.slice base,∀ x,s.Selects u x ↔ (∀ t ∈ tests,t.Holds x) ∧ ∀ k ∈ taken keys,k.Sql o base thisYear u x := by
  have stop : finish o base q = some ⟨tests,none⟩ := by simp [finish,uid,sql]
  induction keys generalizing q tests with
  | nil => exact ⟨q,_,rfl,stop,fun u _ x => by simp [Sql.Selects,taken]⟩
  | cons k later ih =>
    obtain ⟨own,others⟩ := List.forall_mem_cons.mp valid
    rw [searchKeys,searchToken]
    unfold taken at dated ⊢
    cases here : token later k with
    | false => exact ⟨q,_,rfl,stop,fun u _ x => by simp [Sql.Selects]⟩
    | true =>
      simp only [here,if_true] at dated ⊢
      obtain ⟨now,datedLater⟩ := List.forall_mem_cons.mp dated
      by_cases column : k.column = .uid
      · obtain rfl := tokenLater column here
        obtain ⟨es,some,digits,acts,reads⟩ := @setSource o base thisYear k column own here
        obtain ⟨e,es,rfl⟩ := List.exists_cons_of_ne_nil some
        have run : uidSet o base q (csvOf (e :: es)) = .some { q with uid := [csvOf (e :: es)] } := by
          simp [uidSet,sql,uid]
        have first : rangeStep o base (csvOf (e :: es)) = _ := stepFirst o base (digits e List.mem_cons_self)
        rw [acts,run]
        refine ⟨{ q with uid := [csvOf (e :: es)] },⟨tests,.some [((rangeOf o base e).1,(rangeOf o base e).2)]⟩,rfl,?_,?_⟩
        · simp [finish,sql,first]
        · intro u mem x
          have own := (reads u mem x).1
          have row : u ∈ rows o base e ↔ _ := memRows
          simp only [List.head?_cons,Option.mem_some_iff,exists_eq_left'] at own
          rw [row,and_iff_right mem] at own
          generalize rangeOf o base e = n at own ⊢
          obtain ⟨beg,fin⟩ := n
          simp [Sql.Selects,taken,own]
      · cases k with
        | uid set | msn set => exact absurd rfl column
        | date k quoted d =>
          obtain ⟨date,there,day,number⟩ := dateParts own
          obtain ⟨t,time⟩ := Option.isSome_iff_exists.mp now
          have run := dateRun k q number time
          have next : ((q.push (.range (dateRange t date.number k))).andSql (dateTests t k)).sql = some (tests ++ dateTests t k) := by
            simp [Q.push,Q.andSql,sql]
          obtain ⟨q',s,walk,ends,select⟩ := ih others datedLater next uid (by simp [finish,Q.push,Q.andSql,sql,uid])
          refine ⟨q',s,?_,ends,?_⟩
          · rw [actionDate,run]
            exact walk
          · intro u mem x
            rw [select u mem x,List.forall_mem_append,List.forall_mem_cons,dateTestsHold]
            simp [Key.Sql,time,and_assoc]

theorem walkXap (keys : List Key) (valid : ∀ k ∈ keys,k.Valid) (dated : ∀ k ∈ taken keys,k.Dated thisYear) {q : Q}
    (sql : q.sql = none) :
    ∃ q' xs,searchKeys o base ((o.slice base).map some) thisYear q keys = some q' ∧ q'.xap = q.xap ++ xs ∧
      List.Forall₂ (Became o base thisYear) (taken keys) xs := by
  induction keys generalizing q with
  | nil => exact ⟨q,[],rfl,by simp,.nil⟩
  | cons k later ih =>
    obtain ⟨own,others⟩ := List.forall_mem_cons.mp valid
    rw [searchKeys,searchToken]
    unfold taken at dated ⊢
    cases here : token later k with
    | false => exact ⟨q,[],rfl,by simp,.nil⟩
    | true =>
      simp only [here,if_true] at dated ⊢
      obtain ⟨now,datedLater⟩ := List.forall_mem_cons.mp dated
      by_cases column : k.column = .uid
      · obtain rfl := tokenLater column here
        obtain ⟨es,some,digits,acts,reads⟩ := @setSource o base thisYear k column own here
        obtain ⟨y,run,group,matched⟩ := @uidSetXapRead o base es some digits q
        have set : uidSet o base q (csvOf es) = .some (q.push y) := by
          rw [uidSet,if_pos sql,run]
        rw [acts,set]
        refine ⟨q.push y,[y],rfl,rfl,.cons ⟨fun u mem x => ?_,?_⟩ .nil⟩
        · rw [matched u mem x,(reads u mem x).2]
        · rw [column]
          exact group.imp id fun none => ⟨none,rfl⟩
      · cases k with
        | uid set | msn set => exact absurd rfl column
        | date k quoted d =>
          obtain ⟨date,there,day,number⟩ := dateParts own
          obtain ⟨t,time⟩ := Option.isSome_iff_exists.mp now
          have run := dateRun k q number time
          have next : ((q.push (.range (dateRange t date.number k))).andSql (dateTests t k)).sql = none := by
            simp [Q.push,Q.andSql,sql]
          obtain ⟨q',xs,walk,parts,each⟩ := ih others datedLater next
          refine ⟨q',.range (dateRange t date.number k) :: xs,?_,?_,.cons ⟨fun u _ x => ?_,Or.inl ?_⟩ each⟩
          · rw [actionDate,run]
            exact walk
          · rw [parts]
            simp [Q.push,Q.andSql]
          · change (dateRange t date.number k).Matches u x ↔ _
            rw [dateRangeMatches k there day time]
            simp [Key.Xap,time]
          · cases k <;> rfl

theorem walkDies (keys : List Key) (valid : ∀ k ∈ keys,k.Valid) (undated : ∃ k ∈ taken keys,¬ k.Dated thisYear) {q : Q}
    (sql : q.sql ≠ none) : searchKeys o base ((o.slice base).map some) thisYear q keys = none := by
  induction keys generalizing q with
  | nil =>
    obtain ⟨k,mem,-⟩ := undated
    exact absurd mem List.not_mem_nil
  | cons k later ih =>
    obtain ⟨own,others⟩ := List.forall_mem_cons.mp valid
    rw [searchKeys,searchToken]
    unfold taken at undated
    cases here : token later k with
    | false => simp [here] at undated
    | true =>
      simp only [here,if_true] at undated ⊢
      cases k with
      | uid set | msn set =>
        obtain rfl := tokenLater rfl here
        simp [taken,Key.Dated] at undated
      | date k quoted d =>
        obtain ⟨date,there,day,number⟩ := dateParts own
        rw [actionDate]
        cases time : timegm thisYear d with
        | none =>
          rw [dateDies k sql time]
          rfl
        | some t =>
          rw [dateRun k q number time]
          refine ih others ?_ (by simpa [Q.push,Q.andSql] using sql)
          rcases List.exists_mem_cons_iff _ _ _ |>.mp undated with first | later
          · exact absurd (by simp [Key.Dated,time]) first
          · exact later

theorem searchTaken (msn2uid : List (Option Nat)) (q : Q) (keys : List Key) :
    searchKey o base msn2uid thisYear q keys =
      if taken keys = [] then none else searchKeys o base msn2uid thisYear q keys := by
  cases keys with
  | nil => rfl
  | cons k later =>
    rw [searchKey,searchKeys,searchToken]
    unfold taken
    cases token later k with
    | false => rfl
    | true => cases action o base msn2uid thisYear q k <;> rfl

variable {o base thisYear}

theorem singleSet (keys : List Key) {k k' : Key} (mem : k ∈ taken keys) (mem' : k' ∈ taken keys) (column : k.column = .uid)
    (column' : k'.column = .uid) : k = k' := by
  induction keys with
  | nil => exact absurd mem List.not_mem_nil
  | cons first later ih =>
    unfold taken at mem mem'
    split at mem
    · rename_i here
      rw [if_pos here] at mem'
      rcases List.mem_cons.mp mem with rfl | rest
      · obtain rfl := tokenLater column here
        exact (List.mem_singleton.mp mem').symm
      · rcases List.mem_cons.mp mem' with rfl | rest'
        · obtain rfl := tokenLater column' here
          exact absurd rest List.not_mem_nil
        · exact ih rest rest'
    · exact absurd mem List.not_mem_nil

theorem becameLeft {ks : List Key} {xs : List Xap} (each : List.Forall₂ (Became o base thisYear) ks xs) {k : Key} (mem : k ∈ ks) :
    ∃ y ∈ xs,Became o base thisYear k y := by
  induction each with
  | nil => exact absurd mem List.not_mem_nil
  | cons first _ ih =>
    rcases List.mem_cons.mp mem with rfl | later
    · exact ⟨_,List.mem_cons_self,first⟩
    · obtain ⟨y,inside,own⟩ := ih later
      exact ⟨y,List.mem_cons_of_mem _ inside,own⟩

theorem becameRight {ks : List Key} {xs : List Xap} (each : List.Forall₂ (Became o base thisYear) ks xs) {y : Xap} (mem : y ∈ xs) :
    ∃ k ∈ ks,Became o base thisYear k y := by
  induction each with
  | nil => exact absurd mem List.not_mem_nil
  | cons first _ ih =>
    rcases List.mem_cons.mp mem with rfl | later
    · exact ⟨_,List.mem_cons_self,first⟩
    · obtain ⟨k,inside,own⟩ := ih later
      exact ⟨k,List.mem_cons_of_mem _ inside,own⟩

theorem xapKeys {grouped : Bool} {keys : List Key} {xs : List Xap}
    (each : List.Forall₂ (Became o base thisYear) (taken keys) xs) (slice : u ∈ o.slice base) :
    XapSelects grouped xs u x ↔ XapKeys o base thisYear grouped keys u x := by
  cases grouped with
  | false =>
    simp only [XapSelects,XapKeys,Bool.false_eq_true,if_false,false_and,or_false]
    constructor
    · intro all k mem
      obtain ⟨y,inside,same,-⟩ := becameLeft each mem
      exact (same u slice x).mp (all y inside)
    · intro all y mem
      obtain ⟨k,inside,same,-⟩ := becameRight each mem
      exact (same u slice x).mpr (all k inside)
  | true =>
    simp only [XapSelects,XapKeys,if_true,true_and]
    constructor
    · intro all k mem
      obtain ⟨y,inside,same,column⟩ := becameLeft each mem
      rcases all y inside with own | ⟨z,mem',there,equal,matched⟩
      · exact Or.inl ((same u slice x).mp own)
      · obtain ⟨k',inside',same',column'⟩ := becameRight each mem'
        refine Or.inr ⟨k',inside',?_,(same' u slice x).mp matched⟩
        rcases column with ranged | ⟨group,-⟩
        · rcases column' with ranged' | ⟨group',-⟩
          · exact Option.some.inj (ranged'.symm.trans (equal.trans ranged))
          · rw [group'] at there
            contradiction
        · rw [equal,group] at there
          contradiction
    · intro all y mem
      obtain ⟨k,inside,same,column⟩ := becameRight each mem
      rcases all k inside with own | ⟨k',inside',equal,own⟩
      · exact Or.inl ((same u slice x).mpr own)
      · rcases column with ranged | ⟨group,set⟩
        · obtain ⟨z,mem',same',column'⟩ := becameLeft each inside'
          rcases column' with ranged' | ⟨group',set'⟩
          · exact Or.inr ⟨z,mem',by simp [ranged'],ranged'.trans (by rw [equal,ranged]),(same' u slice x).mpr own⟩
          · -- the set is the only key of its column
            obtain rfl := singleSet keys inside' inside set' (equal.symm.trans set')
            exact Or.inl ((same u slice x).mpr own)
        · obtain rfl := singleSet keys inside' inside (equal.trans set) set
          exact Or.inl ((same u slice x).mpr own)

def Agree (o : Over Times) (base : Nat) (msn2uid : List (Option Nat)) (thisYear : Nat) (grouped : Bool) (keys : List Key) : Prop :=
  ∃ s xs,parseSql o base msn2uid thisYear keys = some s ∧ parseXap o base msn2uid thisYear keys = some xs ∧
    ∀ u ∈ o.slice base,∀ x ∈ o.get? u,(s.Selects u x ↔ XapSelects grouped xs u x) ∧
      (XapSelects grouped xs u x ↔ ∀ k ∈ keys,k.Imap o base u x)

theorem agreeSlice (grouped : Bool) {keys : List Key} (valid : ∀ k ∈ keys,k.Valid) :
    Agree o base ((o.slice base).map some) thisYear grouped keys ↔ Compiles o base thisYear grouped keys := by
  unfold Agree parseSql parseXap
  rw [searchTaken,searchTaken]
  by_cases first : taken keys = []
  · rw [if_pos first]
    refine ⟨fun ⟨_,_,made,_⟩ => by contradiction,fun compiles => absurd first compiles.some⟩
  · rw [if_neg first,if_neg first]
    by_cases dated : ∀ k ∈ taken keys,k.Dated thisYear
    · obtain ⟨q,s,walk,ends,selects⟩ := walkSql o base thisYear keys valid dated (q := ⟨some [],[],[]⟩) rfl rfl
      obtain ⟨q',xs,walk',parts,each⟩ := walkXap o base thisYear keys valid dated (q := ⟨none,[],[]⟩) rfl
      rw [walk,walk',Option.bind_some,ends,Option.map_some,parts,List.nil_append]
      have sql : ∀ u ∈ o.slice base,∀ x,s.Selects u x ↔ ∀ k ∈ taken keys,k.Sql o base thisYear u x := by
        intro u mem x
        rw [selects u mem x]
        simp
      constructor
      · rintro ⟨s',xs',made,made',agree⟩
        cases made
        cases made'
        refine ⟨first,dated,fun u mem x row => gapsRefused.mp ?_⟩
        have both := agree u mem x row
        rw [sql u mem x,xapKeys each mem] at both
        exact both
      · intro compiles
        refine ⟨s,xs,rfl,rfl,fun u mem x row => ?_⟩
        rw [sql u mem x,xapKeys each mem]
        exact gapsRefused.mpr (compiles.gaps u mem x row)
    · push Not at dated
      rw [walkDies o base thisYear keys valid dated (by simp)]
      refine ⟨fun ⟨_,_,made,_⟩ => by contradiction,fun compiles => ?_⟩
      obtain ⟨k,mem,undated⟩ := dated
      exact absurd (compiles.dated k mem) undated

theorem searchesAgree (acts : List (Act Times)) {ibx : Option Nat} {base : Nat} (thisYear : Nat) (grouped : Bool) {keys : List Key}
    (selected : (acts.foldl Client.step Client.empty).mailbox = some (ibx,base)) (valid : ∀ k ∈ keys,k.Valid) :
    let v := acts.foldl Client.step Client.empty
    let o := v.over ibx
    Agree o base (msn2uid base (uo2mExtend o base (base + uidSlice) v.uo2m).1) thisYear grouped keys ↔
      Compiles o base thisYear grouped keys := by
  intro v o
  have form := sessionForm selected
  have whole : o.slice base <+: o.slice base := List.prefix_rfl
  rw [formUid form (frontFrom whole) (frontFew whole)]
  exact agreeSlice grouped valid

end

def letters : List (Act Times) :=
  [.arrive 0 0 ⟨749000000,749000000⟩,.arrive 0 0 ⟨749556000,749556000⟩,.arrive 0 0 ⟨749600000,749600000⟩,.examine (some 0) 0]

def october : DateText := ⟨"2".toList,"OCT".toList,"1993".toList⟩

def octoberKeys : List Key := [.date .since false october,.uid "2:3".toList]

theorem octoberAgrees : Agree ((letters.foldl Client.step Client.empty).over (some 0)) 0
    (msn2uid 0 (uo2mExtend ((letters.foldl Client.step Client.empty).over (some 0)) 0 (0 + uidSlice)
      (letters.foldl Client.step Client.empty).uo2m).1) 125 true octoberKeys := by
  have either {p : Key → Prop} (date : p (.date .since false october)) (set : p (.uid "2:3".toList)) : ∀ k ∈ octoberKeys,p k := by
    intro k mem
    rcases List.mem_cons.mp mem with rfl | last
    · exact date
    · exact List.mem_singleton.mp last ▸ set
  have all : taken octoberKeys = octoberKeys := rfl
  have time : timegm 125 october = some october.midnight := by decide
  have set : rfcSet "2:3".toList = some [.span ['2'] ['3']] := by decide
  have straight (o : Over Times) : ¬ Misread o 0 (.span ['2'] ['3']) := (by decide : ¬ Decimal.value ['3'] < Decimal.value ['2'])
  refine (searchesAgree letters 125 true (by decide) (either ⟨by decide,⟨1993,10,2⟩,by decide,by decide⟩ ?_)).mpr ⟨by decide,?_,?_⟩
  · exact (by decide : (rfcSet "2:3".toList).isSome = true)
  · rw [all]
    exact either (by decide : (timegm 125 october).isSome = true) trivial
  · intro u mem x row gap
    exfalso
    unfold InGap at gap
    rw [all] at gap
    rcases gap with ⟨k,mem,apart⟩ | ⟨k,mem,-⟩ | ⟨-,k,mem,k',mem',column,inside,out⟩
    · revert apart
      refine either (p := fun k => ¬ ¬ ((k.Sql _ 0 125 u x ↔ k.Imap _ 0 u x) ∧ (k.Xap _ 0 125 u x ↔ k.Imap _ 0 u x))) ?_ ?_ k mem
      · intro apart
        simp only [Key.Sql,Key.Xap,Key.Imap,time,Option.mem_some_iff,exists_eq_left'] at apart
        exact (dateGap rfl).mp apart
      · intro apart
        simp only [Key.Sql,Key.Xap,Key.Imap,set,UidReads,Named,Option.bind_some,List.head?_cons,Option.mem_def,Option.some.injEq,
          exists_eq_left',List.mem_singleton,exists_eq_left,straight,not_false_eq_true,true_and,and_self,not_true_eq_false] at apart
    · exact absurd mem List.not_mem_nil
    · have same := either (p := fun k => ∀ k' ∈ octoberKeys,k.column = k'.column → k = k')
        (either (fun _ => rfl) fun other => absurd other (by decide)) (either (fun other => absurd other (by decide)) fun _ => rfl)
        k mem k' mem' column
      exact out (same ▸ inside)

/- UID 1,3 selects only message 1 in over.sqlite3. -/
theorem laterElementsLost : ¬ ∀ (acts : List (Act Times)) (ibx : Option Nat) (base thisYear : Nat) (grouped : Bool) (keys : List Key),
    (acts.foldl Client.step Client.empty).mailbox = some (ibx,base) → keys ≠ [] → (∀ k ∈ keys,k.Valid) →
      Agree ((acts.foldl Client.step Client.empty).over ibx) base
        (msn2uid base (uo2mExtend ((acts.foldl Client.step Client.empty).over ibx) base (base + uidSlice)
          (acts.foldl Client.step Client.empty).uo2m).1) thisYear grouped keys := by
  intro always
  obtain ⟨s,xs,sql,xap,agree⟩ := always letters (some 0) 0 125 false [.uid "1,3".toList] (by decide) (by decide) (by
    intro k mem
    rw [List.mem_singleton.mp mem]
    exact (by decide : (rfcSet "1,3".toList).isSome = true))
  have sql' : parseSql ((letters.foldl Client.step Client.empty).over (some 0)) 0
      (msn2uid 0 (uo2mExtend ((letters.foldl Client.step Client.empty).over (some 0)) 0 (0 + uidSlice)
        (letters.foldl Client.step Client.empty).uo2m).1) 125 [.uid "1,3".toList] = some ⟨[],some [(1,1)]⟩ := by decide
  cases sql.symm.trans sql'
  obtain ⟨first,second⟩ := agree 3 (by decide) ⟨749600000,749600000⟩ rfl
  have named : ∀ k ∈ [Key.uid "1,3".toList],k.Imap ((letters.foldl Client.step Client.empty).over (some 0)) 0 3 ⟨749600000,749600000⟩ := by
    intro k mem
    rw [List.mem_singleton.mp mem]
    exact ⟨[.one ['1'],.one ['3']],by decide,.one ['3'],by decide,rfl⟩
  obtain ⟨-,nums⟩ := first.mpr (second.mpr named)
  obtain ⟨n,mem,low,high⟩ := nums _ rfl
  rw [List.mem_singleton.mp mem] at high
  exact absurd high (by decide)

-- What t/imap_searchqp.t has for SENTON and SENTBEFORE 2-Oct-1993.
example : (parseSql ((letters.foldl Client.step Client.empty).over (some 0)) 0 [] 125
    [.date .sentOn false october,.date .sentBefore false october]).map Sql.text =
      some " AND ds >= 749520000 AND ds <= 749606399 AND ds <= 749520000" ∧
    (parseXap ((letters.foldl Client.step Client.empty).over (some 0)) 0 [] 125
      [.date .sentOn false october,.date .sentBefore false october]).map (List.map Xap.text) =
      some ["dt:19931002000000..19931002235959","d:..19931002"] := by decide +kernel

end PublicInbox.IMAPsearchqp
