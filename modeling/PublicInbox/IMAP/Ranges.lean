import Mathlib.Data.List.TakeDrop
import Mathlib.Data.List.TakeWhile
import PublicInbox.IMAP.Uo2m

/-! What a FETCH delivers for a set: the ranges of its elements one after the other. -/
namespace PublicInbox.IMAP
open Keyed
variable {R : Type}

namespace Elem

def text : Elem → List Char
  | one n => n
  | span a b => a ++ ':' :: b
  | .open a => a ++ [':','*']
  | star => ['*']

def numbers : Elem → List (List Char)
  | one n => [n]
  | span a b => [a,b]
  | .open a => [a]
  | star => []

def Digits (e : Elem) : Prop := ∀ n ∈ e.numbers,n ≠ [] ∧ ∀ c ∈ n,c.isDigit = true

def mapNumbers (f : List Char → List Char) : Elem → Elem
  | one n => one (f n)
  | span a b => span (f a) (f b)
  | .open a => .open (f a)
  | star => star

end Elem

theorem spanDigits {ds : List Char} (rest : List Char) (digits : ∀ c ∈ ds,c.isDigit = true)
    (other : ∀ c ∈ rest.head?,c.isDigit = false) :
    (ds ++ rest).span Char.isDigit = (ds,rest) := by
  rw [List.span_eq_takeWhile_dropWhile,List.takeWhile_append_of_pos digits,List.dropWhile_append_of_pos digits]
  cases rest with
  | nil => simp
  | cons c cs =>
    have stop := other c rfl
    simp [stop]

theorem spanParts {s ds rest : List Char} (cut : s.span Char.isDigit = (ds,rest)) :
    s = ds ++ rest ∧ (∀ c ∈ ds,c.isDigit = true) := by
  rw [List.span_eq_takeWhile_dropWhile,Prod.mk.injEq] at cut
  obtain ⟨rfl,rfl⟩ := cut
  exact ⟨(List.takeWhile_append_dropWhile).symm,fun c mem => List.mem_takeWhile_imp mem⟩

theorem matchText {e : Elem} (digits : e.Digits) : matchRange e.text = some e := by
  cases e with
  | one n =>
    obtain ⟨some,all⟩ := digits n List.mem_cons_self
    have cut := spanDigits [] all (fun c mem => by cases mem)
    rw [List.append_nil] at cut
    obtain ⟨d,ds,rfl⟩ := List.exists_cons_of_ne_nil some
    simp only [Elem.text,matchRange,cut]
  | span a b =>
    obtain ⟨some,all⟩ := digits a List.mem_cons_self
    obtain ⟨some',every⟩ := digits b (List.mem_cons_of_mem _ List.mem_cons_self)
    have cut := spanDigits (':' :: b) all (fun c mem => by cases mem; rfl)
    have cut' := spanDigits [] every (fun c mem => by cases mem)
    rw [List.append_nil] at cut'
    obtain ⟨d,ds,rfl⟩ := List.exists_cons_of_ne_nil some
    obtain ⟨e,es,rfl⟩ := List.exists_cons_of_ne_nil some'
    have apart : e :: es ≠ ['*'] := by
      intro same
      cases same
      exact absurd (every '*' List.mem_cons_self) (by decide)
    simp only [Elem.text,matchRange,cut,cut',if_true,if_neg apart]
  | «open» a =>
    obtain ⟨some,all⟩ := digits a List.mem_cons_self
    have cut := spanDigits [':','*'] all (fun c mem => by cases mem; rfl)
    obtain ⟨d,ds,rfl⟩ := List.exists_cons_of_ne_nil some
    simp only [Elem.text,matchRange,cut,if_true]
  | star => rfl

theorem matchSome {s : List Char} {e : Elem} (found : matchRange s = some e) : s = e.text ∧ e.Digits := by
  unfold matchRange at found
  split at found
  · rename_i rest cut
    split at found
    · rename_i same
      cases found
      obtain ⟨rfl,-⟩ := spanParts cut
      exact ⟨same,fun n mem => absurd mem List.not_mem_nil⟩
    · contradiction
  · rename_i d ds cut
    cases found
    obtain ⟨rfl,all⟩ := spanParts cut
    rw [List.append_nil]
    exact ⟨rfl,fun n mem => List.mem_singleton.mp mem ▸ ⟨List.cons_ne_nil _ _,all⟩⟩
  · rename_i d ds c rest cut
    obtain ⟨rfl,all⟩ := spanParts cut
    split at found
    · rename_i colon
      cases colon
      split at found
      · rename_i same
        cases found
        cases same
        exact ⟨rfl,fun n mem => List.mem_singleton.mp mem ▸ ⟨List.cons_ne_nil _ _,all⟩⟩
      · split at found
        · rename_i e es cut'
          cases found
          obtain ⟨rfl,all'⟩ := spanParts cut'
          rw [List.append_nil]
          refine ⟨rfl,fun n mem => ?_⟩
          rcases List.mem_cons.mp mem with rfl | last
          · exact ⟨List.cons_ne_nil _ _,all⟩
          · exact List.mem_singleton.mp last ▸ ⟨List.cons_ne_nil _ _,all'⟩
        · contradiction
    · contradiction

def csvOf (es : List Elem) : List Char := [','].intercalate (es.map Elem.text)

theorem digitNot {c : Char} (digit : c.isDigit = true) : c ≠ ',' ∧ c ≠ ':' ∧ c ≠ '*' := by
  refine ⟨?_,?_,?_⟩ <;> rintro rfl <;> exact absurd digit (by decide)

theorem textNoComma {e : Elem} (digits : e.Digits) : ',' ∉ e.text := by
  intro mem
  have number : ∀ n ∈ e.numbers,',' ∉ n := fun n inside comma => (digitNot ((digits n inside).2 _ comma)).1 rfl
  cases e with
  | one n => exact number n List.mem_cons_self mem
  | span a b =>
    rcases List.mem_append.mp mem with left | right
    · exact number a List.mem_cons_self left
    · rcases List.mem_cons.mp right with colon | right
      · exact absurd colon (by decide)
      · exact number b (List.mem_cons_of_mem _ List.mem_cons_self) right
  | «open» a =>
    rcases List.mem_append.mp mem with left | right
    · exact number a List.mem_cons_self left
    · exact absurd right (by decide)
  | star => exact absurd mem (by decide)

theorem textSome {e : Elem} (digits : e.Digits) : e.text ≠ [] := by
  cases e with
  | one n => exact (digits n List.mem_cons_self).1
  | span a b => simp [Elem.text]
  | «open» a => simp [Elem.text]
  | star => exact List.cons_ne_nil _ _

theorem elemsParse {csv : List Char} {es : List Elem} (valid : elems csv = some es) :
    es ≠ [] ∧ csv = csvOf es ∧ ∀ e ∈ es,e.Digits := by
  have each : ∀ (ps : List (List Char)) (es : List Elem),ps.mapM matchRange = some es →
      ps = es.map Elem.text ∧ ∀ e ∈ es,e.Digits := by
    intro ps
    induction ps with
    | nil =>
      intro es all
      cases all
      exact ⟨rfl,fun e mem => absurd mem List.not_mem_nil⟩
    | cons p ps ih =>
      intro es all
      simp only [List.mapM_cons,Option.bind_eq_bind,Option.bind_eq_some_iff,Option.pure_def,Option.some.injEq] at all
      obtain ⟨e,first,tail,rest,rfl⟩ := all
      obtain ⟨rfl,digits⟩ := matchSome first
      obtain ⟨rfl,others⟩ := ih tail rest
      exact ⟨rfl,List.forall_mem_cons.mpr ⟨digits,others⟩⟩
  obtain ⟨pieces,digits⟩ := each _ _ valid
  refine ⟨?_,?_,digits⟩
  · rintro rfl
    exact List.splitOn_ne_nil _ _ pieces
  · unfold csvOf
    rw [← pieces,List.intercalate_splitOn]

theorem elemsRender {es : List Elem} (some : es ≠ []) (digits : ∀ e ∈ es,e.Digits) : elems (csvOf es) = .some es := by
  unfold elems csvOf
  rw [List.splitOn_intercalate]
  · clear some
    induction es with
    | nil => rfl
    | cons e es ih =>
      rw [List.map_cons,List.mapM_cons,matchText (digits e List.mem_cons_self),
        ih fun x mem => digits x (List.mem_cons_of_mem _ mem)]
      rfl
  · intro p mem
    obtain ⟨e,inside,rfl⟩ := List.mem_map.mp mem
    exact textNoComma (digits e inside)
  · simpa using some

def restOf : List Elem → Option (List Char)
  | [] => none
  | es => some (csvOf es)

theorem cutFirst {e : Elem} {es : List Elem} (digits : e.Digits) : cutComma (csvOf (e :: es)) = (e.text,restOf es) := by
  have clean : ∀ c ∈ e.text,decide (c ≠ ',') = true := by
    intro c mem
    refine decide_eq_true fun same => ?_
    rw [same] at mem
    exact textNoComma digits mem
  obtain ⟨t,ts,text⟩ := List.exists_cons_of_ne_nil (textSome digits)
  unfold cutComma
  rw [List.span_eq_takeWhile_dropWhile]
  cases es with
  | nil =>
    have whole : csvOf [e] = e.text := by simp [csvOf]
    rw [whole,List.takeWhile_eq_self_iff.mpr clean,List.dropWhile_eq_nil_iff.mpr clean,text]
    rfl
  | cons f es =>
    have whole : csvOf (e :: f :: es) = e.text ++ ',' :: csvOf (f :: es) := by simp [csvOf]
    rw [whole,List.takeWhile_append_of_pos clean,List.dropWhile_append_of_pos clean]
    simp only [List.takeWhile_cons,List.dropWhile_cons,ne_eq,not_true_eq_false,decide_false,Bool.false_eq_true,if_false,
      List.append_nil,text]
    rfl

theorem stepFirst (o : Over R) (base : Nat) {e : Elem} {es : List Elem} (digits : e.Digits) :
    rangeStep o base (csvOf (e :: es)) = some ⟨(rangeOf o base e).1,(rangeOf o base e).2,restOf es⟩ := by
  unfold rangeStep
  rw [cutFirst digits]
  dsimp only
  rw [matchText digits]
  rfl

theorem goDigits {f : Nat → Nat} {ds rest run : List Char} (digits : ∀ c ∈ ds,c.isDigit = true) :
    replaceDigits.go f (ds ++ rest) run = replaceDigits.go f rest (run ++ ds) := by
  induction ds generalizing run with
  | nil => simp
  | cons d ds ih =>
    rw [List.cons_append,replaceDigits.go,if_pos (digits d List.mem_cons_self),
      ih fun c mem => digits c (List.mem_cons_of_mem _ mem)]
    simp

theorem goOther {f : Nat → Nat} {c : Char} {rest run : List Char} (other : c.isDigit = false) :
    replaceDigits.go f (c :: rest) run = replaceDigits.flush f run ++ c :: replaceDigits.go f rest [] := by
  rw [replaceDigits.go,if_neg (by simp [other])]

def mapNumber (f : Nat → Nat) (n : List Char) : List Char := Decimal.render (f (Decimal.value n))

theorem flushRun {f : Nat → Nat} {n : List Char} (some : n ≠ []) : replaceDigits.flush f n = mapNumber f n := if_neg some

theorem goElem (f : Nat → Nat) {e : Elem} (digits : e.Digits) (rest : List Char)
    (other : ∀ c ∈ rest.head?,c.isDigit = false) :
    replaceDigits.go f (e.text ++ rest) [] = (e.mapNumbers (mapNumber f)).text ++ replaceDigits.go f rest [] := by
  have number : ∀ n ∈ e.numbers,∀ tail : List Char,(∀ c ∈ tail.head?,c.isDigit = false) →
      replaceDigits.go f (n ++ tail) [] = mapNumber f n ++ replaceDigits.go f tail [] := by
    intro n mem tail stop
    obtain ⟨some,all⟩ := digits n mem
    rw [goDigits all,List.nil_append]
    cases tail with
    | nil => rw [replaceDigits.go,flushRun some,replaceDigits.go]; simp [replaceDigits.flush]
    | cons c cs => rw [goOther (stop c rfl),flushRun some,goOther (stop c rfl)]; simp [replaceDigits.flush]
  cases e with
  | one n => exact number n List.mem_cons_self rest other
  | span a b =>
    have colon : replaceDigits.go f (':' :: (b ++ rest)) [] = ':' :: replaceDigits.go f (b ++ rest) [] := goOther rfl
    simp only [Elem.text,Elem.mapNumbers,List.append_assoc,List.cons_append]
    rw [number a List.mem_cons_self _ (fun c mem => by cases mem; rfl),colon,
      number b (List.mem_cons_of_mem _ List.mem_cons_self) rest other]
  | «open» a =>
    have marks : replaceDigits.go f (':' :: '*' :: rest) [] = ':' :: '*' :: replaceDigits.go f rest [] := by
      rw [goOther rfl,goOther rfl]
      rfl
    simp only [Elem.text,Elem.mapNumbers,List.append_assoc,List.cons_append,List.nil_append]
    rw [number a List.mem_cons_self _ (fun c mem => by cases mem; rfl),marks]
  | star => exact goOther rfl

theorem rewritten (m : List (Option Nat)) {es : List Elem} (digits : ∀ e ∈ es,e.Digits) :
    msnToUidRange m (csvOf es) = csvOf (es.map (Elem.mapNumbers (mapNumber (msnToUid m)))) := by
  unfold msnToUidRange replaceDigits
  induction es with
  | nil => rfl
  | cons e es ih =>
    have own := digits e List.mem_cons_self
    have others : ∀ x ∈ es,x.Digits := fun x mem => digits x (List.mem_cons_of_mem _ mem)
    cases es with
    | nil =>
      have last := goElem (msnToUid m) own [] (fun c mem => by cases mem)
      simpa [csvOf,replaceDigits.go,replaceDigits.flush] using last
    | cons f es =>
      have whole : ∀ (x y : Elem) (ys : List Elem),csvOf (x :: y :: ys) = x.text ++ ',' :: csvOf (y :: ys) := by
        intro x y ys
        simp [csvOf]
      rw [whole,List.map_cons,List.map_cons,whole,goElem _ own _ (fun c mem => by cases mem; rfl),goOther rfl,ih others]
      rfl

theorem mapDigits (f : Nat → Nat) (e : Elem) : (e.mapNumbers (mapNumber f)).Digits := by
  intro n mem
  have number : ∀ k,Decimal.render k ≠ [] ∧ ∀ c ∈ Decimal.render k,c.isDigit = true :=
    fun k => ⟨Decimal.renderSome k,Decimal.renderDigits k⟩
  cases e with
  | one a | «open» a =>
    rw [List.mem_singleton.mp mem]
    exact number _
  | span a b =>
    rcases List.mem_cons.mp mem with rfl | last
    · exact number _
    · rw [List.mem_singleton.mp last]
      exact number _
  | star => exact absurd mem List.not_mem_nil

variable {o : Over R} {base : Nat} {k : Caller}

def Runs (o : Over R) (base : Nat) (k : Caller) (v w : Fetch) : Prop := ∃ n,(Fetch.step o base k)^[n] v = w

theorem Runs.refl (v : Fetch) : Runs o base k v v := ⟨0,rfl⟩

theorem Runs.step {v w : Fetch} (rest : Runs o base k (v.step o base k) w) : Runs o base k v w := by
  obtain ⟨n,rest⟩ := rest
  exact ⟨n + 1,rest⟩

theorem Runs.trans {u v w : Fetch} (one : Runs o base k u v) (two : Runs o base k v w) : Runs o base k u w := by
  obtain ⟨n,rfl⟩ := one
  obtain ⟨m,rfl⟩ := two
  exact ⟨m + n,Function.iterate_add_apply _ m n u⟩

theorem deliver (msgs : List Nat) (info : RangeInfo) (sent : List Nat) :
    Runs o base k ⟨msgs,info,sent,none⟩ ⟨[],info,sent ++ msgs,none⟩ := by
  cases k with
  | fetchBlob =>
    induction msgs generalizing sent with
    | nil =>
      rw [List.append_nil]
      exact .refl _
    | cons u us ih =>
      rw [List.append_cons]
      exact .step (ih (sent ++ [u]))
  | fetchSmsg | fetchUid =>
    cases msgs with
    | nil =>
      rw [List.append_nil]
      exact .refl _
    | cons u us => exact .step (.refl _)

theorem readFront (beg fin : Nat) : ∃ rest,o.uidRange beg fin (fun _ => true) = k.read o beg fin ++ rest ∧
    (k.read o beg fin = [] → rest = []) := by
  have limited : ∃ rest,o.uidRange beg fin (fun _ => true) = o.queryXover beg fin ++ rest ∧
      (o.queryXover beg fin = [] → rest = []) := by
    refine ⟨(o.uidRange beg fin (fun _ => true)).drop 1000,(List.take_append_drop _ _).symm,fun none => ?_⟩
    have empty := List.take_eq_nil_iff.mp none
    simp only [OfNat.ofNat_ne_zero,false_or] at empty
    rw [empty]
    rfl
  cases k with
  | fetchUid => exact ⟨[],(List.append_nil _).symm,fun _ => rfl⟩
  | fetchBlob | fetchSmsg => exact limited

variable (o base k) in
theorem drain (beg fin : Nat) (csv : Option (List Char)) (sent : List Nat) :
    ∃ beg',Runs o base k ⟨[],⟨beg,fin,csv⟩,sent,none⟩
      ⟨[],⟨beg',fin,csv⟩,sent ++ o.uidRange beg fin (fun _ => true),none⟩ ∧ k.read o beg' fin = [] := by
  have bound : ∃ n,(o.uidRange beg fin (fun _ => true)).length < n := ⟨_,Nat.lt_succ_self _⟩
  obtain ⟨n,bound⟩ := bound
  induction n generalizing beg sent with
  | zero => omega
  | succ n ih =>
    obtain ⟨rest,whole,empty⟩ := readFront (o := o) (k := k) beg fin
    cases page : k.read o beg fin with
    | nil =>
      rw [whole,page,empty page,List.append_nil,List.append_nil]
      exact ⟨beg,.refl _,page⟩
    | cons u us =>
      have last := List.dropLast_append_getLast (List.cons_ne_nil u us)
      have order : o.uidRange beg fin (fun _ => true) =
          (u :: us).dropLast ++ (u :: us).getLast (List.cons_ne_nil u us) :: rest := by
        rw [List.append_cons,last,whole,page]
      have next := pastFront order
      have fewer : rest.length < n := by
        have length := congrArg List.length whole
        rw [page,List.length_append,List.length_cons] at length
        omega
      obtain ⟨beg',run,done⟩ := ih ((u :: us).getLast (List.cons_ne_nil u us) + 1) (sent ++ u :: us) (next.symm ▸ fewer)
      rw [next] at run
      refine ⟨beg',?_,done⟩
      rw [whole,page,← List.append_assoc]
      refine .step ?_
      have read : Fetch.step o base k ⟨[],⟨beg,fin,csv⟩,sent,none⟩ =
          ⟨u :: us,⟨(u :: us).getLast (List.cons_ne_nil u us) + 1,fin,csv⟩,sent,none⟩ := by
        unfold Fetch.step refill
        dsimp only
        rw [page]
      rw [read]
      exact (deliver (u :: us) _ sent).trans run

def rows (o : Over R) (base : Nat) (e : Elem) : List Nat :=
  o.uidRange (rangeOf o base e).1 (rangeOf o base e).2 (fun _ => true)

theorem rowsZero : rows o base (.one ['0']) = [] := by
  refine List.eq_nil_iff_forall_not_mem.mpr fun n mem => ?_
  obtain ⟨r,-,least,top,-⟩ := memUidRange.mp mem
  change (if 0 ≤ base ∨ base + uidSlice < 0 then 0 + 1 else 0) ≤ n at least
  change n ≤ 0 at top
  rw [if_pos (Or.inl (Nat.zero_le _))] at least
  omega

theorem falsyRest {e : Elem} {es : List Elem} (digits : ∀ x ∈ e :: es,x.Digits)
    (no : falsy (restOf (e :: es)) = true) : e = .one ['0'] ∧ es = [] := by
  change decide (csvOf (e :: es) = [] ∨ csvOf (e :: es) = ['0']) = true at no
  have parse := elemsRender (List.cons_ne_nil e es) digits
  rcases of_decide_eq_true no with empty | zero
  · rw [empty] at parse
    have nothing : elems [] = none := by decide
    rw [nothing] at parse
    contradiction
  · rw [zero] at parse
    have same : elems ['0'] = some [.one ['0']] := by decide
    rw [same] at parse
    cases parse
    exact ⟨rfl,rfl⟩

variable (o base k) in
theorem loop (es : List Elem) (digits : ∀ e ∈ es,e.Digits) (beg fin : Nat) (sent : List Nat) :
    ∃ w,Runs o base k ⟨[],⟨beg,fin,restOf es⟩,sent,none⟩ w ∧ w.done = some .ok ∧
      w.sent = sent ++ o.uidRange beg fin (fun _ => true) ++ es.flatMap (rows o base) := by
  induction es generalizing beg fin sent with
  | nil =>
    obtain ⟨beg',run,done⟩ := drain o base k beg fin none sent
    refine ⟨_,run.trans (.step (.refl _)),?_,?_⟩ <;> simp [Fetch.step,refill,done]
  | cons e es ih =>
    have own := digits e List.mem_cons_self
    have others : ∀ x ∈ es,x.Digits := fun x mem => digits x (List.mem_cons_of_mem _ mem)
    obtain ⟨beg',run,done⟩ := drain o base k beg fin (restOf (e :: es)) sent
    cases no : falsy (restOf (e :: es)) with
    | true =>
      obtain ⟨rfl,rfl⟩ := falsyRest digits no
      refine ⟨_,run.trans (.step (.refl _)),?_,?_⟩
      · simp [Fetch.step,refill,done,restOf,csvOf,Elem.text,falsy]
      · simp [Fetch.step,refill,done,restOf,csvOf,Elem.text,falsy,rowsZero]
    | false =>
      obtain ⟨w,rest,ended,all⟩ := ih others (rangeOf o base e).1 (rangeOf o base e).2
        (sent ++ o.uidRange beg fin (fun _ => true))
      have next : Fetch.step o base k ⟨[],⟨beg',fin,restOf (e :: es)⟩,sent ++ o.uidRange beg fin (fun _ => true),none⟩ =
          ⟨[],⟨(rangeOf o base e).1,(rangeOf o base e).2,restOf es⟩,sent ++ o.uidRange beg fin (fun _ => true),none⟩ := by
        unfold Fetch.step refill
        dsimp only
        rw [done]
        change (if falsy (restOf (e :: es)) = true then _ else _) = _
        rw [no,if_neg (by decide),stepFirst o base own]
      refine ⟨w,run.trans (.step (next ▸ rest)),ended,?_⟩
      rw [all,List.flatMap_cons,← List.append_assoc]
      rfl

def Answered (o : Over R) (base : Nat) (k : Caller) (start : Option Fetch) (sent : List Nat) : Prop :=
  ∃ v w,start = some v ∧ Runs o base k v w ∧ w.done = some .ok ∧ w.sent = sent

theorem answer (o : Over R) (base : Nat) (k : Caller) {es : List Elem} (some : es ≠ []) (digits : ∀ e ∈ es,e.Digits) :
    Answered o base k ((rangeStep o base (csvOf es)).map (fun info => ⟨[],info,[],none⟩)) (es.flatMap (rows o base)) := by
  obtain ⟨e,es,rfl⟩ := List.exists_cons_of_ne_nil some
  obtain ⟨w,run,done,sent⟩ := loop o base k es
    (fun x mem => digits x (List.mem_cons_of_mem _ mem)) (rangeOf o base e).1 (rangeOf o base e).2 []
  rw [stepFirst o base (digits e List.mem_cons_self)]
  exact ⟨_,w,rfl,run,done,sent⟩

def Elem.Names (high : Nat) : Elem → Nat → Prop
  | .one a,n => n = Decimal.value a
  | .span a b,n => min (Decimal.value a) (Decimal.value b) ≤ n ∧ n ≤ max (Decimal.value a) (Decimal.value b)
  | .open a,n => min (Decimal.value a) high ≤ n ∧ n ≤ max (Decimal.value a) high
  | .star,n => n = high

def Named (high : Nat) (es : List Elem) (n : Nat) : Prop := ∃ e ∈ es,e.Names high n

def highest (o : Over R) (base : Nat) : Nat := (o.slice base).getLast?.getD 0

/- Elements that the range loop takes for nothing: a span from the higher to the lower number, and,
once the inbox has messages beyond the slice, '*', and a span to '*' from beyond the last message. -/
def Misread (o : Over R) (base : Nat) : Elem → Prop
  | .one _ => False
  | .span a b => Decimal.value b < Decimal.value a
  | .open a => base + uidSlice < o.max ∧ highest o base < min (Decimal.value a) (base + uidSlice)
  | .star => base + uidSlice < o.max

def UidsMeet (o : Over R) (base : Nat) (es : List Elem) : Prop :=
  ∀ e ∈ es,Misread o base e → ∀ u ∈ o.slice base,e.Names (highest o base) u →
    ∃ e' ∈ es,¬ Misread o base e' ∧ e'.Names (highest o base) u

/- Numbers that are a negative subscript, of a message other than the last, once 1 is taken off. -/
def Wraps (last n : Nat) : Prop := 2 ^ 64 < last + n ∧ n < 2 ^ 64

instance (last n : Nat) : Decidable (Wraps last n) := inferInstanceAs (Decidable (_ ∧ _))

/- Elements of an MSN set that are not taken for what they name, `last` being the number of
messages: 0 and numbers beyond it, spans from there, to a lower number or to one that wraps, and '*' as before. -/
def MsnMisread (last : Nat) (beyond : Prop) : Elem → Prop
  | .one a => Decimal.value a = 0 ∨ last < Decimal.value a
  | .span a b => ¬ (1 ≤ Decimal.value a ∧ Decimal.value a ≤ last ∧ Decimal.value a ≤ Decimal.value b) ∨ Wraps last (Decimal.value b)
  | .open a => Decimal.value a = 0 ∨ Wraps last (Decimal.value a)
  | .star => beyond

def msnClamp (last n : Nat) : Nat := if 1 ≤ n ∧ n ≤ last then n else if Wraps last n then last + n - 2 ^ 64 else last

def Elem.Instead (last : Nat) : Elem → Nat → Prop
  | .one a,n => n = msnClamp last (Decimal.value a)
  | .span a b,n => msnClamp last (Decimal.value a) ≤ n ∧ n ≤ msnClamp last (Decimal.value b)
  | .open a,n => msnClamp last (Decimal.value a) ≤ n ∧ n ≤ last
  | .star,_ => False

def MsnsMeet (last : Nat) (beyond : Prop) (es : List Elem) : Prop :=
  ∀ e ∈ es,MsnMisread last beyond e → ∀ n,1 ≤ n ∧ n ≤ last →
    (e.Instead last n → Named last es n) ∧
      (e.Names last n → ∃ e' ∈ es,(¬ MsnMisread last beyond e' ∧ e'.Names last n) ∨
        (MsnMisread last beyond e' ∧ e'.Instead last n))

theorem unionMeets {α β : Type} (es : List α) (inside : β → Prop) (names reads instead : α → β → Prop)
    (misread : α → Prop) (well : ∀ e,¬ misread e → ∀ u,inside u → (reads e u ↔ names e u))
    (ill : ∀ e,misread e → ∀ u,inside u → (reads e u ↔ instead e u)) :
    (∀ u,inside u → ((∃ e ∈ es,reads e u) ↔ ∃ e ∈ es,names e u)) ↔
      ∀ e ∈ es,misread e → ∀ u,inside u → (instead e u → ∃ e' ∈ es,names e' u) ∧
        (names e u → ∃ e' ∈ es,(¬ misread e' ∧ names e' u) ∨ (misread e' ∧ instead e' u)) := by
  have kinds : ∀ u,inside u → ∀ e,reads e u ↔ (¬ misread e ∧ names e u) ∨ (misread e ∧ instead e u) := by
    intro u own e
    by_cases mis : misread e
    · rw [ill e mis u own]
      simp [mis]
    · rw [well e mis u own]
      simp [mis]
  constructor
  · intro meets e mem mis u own
    refine ⟨fun stray => (meets u own).mp ⟨e,mem,(ill e mis u own).mpr stray⟩,fun named => ?_⟩
    obtain ⟨e',mem',read⟩ := (meets u own).mpr ⟨e,mem,named⟩
    exact ⟨e',mem',(kinds u own e').mp read⟩
  · intro cover u own
    constructor
    · rintro ⟨e,mem,read⟩
      rcases (kinds u own e).mp read with ⟨-,named⟩ | ⟨mis,stray⟩
      · exact ⟨e,mem,named⟩
      · exact (cover e mem mis u own).1 stray
    · rintro ⟨e,mem,named⟩
      by_cases mis : misread e
      · obtain ⟨e',mem',found⟩ := (cover e mem mis u own).2 named
        exact ⟨e',mem',(kinds u own e').mpr found⟩
      · exact ⟨e,mem,(kinds u own e).mpr (Or.inl ⟨mis,named⟩)⟩

theorem highestLast {u : Nat} (mem : u ∈ o.slice base) : highest o base ∈ o.slice base ∧ u ≤ highest o base := by
  unfold highest
  cases last : (o.slice base).getLast? with
  | none =>
    rw [List.getLast?_eq_none_iff.mp last] at mem
    exact absurd mem List.not_mem_nil
  | some top =>
    refine ⟨List.mem_of_getLast? last,?_⟩
    obtain ⟨front,whole⟩ := List.getLast?_eq_some_iff.mp last
    have sorted := (sliceFrom o base).1
    rw [whole] at mem sorted
    rcases List.mem_append.mp mem with before | here
    · exact ((List.pairwise_append.mp sorted).2.2 u before top List.mem_cons_self).le
    · exact (List.mem_singleton.mp here).le

theorem maxInside (positive : 0 < o.max) : (o.get? o.max).isSome := by
  unfold Over.max at positive ⊢
  cases last : (o.keysWhere (fun n _ => 0 < n)).getLast? with
  | none =>
    rw [last] at positive
    exact absurd positive (lt_irrefl 0)
  | some top =>
    obtain ⟨r,found,-⟩ := Table.memKeysWhere.mp (List.mem_of_getLast? last)
    change (o.get? top).isSome
    rw [found]
    rfl

theorem highestMax {u : Nat} (mem : u ∈ o.slice base) (inside : o.max ≤ base + uidSlice) : highest o base = o.max := by
  have below := maxBelow (memSlice.mp mem).1
  have least := (memSlice.mp mem).2.1
  have top : o.max ∈ o.slice base := memSlice.mpr ⟨maxInside (by omega),by omega,inside⟩
  exact le_antisymm (maxBelow (memSlice.mp (highestLast mem).1).1) (highestLast top).2

theorem memRows {e : Elem} {u : Nat} : u ∈ rows o base e ↔
    u ∈ o.slice base ∧ (rangeOf o base e).1 ≤ u ∧ u ≤ (rangeOf o base e).2 := by
  have clamped : ∀ beg fin,(uidClamp base beg fin).1 ≥ base + 1 ∧ (uidClamp base beg fin).2 ≤ base + uidSlice :=
    fun beg fin => ⟨Nat.le_max_right _ _,Nat.min_le_right _ _⟩
  have bounds : (rangeOf o base e).1 ≤ u ∧ u ≤ (rangeOf o base e).2 → base + 1 ≤ u ∧ u ≤ base + uidSlice := by
    rintro ⟨low,high⟩
    cases e with
    | one n =>
      change (if Decimal.value n ≤ base ∨ base + uidSlice < Decimal.value n then _ else _) ≤ u at low
      change u ≤ Decimal.value n at high
      split at low <;> omega
    | span a b => exact ⟨(clamped _ _).1.trans low,high.trans (clamped _ _).2⟩
    | «open» a => exact ⟨(clamped _ _).1.trans low,high.trans (clamped _ _).2⟩
    | star => exact ⟨(clamped _ _).1.trans low,high.trans (clamped _ _).2⟩
  unfold rows
  rw [memUidRange,memSlice]
  constructor
  · rintro ⟨r,found,low,high,-⟩
    exact ⟨⟨by rw [found]; rfl,bounds ⟨low,high⟩⟩,low,high⟩
  · rintro ⟨⟨there,-⟩,low,high⟩
    obtain ⟨r,found⟩ := Option.isSome_iff_exists.mp there
    exact ⟨r,found,low,high,rfl⟩

theorem clampInside {u : Nat} (mem : u ∈ o.slice base) (beg fin : Nat) :
    (uidClamp base beg fin).1 ≤ u ∧ u ≤ (uidClamp base beg fin).2 ↔ beg ≤ u ∧ u ≤ fin := by
  obtain ⟨-,least,top⟩ := memSlice.mp mem
  change max beg (base + 1) ≤ u ∧ u ≤ min fin (base + uidSlice) ↔ _
  omega

theorem elemReads {e : Elem} {u : Nat} (mem : u ∈ o.slice base) :
    u ∈ rows o base e ↔ ¬ Misread o base e ∧ e.Names (highest o base) u := by
  obtain ⟨top,below⟩ := highestLast mem
  obtain ⟨-,least,most⟩ := memSlice.mp mem
  have inbox := maxBelow (memSlice.mp mem).1
  have topInbox := maxBelow (memSlice.mp top).1
  have topMost := (memSlice.mp top).2.2
  have last := highestMax mem
  rw [memRows,and_iff_right mem]
  cases e with
  | one n =>
    change (if Decimal.value n ≤ base ∨ base + uidSlice < Decimal.value n then _ else _) ≤ u ∧ u ≤ Decimal.value n ↔ ¬ False ∧ u = Decimal.value n
    rw [not_false_iff,true_and]
    split <;> omega
  | span a b =>
    refine (clampInside mem _ _).trans ?_
    change _ ↔ ¬ Decimal.value b < Decimal.value a ∧ min (Decimal.value a) (Decimal.value b) ≤ u ∧
      u ≤ max (Decimal.value a) (Decimal.value b)
    omega
  | «open» a =>
    refine (clampInside mem _ _).trans ?_
    change min (Decimal.value a) (min o.max (base + uidSlice)) ≤ u ∧ u ≤ min o.max (base + uidSlice) ↔
      ¬ (base + uidSlice < o.max ∧ highest o base < min (Decimal.value a) (base + uidSlice)) ∧
        min (Decimal.value a) (highest o base) ≤ u ∧ u ≤ max (Decimal.value a) (highest o base)
    rcases Nat.lt_or_ge (base + uidSlice) o.max with beyond | inside
    · omega
    · have same := last inside
      omega
  | star =>
    refine (clampInside mem _ _).trans ?_
    change o.max ≤ u ∧ u ≤ o.max ↔ ¬ base + uidSlice < o.max ∧ u = highest o base
    rcases Nat.lt_or_ge (base + uidSlice) o.max with beyond | inside
    · omega
    · have same := last inside
      omega

theorem uidsMeet (o : Over R) (base : Nat) (k : Caller) {csv : List Char} {es : List Elem} (valid : elems csv = some es) :
    ∃ sent,Answered o base k (cmdUidFetch o base csv) sent ∧
      ((∀ u,u ∈ sent ↔ u ∈ o.slice base ∧ Named (highest o base) es u) ↔ UidsMeet o base es) := by
  obtain ⟨nonempty,rfl,digits⟩ := elemsParse valid
  have start : cmdUidFetch o base (csvOf es) = (rangeStep o base (csvOf es)).map (fun info => ⟨[],info,[],none⟩) := by
    unfold cmdUidFetch
    rw [valid]
    rfl
  refine ⟨_,start ▸ answer o base k nonempty digits,?_⟩
  have union := unionMeets es (· ∈ o.slice base) (fun e => e.Names (highest o base))
    (fun e u => u ∈ rows o base e) (fun _ _ => False) (Misread o base)
    (fun e well u mem => by rw [elemReads mem]; simp [well]) (fun e ill u mem => by rw [elemReads mem]; simp [ill])
  have sliced : (∀ u,u ∈ es.flatMap (rows o base) ↔ u ∈ o.slice base ∧ Named (highest o base) es u) ↔
      ∀ u,u ∈ o.slice base → ((∃ e ∈ es,u ∈ rows o base e) ↔ Named (highest o base) es u) := by
    refine forall_congr' fun u => ?_
    rw [List.mem_flatMap]
    constructor
    · intro both own
      rw [both,and_iff_right own]
    · intro meets
      refine ⟨fun ⟨e,mem,read⟩ => ?_,fun ⟨own,named⟩ => (meets own).mpr named⟩
      have own := (memRows.mp read).1
      exact ⟨own,(meets own).mp ⟨e,mem,read⟩⟩
  rw [sliced]
  refine union.trans ?_
  simp only [false_imp_iff,true_and,and_false,or_false]
  rfl

theorem clampAt (last n : Nat) : msnClamp last n = n ∧ 1 ≤ n ∧ n ≤ last ∨
    msnClamp last n = last + n - 2 ^ 64 ∧ Wraps last n ∧ ¬ (1 ≤ n ∧ n ≤ last) ∨
      msnClamp last n = last ∧ ¬ Wraps last n ∧ ¬ (1 ≤ n ∧ n ≤ last) := by
  unfold msnClamp
  split_ifs with inside wraps
  · exact .inl ⟨rfl,inside⟩
  · exact .inr (.inl ⟨rfl,wraps,inside⟩)
  · exact .inr (.inr ⟨rfl,wraps,inside⟩)

theorem msnIndex {last n : Nat} (some : 0 < last) (few : last ≤ 50000) :
    Subscript.index last (Subscript.word ((n : Int) - 1)) = Option.some (msnClamp last n - 1) ∨
      msnClamp last n = last ∧ ∀ i ∈ Subscript.index last (Subscript.word ((n : Int) - 1)),last ≤ i := by
  have word : Subscript.word ((n : Int) - 1) = if n ≤ 2 ^ 63 then (n : Int) - 1 else if n ≤ 2 ^ 64 then (n : Int) - 1 - 2 ^ 64 else -1 := by
    unfold Subscript.word
    split_ifs <;> omega
  have index : ∀ k : Nat,0 < k → k ≤ last → Subscript.index last (-(k : Int)) = Option.some (last - k) := fun k => Subscript.indexEnd
  rw [word]
  rcases clampAt last n with ⟨is,first,inside⟩ | ⟨is,⟨long,fits⟩,-⟩ | ⟨is,wraps,outside⟩
  · left
    have place : (n : Int) - 1 = (n - 1 : Nat) := by omega
    rw [is,if_pos (by omega),place,Subscript.indexNat]
  · left
    have place : (n : Int) - 1 - 2 ^ 64 = -(2 ^ 64 + 1 - n : Nat) := by omega
    rw [is,if_neg (by omega),if_pos (by omega),place,index _ (by omega) (by omega),Option.some.injEq]
    omega
  · unfold Wraps at wraps
    rw [is]
    by_cases zero : n = 0 ∨ 2 ^ 64 ≤ n
    · left
      have place : (if n ≤ 2 ^ 63 then (n : Int) - 1 else if n ≤ 2 ^ 64 then (n : Int) - 1 - 2 ^ 64 else -1) = -(1 : Nat) := by
        split_ifs <;> omega
      rw [place,index 1 Nat.one_pos some]
    · refine .inr ⟨rfl,fun i mem => ?_⟩
      by_cases small : n ≤ 2 ^ 63
      · have place : (n : Int) - 1 = (n - 1 : Nat) := by omega
        rw [if_pos small,place,Subscript.indexNat] at mem
        cases mem
        omega
      · have place : (n : Int) - 1 - 2 ^ 64 = -(2 ^ 64 + 1 - n : Nat) := by omega
        rw [if_neg small,if_pos (by omega),place] at mem
        rcases Nat.lt_or_ge last (2 ^ 64 + 1 - n) with beyond | within
        · rw [Subscript.indexOut beyond] at mem
          cases mem
        · rw [index _ (by omega) within] at mem
          cases mem
          omega

theorem msnToUidAt {us : List Nat} (some : us ≠ []) (few : us.length ≤ 50000) (n : Nat) :
    us[msnClamp us.length n - 1]? = .some (msnToUid (us.map .some) n) := by
  have positive := List.length_pos_iff.mpr some
  have tail : (us.map Option.some).getLast?.join = us[us.length - 1]? := by
    rw [List.getLast?_map,List.getLast?_eq_getElem?]
    cases us[us.length - 1]? <;> rfl
  have entry : ∀ i : Nat,((us.map Option.some)[i]?).join = us[i]? := by
    intro i
    rw [List.getElem?_map]
    cases us[i]? <;> rfl
  obtain ⟨top,last⟩ : ∃ top,us[us.length - 1]? = .some top := ⟨_,List.getElem?_eq_getElem (by omega)⟩
  unfold msnToUid Subscript.item
  rw [tail,last,List.length_map]
  rcases msnIndex (n := n) positive few with there | ⟨clamp,out⟩
  · have bound : msnClamp us.length n - 1 < us.length := by
      rcases clampAt us.length n with ⟨is,inside⟩ | ⟨is,⟨long,fits⟩,-⟩ | ⟨is,-⟩ <;> omega
    obtain ⟨u,found⟩ : ∃ u,us[msnClamp us.length n - 1]? = .some u := ⟨_,List.getElem?_eq_getElem bound⟩
    rw [there,Option.bind_some,entry,found]
    rfl
  · rw [clamp,last]
    cases index : Subscript.index us.length (Subscript.word ((n : Int) - 1)) with
    | none => rfl
    | some i =>
      have none : us[i]? = none := List.getElem?_eq_none (out i index)
      rw [Option.bind_some,entry,none]
      rfl

theorem orderAt {us : List Nat} (sorted : us.Pairwise (· < ·)) {i j x y : Nat} (atI : us[i]? = some x)
    (atJ : us[j]? = some y) : x ≤ y ↔ i ≤ j := by
  obtain ⟨insideI,rfl⟩ := List.getElem?_eq_some_iff.mp atI
  obtain ⟨insideJ,rfl⟩ := List.getElem?_eq_some_iff.mp atJ
  have less := List.pairwise_iff_getElem.mp sorted
  rcases Nat.lt_trichotomy i j with before | same | after
  · have := less i j insideI insideJ before
    omega
  · subst same
    omega
  · have := less j i insideJ insideI after
    omega

-- The UID an MSN is rewritten to, and its order against a message's.
theorem msnRank {u n : Nat} (inside : 1 ≤ n ∧ n ≤ (o.slice base).length) (found : (o.slice base)[n - 1]? = some u) (x : Nat) :
    msnToUid ((o.slice base).map some) x ∈ o.slice base ∧
      (msnToUid ((o.slice base).map some) x ≤ u ↔ msnClamp (o.slice base).length x ≤ n) ∧
      (u ≤ msnToUid ((o.slice base).map some) x ↔ n ≤ msnClamp (o.slice base).length x) := by
  have nonempty := List.ne_nil_of_mem (List.mem_of_getElem? found)
  have sorted := (sliceFrom o base).1
  have few : (o.slice base).length ≤ 50000 := frontFew List.prefix_rfl
  have there := msnToUidAt nonempty few x
  have clamp : 1 ≤ msnClamp (o.slice base).length x := by
    rcases clampAt (o.slice base).length x with ⟨is,within⟩ | ⟨is,⟨long,fits⟩,-⟩ | ⟨is,-⟩ <;> omega
  refine ⟨List.mem_of_getElem? there,(orderAt sorted there found).trans ?_,(orderAt sorted found there).trans ?_⟩ <;> omega

theorem msnReads {e : Elem} {u n : Nat} (inside : 1 ≤ n ∧ n ≤ (o.slice base).length)
    (found : (o.slice base)[n - 1]? = some u) :
    u ∈ rows o base (e.mapNumbers (mapNumber (msnToUid ((o.slice base).map some)))) ↔
      (¬ MsnMisread (o.slice base).length (base + uidSlice < o.max) e ∧ e.Names (o.slice base).length n) ∨
        (MsnMisread (o.slice base).length (base + uidSlice < o.max) e ∧ e.Instead (o.slice base).length n) := by
  have mem := List.mem_of_getElem? found
  have sorted := (sliceFrom o base).1
  have few : (o.slice base).length ≤ 50000 := frontFew List.prefix_rfl
  obtain ⟨-,least,most⟩ := memSlice.mp mem
  have uid := msnRank inside found
  have value : ∀ ds,Decimal.value (mapNumber (msnToUid ((o.slice base).map some)) ds) =
      msnToUid ((o.slice base).map some) (Decimal.value ds) := fun _ => Decimal.valueRender _
  rw [memRows,and_iff_right mem]
  cases e with
  | one a =>
    obtain ⟨slice,low,high⟩ := uid (Decimal.value a)
    obtain ⟨-,least',most'⟩ := memSlice.mp slice
    change (if Decimal.value (mapNumber _ a) ≤ base ∨ base + uidSlice < Decimal.value (mapNumber _ a) then _ else _) ≤ u ∧
      u ≤ Decimal.value (mapNumber _ a) ↔ (¬ (Decimal.value a = 0 ∨ _ < Decimal.value a) ∧ n = Decimal.value a) ∨
        (Decimal.value a = 0 ∨ _ < Decimal.value a) ∧ n = msnClamp _ (Decimal.value a)
    rw [value,if_neg (by omega),low,high]
    rcases clampAt (o.slice base).length (Decimal.value a) with ⟨is,within⟩ | ⟨is,⟨long,fits⟩,-⟩ | ⟨is,-,outside⟩ <;> omega
  | span a b =>
    obtain ⟨-,low,-⟩ := uid (Decimal.value a)
    obtain ⟨-,-,high⟩ := uid (Decimal.value b)
    refine (clampInside mem _ _).trans ?_
    change Decimal.value (mapNumber _ a) ≤ u ∧ u ≤ Decimal.value (mapNumber _ b) ↔
      (¬ (¬ (1 ≤ Decimal.value a ∧ Decimal.value a ≤ _ ∧ Decimal.value a ≤ Decimal.value b) ∨ (_ < _ + Decimal.value b ∧ _)) ∧
        min (Decimal.value a) (Decimal.value b) ≤ n ∧ n ≤ max (Decimal.value a) (Decimal.value b)) ∨
      (¬ (1 ≤ Decimal.value a ∧ Decimal.value a ≤ _ ∧ Decimal.value a ≤ Decimal.value b) ∨ (_ < _ + Decimal.value b ∧ _)) ∧
        msnClamp _ (Decimal.value a) ≤ n ∧ n ≤ msnClamp _ (Decimal.value b)
    rw [value,value,low,high]
    rcases clampAt (o.slice base).length (Decimal.value b) with ⟨is,within⟩ | ⟨is,⟨long,fits⟩,-⟩ | ⟨is,wraps,outside⟩
    · rcases clampAt (o.slice base).length (Decimal.value a) with ⟨is',within'⟩ | ⟨is',⟨long',fits'⟩,-⟩ | ⟨is',-,outside'⟩ <;> omega
    · omega
    · unfold Wraps at wraps
      rcases clampAt (o.slice base).length (Decimal.value a) with ⟨is',within'⟩ | ⟨is',⟨long',fits'⟩,-⟩ | ⟨is',-,outside'⟩ <;> omega
  | «open» a =>
    obtain ⟨slice,low,-⟩ := uid (Decimal.value a)
    obtain ⟨there,-,most'⟩ := memSlice.mp slice
    have inbox := maxBelow there
    have own := maxBelow (memSlice.mp mem).1
    refine (clampInside mem _ _).trans ?_
    change min (Decimal.value (mapNumber _ a)) (min o.max (base + uidSlice)) ≤ u ∧ u ≤ min o.max (base + uidSlice) ↔
      (¬ (Decimal.value a = 0 ∨ (_ < _ + Decimal.value a ∧ _)) ∧ min (Decimal.value a) _ ≤ n ∧ n ≤ max (Decimal.value a) _) ∨
        (Decimal.value a = 0 ∨ (_ < _ + Decimal.value a ∧ _)) ∧ msnClamp _ (Decimal.value a) ≤ n ∧ n ≤ _
    rw [value]
    have beg : min (msnToUid ((o.slice base).map some) (Decimal.value a)) (min o.max (base + uidSlice)) =
        msnToUid ((o.slice base).map some) (Decimal.value a) := by omega
    rw [beg,low]
    rcases clampAt (o.slice base).length (Decimal.value a) with ⟨is,within⟩ | ⟨is,⟨long,fits⟩,-⟩ | ⟨is,wraps,outside⟩
    · omega
    · omega
    · unfold Wraps at wraps
      omega
  | star =>
    obtain ⟨top,below⟩ := highestLast mem
    have own := maxBelow (memSlice.mp mem).1
    have last : (o.slice base)[(o.slice base).length - 1]? = some (highest o base) := by
      unfold highest
      rw [List.getLast?_eq_getElem?]
      rw [List.getElem?_eq_getElem (show (o.slice base).length - 1 < (o.slice base).length by omega)]
      rfl
    have rank := orderAt sorted last found
    refine (clampInside mem _ _).trans ?_
    change o.max ≤ u ∧ u ≤ o.max ↔ (¬ base + uidSlice < o.max ∧ n = _) ∨ base + uidSlice < o.max ∧ False
    rcases Nat.lt_or_ge (base + uidSlice) o.max with beyond | inbox
    · simp only [beyond,not_true_eq_false,false_and,and_false,or_false,iff_false]
      omega
    · have same := highestMax mem inbox
      simp only [Nat.not_lt.mpr inbox,not_false_eq_true,true_and,false_and,or_false]
      omega

theorem msnEntry {o : Over R} {base : Nat} {m : Uo2m} (form : Form base (o.slice base) m) (u msn : Nat) (positive : 0 < msn) :
    (base < u ∧ uid2msn base m u = some msn) ↔ (o.slice base)[msn - 1]? = some u := by
  have order := frontFrom (List.prefix_rfl : o.slice base <+: o.slice base)
  have few := frontFew (List.prefix_rfl : o.slice base <+: o.slice base)
  obtain ⟨j,rfl⟩ : ∃ j,msn = j + 1 := ⟨msn - 1,by omega⟩
  constructor
  · rintro ⟨inside,found⟩
    exact (formMsn form order few inside).mp found
  · intro found
    have inside := order.2 u (List.mem_of_getElem? found)
    exact ⟨inside,(formMsn form order few inside).mpr found⟩

theorem msnsMeet (o : Over R) (base : Nat) (k : Caller) {uo2m : Option Uo2m} {csv : List Char} {es : List Elem}
    (valid : elems csv = some es) (form : Form base (o.slice base) (uo2mExtend o base (base + uidSlice) uo2m).1) :
    ∃ sent,Answered o base k (cmdFetch o base uo2m csv) sent ∧
      ((∀ u,u ∈ sent ↔ ∃ msn,0 < msn ∧ base < u ∧
          uid2msn base (uo2mExtend o base (base + uidSlice) uo2m).1 u = some msn ∧ Named (o.slice base).length es msn) ↔
        MsnsMeet (o.slice base).length (base + uidSlice < o.max) es) := by
  obtain ⟨nonempty,rfl,digits⟩ := elemsParse valid
  have whole : o.slice base <+: o.slice base := List.prefix_rfl
  have order := frontFrom whole
  have few := frontFew whole
  have start : cmdFetch o base uo2m (csvOf es) = (rangeStep o base (csvOf (es.map (Elem.mapNumbers
      (mapNumber (msnToUid ((o.slice base).map some))))))).map (fun info => ⟨[],info,[],none⟩) := by
    unfold cmdFetch
    rw [valid,formUid form order few]
    dsimp only
    rw [rewritten _ digits]
    rfl
  have mapped : ∀ e ∈ es.map (Elem.mapNumbers (mapNumber (msnToUid ((o.slice base).map some)))),e.Digits := by
    intro e mem
    obtain ⟨e',-,rfl⟩ := List.mem_map.mp mem
    exact mapDigits _ e'
  refine ⟨_,start ▸ answer o base k (by simpa using nonempty) mapped,?_⟩
  have msns := msnEntry form
  have union := unionMeets es (fun n => 1 ≤ n ∧ n ≤ (o.slice base).length)
    (fun e => e.Names (o.slice base).length)
    (fun e n => ∃ u,(o.slice base)[n - 1]? = some u ∧
      u ∈ rows o base (e.mapNumbers (mapNumber (msnToUid ((o.slice base).map some)))))
    (fun e => e.Instead (o.slice base).length)
    (MsnMisread (o.slice base).length (base + uidSlice < o.max))
    (fun e well n inside => by
      obtain ⟨u,found⟩ : ∃ u,(o.slice base)[n - 1]? = some u := ⟨_,List.getElem?_eq_getElem (by omega)⟩
      simp only [found,Option.some.injEq,exists_eq_left',msnReads inside found,well,not_false_eq_true,true_and,
        false_and,or_false])
    (fun e ill n inside => by
      obtain ⟨u,found⟩ : ∃ u,(o.slice base)[n - 1]? = some u := ⟨_,List.getElem?_eq_getElem (by omega)⟩
      simp only [found,Option.some.injEq,exists_eq_left',msnReads inside found,ill,not_true_eq_false,true_and,
        false_and,false_or])
  refine Iff.trans ?_ union
  constructor
  · intro meets n inside
    obtain ⟨u,found⟩ : ∃ u,(o.slice base)[n - 1]? = some u := ⟨_,List.getElem?_eq_getElem (by omega)⟩
    have own := meets u
    simp only [List.flatMap_map,List.mem_flatMap] at own
    simp only [found,Option.some.injEq,exists_eq_left']
    rw [own]
    constructor
    · rintro ⟨msn,positive,above,number,named⟩
      have same := (List.getElem?_inj (by omega) (order.1.imp ne_of_lt)).mp
        (found.trans ((msns u msn positive).mp ⟨above,number⟩).symm)
      have equal : msn = n := by omega
      exact equal ▸ named
    · intro named
      obtain ⟨above,number⟩ := (msns u n inside.1).mpr found
      exact ⟨n,inside.1,above,number,named⟩
  · intro meets u
    simp only [List.flatMap_map,List.mem_flatMap]
    constructor
    · rintro ⟨e,mem,read⟩
      obtain ⟨j,bound,found⟩ := List.getElem_of_mem (memRows.mp read).1
      have entry : (o.slice base)[j + 1 - 1]? = some u := by
        rw [Nat.add_sub_cancel,List.getElem?_eq_getElem bound,found]
      obtain ⟨above,number⟩ := (msns u (j + 1) (Nat.succ_pos _)).mpr entry
      exact ⟨j + 1,Nat.succ_pos _,above,number,(meets (j + 1) (by omega)).mp ⟨e,mem,u,entry,read⟩⟩
    · rintro ⟨msn,positive,above,number,named⟩
      have found := (msns u msn positive).mp ⟨above,number⟩
      have bound := (List.getElem?_eq_some_iff.mp found).choose
      obtain ⟨e,mem,u',entry,read⟩ := (meets msn (by omega)).mpr named
      rw [found] at entry
      cases entry
      exact ⟨e,mem,read⟩

theorem sessionForm {acts : List (Act R)} {ibx : Option Nat} {base : Nat}
    (selected : (acts.foldl Client.step Client.empty).mailbox = some (ibx,base)) :
    let v := acts.foldl Client.step Client.empty
    Form base ((v.over ibx).slice base) (uo2mExtend (v.over ibx) base (base + uidSlice) v.uo2m).1 := by
  dsimp only
  obtain ⟨us,⟨front,-,held,dummy⟩,-⟩ := (laterRun (laterEmpty (R := R)) acts).known ibx base selected
  cases map : (acts.foldl Client.step Client.empty).uo2m with
  | none => exact (formNew _ base).1
  | some m => exact extendAll front (held m map)

/- The messages of an UID set and of an MSN set. -/
theorem setsMeet (acts : List (Act R)) (k : Caller) {ibx : Option Nat} {base : Nat} {csv : List Char} {es : List Elem}
    (selected : (acts.foldl Client.step Client.empty).mailbox = some (ibx,base)) (valid : elems csv = some es) :
    let v := acts.foldl Client.step Client.empty
    let o := v.over ibx
    let m := (uo2mExtend o base (base + uidSlice) v.uo2m).1
    (∃ sent,Answered o base k (cmdUidFetch o base csv) sent ∧
      ((∀ u,u ∈ sent ↔ u ∈ o.slice base ∧ Named (highest o base) es u) ↔ UidsMeet o base es)) ∧
    ∃ sent,Answered o base k (cmdFetch o base v.uo2m csv) sent ∧
      ((∀ u,u ∈ sent ↔ ∃ msn,0 < msn ∧ base < u ∧ uid2msn base m u = some msn ∧ Named (o.slice base).length es msn) ↔
        MsnsMeet (o.slice base).length (base + uidSlice < o.max) es) :=
  ⟨uidsMeet _ base k valid,msnsMeet _ base k valid (sessionForm selected)⟩

def arrivals : List (Act Unit) := [.arrive 0 0 (),.arrive 0 0 (),.arrive 0 1 (),.examine (some 0) 0]

def mailbox : Over Unit := (arrivals.foldl Client.step Client.empty).over (some 0)

theorem arrivalsSelected : (arrivals.foldl Client.step Client.empty).mailbox = some (some 0,0) := by decide

theorem setsMeetPair :
    (∃ sent,Answered mailbox 0 .fetchUid (cmdUidFetch mailbox 0 "1:2".toList) sent ∧ UidsMeet mailbox 0 [.span ['1'] ['2']] ∧
      ∀ u,u ∈ sent ↔ u ∈ mailbox.slice 0 ∧ Named (highest mailbox 0) [.span ['1'] ['2']] u) ∧
    ∃ sent,Answered mailbox 0 .fetchUid (cmdUidFetch mailbox 0 "2:1".toList) sent ∧ ¬ UidsMeet mailbox 0 [.span ['2'] ['1']] ∧
      ¬ ∀ u,u ∈ sent ↔ u ∈ mailbox.slice 0 ∧ Named (highest mailbox 0) [.span ['2'] ['1']] u := by
  constructor
  · obtain ⟨sent,answered,exactly⟩ := (setsMeet arrivals .fetchUid arrivalsSelected (show elems "1:2".toList = some [.span ['1'] ['2']] by decide)).1
    have meets : UidsMeet mailbox 0 [.span ['1'] ['2']] := by
      intro e mem misread
      rw [List.mem_singleton.mp mem] at misread
      exact absurd misread (by decide : ¬ Decimal.value ['2'] < Decimal.value ['1'])
    exact ⟨sent,answered,meets,exactly.mpr meets⟩
  · obtain ⟨sent,answered,exactly⟩ := (setsMeet arrivals .fetchUid arrivalsSelected (show elems "2:1".toList = some [.span ['2'] ['1']] by decide)).1
    have fails : ¬ UidsMeet mailbox 0 [.span ['2'] ['1']] := by
      intro meets
      have reversed : Decimal.value ['1'] < Decimal.value ['2'] := by decide
      obtain ⟨e,mem,read,_⟩ := meets _ List.mem_cons_self reversed 1 (by decide) ⟨by decide,by decide⟩
      rw [List.mem_singleton.mp mem] at read
      exact read reversed
    exact ⟨sent,answered,fails,fun same => fails (exactly.mp same)⟩

theorem reversedLost : ¬ ∀ (o : Over Unit) (base : Nat) (k : Caller) (csv : List Char) (es : List Elem) (sent : List Nat),
    elems csv = some es → Answered o base k (cmdUidFetch o base csv) sent →
      ∀ u,u ∈ sent ↔ u ∈ o.slice base ∧ Named (highest o base) es u := by
  intro denotes
  have none := denotes ⟨[(1,()),(2,()),(3,())],by decide⟩ 0 .fetchUid "3:1".toList [.span ['3'] ['1']] [] (by decide)
    ⟨_,_,rfl,⟨1,rfl⟩,by decide,by decide⟩ 2
  exact absurd (none.mpr ⟨by decide,_,List.mem_cons_self,by decide,by decide⟩) List.not_mem_nil

theorem fetchReaches (acts : List (Act R)) (k : Caller) {ibx : Option Nat} {base : Nat} {csv : List Char} {es : List Elem}
    (selected : (acts.foldl Client.step Client.empty).mailbox = some (ibx,base)) (valid : elems csv = some es) :
    let v := acts.foldl Client.step Client.empty
    let o := v.over ibx
    let m := (uo2mExtend o base (base + uidSlice) v.uo2m).1
    ∃ sent,Answered o base k (cmdFetch o base v.uo2m csv) sent ∧
      ((∀ u,u ∈ sent ↔ ∃ msn,0 < msn ∧ base < u ∧ uid2msn base m u = some msn ∧ Named (o.slice base).length es msn) ↔
        MsnsMeet (o.slice base).length (base + uidSlice < o.max) es) :=
  msnsMeet _ base k valid (sessionForm selected)

-- MSN 3, and with it a number that wraps to MSN 2
theorem fetchReachesLast :
    (∃ sent,Answered mailbox 0 .fetchUid (cmdFetch mailbox 0 (arrivals.foldl Client.step Client.empty).uo2m "3".toList) sent ∧
      MsnsMeet (mailbox.slice 0).length (0 + uidSlice < mailbox.max) [.one ['3']] ∧
      ∀ u,u ∈ sent ↔ ∃ msn,0 < msn ∧ 0 < u ∧
        uid2msn 0 (uo2mExtend mailbox 0 (0 + uidSlice) (arrivals.foldl Client.step Client.empty).uo2m).1 u = some msn ∧
        Named (mailbox.slice 0).length [.one ['3']] msn) ∧
    ∃ sent,Answered mailbox 0 .fetchUid
        (cmdFetch mailbox 0 (arrivals.foldl Client.step Client.empty).uo2m "3,18446744073709551615".toList) sent ∧
      ¬ MsnsMeet (mailbox.slice 0).length (0 + uidSlice < mailbox.max) [.one ['3'],.one "18446744073709551615".toList] ∧
      ¬ ∀ u,u ∈ sent ↔ ∃ msn,0 < msn ∧ 0 < u ∧
        uid2msn 0 (uo2mExtend mailbox 0 (0 + uidSlice) (arrivals.foldl Client.step Client.empty).uo2m).1 u = some msn ∧
        Named (mailbox.slice 0).length [.one ['3'],.one "18446744073709551615".toList] msn := by
  have three : (mailbox.slice 0).length = 3 := by decide
  constructor
  · obtain ⟨sent,answered,exactly⟩ := fetchReaches arrivals .fetchUid arrivalsSelected
      (show elems "3".toList = some [.one ['3']] by decide)
    have meets : MsnsMeet (mailbox.slice 0).length (0 + uidSlice < mailbox.max) [.one ['3']] := by
      intro e mem misread
      rw [List.mem_singleton.mp mem,three] at misread
      exact absurd misread (by decide : ¬ (Decimal.value ['3'] = 0 ∨ 3 < Decimal.value ['3']))
    exact ⟨sent,answered,meets,exactly.mpr meets⟩
  · obtain ⟨sent,answered,exactly⟩ := fetchReaches arrivals .fetchUid arrivalsSelected
      (show elems "3,18446744073709551615".toList = some [.one ['3'],.one "18446744073709551615".toList] by decide)
    have fails : ¬ MsnsMeet (mailbox.slice 0).length (0 + uidSlice < mailbox.max) [.one ['3'],.one "18446744073709551615".toList] := by
      intro meets
      rw [three] at meets
      have taken : 2 = msnClamp 3 (Decimal.value "18446744073709551615".toList) := by decide
      obtain ⟨e,mem,named⟩ := (meets _ (List.mem_cons_of_mem _ List.mem_cons_self) (.inr (by decide)) 2 (by decide)).1 taken
      rcases List.mem_cons.mp mem with rfl | last
      · exact absurd named (by decide : ¬ 2 = Decimal.value ['3'])
      · rw [List.mem_singleton.mp last] at named
        exact absurd named (by decide : ¬ 2 = Decimal.value "18446744073709551615".toList)
    exact ⟨sent,answered,fails,fun same => fails (exactly.mp same)⟩

/- The three messages know no MSN 4, which fetches the last one. -/
theorem beyondFetchesLast : ¬ ∀ (acts : List (Act Unit)) (k : Caller) (ibx : Option Nat) (base : Nat) (csv : List Char)
    (es : List Elem) (sent : List Nat),(acts.foldl Client.step Client.empty).mailbox = some (ibx,base) →
      elems csv = some es →
      Answered ((acts.foldl Client.step Client.empty).over ibx) base k
        (cmdFetch ((acts.foldl Client.step Client.empty).over ibx) base (acts.foldl Client.step Client.empty).uo2m csv) sent →
      ∀ u,u ∈ sent ↔ ∃ msn,0 < msn ∧ base < u ∧
        uid2msn base (uo2mExtend ((acts.foldl Client.step Client.empty).over ibx) base (base + uidSlice)
          (acts.foldl Client.step Client.empty).uo2m).1 u = some msn ∧
        Named (((acts.foldl Client.step Client.empty).over ibx).slice base).length es msn := by
  intro reaches
  have last := reaches arrivals .fetchUid (some 0) 0 "4".toList [.one ['4']] [4] (by decide) (by decide)
    ⟨_,_,rfl,⟨3,rfl⟩,by decide,by decide⟩ 4
  obtain ⟨msn,-,-,number,e,mem,named⟩ := last.mp List.mem_cons_self
  have three : some 3 = some msn := number
  rw [List.mem_singleton.mp mem] at named
  change msn = 4 at named
  rw [named] at three
  contradiction

end PublicInbox.IMAP
