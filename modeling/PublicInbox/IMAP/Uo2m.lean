import PublicInbox.Library.Paging
import PublicInbox.Library.Stepwise
import PublicInbox.IMAP

/-! The map of a session numbers a front part of its slice, in the order of the UIDs and without
gaps, whatever form it has. -/
namespace PublicInbox.IMAP
open Keyed Stepwise
variable {R : Type}

def slots : Nat → Nat → List Nat → List (Option Nat)
  | _, _, [] => []
  | beg, msn, u :: us => List.replicate (u - beg) none ++ some (msn + 1) :: slots (u + 1) (msn + 1) us

def From (beg : Nat) (us : List Nat) : Prop := us.Pairwise (· < ·) ∧ ∀ u ∈ us, beg ≤ u

theorem fromCons {beg u : Nat} {us : List Nat} (order : From beg (u :: us)) : beg ≤ u ∧ From (u + 1) us := by
  obtain ⟨above,rest⟩ := List.pairwise_cons.mp order.1
  exact ⟨order.2 u List.mem_cons_self,rest,fun x mem => above x mem⟩

theorem assignLast {α : Type} {xs : List (Option α)} {i : Nat} {x : α} (above : xs.length ≤ i) :
    assign xs i x = xs ++ List.replicate (i - xs.length) none ++ [some x] := if_neg (by omega)

theorem fillFold {beg msn : Nat} {us : List Nat} (xs : List (Option Nat)) (order : From (beg + xs.length) us) :
    us.foldl (fun s u => (assign s.1 (u - beg) (s.2 + 1),s.2 + 1)) (xs,msn) =
      (xs ++ slots (beg + xs.length) msn us,msn + us.length) := by
  induction us generalizing xs msn with
  | nil => simp [slots]
  | cons u us ih =>
    obtain ⟨first,rest⟩ := fromCons order
    have gap : u - beg - xs.length = u - (beg + xs.length) := by omega
    have last : beg + (xs ++ List.replicate (u - (beg + xs.length)) none ++ [some (msn + 1)]).length = u + 1 := by
      simp only [List.length_append,List.length_replicate,List.length_singleton]
      omega
    have above : xs.length ≤ u - beg := by omega
    rw [List.foldl_cons,assignLast above,gap,ih _ (last.symm ▸ rest),last]
    simp only [slots,List.append_assoc,List.singleton_append,List.length_cons]
    rw [Nat.add_assoc,Nat.add_comm 1]

theorem fillSlots {beg msn : Nat} {us : List Nat} (order : From beg us) :
    fill beg msn us = (slots beg msn us,msn + us.length) := fillFold [] order

theorem slotsLength {beg : Nat} (msn : Nat) {us : List Nat} (order : From beg us) :
    beg + (slots beg msn us).length = (us.getLast?.map Nat.succ).getD beg := by
  induction us generalizing beg msn with
  | nil => rfl
  | cons u us ih =>
    obtain ⟨first,rest⟩ := fromCons order
    have tail := ih (msn + 1) rest
    have length : beg + (slots beg msn (u :: us)).length = u + 1 + (slots (u + 1) (msn + 1) us).length := by
      simp only [slots,List.length_append,List.length_replicate,List.length_cons]
      omega
    rw [length,tail]
    cases us with
    | nil => rfl
    | cons w ws => rw [List.getLast?_cons_cons]; simp [List.getLast?_cons]

theorem slotsAppend {beg msn : Nat} {us vs : List Nat} (order : From beg us) :
    slots beg msn (us ++ vs) =
      slots beg msn us ++ slots (beg + (slots beg msn us).length) (msn + us.length) vs := by
  induction us generalizing beg msn with
  | nil => rfl
  | cons u us ih =>
    obtain ⟨first,rest⟩ := fromCons order
    have ends : beg + (slots beg msn (u :: us)).length = u + 1 + (slots (u + 1) (msn + 1) us).length := by
      simp only [slots,List.length_append,List.length_replicate,List.length_cons]
      omega
    rw [ends,List.cons_append]
    simp only [slots,ih rest,List.append_assoc,List.cons_append,List.length_cons]
    rw [Nat.add_assoc msn,Nat.add_comm 1]

theorem slotsAt {beg msn : Nat} {us : List Nat} (order : From beg us) {i k : Nat} :
    ((slots beg msn us)[i]?).join = some k ↔ ∃ j, k = msn + 1 + j ∧ us[j]? = some (beg + i) := by
  induction us generalizing beg msn i with
  | nil => simp [slots]
  | cons u us ih =>
    obtain ⟨first,rest⟩ := fromCons order
    have place : beg + i = u + 1 + (i - (u - beg) - 1) ∨ i ≤ u - beg := by omega
    simp only [slots]
    rcases Nat.lt_trichotomy i (u - beg) with before | here | after
    · rw [List.getElem?_append_left (by simpa using before),List.getElem?_replicate_of_lt before]
      refine ⟨fun none => absurd none (by simp),?_⟩
      rintro ⟨j,-,found⟩
      have least : u ≤ beg + i := by
        rcases List.mem_cons.mp (List.mem_of_getElem? found) with same | later
        · exact same.ge
        · exact (Nat.le_succ u).trans (rest.2 _ later)
      omega
    · rw [List.getElem?_append_right (by simp [here])]
      simp only [here,List.length_replicate,Nat.sub_self,List.getElem?_cons_zero,Option.join_some,Option.some.injEq]
      constructor
      · rintro rfl
        exact ⟨0,rfl,by simp; omega⟩
      · rintro ⟨j,rfl,found⟩
        cases j with
        | zero => rfl
        | succ j =>
          have later := rest.2 _ (List.mem_of_getElem? (List.getElem?_cons_succ ▸ found))
          omega
    · rw [List.getElem?_append_right (by simp; omega)]
      obtain ⟨n,next⟩ : ∃ n, i - (u - beg) = n + 1 := ⟨i - (u - beg) - 1,by omega⟩
      rw [List.length_replicate,next,List.getElem?_cons_succ,ih rest]
      have same : u + 1 + n = beg + i := by omega
      rw [same]
      constructor
      · rintro ⟨j,rfl,found⟩
        exact ⟨j + 1,by omega,by simpa using found⟩
      · rintro ⟨j,rfl,found⟩
        cases j with
        | zero =>
          have same := Option.some.inj found
          omega
        | succ j => exact ⟨j,by omega,by simpa using found⟩

theorem slotsBound {beg msn : Nat} {us : List Nat} {x : Option Nat} (mem : x ∈ slots beg msn us) :
    x.getD 0 ≤ msn + us.length := by
  induction us generalizing beg msn with
  | nil => exact absurd mem List.not_mem_nil
  | cons u us ih =>
    rw [List.length_cons]
    rcases List.mem_append.mp mem with gap | rest
    · rw [List.eq_of_mem_replicate gap]
      exact Nat.zero_le _
    · rcases List.mem_cons.mp rest with rfl | later
      · change msn + 1 ≤ _
        omega
      · exact (ih later).trans (by omega)

theorem slotsFewer (beg msn : Nat) (us : List Nat) : us.length ≤ (slots beg msn us).length := by
  induction us generalizing beg msn with
  | nil => exact Nat.zero_le _
  | cons u us ih =>
    have := ih (u + 1) (msn + 1)
    simp only [slots,List.length_append,List.length_cons]
    omega

theorem slotsLast (beg msn : Nat) (us : List Nat) :
    ((slots beg msn us).getLast?.getD none).getD 0 = if us = [] then 0 else msn + us.length := by
  induction us generalizing beg msn with
  | nil => rfl
  | cons u us ih =>
    have tail := ih (u + 1) (msn + 1)
    simp only [slots]
    rw [List.getLast?_append_of_ne_nil _ (List.cons_ne_nil _ _),List.getLast?_cons]
    cases us with
    | nil => rfl
    | cons w ws =>
      rw [if_neg (List.cons_ne_nil _ _)] at tail ⊢
      cases last : (slots (u + 1) (msn + 1) (w :: ws)).getLast? with
      | none =>
        rw [last] at tail
        simp at tail
      | some x =>
        rw [last] at tail
        simp only [Option.getD_some,List.length_cons] at tail ⊢
        omega

def Form (base : Nat) (us : List Nat) (m : Uo2m) : Prop :=
  m = .ary (fill (base + 1) 0 us).1 ∨ m = .str (Uo2m.pack (fill (base + 1) 0 us).1)

instance (base : Nat) (us : List Nat) (m : Uo2m) : Decidable (Form base us m) :=
  inferInstanceAs (Decidable (_ ∨ _))

def truthy (x : Option Nat) : Option Nat := if x = some 0 then none else x

theorem slotsTruthy {beg msn : Nat} {us : List Nat} : (slots beg msn us).map truthy = slots beg msn us := by
  induction us generalizing beg msn with
  | nil => rfl
  | cons u us ih =>
    simp only [slots,List.map_append,List.map_replicate,List.map_cons,ih]
    simp [truthy]

theorem packTruthy {xs : List (Option Nat)} (small : ∀ x ∈ xs,x.getD 0 < 2 ^ 16) :
    (Uo2m.unpack (Uo2m.pack xs)).map truthy = xs.map truthy := by
  unfold Uo2m.unpack Uo2m.pack
  rw [List.map_map,List.map_map]
  refine List.map_congr_left fun x mem => ?_
  cases x with
  | none => rfl
  | some n =>
    have fits : n < 2 ^ 16 := small _ mem
    change truthy (some (BitVec.ofNat 16 n).toNat) = truthy (some n)
    rw [BitVec.toNat_ofNat,Nat.mod_eq_of_lt fits]

variable {base : Nat} {us : List Nat} {m : Uo2m}

theorem formArray (form : Form base us m) (order : From (base + 1) us) (few : us.length ≤ uidSlice) :
    m.array.map truthy = slots (base + 1) 0 us := by
  unfold Form at form
  rw [fillSlots order] at form
  rcases form with rfl | rfl
  · exact slotsTruthy
  · refine (packTruthy fun x mem => ?_).trans slotsTruthy
    exact (slotsBound mem).trans_lt (by rw [Nat.zero_add]; exact few.trans_lt (by decide))

theorem formSize (form : Form base us m) (order : From (base + 1) us) :
    m.size = (slots (base + 1) 0 us).length := by
  unfold Form at form
  rw [fillSlots order] at form
  rcases form with rfl | rfl
  · rfl
  · exact List.length_map _

theorem formLast (form : Form base us m) (order : From (base + 1) us) (few : us.length ≤ uidSlice) :
    m.lastMsn = us.length := by
  have last := slotsLast (base + 1) 0 us
  have count : (if us = [] then 0 else 0 + us.length) = us.length := by
    split
    · rename_i none
      rw [none]
      rfl
    · omega
  rw [count] at last
  unfold Form at form
  rw [fillSlots order] at form
  rcases form with rfl | rfl
  · exact last
  · unfold Uo2m.lastMsn Uo2m.pack
    dsimp only
    rw [List.getLast?_map,Option.map_map]
    cases top : (slots (base + 1) 0 us).getLast? with
    | none =>
      rw [top] at last
      exact last
    | some x =>
      rw [top] at last
      change (BitVec.ofNat 16 (x.getD 0)).toNat = us.length
      rw [BitVec.toNat_ofNat,Nat.mod_eq_of_lt]
      · exact last
      · change x.getD 0 = us.length at last
        rw [last]
        exact few.trans_lt (by decide)

theorem formMsn (form : Form base us m) (order : From (base + 1) us) (few : us.length ≤ uidSlice)
    {uid k : Nat} (inside : base < uid) : uid2msn base m uid = some (k + 1) ↔ us[k]? = some uid := by
  have place : base + 1 + (uid - base - 1) = uid := by omega
  have found : ∀ x : Option (Option Nat),x.join = some (k + 1) ↔ (x.map truthy).join = some (k + 1) := by
    rintro (_ | _ | _ | n) <;> simp [truthy]
  unfold uid2msn
  rw [found,← List.getElem?_map,formArray form order few,slotsAt order,place]
  constructor
  · rintro ⟨j,same,there⟩
    obtain rfl : j = k := by omega
    exact there
  · exact fun found => ⟨k,by omega,found⟩

theorem msnFold {beg : Nat} (base uo msn : Nat) (acc : List (Option Nat)) (order : From beg us) (length : acc.length = msn)
    (offset : uo + 1 + base = beg) :
    ((slots beg msn us).foldl (fun (s : List (Option Nat) × Nat) x =>
      (match x with
        | none | some 0 => s.1
        | some (msn + 1) => assign s.1 msn (s.2 + 1 + base),s.2 + 1)) (acc,uo)).1 = acc ++ us.map some := by
  induction us generalizing beg msn uo acc with
  | nil => simp [slots]
  | cons u us ih =>
    obtain ⟨first,rest⟩ := fromCons order
    have gaps : ∀ (n : Nat) (s : List (Option Nat) × Nat),
        (List.replicate n none).foldl (fun (s : List (Option Nat) × Nat) x =>
          (match x with
            | none | some 0 => s.1
            | some (msn + 1) => assign s.1 msn (s.2 + 1 + base),s.2 + 1)) s = (s.1,s.2 + n) := by
      intro n
      induction n with
      | zero => exact fun s => rfl
      | succ n more =>
        intro s
        rw [List.replicate_succ,List.foldl_cons,more]
        dsimp only
        rw [Nat.add_assoc s.2,Nat.add_comm 1]
    have last : assign acc msn (uo + (u - beg) + 1 + base) = acc ++ [some u] := by
      rw [assignLast (by omega),length,Nat.sub_self]
      simp only [List.replicate_zero,List.append_nil]
      have offset : uo + (u - beg) + 1 + base = u := by omega
      rw [offset]
    simp only [slots,List.foldl_append,gaps,List.foldl_cons,last]
    rw [ih _ _ _ rest (by simp [length]) (by omega)]
    simp

theorem formUid (form : Form base us m) (order : From (base + 1) us) (few : us.length ≤ uidSlice) :
    msn2uid base m = us.map some := by
  have fold := msnFold base 0 0 [] order rfl (by omega)
  rw [← formArray form order few,List.foldl_map,List.nil_append] at fold
  rw [← fold]
  unfold msn2uid
  congr 2
  funext s x
  match x with
  | none => rfl
  | some 0 => rfl
  | some (n + 1) => rfl

theorem formHibernate (form : Form base us m) : Form base us m.hibernate := by
  rcases form with rfl | rfl
  · exact Or.inr rfl
  · exact Or.inr rfl

theorem memUidRange {o : Over R} {beg fin : Nat} {sql : R → Bool} {n : Nat} :
    n ∈ o.uidRange beg fin sql ↔ ∃ r,o.get? n = some r ∧ beg ≤ n ∧ n ≤ fin ∧ sql r := by
  unfold Over.uidRange
  simp only [Table.memKeysWhere,decide_eq_true_eq]

theorem memSlice {o : Over R} {n : Nat} :
    n ∈ o.slice base ↔ (o.get? n).isSome ∧ base + 1 ≤ n ∧ n ≤ base + uidSlice := by
  unfold Over.slice
  rw [memUidRange,Option.isSome_iff_exists]
  simp

theorem sliceFrom (o : Over R) (base : Nat) : From (base + 1) (o.slice base) :=
  ⟨Table.keysWhereSorted _ _,fun _ mem => (memSlice.mp mem).2.1⟩

theorem frontFrom {o : Over R} (front : us <+: o.slice base) : From (base + 1) us :=
  ⟨(sliceFrom o base).1.sublist front.sublist,fun u mem => (sliceFrom o base).2 u (front.subset mem)⟩

theorem frontFits {o : Over R} (front : us <+: o.slice base) : (slots (base + 1) 0 us).length ≤ uidSlice := by
  have length := slotsLength 0 (frontFrom front)
  cases last : us.getLast? with
  | none =>
    rw [last] at length
    simp at length
    simp [length]
  | some u =>
    rw [last] at length
    simp only [Option.map_some,Option.getD_some] at length
    have top := (memSlice.mp (front.subset (List.mem_of_getLast? last))).2.2
    omega

theorem frontFew {o : Over R} (front : us <+: o.slice base) : us.length ≤ uidSlice :=
  (slotsFewer _ _ _).trans (frontFits front)

theorem pastFront {o : Over R} {beg fin last : Nat} {sql : R → Bool} {front rest : List Nat}
    (whole : o.uidRange beg fin sql = front ++ last :: rest) : o.uidRange (last + 1) fin sql = rest := by
  have sorted : (o.uidRange beg fin sql).Pairwise (· < ·) := Table.keysWhereSorted _ _
  have split : ∀ n,n ∈ o.uidRange beg fin sql ↔ n ∈ front ∨ n = last ∨ n ∈ rest := by
    intro n
    rw [whole,List.mem_append,List.mem_cons]
  rw [whole,List.pairwise_append,List.pairwise_cons] at sorted
  obtain ⟨-,⟨above,tail⟩,below⟩ := sorted
  refine Paging.sortedFilter (Table.keysWhereSorted _ _) tail fun n => memUidRange.trans ⟨?_,fun mem => ?_⟩
  · rintro ⟨r,found,least,top,yes⟩
    obtain ⟨-,-,first,-⟩ := memUidRange.mp ((split last).mpr (Or.inr (Or.inl rfl)))
    rcases (split n).mp (memUidRange.mpr ⟨r,found,by omega,top,yes⟩) with before | rfl | after
    · have := below n before last List.mem_cons_self
      omega
    · omega
    · exact after
  · obtain ⟨r,found,-,top,yes⟩ := memUidRange.mp ((split n).mpr (Or.inr (Or.inr mem)))
    exact ⟨r,found,above n mem,top,yes⟩

theorem restRange {o : Over R} (front : us <+: o.slice base) :
    us ++ o.uidRange (base + (slots (base + 1) 0 us).length + 1) (base + uidSlice) (fun _ => true) = o.slice base := by
  have length := slotsLength 0 (frontFrom front)
  obtain ⟨rest,whole⟩ := front
  cases last : us.getLast? with
  | none =>
    obtain rfl := List.getLast?_eq_none_iff.mp last
    rfl
  | some u =>
    rw [last] at length
    obtain ⟨before,rfl⟩ := List.getLast?_eq_some_iff.mp last
    have range : base + (slots (base + 1) 0 (before ++ [u])).length + 1 = u + 1 := by
      simp only [Option.map_some,Option.getD_some] at length
      omega
    have all : o.uidRange (base + 1) (base + uidSlice) (fun _ => true) = before ++ u :: rest := by
      rw [← List.append_cons] at whole
      exact whole.symm
    rw [range,pastFront all,whole]

structure Known (v : Client R) (ibx : Option Nat) (base : Nat) (us : List Nat) : Prop where
  front : us <+: (v.over ibx).slice base
  reported : v.reported = some us.length
  held : ∀ m ∈ v.uo2m,Form base us m
  dummy : v.uo2m = none → ibx = none

variable {v : Client R} {ibx : Option Nat}

theorem formNew (o : Over R) (base : Nat) :
    Form base (o.slice base) (uo2mAryNew o base).1 ∧ (uo2mAryNew o base).2 = (o.slice base).length := by
  refine ⟨Or.inl rfl,?_⟩
  unfold uo2mAryNew
  rw [fillSlots (sliceFrom o base)]
  exact Nat.zero_add _

theorem formExtend {o : Over R} (front : us <+: o.slice base) (form : Form base us m) {u : Nat} {rest : List Nat}
    (next : o.uidRange (uo2mLastUid base m + 1) (base + uidSlice) (fun _ => true) = u :: rest) :
    let filled := fill (uo2mLastUid base m + 1) m.lastMsn (u :: rest)
    us ++ u :: rest = o.slice base ∧ filled.2 = (us ++ u :: rest).length ∧
      (∀ msns,m = .ary msns → Form base (us ++ u :: rest) (.ary (msns ++ filled.1))) ∧
      ∀ words,m = .str words → Form base (us ++ u :: rest) (.str (words ++ Uo2m.pack filled.1)) := by
  have order := frontFrom front
  have last : uo2mLastUid base m + 1 = base + 1 + (slots (base + 1) 0 us).length := by
    unfold uo2mLastUid
    rw [formSize form order]
    omega
  have range : uo2mLastUid base m + 1 = base + (slots (base + 1) 0 us).length + 1 := by omega
  have whole := restRange front
  rw [← range,next] at whole
  have later : From (uo2mLastUid base m + 1) (u :: rest) :=
    by
    refine ⟨next ▸ Table.keysWhereSorted _ _,fun x mem => ?_⟩
    rw [← next] at mem
    obtain ⟨r,-,least,-⟩ := memUidRange.mp mem
    exact least
  have both : slots (base + 1) 0 (us ++ u :: rest) =
      slots (base + 1) 0 us ++ slots (uo2mLastUid base m + 1) us.length (u :: rest) := by
    rw [slotsAppend order,last,Nat.zero_add]
  have count : fill (uo2mLastUid base m + 1) m.lastMsn (u :: rest) =
      (slots (uo2mLastUid base m + 1) us.length (u :: rest),us.length + (u :: rest).length) := by
    rw [formLast form order (frontFew front),fillSlots later]
  have all : From (base + 1) (us ++ u :: rest) := whole ▸ sliceFrom o base
  dsimp only
  rw [count]
  refine ⟨whole,by simp,?_,?_⟩
  · rintro msns rfl
    refine Or.inl ?_
    rw [fillSlots all,both]
    rcases form with same | other
    · rw [fillSlots order] at same
      rw [Uo2m.ary.inj same]
    · contradiction
  · rintro words rfl
    refine Or.inr ?_
    rw [fillSlots all,both]
    rcases form with other | same
    · contradiction
    · rw [fillSlots order] at same
      rw [Uo2m.str.inj same]
      unfold Uo2m.pack
      rw [List.map_append]

theorem knownExtend (known : Known v ibx base us) (selected : v.mailbox = some (ibx,base)) (newUidMax : Nat → Nat) :
    ∃ us',us <+: us' ∧ Known (v.extend newUidMax) ibx base us' := by
  obtain ⟨front,reported,held,dummy⟩ := known
  unfold Client.extend
  rw [selected]
  dsimp only
  cases there : v.uo2m with
  | none =>
    obtain rfl := dummy there
    have empty : (v.over none).slice base = [] := rfl
    rw [empty] at front
    obtain rfl := List.prefix_nil.mp front
    exact ⟨[],List.prefix_rfl,List.prefix_rfl,reported,fun m mem => Option.some.inj mem ▸ Or.inl rfl,fun none => absurd none (by simp)⟩
  | some m =>
    have form := held m there
    unfold uo2mExtend
    dsimp only
    have same : ∃ us',us <+: us' ∧ Known ⟨v.inboxes,some (ibx,base),some m,v.reported⟩ ibx base us' :=
      ⟨us,List.prefix_rfl,front,reported,fun x mem => Option.some.inj mem ▸ form,fun none => absurd none (by simp)⟩
    split
    · exact same
    · split
      · exact same
      · rename_i u rest next
        obtain ⟨whole,count,array,packed⟩ := formExtend front form next
        refine ⟨us ++ u :: rest,List.prefix_append _ _,?_⟩
        cases m with
        | ary msns =>
          exact ⟨whole ▸ List.prefix_rfl,congrArg some count,
            fun x mem => Option.some.inj mem ▸ array _ rfl,fun none => absurd none (by simp)⟩
        | str words =>
          exact ⟨whole ▸ List.prefix_rfl,congrArg some count,
            fun x mem => Option.some.inj mem ▸ packed _ rfl,fun none => absurd none (by simp)⟩

theorem extendAll {o : Over R} (front : us <+: o.slice base) (form : Form base us m) :
    Form base (o.slice base) (uo2mExtend o base (base + uidSlice) (some m)).1 := by
  have order := frontFrom front
  have last : uo2mLastUid base m = base + (slots (base + 1) 0 us).length := by
    unfold uo2mLastUid
    rw [formSize form order,Nat.add_comm]
  have whole := restRange front
  rw [← last] at whole
  unfold uo2mExtend
  dsimp only
  split
  · rename_i full
    have none : o.uidRange (uo2mLastUid base m + 1) (base + uidSlice) (fun _ => true) = [] := by
      refine List.eq_nil_iff_forall_not_mem.mpr fun n mem => ?_
      obtain ⟨r,-,least,top,-⟩ := memUidRange.mp mem
      omega
    rw [none,List.append_nil] at whole
    exact whole ▸ form
  · split
    · rename_i none
      rw [none,List.append_nil] at whole
      exact whole ▸ form
    · rename_i u rest next
      obtain ⟨all,-,array,packed⟩ := formExtend front form next
      cases m with
      | ary msns => exact all ▸ array _ rfl
      | str words => exact all ▸ packed _ rfl

theorem maxBelow {o : Over R} {n : Nat} (inside : (o.get? n).isSome) : n ≤ o.max := by
  unfold Over.max
  rcases Nat.eq_zero_or_pos n with rfl | positive
  · exact Nat.zero_le _
  · have mem : n ∈ o.keysWhere (fun n _ => 0 < n) := by
      obtain ⟨r,found⟩ := Option.isSome_iff_exists.mp inside
      exact Table.memKeysWhere.mpr ⟨r,found,decide_eq_true positive⟩
    have sorted := Table.keysWhereSorted o (fun n _ => 0 < n)
    cases last : (o.keysWhere (fun n _ => 0 < n)).getLast? with
    | none =>
      rw [List.getLast?_eq_none_iff.mp last] at mem
      exact absurd mem List.not_mem_nil
    | some top =>
      obtain ⟨front,whole⟩ := List.getLast?_eq_some_iff.mp last
      rw [whole] at mem sorted
      rcases List.mem_append.mp mem with before | here
      · exact ((List.pairwise_append.mp sorted).2.2 n before top List.mem_cons_self).le
      · exact (List.mem_singleton.mp here).le

theorem sliceInsert (o : Over R) (base gap : Nat) (r : R) :
    o.slice base <+: Over.slice (o.insert (o.max + 1 + gap) r) base := by
  have last : ∀ x ∈ o.rows,x.1 < o.max + 1 + gap := by
    intro x mem
    have := maxBelow (o := o) (n := x.1) (by rw [Table.memRows.mp mem]; rfl)
    omega
  unfold Over.slice Over.uidRange Table.keysWhere Table.keys Table.filter Table.insert
  dsimp only
  rw [Table.putLast last,List.filter_append,List.map_append]
  exact List.prefix_append _ _

theorem arrived (v : Client R) (i gap : Nat) (r : R) (ibx : Option Nat) (base : Nat) :
    (v.over ibx).slice base <+: ((v.step (.arrive i gap r)).over ibx).slice base := by
  cases ibx with
  | none => exact List.prefix_rfl
  | some j =>
    change (v.inboxes j).slice base <+: (Function.update v.inboxes i _ j).slice base
    by_cases same : j = i
    · subst same
      rw [Function.update_self]
      exact sliceInsert _ _ _ _
    · rewrite [Function.update_of_ne same]
      exact List.prefix_rfl

theorem examined (v : Client R) (i k : Nat) : Known (v.step (.examine (some i) k)) (some i) (k * uidSlice)
    ((v.inboxes i).slice (k * uidSlice)) := by
  obtain ⟨form,count⟩ := formNew (v.inboxes i) (k * uidSlice)
  exact ⟨List.prefix_rfl,congrArg some count,fun m mem => Option.some.inj mem ▸ form,fun none => absurd none (by simp [Client.step])⟩

structure Later (ibx : Option Nat) (base : Nat) (us : List Nat) (w : Client R) : Prop where
  front : us <+: (w.over ibx).slice base
  known : ∀ ibx' base',w.mailbox = some (ibx',base') → ∃ us',Known w ibx' base' us' ∧ ((ibx',base') = (ibx,base) → us <+: us')

theorem laterExtend {w : Client R} (later : Later ibx base us w) (newUidMax : Nat → Nat) :
    Later ibx base us (w.extend newUidMax) := by
  cases selected : w.mailbox with
  | none =>
    unfold Client.extend
    rwa [selected]
  | some at_ =>
    have same : (w.extend newUidMax).mailbox = w.mailbox ∧ (w.extend newUidMax).inboxes = w.inboxes := by
      unfold Client.extend
      rw [selected]
      exact ⟨rfl,rfl⟩
    refine ⟨?_,fun ibx' base' now => ?_⟩
    · unfold Client.over
      rw [same.2]
      exact later.front
    · rw [same.1] at now
      obtain ⟨us',known,kept⟩ := later.known ibx' base' now
      obtain ⟨all,grows,known⟩ := knownExtend known now newUidMax
      exact ⟨all,known,fun here => (kept here).trans grows⟩

theorem laterStep {w : Client R} (later : Later ibx base us w) (act : Act R) : Later ibx base us (w.step act) := by
  obtain ⟨front,known⟩ := later
  cases act with
  | arrive i gap r =>
    refine ⟨front.trans (arrived w i gap r ibx base),fun ibx' base' now => ?_⟩
    obtain ⟨us',⟨front',reported,held,dummy⟩,kept⟩ := known ibx' base' now
    exact ⟨us',⟨front'.trans (arrived w i gap r ibx' base'),reported,held,dummy⟩,kept⟩
  | examine to_ k =>
    cases to_ with
    | none =>
      refine ⟨front,fun ibx' base' now => ?_⟩
      cases now
      refine ⟨[],⟨List.nil_prefix,rfl,fun m mem => (by cases mem),fun _ => rfl⟩,fun here => ?_⟩
      cases here
      exact front
    | some i =>
      refine ⟨front,fun ibx' base' now => ?_⟩
      cases now
      refine ⟨_,examined w i k,fun here => ?_⟩
      cases here
      exact front
  | close => exact ⟨front,fun ibx' base' now => by cases now⟩
  | extend => exact laterExtend ⟨front,known⟩ _
  | fetched uid => exact laterExtend ⟨front,known⟩ _
  | hibernate =>
    refine ⟨front,fun ibx' base' now => ?_⟩
    obtain ⟨us',⟨front',reported,held,dummy⟩,kept⟩ := known ibx' base' now
    refine ⟨us',⟨front',reported,fun m mem => ?_,fun none => dummy (Option.map_eq_none_iff.mp none)⟩,kept⟩
    obtain ⟨m',there,rfl⟩ := Option.map_eq_some_iff.mp mem
    exact formHibernate (held m' there)

theorem laterRun {w : Client R} (later : Later ibx base us w) (acts : List (Act R)) :
    Later ibx base us (acts.foldl Client.step w) :=
  keepsAll (Later ibx base us) (fun _ act _ later => laterStep later act) later

/- What uid2msn and msn2uid answer for the UIDs `us`, and that it fits in 16 bits. For a UID that is none of them
a gap answers undef where the map is an array and 0 where it is a string: neither is an MSN. -/
structure Answers (base : Nat) (us : List Nat) (m : Uo2m) : Prop where
  msns : ∀ uid k,base < uid → (uid2msn base m uid = some (k + 1) ↔ us[k]? = some uid)
  uids : msn2uid base m = us.map some
  words : ∀ x ∈ m.array,x.getD 0 < 2 ^ 16
  size : m.size < 2 ^ 16

theorem formAnswers {o : Over R} (front : us <+: o.slice base) (form : Form base us m) : Answers base us m := by
  have order := frontFrom front
  have few := frontFew front
  refine ⟨fun uid k inside => formMsn form order few inside,formUid form order few,fun x mem => ?_,?_⟩
  · have bound : (truthy x).getD 0 ≤ 0 + us.length := by
      have inside := List.mem_map_of_mem (f := truthy) mem
      rw [formArray form order few] at inside
      exact slotsBound inside
    have same : (truthy x).getD 0 = x.getD 0 := by
      unfold truthy
      split
      · rename_i zero
        rw [zero]
        rfl
      · rfl
    rw [same,Nat.zero_add] at bound
    exact (bound.trans few).trans_lt (by decide)
  · rw [formSize form order]
    exact (frontFits front).trans_lt (by decide)

/- The session knows the UIDs `us` of its slice: both forms of the map number them from 1 on in
ascending order, and their count is what it last told the client. -/
def Numbered (v : Client R) : Prop :=
  ∀ ibx base,v.mailbox = some (ibx,base) → ∃ us : List Nat,
    us <+: (v.over ibx).slice base ∧ us.Pairwise (· < ·) ∧ v.reported = some us.length ∧
      (∀ m ∈ v.uo2m,Form base us m) ∧ ∀ form,Form base us form → Answers base us form

def Unchanged (v w : Client R) : Prop :=
  ∀ ibx base,v.mailbox = some (ibx,base) → w.mailbox = some (ibx,base) → ∀ m ∈ v.uo2m,∀ m' ∈ w.uo2m,
    ∀ uid msn,base < uid → 0 < msn → uid2msn base m uid = some msn → uid2msn base m' uid = some msn

theorem laterEmpty : Later none 0 [] (Client.empty : Client R) := ⟨List.nil_prefix,fun ibx base now => by cases now⟩

theorem msnsAreStable (acts more : List (Act R)) :
    Numbered (acts.foldl Client.step Client.empty) ∧
      Unchanged (acts.foldl Client.step Client.empty) ((acts ++ more).foldl Client.step Client.empty) := by
  have start := laterRun (laterEmpty (R := R)) acts
  refine ⟨fun ibx base now => ?_,fun ibx base now after m mem m' mem' uid msn inside positive msns => ?_⟩
  · obtain ⟨us,⟨front,reported,held,-⟩,-⟩ := start.known ibx base now
    exact ⟨us,front,(frontFrom front).1,reported,held,fun form => formAnswers front⟩
  · obtain ⟨us,known,-⟩ := start.known ibx base now
    have first : Later ibx base us (acts.foldl Client.step Client.empty) := by
      refine ⟨known.front,fun ibx' base' again => ⟨us,?_,fun _ => List.prefix_rfl⟩⟩
      rw [now] at again
      cases again
      exact known
    rw [List.foldl_append] at after mem'
    obtain ⟨us',known',kept⟩ := (laterRun first more).known ibx base after
    obtain ⟨k,rfl⟩ : ∃ k,msn = k + 1 := ⟨msn - 1,by omega⟩
    have found := ((formAnswers known.front (known.held m mem)).msns uid k inside).mp msns
    refine ((formAnswers known'.front (known'.held m' mem')).msns uid k inside).mpr ?_
    obtain ⟨rest,rfl⟩ := kept rfl
    rw [List.getElem?_append_left (List.getElem?_eq_some_iff.mp found).choose]
    exact found

-- The case of t/imap.t: a packed map learns of two messages.
example : (uo2mExtend (⟨[(1,()),(2,()),(4,()),(5,()),(6,())],by decide⟩ : Over Unit) 0 6
    (some (.str (Uo2m.pack [some 1,some 2,none,some 3])))).2 = some 5 := by decide

end PublicInbox.IMAP
