import Mathlib.Tactic.IntervalCases

/-! The proleptic Gregorian calendar. A date has a count of days from 1970-01-01 and a number
yyyymmdd; every count belongs to one valid date, and valid dates have the order of both. Years
are counted from March inside, so that the leap day is the last one. -/
namespace Calendar

def march (y : Int) : Int := 365 * y + y / 4 - y / 100 + y / 400

def before (m : Int) : Int := (306 * m + 5) / 10

structure Date where
  year : Int
  month : Int
  day : Int
  deriving DecidableEq

def leap (y : Int) : Bool := (y % 4 = 0 ∧ y % 100 ≠ 0) ∨ y % 400 = 0

def monthDays (y m : Int) : Int :=
  if m = 2 then (if leap y then 29 else 28)
  else if m = 4 ∨ m = 6 ∨ m = 9 ∨ m = 11 then 30
  else 31

namespace Date

def Valid (d : Date) : Prop := 1 ≤ d.month ∧ d.month ≤ 12 ∧ 1 ≤ d.day ∧ d.day ≤ monthDays d.year d.month

instance (d : Date) : Decidable d.Valid := inferInstanceAs (Decidable (_ ∧ _))

def marchYear (d : Date) : Int := if d.month ≤ 2 then d.year - 1 else d.year

def marchMonth (d : Date) : Int := if d.month ≤ 2 then d.month + 9 else d.month - 3

def count (d : Date) : Int := march d.marchYear + before d.marchMonth + d.day - 719469

def number (d : Date) : Int := 10000 * d.year + 100 * d.month + d.day

end Date

def yearOf (z : Int) : Int :=
  let y := 400 * z / 146097
  if march (y + 1) ≤ z then y + 1 else y

def ofCount (n : Int) : Date :=
  let z := n + 719468
  let y := yearOf z
  let m := (5 * (z - march y) + 2) / 153
  if m < 10 then ⟨y,m + 3,z - march y - before m + 1⟩ else ⟨y + 1,m - 9,z - march y - before m + 1⟩

theorem marchNext (y : Int) : march (y + 1) = march y + 365 + if leap (y + 1) then 1 else 0 := by
  unfold march leap
  split <;> rename_i h <;> simp only [decide_eq_true_eq,not_or,not_and,not_not] at h <;> omega

theorem yearOfSpec (z : Int) : march (yearOf z) ≤ z ∧ z < march (yearOf z + 1) := by
  unfold yearOf march
  dsimp only
  split <;> omega

theorem ofCountSpec (n : Int) : (ofCount n).Valid ∧ (ofCount n).count = n := by
  obtain ⟨low,high⟩ := yearOfSpec (n + 719468)
  rw [marchNext] at high
  unfold ofCount
  dsimp only
  generalize yearOf (n + 719468) = y at low high ⊢
  obtain ⟨r,rest⟩ : ∃ r,n + 719468 = march y + r := ⟨n + 719468 - march y,by omega⟩
  have inYear : n + 719468 - march y = r := by omega
  rw [inYear]
  have bound : 0 ≤ r ∧ r ≤ 365 := by
    split at high <;> omega
  obtain ⟨m,month⟩ : ∃ m,m = (5 * r + 2) / 153 := ⟨_,rfl⟩
  rw [← month]
  have range : 0 ≤ m ∧ m ≤ 11 := by omega
  unfold before
  split
  · rename_i early
    refine ⟨⟨?_,?_,?_,?_⟩,?_⟩
    · show 1 ≤ m + 3; omega
    · show m + 3 ≤ 12; omega
    · show 1 ≤ r - (306 * m + 5) / 10 + 1; omega
    · show r - (306 * m + 5) / 10 + 1 ≤ monthDays y (m + 3)
      unfold monthDays
      rw [if_neg (by omega)]
      split <;> omega
    · unfold Date.count Date.marchYear Date.marchMonth before
      dsimp only
      rw [if_neg (by omega),if_neg (by omega)]
      omega
  · rename_i late
    refine ⟨⟨?_,?_,?_,?_⟩,?_⟩
    · show 1 ≤ m - 9; omega
    · show m - 9 ≤ 12; omega
    · show 1 ≤ r - (306 * m + 5) / 10 + 1; omega
    · show r - (306 * m + 5) / 10 + 1 ≤ monthDays (y + 1) (m - 9)
      unfold monthDays
      split
      · cases long : leap (y + 1)
        · simp only [long,Bool.false_eq_true,if_false] at high ⊢
          omega
        · simp only [long,if_true] at high ⊢
          omega
      · split <;> omega
    · unfold Date.count Date.marchYear Date.marchMonth before
      have same : y + 1 - 1 = y := by omega
      have same' : m - 9 + 9 = m := by omega
      dsimp only
      rw [if_pos (by omega),if_pos (by omega),same,same']
      omega

theorem Date.Valid.inside {d : Date} (valid : d.Valid) : 0 ≤ d.marchMonth ∧ d.marchMonth ≤ 11 ∧
    (d.marchMonth ≤ 10 → d.day ≤ before (d.marchMonth + 1) - before d.marchMonth) ∧
    (d.marchMonth = 11 → march d.marchYear + before 11 + d.day ≤ march (d.marchYear + 1)) := by
  obtain ⟨y,m,day⟩ := d
  obtain ⟨first,last,-,most⟩ := valid
  simp only [Date.marchMonth,Date.marchYear,marchNext] at first last most ⊢
  unfold monthDays at most
  interval_cases m <;> simp [before] at most ⊢ <;> try omega
  cases long : leap y <;> simp [long] at most ⊢ <;> omega

theorem monthDaysFew (y m : Int) : monthDays y m ≤ 31 := by
  unfold monthDays
  split <;> split <;> omega

theorem marchMono {y y' : Int} (less : y ≤ y') : march y ≤ march y' := by
  unfold march
  omega

theorem countLt {a b : Date} (validA : a.Valid) (validB : b.Valid) (less : a.number < b.number) : a.count < b.count := by
  obtain ⟨-,most,month,year⟩ := validA.inside
  obtain ⟨least,most',-,-⟩ := validB.inside
  obtain ⟨first,last,low',top⟩ := validA
  obtain ⟨first',last',low,top'⟩ := validB
  have order : a.marchYear < b.marchYear ∨ (a.marchYear = b.marchYear ∧ a.marchMonth < b.marchMonth) ∨
      (a.marchYear = b.marchYear ∧ a.marchMonth = b.marchMonth ∧ a.day < b.day) := by
    have few := top.trans (monthDaysFew _ _)
    have few' := top'.trans (monthDaysFew _ _)
    unfold Date.number at less
    unfold Date.marchYear Date.marchMonth
    split <;> split <;> omega
  unfold Date.count
  -- The first of the next month is at most the first of any later one.
  have ahead : ∀ m m' : Int,m ≤ m' → before m ≤ before m' := by
    intro m m' le
    unfold before
    omega
  rcases order with later | ⟨same,later⟩ | ⟨same,same',later⟩
  · have start := marchMono (Int.add_one_le_of_lt later)
    have front := ahead 0 _ least
    have zero : before 0 = 0 := by decide
    rcases Int.lt_or_eq_of_le most with early | final
    · have next := month (by omega)
      have steps := ahead (a.marchMonth + 1) 11 (by omega)
      have whole : march a.marchYear + before 11 ≤ march (a.marchYear + 1) := by
        have number : before 11 = 337 := by decide
        rw [number,marchNext]
        split <;> omega
      omega
    · have next := year final
      rw [final]
      omega
  · have next := month (by omega)
    have steps := ahead (a.marchMonth + 1) _ later
    rw [same]
    omega
  · rw [same,same']
    omega

theorem numberLe {a b : Date} (validA : a.Valid) (validB : b.Valid) : a.number ≤ b.number ↔ a.count ≤ b.count := by
  constructor
  · intro le
    rcases Int.lt_or_eq_of_le le with less | same
    · exact (countLt validA validB less).le
    · have few := validA.2.2.2.trans (monthDaysFew _ _)
      have few' := validB.2.2.2.trans (monthDaysFew _ _)
      obtain ⟨y,m,day⟩ := a
      obtain ⟨y',m',day'⟩ := b
      obtain ⟨first,last,low,-⟩ := validA
      obtain ⟨first',last',low',-⟩ := validB
      unfold Date.number at same
      dsimp only at *
      obtain ⟨rfl,rfl,rfl⟩ : y = y' ∧ m = m' ∧ day = day' := by omega
      exact le_refl _
  · intro le
    by_contra more
    have := countLt validB validA (by omega)
    omega

theorem numberFrom {d : Date} (valid : d.Valid) (n : Int) :
    (d.number ≤ (ofCount n).number ↔ d.count ≤ n) ∧ ((ofCount n).number ≤ d.number ↔ n ≤ d.count) := by
  obtain ⟨own,count⟩ := ofCountSpec n
  have up := numberLe valid own
  have down := numberLe own valid
  rw [count] at up down
  exact ⟨up,down⟩

theorem numberNext (n : Int) : (ofCount (n + 1)).number < (ofCount n).number + 20000 := by
  obtain ⟨own,count⟩ := ofCountSpec n
  obtain ⟨own',count'⟩ := ofCountSpec (n + 1)
  by_contra far
  -- The first of January of the next year would lie between the two days.
  have valid : (⟨(ofCount n).year + 1,1,1⟩ : Date).Valid := by
    simp [Date.Valid,monthDays]
  have few := own.2.2.2.trans (monthDaysFew _ _)
  have above : (ofCount n).number < (⟨(ofCount n).year + 1,1,1⟩ : Date).number := by
    unfold Date.number
    have := own.2.1
    dsimp only
    omega
  have below : (⟨(ofCount n).year + 1,1,1⟩ : Date).number < (ofCount (n + 1)).number := by
    unfold Date.number at far ⊢
    have := own.1
    have := own.2.2.1
    dsimp only
    omega
  have := countLt own valid above
  have := countLt valid own' below
  omega

example : ofCount 8675 = ⟨1993,10,2⟩ := by decide

end Calendar
