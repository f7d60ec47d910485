import Mathlib.Algebra.Ring.Nat
import Mathlib.Data.List.Pairwise
import PublicInbox.Library.Probing

/-! khashl.h: the hash tables of xap_helper.h, with linear probing, growing in place and deletion without marks.
The bits of `used` are flags, and khint_t is a number; the sizes that fit its 32 bits are kept track of. -/
namespace PublicInbox.Khashl
open Probing

structure Keys (α : Type) where
  hashFn : α → Nat
  hashEq : α → α → Bool
  refl : ∀ x,hashEq x x = true
  symm : ∀ {x y},hashEq x y = true → hashEq y x = true
  trans : ∀ {x y z},hashEq x y = true → hashEq y z = true → hashEq x z = true
  same : ∀ {x y},hashEq x y = true → hashFn x = hashFn y

structure Table (α : Type) where
  bits : Nat
  count : Nat
  used : Nat → Bool
  keys : Nat → α
  alloc : Bool

variable {α : Type} (k : Keys α) (h : Table α)

def init [Inhabited α] : Table α := ⟨0,0,fun _ => false,fun _ => default,false⟩

def capacity : Nat := if h.alloc then 2 ^ h.bits else 0

def h2b (hash bits : Nat) : Nat := hash * 2654435769 % 2 ^ 32 / 2 ^ (32 - bits)

def clear : Table α := if h.alloc then { h with used := fun _ => false, count := 0 } else h

def stops (key : α) (i : Nat) : Bool := !h.used i || k.hashEq (h.keys i) key

def getp (key : α) : Nat :=
  if !h.alloc then 0
  else
    let last := h2b (k.hashFn key) h.bits
    match look (2 ^ h.bits) (stops k h key) last (2 ^ h.bits) last with
    | none => 2 ^ h.bits
    | some i => if !h.used i then 2 ^ h.bits else i

structure Moving (α : Type) where
  old : Nat → Bool
  new : Nat → Bool
  keys : Nat → α

def kick (n newBits : Nat) : Nat → α → Moving α → Moving α
  | 0,_,m => m
  | fuel + 1,key,m =>
    let i := seek (2 ^ newBits) (fun i => !m.new i) (2 ^ newBits) (h2b (k.hashFn key) newBits)
    let put := Function.update m.keys i key
    if i < n ∧ m.old i = true then
      kick n newBits fuel (m.keys i) ⟨Function.update m.old i false,Function.update m.new i true,put⟩
    else ⟨m.old,Function.update m.new i true,put⟩

def moveOut (n newBits : Nat) (m : Moving α) (j : Nat) : Moving α :=
  if !m.old j then m
  else kick k n newBits n (m.keys j) { m with old := Function.update m.old j false }

def KickEnds (n newBits : Nat) : Nat → α → Moving α → Prop
  | 0,_,_ => False
  | fuel + 1,key,m =>
    let i := seek (2 ^ newBits) (fun i => !m.new i) (2 ^ newBits) (h2b (k.hashFn key) newBits)
    m.new i = false ∧ (i < n ∧ m.old i = true → KickEnds n newBits fuel (m.keys i)
      ⟨Function.update m.old i false,Function.update m.new i true,Function.update m.keys i key⟩)

def MovesEnd (n newBits : Nat) : List Nat → Moving α → Prop
  | [],_ => True
  | j :: js,m => (m.old j = true → KickEnds k n newBits n (m.keys j) { m with old := Function.update m.old j false }) ∧
      MovesEnd n newBits js (moveOut k n newBits m j)

def sizeBits (n : Nat) : Nat := if n &&& (n - 1) ≠ 0 then n.log2 + 1 else n.log2

def newBits (n : Nat) : Nat := if sizeBits n > 2 then sizeBits n else 2

def resize (n : Nat) : Table α :=
  let bits := newBits n
  if h.count > 2 ^ bits / 2 + 2 ^ bits / 4 then h
  else
    let m := (List.range (capacity h)).foldl (moveOut k (capacity h) bits) ⟨h.used,fun _ => false,h.keys⟩
    { h with used := m.new, keys := m.keys, bits := bits, alloc := true }

def rehash : Table α := if h.count ≥ capacity h / 2 + capacity h / 4 then resize k h (capacity h + 1) else h

def putp (key : α) : Table α × Nat × Bool :=
  let h := rehash k h
  let last := h2b (k.hashFn key) h.bits
  let i := (look (2 ^ h.bits) (stops k h key) last (2 ^ h.bits) last).getD last
  if !h.used i then ({ h with keys := Function.update h.keys i key, used := Function.update h.used i true, count := h.count + 1 },i,true)
  else (h,i,false)

def moves (i j own : Nat) : Bool := (j > i && (own ≤ i || own > j)) || (j < i && (own ≤ i && own > j))

def delLoop : Nat → Nat → Nat → (Nat → α) → Nat × (Nat → α)
  | 0,i,_,keys => (i,keys)
  | fuel + 1,i,j,keys =>
    let j := next (2 ^ h.bits) j
    if j = i ∨ h.used j = false then (i,keys)
    else if moves i j (h2b (k.hashFn (keys j)) h.bits) then delLoop fuel j j (Function.update keys i (keys j))
    else delLoop fuel i j keys

def del (i : Nat) : Table α × Bool :=
  if !h.alloc then (h,false)
  else
    let (i,keys) := delLoop k h (2 ^ h.bits) i i h.keys
    ({ h with keys := keys, used := Function.update h.used i false, count := h.count - 1 },true)

def each : List α := content (capacity h) h.used h.keys

/-! The callers: what they do to a table and what they see of it -/

inductive Op (α : Type) where
  | put (key : α)
  | get (key : α)
  | del (key : α)
  | clear
  | resize (n : Nat)
  | size

inductive Seen (α : Type) where
  | put (absent : Bool) (bucket : α)
  | got (bucket : Option α)
  | deleted (there : Bool)
  | size (count : Nat)
  | nothing

def step (h : Table α) : Op α → Table α × Seen α
  | .put key => ((putp k h key).1,.put (putp k h key).2.2 ((putp k h key).1.keys (putp k h key).2.1))
  | .get key => (h,.got (if getp k h key < capacity h then some (h.keys (getp k h key)) else none))
  | .del key => if getp k h key < capacity h then ((del k h (getp k h key)).1,.deleted (del k h (getp k h key)).2) else (h,.deleted false)
  | .clear => (clear h,.nothing)
  | .resize n => (resize k h n,.nothing)
  | .size => (h,.size h.count)

def run (h : Table α) : List (Op α) → Table α × List (Seen α)
  | [] => (h,[])
  | op :: ops => ((run (step k h op).1 ops).1,(step k h op).2 :: (run (step k h op).1 ops).2)

/-! What a table is for: a set of keys, of which no two are equal -/

def keep (l : List α) : Op α → List α × Seen α
  | .put key => match l.find? (k.hashEq · key) with
    | some there => (l,.put false there)
    | none => (key :: l,.put true key)
  | .get key => (l,.got (l.find? (k.hashEq · key)))
  | .del key => (l.filter fun x => !k.hashEq x key,.deleted (l.any (k.hashEq · key)))
  | .clear => ([],.nothing)
  | .resize _ => (l,.nothing)
  | .size => (l,.size l.length)

def keeps (l : List α) : List (Op α) → List α × List (Seen α)
  | [] => (l,[])
  | op :: ops => ((keeps (keep k l op).1 ops).1,(keep k l op).2 :: (keeps (keep k l op).1 ops).2)

/-! One table -/

def home (bits : Nat) (key : α) : Nat := h2b (k.hashFn key) bits

theorem homeInside (bits : Nat) (key : α) : home k bits key < 2 ^ bits := by
  refine Nat.div_lt_of_lt_mul (lt_of_lt_of_le (Nat.mod_lt _ (Nat.two_pow_pos 32)) ?_)
  rw [← Nat.pow_add]
  exact Nat.pow_le_pow_right (by omega) (by omega)

structure Good (k : Keys α) (h : Table α) : Prop where
  wide : h.alloc = true → 2 ≤ h.bits
  reaches : h.alloc = true → Reaches (2 ^ h.bits) (home k h.bits) h.used h.keys
  counted : h.count = (each h).length
  room : h.count ≤ capacity h / 2 + capacity h / 4
  distinct : (each h).Pairwise fun x y => k.hashEq x y = false

section
variable {k : Keys α} {h : Table α}

theorem capacityIs (alloc : h.alloc = true) : capacity h = 2 ^ h.bits := if_pos alloc

theorem eachNull (null : h.alloc = false) : each h = [] := by
  rw [each,capacity,null]
  rfl

theorem eachIs (alloc : h.alloc = true) : each h = content (2 ^ h.bits) h.used h.keys := by rw [each,capacityIs alloc]

theorem Good.free (good : Good k h) (alloc : h.alloc = true) : ∃ e < 2 ^ h.bits,h.used e = false := by
  refine @roomLeft _ _ _ h.keys ?_
  have room := good.room
  have some := Nat.two_pow_pos h.bits
  rw [good.counted,eachIs alloc,capacityIs alloc] at room
  omega

theorem searched (good : Good k h) (alloc : h.alloc = true) (key : α) :
    ∃ i,look (2 ^ h.bits) (stops k h key) (h2b (k.hashFn key) h.bits) (2 ^ h.bits) (h2b (k.hashFn key) h.bits) = some i ∧
      First (2 ^ h.bits) (stops k h key) (home k h.bits key) i := by
  obtain ⟨e,inside,free⟩ := good.free alloc
  obtain ⟨i,found,_,first⟩ := @lookFirst _ (stops k h key) _ _ (homeInside k h.bits key) inside (by rw [stops,free]; rfl)
  exact ⟨i,found,first⟩

theorem stopsUsed {key : α} {i : Nat} (stop : stops k h key i = true) (on : h.used i = true) : k.hashEq (h.keys i) key = true := by
  rwa [stops,on,Bool.not_true,Bool.false_or] at stop

theorem goesUsed {key : α} {i : Nat} (goes : stops k h key i = false) : h.used i = true := by
  rw [stops,Bool.or_eq_false_iff,Bool.not_eq_false'] at goes
  exact goes.1

theorem firstMisses (good : Good k h) (alloc : h.alloc = true) {key : α} {i : Nat}
    (first : First (2 ^ h.bits) (stops k h key) (home k h.bits key) i) (off : h.used i = false) : ∀ y ∈ each h,k.hashEq y key = false := by
  intro y mem
  rw [eachIs alloc] at mem
  refine Bool.eq_false_iff.mpr (@searchMisses _ _ _ _ _ _ (fun y => k.hashEq y key = true) _ _ (good.reaches alloc) (homeInside k h.bits key) first off ?_ ?_ y mem)
  · intro q _ equal
    rw [stops,equal,Bool.or_true]
  · intro y equal
    exact congrArg (h2b · h.bits) (k.same equal)

theorem getpFinds (good : Good k h) (key : α) :
    getp k h key < capacity h ∧ h.used (getp k h key) = true ∧ k.hashEq (h.keys (getp k h key)) key = true ∨
      ¬getp k h key < capacity h ∧ ∀ y ∈ each h,k.hashEq y key = false := by
  cases alloc : h.alloc with
  | false =>
    refine .inr ⟨?_,?_⟩
    · rw [capacity,alloc]
      exact Nat.not_lt_zero _
    · rw [eachNull alloc]
      exact fun y mem => nomatch mem
  | true =>
    obtain ⟨i,found,first⟩ := searched good alloc key
    simp only [getp,alloc,found,capacityIs alloc]
    cases used : h.used i with
    | true => exact .inl ⟨by simpa [used] using first.inside,by simp [used],by simpa [used] using stopsUsed first.stops used⟩
    | false => exact .inr ⟨by simp,firstMisses good alloc first used⟩

theorem memEach {i : Nat} (inside : i < capacity h) (on : h.used i = true) : h.keys i ∈ each h := memContent.mpr ⟨i,inside,on,rfl⟩

end

theorem Keys.apart {k : Keys α} {x y : α} (unequal : k.hashEq x y = false) : k.hashEq y x = false :=
  Bool.eq_false_iff.mpr fun equal => absurd (k.symm equal) (Bool.eq_false_iff.mp unequal)

instance (k : Keys α) : Std.Symm fun x y => k.hashEq x y = false := ⟨fun _ _ => Keys.apart⟩

theorem permDistinct {k : Keys α} {l m : List α} (same : l.Perm m) :
    (l.Pairwise fun x y => k.hashEq x y = false) ↔ m.Pairwise fun x y => k.hashEq x y = false :=
  same.pairwise_iff Keys.apart

/-! Growing -/

def both (n bits : Nat) (m : Moving α) : List α := content (2 ^ bits) m.new m.keys ++ content n m.old m.keys

section
variable {k : Keys α} {n bits : Nat}

theorem takeOld {m : Moving α} {i : Nat} (inside : i < n) (on : m.old i = true) :
    (both n bits m).Perm (m.keys i :: both n bits { m with old := Function.update m.old i false }) :=
  ((contentTake inside on).append_left _).trans List.perm_middle

theorem putNew {m : Moving α} {i : Nat} (key : α) (inside : i < 2 ^ bits) (off : m.new i = false) (kept : i < n → m.old i = false) :
    (both n bits ⟨m.old,Function.update m.new i true,Function.update m.keys i key⟩).Perm (key :: both n bits m) := by
  refine List.Perm.append (contentPut key inside off) (List.Perm.of_eq (contentCongr fun q insideQ => ⟨rfl,fun on => ?_⟩))
  refine Function.update_of_ne (fun same => ?_) _ _
  rw [same] at on insideQ
  exact absurd on (by rw [kept insideQ]; exact Bool.false_ne_true)

theorem clearedOn {used : Nat → Bool} {i q : Nat} (on : Function.update used i false q = true) : q ≠ i ∧ used q = true := by
  by_cases same : q = i
  · rw [same,Function.update_self] at on
    cases on
  · rw [Function.update_of_ne same] at on
    exact ⟨same,on⟩

theorem kicked {m : Moving α} {fuel : Nat} {key : α} (reaches : Reaches (2 ^ bits) (home k bits) m.new m.keys)
    (room : (both n bits m).length < 2 ^ bits) (enough : (content n m.old m.keys).length < fuel) :
    KickEnds k n bits fuel key m ∧ Reaches (2 ^ bits) (home k bits) (kick k n bits fuel key m).new (kick k n bits fuel key m).keys ∧
      (both n bits (kick k n bits fuel key m)).Perm (key :: both n bits m) ∧ ∀ i,(kick k n bits fuel key m).old i = true → m.old i = true := by
  induction fuel generalizing key m with
  | zero => cases enough
  | succ fuel ih =>
    obtain ⟨e,insideE,freeE⟩ := @roomLeft _ (2 ^ bits) m.new m.keys (by rw [both,List.length_append] at room; omega)
    obtain ⟨i,_,sought,first⟩ := @lookFirst _ (fun i => !m.new i) _ _ (homeInside k bits key) insideE (by rw [freeE]; rfl)
    have off : m.new i = false := by simpa using first.stops
    have reached := insertReaches (x := key) reaches first (fun q goes => by simpa using goes)
    have sought : seek (2 ^ bits) (fun i => !m.new i) (2 ^ bits) (h2b (k.hashFn key) bits) = i := sought
    rw [kick,KickEnds]
    simp only [sought]
    split
    · rename_i there
      have taken := @takeOld _ _ bits _ _ there.1 there.2
      have put := putNew (n := n) (m := { m with old := Function.update m.old i false }) key first.inside off (fun _ => Function.update_self ..)
      have same := (put.cons (m.keys i)).trans ((List.Perm.swap _ _ _).trans (taken.symm.cons key))
      have fewer := (@contentTake _ _ _ _ m.keys there.1 there.2).length_eq
      have unseen : content n (Function.update m.old i false) (Function.update m.keys i key) = content n (Function.update m.old i false) m.keys :=
        contentCongr fun q _ => ⟨rfl,fun on => Function.update_of_ne (clearedOn on).1 _ _⟩
      obtain ⟨ends,reaches',all,less⟩ := @ih ⟨Function.update m.old i false,Function.update m.new i true,Function.update m.keys i key⟩ (m.keys i) reached
        (by have := same.length_eq; simp only [List.length_cons] at this; omega)
        (by rw [List.length_cons] at fewer; rw [unseen]; omega)
      exact ⟨⟨off,fun _ => ends⟩,reaches',all.trans same,fun q on => (clearedOn (less q on)).2⟩
    · rename_i gone
      have kept : i < n → m.old i = false := fun inside => Bool.eq_false_iff.mpr fun on => gone ⟨inside,on⟩
      exact ⟨⟨off,fun there => absurd there gone⟩,reached,putNew key first.inside off kept,fun _ on => on⟩

theorem movedOut {m : Moving α} {j : Nat} (reaches : Reaches (2 ^ bits) (home k bits) m.new m.keys) (inside : j < n)
    (room : (both n bits m).length ≤ 2 ^ bits) :
    (m.old j = true → KickEnds k n bits n (m.keys j) { m with old := Function.update m.old j false }) ∧
      Reaches (2 ^ bits) (home k bits) (moveOut k n bits m j).new (moveOut k n bits m j).keys ∧
      (both n bits (moveOut k n bits m j)).Perm (both n bits m) ∧
      (∀ i,(moveOut k n bits m j).old i = true → m.old i = true) ∧ (moveOut k n bits m j).old j = false := by
  rw [moveOut]
  split
  · rename_i off
    have off : m.old j = false := by simpa using off
    exact ⟨fun on => absurd on (by rw [off]; exact Bool.false_ne_true),reaches,List.Perm.refl _,fun _ on => on,off⟩
  · rename_i on
    have on : m.old j = true := by simpa using on
    have taken := @takeOld _ _ bits _ _ inside on
    have fewer := (@contentTake _ _ _ _ m.keys inside on).length_eq
    have few : (content n m.old m.keys).length ≤ n := (List.length_filterMap_le _ _).trans_eq List.length_range
    have length := taken.length_eq
    rw [List.length_cons] at fewer length
    obtain ⟨ends,reaches',all,less⟩ := @kicked _ _ n _ { m with old := Function.update m.old j false } n (m.keys j) reaches
      (by omega) (by show (content n (Function.update m.old j false) m.keys).length < n; omega)
    refine ⟨fun _ => ends,reaches',all.trans taken.symm,fun i on => (clearedOn (less i on)).2,?_⟩
    exact Bool.eq_false_iff.mpr fun still => (clearedOn (less j still)).1 rfl

theorem allMoved {js : List Nat} {m : Moving α} (reaches : Reaches (2 ^ bits) (home k bits) m.new m.keys) (inside : ∀ j ∈ js,j < n)
    (room : (both n bits m).length ≤ 2 ^ bits) :
    MovesEnd k n bits js m ∧ Reaches (2 ^ bits) (home k bits) (js.foldl (moveOut k n bits) m).new (js.foldl (moveOut k n bits) m).keys ∧
      (both n bits (js.foldl (moveOut k n bits) m)).Perm (both n bits m) ∧
      (∀ i,(js.foldl (moveOut k n bits) m).old i = true → m.old i = true) ∧ ∀ j ∈ js,(js.foldl (moveOut k n bits) m).old j = false := by
  induction js generalizing m with
  | nil => exact ⟨trivial,reaches,List.Perm.refl _,fun _ on => on,fun j mem => nomatch mem⟩
  | cons j js ih =>
    obtain ⟨ends,reached,same,less,gone⟩ := movedOut reaches (inside j List.mem_cons_self) room
    obtain ⟨ends',reached',same',less',gone'⟩ := ih reached (fun i mem => inside i (List.mem_cons_of_mem _ mem)) (same.length_eq.trans_le room)
    refine ⟨⟨ends,ends'⟩,reached',same'.trans same,fun i on => less i (less' i on),fun i mem => ?_⟩
    rcases List.mem_cons.mp mem with rfl | mem
    · exact Bool.eq_false_iff.mpr fun on => absurd (less' i on) (by rw [gone]; exact Bool.false_ne_true)
    · exact gone' i mem

end

theorem newBitsWide (n : Nat) : 2 ≤ newBits n := by
  unfold newBits
  split <;> omega

theorem newBitsFit (n : Nat) : n ≤ 2 ^ newBits n := by
  have log : n ≤ 2 ^ sizeBits n := by
    rw [sizeBits]
    split
    · exact Nat.lt_log2_self.le
    · rename_i power
      rcases Nat.eq_zero_or_pos n with rfl | pos
      · exact Nat.zero_le _
      · obtain ⟨j,rfl⟩ := (Nat.and_sub_one_eq_zero_iff_isPowerOfTwo (Nat.ne_of_gt pos)).mp (not_not.mp power)
        rw [Nat.log2_two_pow]
  refine log.trans (Nat.pow_le_pow_right (by omega) ?_)
  unfold newBits
  split <;> omega

theorem newBitsLeast {n b : Nat} (wide : 2 ≤ b) (fits : n ≤ 2 ^ b) : newBits n ≤ b := by
  have log : sizeBits n ≤ b := by
    rw [sizeBits]
    rcases Nat.eq_zero_or_pos n with rfl | pos
    · simp
    · have least := Nat.log2_self_le (Nat.ne_of_gt pos)
      split
      · rename_i other
        refine (Nat.log2_lt (Nat.ne_of_gt pos)).mpr (lt_of_le_of_ne fits fun same => other ?_)
        exact (Nat.and_sub_one_eq_zero_iff_isPowerOfTwo (Nat.ne_of_gt pos)).mpr ⟨b,same⟩
      · exact (Nat.pow_le_pow_iff_right (by omega)).mp (least.trans fits)
  unfold newBits
  split <;> omega

section
variable {k : Keys α} {h : Table α}

theorem resizeMoves {n : Nat} (good : Good k h) (fits : ¬ h.count > 2 ^ newBits n / 2 + 2 ^ newBits n / 4) :
    let m := (List.range (capacity h)).foldl (moveOut k (capacity h) (newBits n)) ⟨h.used,fun _ => false,h.keys⟩
    MovesEnd k (capacity h) (newBits n) (List.range (capacity h)) ⟨h.used,fun _ => false,h.keys⟩ ∧
      Reaches (2 ^ newBits n) (home k (newBits n)) m.new m.keys ∧ (content (2 ^ newBits n) m.new m.keys).Perm (each h) := by
  have counted := good.counted
  intro m
  have empty : content (2 ^ newBits n) (fun _ => false) h.keys = [] := by
    rw [content,List.filterMap_eq_nil_iff]
    exact fun _ _ => rfl
  have start : both (capacity h) (newBits n) ⟨h.used,fun _ => false,h.keys⟩ = each h := by rw [both,empty]; rfl
  obtain ⟨ends,reaches,same,_,gone⟩ := @allMoved _ k _ (newBits n) (List.range (capacity h)) ⟨h.used,fun _ => false,h.keys⟩
    (fun p _ on => absurd on Bool.false_ne_true) (fun j mem => List.mem_range.mp mem) (by rw [start]; omega)
  have left : content (capacity h) m.old m.keys = [] := by
    rw [content,List.filterMap_eq_nil_iff]
    intro i mem
    rw [gone i mem]
    rfl
  rw [start] at same
  refine ⟨ends,reaches,?_⟩
  rw [both,left,List.append_nil] at same
  exact same

theorem resizeGood {n : Nat} (good : Good k h) : Good k (resize k h n) ∧ (each (resize k h n)).Perm (each h) := by
  rw [resize]
  dsimp only
  split
  · exact ⟨good,List.Perm.refl _⟩
  · rename_i fits
    obtain ⟨_,reaches,same⟩ := resizeMoves good fits
    refine ⟨⟨fun _ => newBitsWide n,fun _ => reaches,good.counted.trans same.symm.length_eq,not_lt.mp fits,?_⟩,same⟩
    exact (permDistinct same).mpr good.distinct

theorem rehashGood (good : Good k h) : Good k (rehash k h) ∧ (each (rehash k h)).Perm (each h) ∧ (rehash k h).alloc = true ∧
    (rehash k h).count < capacity (rehash k h) / 2 + capacity (rehash k h) / 4 := by
  rw [rehash]
  split
  · rename_i full
    obtain ⟨better,same⟩ := resizeGood (n := capacity h + 1) good
    have size := newBitsFit (capacity h + 1)
    have wide := newBitsWide (capacity h + 1)
    have least := Nat.pow_le_pow_right (n := 2) (by omega) wide
    have room := good.room
    have grown : resize k h (capacity h + 1) = { resize k h (capacity h + 1) with alloc := true, count := h.count, bits := newBits (capacity h + 1) } := by
      rw [resize]
      dsimp only
      rw [if_neg (by omega)]
    refine ⟨better,same,by rw [grown],?_⟩
    have bits : (resize k h (capacity h + 1)).bits = newBits (capacity h + 1) := by rw [grown]
    have count : (resize k h (capacity h + 1)).count = h.count := by rw [grown]
    have alloc : (resize k h (capacity h + 1)).alloc = true := by rw [grown]
    have four : 2 ^ newBits (capacity h + 1) = 4 * 2 ^ (newBits (capacity h + 1) - 2) := by
      rw [show 4 = 2 ^ 2 from rfl,← Nat.pow_add,Nat.add_sub_cancel' wide]
    rw [capacityIs alloc,bits,count]
    omega
  · rename_i less
    refine ⟨good,List.Perm.refl _,?_,not_le.mp less⟩
    cases alloc : h.alloc with
    | true => rfl
    | false => simp [capacity,alloc] at less

theorem putpKeeps (good : Good k h) (key : α) :
    Good k (putp k h key).1 ∧ (putp k h key).2.1 < capacity (putp k h key).1 ∧
      ((putp k h key).2.2 = true ∧ (∀ y ∈ each h,k.hashEq y key = false) ∧ (putp k h key).1.keys (putp k h key).2.1 = key ∧
          (each (putp k h key).1).Perm (key :: each h) ∨
        (putp k h key).2.2 = false ∧ (putp k h key).1.keys (putp k h key).2.1 ∈ each h ∧
          k.hashEq ((putp k h key).1.keys (putp k h key).2.1) key = true ∧ (each (putp k h key).1).Perm (each h)) := by
  obtain ⟨better,same,alloc,less⟩ := rehashGood good
  obtain ⟨i,found,first⟩ := searched better alloc key
  simp only [putp]
  generalize rehash k h = h' at better same alloc less found first
  rw [found,Option.getD_some]
  cases used : h'.used i with
  | false =>
    rw [if_pos (by rfl)]
    have misses := firstMisses better alloc first used
    have inside : i < capacity h' := (capacityIs alloc).symm ▸ first.inside
    have put := @contentPut _ _ _ _ h'.keys key inside used
    refine ⟨⟨better.wide,fun _ => insertReaches (better.reaches alloc) first fun q goes => goesUsed goes,?_,less,?_⟩,inside,?_⟩
    · exact (congrArg Nat.succ better.counted).trans put.symm.length_eq
    · refine (permDistinct put).mpr ?_
      exact List.pairwise_cons.mpr ⟨fun y mem => Keys.apart (misses y mem),better.distinct⟩
    · exact .inl ⟨rfl,fun y mem => misses y (same.symm.mem_iff.mp mem),Function.update_self ..,put.trans (same.cons key)⟩
  | true =>
    rw [if_neg (by decide)]
    have inside : i < capacity h' := (capacityIs alloc).symm ▸ first.inside
    exact ⟨better,inside,.inr ⟨rfl,same.mem_iff.mp (memEach inside used),stopsUsed first.stops used,same⟩⟩

theorem movesFar {n i j own : Nat} (insideI : i < n) (insideJ : j < n) (inside : own < n) :
    moves i j own = decide (far n own i < far n own j) := by
  rw [Bool.eq_iff_iff,decide_eq_true_iff]
  simp only [moves,far,Bool.or_eq_true,Bool.and_eq_true,decide_eq_true_iff]
  split_ifs <;> omega

theorem delLoopShift {fuel i j : Nat} {keys : Nat → α} (insideI : i < 2 ^ h.bits) (insideJ : j < 2 ^ h.bits) :
    delLoop k h fuel i j keys = shift (2 ^ h.bits) (home k h.bits) h.used fuel i j keys := by
  induction fuel generalizing i j keys with
  | zero => rfl
  | succ fuel ih =>
    have inside := nextInside (n := 2 ^ h.bits) insideJ
    rw [delLoop,shift]
    split
    · rfl
    · rw [@movesFar _ _ _ (h2b _ _) insideI inside (homeInside k h.bits _),ih inside inside,ih insideI inside]
      simp only [decide_eq_true_iff]
      rfl

theorem insideAlloc {i : Nat} (inside : i < capacity h) : h.alloc = true := by
  by_contra null
  rw [capacity,if_neg null] at inside
  cases inside

theorem delTakes {i : Nat} (good : Good k h) (inside : i < capacity h) (on : h.used i = true) :
    Good k (del k h i).1 ∧ (del k h i).2 = true ∧ (each h).Perm (h.keys i :: each (del k h i).1) := by
  have alloc := insideAlloc inside
  have insideI : i < 2 ^ h.bits := capacityIs alloc ▸ inside
  obtain ⟨e,insideE,freeE⟩ := good.free alloc
  rw [del,alloc,delLoopShift insideI insideI]
  simp only [Bool.not_true,Bool.false_eq_true,if_false]
  cases looped : shift (2 ^ h.bits) (home k h.bits) h.used (2 ^ h.bits) i i h.keys with
  | mk hole keys =>
    obtain ⟨_,_,reaches,left⟩ := shiftTakes (homeInside k h.bits) (good.reaches alloc) insideI on insideE freeE looped
    have taken : (each h).Perm (h.keys i :: content (2 ^ h.bits) (Function.update h.used hole false) keys) :=
      (eachIs alloc ▸ contentTake insideI on).trans (left.symm.cons _)
    have fewer := taken.length_eq
    have counted := good.counted
    have room := good.room
    rw [List.length_cons] at fewer
    rw [capacityIs alloc] at room
    have distinct := (permDistinct taken).mp good.distinct
    refine ⟨⟨fun _ => good.wide alloc,fun _ => reaches,?_,?_,(List.pairwise_cons.mp distinct).2⟩,trivial,taken⟩
    · exact Nat.sub_eq_of_eq_add (counted.trans fewer)
    · exact (Nat.sub_le _ _).trans room

theorem clearGood (good : Good k h) : Good k (clear h) ∧ each (clear h) = [] := by
  cases alloc : h.alloc with
  | false =>
    have same : clear h = h := by rw [clear,alloc]; rfl
    rw [same]
    exact ⟨good,eachNull alloc⟩
  | true =>
    have same : clear h = { h with used := fun _ => false, count := 0 } := by rw [clear,alloc]; rfl
    have empty : each { h with used := fun _ => false, count := 0 } = [] := List.filterMap_eq_nil_iff.mpr fun _ _ => rfl
    rw [same]
    refine ⟨⟨good.wide,fun _ p _ on => absurd on Bool.false_ne_true,?_,Nat.zero_le _,?_⟩,empty⟩
    · rw [empty]
      rfl
    · rw [empty]
      exact .nil

/-! The table and the set of keys -/

theorem findOnly {l : List α} {x key : α} (distinct : l.Pairwise fun x y => k.hashEq x y = false) (mem : x ∈ l) (equal : k.hashEq x key = true) :
    l.find? (k.hashEq · key) = some x := by
  cases found : l.find? (k.hashEq · key) with
  | none => exact absurd equal (List.find?_eq_none.mp found x mem)
  | some y =>
    by_contra other
    have different : y ≠ x := fun same => other (congrArg some same)
    have unequal := distinct.forall (List.mem_of_find?_eq_some found) mem different
    exact absurd (k.trans (List.find?_some (p := (k.hashEq · key)) found) (k.symm equal)) (Bool.eq_false_iff.mp unequal)

theorem findNone {l : List α} {key : α} (misses : ∀ y ∈ l,k.hashEq y key = false) : l.find? (k.hashEq · key) = none :=
  List.find?_eq_none.mpr fun y mem => Bool.eq_false_iff.mp (misses y mem)

theorem getSame {l : List α} (good : Good k h) (same : (each h).Perm l) (key : α) :
    (if getp k h key < capacity h then some (h.keys (getp k h key)) else none) = l.find? (k.hashEq · key) := by
  rcases getpFinds good key with ⟨inside,on,equal⟩ | ⟨outside,misses⟩
  · rw [if_pos inside]
    exact (findOnly ((permDistinct same).mp good.distinct) (same.mem_iff.mp (memEach inside on)) equal).symm
  · rw [if_neg outside]
    exact (findNone fun y mem => misses y (same.mem_iff.mpr mem)).symm

theorem filterRest {l : List α} {x key : α} (distinct : (x :: l).Pairwise fun x y => k.hashEq x y = false) (equal : k.hashEq x key = true) :
    (x :: l).filter (fun y => !k.hashEq y key) = l := by
  rw [List.filter_cons,equal]
  refine List.filter_eq_self.mpr fun y mem => ?_
  have unequal := (List.pairwise_cons.mp distinct).1 y mem
  rw [Bool.not_eq_true',Bool.eq_false_iff]
  exact fun same => absurd (k.trans equal (k.symm same)) (Bool.eq_false_iff.mp unequal)

theorem stepKeeps {l : List α} (good : Good k h) (same : (each h).Perm l) (op : Op α) :
    Good k (step k h op).1 ∧ (each (step k h op).1).Perm (keep k l op).1 ∧ (step k h op).2 = (keep k l op).2 := by
  have distinct := (permDistinct same).mp good.distinct
  cases op with
  | put key =>
    obtain ⟨better,_,⟨absent,misses,bucket,all⟩ | ⟨there,mem,equal,all⟩⟩ := putpKeeps good key
    · have none := findNone fun y mem => misses y (same.mem_iff.mpr mem)
      simp only [step,keep,none,absent,bucket]
      exact ⟨better,all.trans (same.cons key),trivial⟩
    · have found := findOnly distinct (same.mem_iff.mp mem) equal
      simp only [step,keep,found,there]
      exact ⟨better,all.trans same,trivial⟩
  | get key => exact ⟨good,same,congrArg Seen.got (getSame good same key)⟩
  | del key =>
    rcases getpFinds good key with ⟨inside,on,equal⟩ | ⟨outside,misses⟩
    · obtain ⟨better,told,taken⟩ := delTakes good inside on
      have any : l.any (k.hashEq · key) = true := List.any_eq_true.mpr ⟨_,same.mem_iff.mp (memEach inside on),equal⟩
      simp only [step,keep,if_pos inside,told,any]
      refine ⟨better,?_,trivial⟩
      have rest := ((taken.symm.trans same).filter fun y => !k.hashEq y key)
      rwa [filterRest ((permDistinct taken).mp good.distinct) equal] at rest
    · have any : l.any (k.hashEq · key) = false := List.any_eq_false.mpr fun y mem => Bool.eq_false_iff.mp (misses y (same.mem_iff.mpr mem))
      have all : l.filter (fun y => !k.hashEq y key) = l := List.filter_eq_self.mpr fun y mem => by rw [misses y (same.mem_iff.mpr mem)]; rfl
      simp only [step,keep,if_neg outside,any,all]
      exact ⟨good,same,trivial⟩
  | clear =>
    obtain ⟨better,empty⟩ := clearGood good
    exact ⟨better,List.Perm.of_eq empty,rfl⟩
  | resize n =>
    obtain ⟨better,all⟩ := resizeGood (n := n) good
    exact ⟨better,all.trans same,rfl⟩
  | size => exact ⟨good,same,congrArg Seen.size (good.counted.trans same.length_eq)⟩

theorem runKeeps {l : List α} (good : Good k h) (same : (each h).Perm l) (ops : List (Op α)) :
    Good k (run k h ops).1 ∧ (each (run k h ops).1).Perm (keeps k l ops).1 ∧ (run k h ops).2 = (keeps k l ops).2 := by
  induction ops generalizing h l with
  | nil => exact ⟨good,same,rfl⟩
  | cons op ops ih =>
    obtain ⟨better,all,seen⟩ := stepKeeps good same op
    obtain ⟨best,rest,more⟩ := ih better all
    exact ⟨best,rest,by rw [run,keeps,seen,more]⟩

theorem initGood [Inhabited α] : Good k (init : Table α) :=
  ⟨fun alloc => absurd alloc Bool.false_ne_true,fun alloc => absurd alloc Bool.false_ne_true,rfl,Nat.zero_le _,.nil⟩

/-! The sizes of a run -/

def Op.Fits : Op α → Prop
  | .resize n => n ≤ 2 ^ 31
  | _ => True

def Op.isPut : Op α → Bool
  | .put _ => true
  | _ => false

theorem resizeBits {n b : Nat} (wide : 2 ≤ b) (bits : h.bits ≤ b) (fits : n ≤ 2 ^ b) : (resize k h n).bits ≤ b := by
  rw [resize]
  dsimp only
  split
  · exact bits
  · exact newBitsLeast wide fits

theorem putpBits {key : α} (bits : h.bits ≤ 31) (few : h.count < 3 * 2 ^ 29) : (putp k h key).1.bits ≤ 31 := by
  have same : (putp k h key).1.bits = (rehash k h).bits := by
    simp only [putp]
    split <;> rfl
  rw [same,rehash]
  split
  · rename_i full
    refine resizeBits (by omega) bits ?_
    cases alloc : h.alloc with
    | false => simp [capacity,alloc]
    | true =>
      rw [capacityIs alloc] at full ⊢
      have least : h.bits ≤ 30 := by
        by_contra large
        rw [show h.bits = 31 by omega] at full
        omega
      have := Nat.pow_le_pow_right (n := 2) (by omega) least
      omega
  · exact bits

theorem stepBits {l : List α} (good : Good k h) (same : (each h).Perm l) (bits : h.bits ≤ 31) {op : Op α} (fits : op.Fits)
    (few : l.length + (if op.isPut then 1 else 0) ≤ 3 * 2 ^ 29) :
    (step k h op).1.bits ≤ 31 ∧ (keep k l op).1.length ≤ l.length + (if op.isPut then 1 else 0) := by
  have count := good.counted.trans same.length_eq
  cases op with
  | put key =>
    have few : l.length + 1 ≤ 3 * 2 ^ 29 := few
    refine ⟨putpBits bits (by omega),?_⟩
    rw [keep]
    split
    · exact Nat.le_succ _
    · exact Nat.le_refl _
  | get key => exact ⟨bits,Nat.le_refl _⟩
  | del key =>
    refine ⟨?_,List.length_filter_le _ _⟩
    have same : (del k h (getp k h key)).1.bits = h.bits := by
      rw [del]
      split <;> rfl
    rw [step]
    split
    · exact same.trans_le bits
    · exact bits
  | clear =>
    refine ⟨?_,Nat.zero_le _⟩
    show (clear h).bits ≤ 31
    rw [clear]
    split <;> exact bits
  | resize n => exact ⟨resizeBits (by omega) bits fits,Nat.le_refl _⟩
  | size => exact ⟨bits,Nat.le_refl _⟩

theorem runBits {l : List α} (good : Good k h) (same : (each h).Perm l) (bits : h.bits ≤ 31) {ops : List (Op α)} (fits : ∀ op ∈ ops,op.Fits)
    (few : l.length + ops.countP Op.isPut ≤ 3 * 2 ^ 29) : (run k h ops).1.bits ≤ 31 := by
  induction ops generalizing h l with
  | nil => exact bits
  | cons op ops ih =>
    rw [List.countP_cons] at few
    obtain ⟨still,longer⟩ := stepBits good same bits (fits op List.mem_cons_self) (by omega)
    obtain ⟨better,all,_⟩ := stepKeeps good same op
    exact ih better all still (fun op mem => fits op (List.mem_cons_of_mem _ mem)) (by omega)

end

/- No probing loop goes on for ever: getp and putp find where to stop, del meets a free bucket, and the kick-out
process of a resize places its last key. -/
structure Ends (k : Keys α) (h : Table α) : Prop where
  getp : h.alloc = true → ∀ key,(look (2 ^ h.bits) (stops k h key) (h2b (k.hashFn key) h.bits) (2 ^ h.bits) (h2b (k.hashFn key) h.bits)).isSome
  putp : ∀ key,(look (2 ^ (rehash k h).bits) (stops k (rehash k h) key) (h2b (k.hashFn key) (rehash k h).bits) (2 ^ (rehash k h).bits)
    (h2b (k.hashFn key) (rehash k h).bits)).isSome
  del : ∀ i < capacity h,h.used i = true → ∀ more,delLoop k h (2 ^ h.bits + more) i i h.keys = delLoop k h (2 ^ h.bits) i i h.keys
  resize : ∀ n,¬ h.count > 2 ^ newBits n / 2 + 2 ^ newBits n / 4 →
    MovesEnd k (capacity h) (newBits n) (List.range (capacity h)) ⟨h.used,fun _ => false,h.keys⟩

theorem goodEnds {k : Keys α} {h : Table α} (good : Good k h) : Ends k h := by
  refine ⟨?_,?_,?_,fun n fits => (resizeMoves good fits).1⟩
  · intro alloc key
    obtain ⟨i,found,_⟩ := searched good alloc key
    rw [found]
    rfl
  · intro key
    obtain ⟨better,_,alloc,_⟩ := rehashGood good
    obtain ⟨i,found,_⟩ := searched better alloc key
    rw [found]
    rfl
  · intro i inside on more
    have alloc := insideAlloc inside
    have insideI : i < 2 ^ h.bits := capacityIs alloc ▸ inside
    obtain ⟨e,insideE,freeE⟩ := good.free alloc
    rw [delLoopShift insideI insideI,delLoopShift insideI insideI]
    exact shiftMore (gapStart (good.reaches alloc) insideI on freeE) insideE freeE (farLt insideE).le more

/- What is seen of a table is what is seen of the set, kh_foreach goes once over each key that is held, probing ends,
and the sizes fit their 32 bits. -/
structure KeepsSet (k : Keys α) (h : Table α) (ops : List (Op α)) : Prop where
  seen : (run k h ops).2 = (keeps k [] ops).2
  held : (each (run k h ops).1).Perm (keeps k [] ops).1
  once : (each (run k h ops).1).Pairwise fun x y => k.hashEq x y = false
  counted : (run k h ops).1.count = (keeps k [] ops).1.length
  ends : Ends k (run k h ops).1
  sizes : ops.countP Op.isPut ≤ 3 * 2 ^ 29 → (∀ op ∈ ops,op.Fits) → (run k h ops).1.bits ≤ 31

theorem tableKeepsSet [Inhabited α] (k : Keys α) (ops : List (Op α)) : KeepsSet k init ops := by
  obtain ⟨good,held,seen⟩ := runKeeps (k := k) initGood (List.Perm.refl []) ops
  refine ⟨seen,held,good.distinct,good.counted.trans held.length_eq,goodEnds good,fun few fits => ?_⟩
  exact runBits initGood (List.Perm.refl []) (Nat.zero_le _) fits (by simpa using few)

end PublicInbox.Khashl
