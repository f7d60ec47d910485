import Mathlib.Data.Finmap
import PublicInbox.Library.Stepwise

/-! SharedKV.pm: keys and values as blobs in an SQLite file that lei processes share. The table is a list of rows
whose keys are apart; the finite map it is meant to be forgets their order. -/
namespace PublicInbox.SharedKV

abbrev Bytes := List UInt8

abbrev Kv := AList (fun _ : Bytes => Bytes)

structure Scan where
  rows : List (Sigma fun _ : Bytes => Bytes) → List (Sigma fun _ : Bytes => Bytes)
  all : ∀ kv,(rows kv).Perm kv

/- What keys() is asked for: nothing, a string that mk_sqlite_re quotes, or a Regexp -/
inductive Select where
  | every
  | starting (pfx : Bytes)
  | anywhere (pfx : Bytes)
  | regexp (re : Bytes → Bool)

/- WHERE k REGEXP ?: '^' is at the start only, and the '.*' on either side may be empty. -/
def Select.matching : Select → Bytes → Bool
  | .every,_ => true
  | .starting pfx,k => pfx.isPrefixOf k
  | .anywhere pfx,k => k.tails.any pfx.isPrefixOf
  | .regexp re,k => re k

inductive Op where
  | set (key : Bytes) (val : Option Bytes)
  | setMaybe (key : Bytes) (val : Option Bytes)
  | get (key : Bytes)
  | xchg (key : Bytes) (newval : Option Bytes)
  | keys (select : Select)
  | count
  | hasEntries

inductive Result where
  | done (e : Option Nat)
  | value (val : Option Bytes)
  | keys (ks : Multiset Bytes)
  | count (n : Nat)
  deriving DecidableEq

section
variable (kv : Kv)

def insertOrIgnore (key : Bytes) (val : Option Bytes) : Kv × Nat :=
  match val with
  | some v => if key ∈ kv then (kv,0) else (kv.insert key v,1)
  | none => (kv,0)

def insertOrReplace (key val : Bytes) : Kv × Nat := (kv.insert key val,1)

def delete (key : Bytes) : Kv := kv.erase key

def setMaybe (key : Bytes) (val : Option Bytes) : Kv × Option Nat :=
  let (kv,e) := insertOrIgnore kv key val
  (kv,if e = 0 then none else some e)

def set (key : Bytes) (val : Option Bytes) : Kv × Option Nat :=
  match val with
  | some v =>
    let (kv,e) := insertOrReplace kv key v
    (kv,if e = 0 then none else some e)
  -- DELETE FROM kv is prepared and its key bound, which is what is returned: there is no execute
  | none => (kv,some 1)

def get (key : Bytes) : Option Bytes := kv.lookup key

def xchg (key : Bytes) (newval : Option Bytes) : Kv × Option Bytes :=
  let oldval := get kv key
  match newval with
  | some v => ((set kv key (some v)).1,oldval)
  | none => (delete kv key,oldval)

variable (scan : Scan)

def keys (select : Select) : List Bytes := ((scan.rows kv.entries).map Sigma.fst).filter select.matching

def count : Nat := (scan.rows kv.entries).length

def hasEntries : Option Nat := if ((scan.rows kv.entries).take 1).length = 0 then none else some 1

def step (kv : Kv) : Op → Kv
  | .set key val => (set kv key val).1
  | .setMaybe key val => (setMaybe kv key val).1
  | .xchg key newval => (xchg kv key newval).1
  | .get _ | .keys _ | .count | .hasEntries => kv

def result : Op → Result
  | .set key val => .done (set kv key val).2
  | .setMaybe key val => .done (setMaybe kv key val).2
  | .get key => .value (get kv key)
  | .xchg key newval => .value (xchg kv key newval).2
  | .keys select => .keys (keys kv scan select)
  | .count => .count (count kv scan)
  | .hasEntries => .done (hasEntries kv scan)

end

def results (scan : Scan) (ops : List Op) : List Result := Stepwise.outputs step (result · scan) ∅ ops

namespace Ideal
abbrev Map := Finmap (fun _ : Bytes => Bytes)

variable (m : Map)

def assign (key : Bytes) : Option Bytes → Map
  | some v => m.insert key v
  | none => m.erase key

def step (m : Map) : Op → Map
  | .set key val => assign m key val
  | .setMaybe key (some v) => if key ∈ m then m else m.insert key v
  | .xchg key newval => assign m key newval
  | .setMaybe _ none | .get _ | .keys _ | .count | .hasEntries => m

def result : Op → Result
  | .set _ _ => .done (some 1)
  | .setMaybe key (some _) => .done (if key ∈ m then none else some 1)
  | .setMaybe _ none => .done none
  | .get key => .value (m.lookup key)
  | .xchg key _ => .value (m.lookup key)
  | .keys select => .keys (m.keys.filter (select.matching ·)).val
  | .count => .count m.keys.card
  | .hasEntries => .done (if m.keys = ∅ then none else some 1)

def results (ops : List Op) : List Result := Stepwise.outputs step result ∅ ops

end Ideal

def Effective (kv : Kv) : Op → Prop
  | .set key none => key ∉ kv
  | _ => True

theorem eraseAbsent {kv : Kv} {key : Bytes} (absent : key ∉ kv) : kv.toFinmap.erase key = kv.toFinmap := by
  refine Finmap.ext_lookup fun k => ?_
  by_cases same : k = key
  · rw [same,Finmap.lookup_erase,Finmap.lookup_toFinmap,AList.lookup_eq_none.mpr absent]
  · rw [Finmap.lookup_erase_ne same]

theorem stepMap {kv : Kv} {op : Op} (effective : Effective kv op) : (step kv op).toFinmap = Ideal.step kv.toFinmap op := by
  cases op with
  | set key val =>
    cases val with
    | none => exact (eraseAbsent effective).symm
    | some v => exact (Finmap.insert_toFinmap key v kv).symm
  | setMaybe key val =>
    cases val with
    | none => rfl
    | some v =>
      simp only [step,setMaybe,insertOrIgnore,Ideal.step,Finmap.mem_toFinmap]
      split
      · rfl
      · exact (Finmap.insert_toFinmap key v kv).symm
  | xchg key newval =>
    cases newval with
    | none => exact (Finmap.erase_toFinmap key kv).symm
    | some v => exact (Finmap.insert_toFinmap key v kv).symm
  | get key => rfl
  | keys select => rfl
  | count => rfl
  | hasEntries => rfl

theorem scanKeys (kv : Kv) (scan : Scan) : ((scan.rows kv.entries).map Sigma.fst).Perm kv.keys := (scan.all _).map _

theorem countKeys (kv : Kv) (scan : Scan) : (scan.rows kv.entries).length = kv.toFinmap.keys.card := by
  rw [← List.length_map Sigma.fst,(scanKeys kv scan).length_eq]
  rfl

theorem resultMap (kv : Kv) (scan : Scan) (op : Op) : result kv scan op = Ideal.result kv.toFinmap op := by
  cases op with
  | set key val => cases val <;> rfl
  | setMaybe key val =>
    cases val with
    | none => rfl
    | some v =>
      simp only [result,setMaybe,insertOrIgnore,Ideal.result,Finmap.mem_toFinmap]
      split <;> rfl
  | get key => rfl
  | xchg key newval => cases newval <;> rfl
  | keys select =>
    simp only [result,keys,Ideal.result,Finset.filter_val,Finmap.keys_val]
    rw [Multiset.filter_coe,Multiset.coe_eq_coe.mpr ((scanKeys kv scan).filter _)]
    simp only [Bool.decide_eq_true]
  | count => exact congrArg Result.count (countKeys kv scan)
  | hasEntries =>
    simp only [result,hasEntries,Ideal.result,← Finset.card_eq_zero,← countKeys kv scan,List.length_take]
    congr 1
    simp

def Clean (ops : List Op) : Prop := Stepwise.Along step Effective ∅ ops

theorem sameResults {kv : Kv} {ops : List Op} (scan : Scan) (clean : Stepwise.Along step Effective kv ops) :
    Stepwise.outputs step (result · scan) kv ops = Stepwise.outputs Ideal.step Ideal.result kv.toFinmap ops :=
  Stepwise.sameOutputs (fun kv (m : Ideal.Map) => kv.toFinmap = m)
    (fun _ _ _ same effective => same ▸ stepMap effective)
    (fun kv _ op same _ => same ▸ resultMap kv scan op) rfl clean

theorem effectiveShown {kv : Kv} {op : Op}
    (shown : ∀ key,get (step kv op) key = (Ideal.step kv.toFinmap op).lookup key) : Effective kv op := by
  cases op with
  | set key val =>
    cases val with
    | none =>
      have gone := shown key
      rw [show Ideal.step kv.toFinmap (.set key none) = kv.toFinmap.erase key from rfl,Finmap.lookup_erase] at gone
      exact AList.lookup_eq_none.mp gone
    | some v => trivial
  | setMaybe key val => trivial
  | get key => trivial
  | xchg key newval => trivial
  | keys select => trivial
  | count => trivial
  | hasEntries => trivial

theorem cleanShown {kv : Kv} {ops : List Op} {scan : Scan}
    (shown : ∀ n key,Stepwise.outputs step (result · scan) kv (ops.take n ++ [.get key]) =
      Stepwise.outputs Ideal.step Ideal.result kv.toFinmap (ops.take n ++ [.get key])) :
    Stepwise.Along step Effective kv ops := by
  induction ops generalizing kv with
  | nil => trivial
  | cons op ops ih =>
    have effective : Effective kv op := by
      refine effectiveShown fun key => ?_
      have after := (List.cons.inj (shown 1 key)).2
      exact Result.value.inj (List.cons.inj after).1
    refine ⟨effective,ih fun n key => ?_⟩
    rw [stepMap effective]
    exact (List.cons.inj (shown (n + 1) key)).2

theorem finiteMap (scan : Scan) (ops : List Op) :
    (Clean ops → results scan ops = Ideal.results ops) ∧
      (Clean ops ↔ ∀ n key,results scan (ops.take n ++ [.get key]) = Ideal.results (ops.take n ++ [.get key])) := by
  have along : Clean ops → ∀ n key,Clean (ops.take n ++ [.get key]) := by
    intro clean n key
    rw [← List.take_append_drop n ops] at clean
    exact Stepwise.alongAppend.mpr ⟨(Stepwise.alongAppend.mp clean).1,trivial,trivial⟩
  exact ⟨sameResults scan,fun clean n key => sameResults scan (along clean n key),cleanShown⟩

def stored : Scan := ⟨id,fun _ => .refl _⟩

theorem removedStays : results stored [.set [107] (some [118]),.set [107] none,.get [107]] ≠
    Ideal.results [.set [107] (some [118]),.set [107] none,.get [107]] := by decide

end PublicInbox.SharedKV
