import Mathlib.Data.Option.Basic

/-! Boolean queries as a list of tokens: operands that stand beside each other are joined with AND,
NOT is a prefix and binds to the next operand, OR binds least, and parentheses group. A query is
read from the left with a stack of the open parentheses, into what it says of each thing in `ω`. -/
namespace Query
variable {α ω : Type}

inductive Token (α : Type) where
  | atom (a : α)
  | not
  | or
  | lpar
  | rpar
  deriving DecidableEq

/- What is read since a parenthesis: the alternatives before the last OR, the operands since then, and
how many NOTs wait for their operand. -/
structure Frame (ω : Type) where
  alts : ω → Bool
  conj : Option (ω → Bool)
  nots : Nat

namespace Frame

def empty : Frame ω := ⟨fun _ => false,none,0⟩

def negate (n : Nat) (s : ω → Bool) (m : ω) : Bool := if n % 2 = 0 then s m else !s m

def operand (f : Frame ω) (s : ω → Bool) : Frame ω :=
  let s := negate f.nots s
  { f with
    conj := some (match f.conj with
      | none => s
      | some c => fun m => c m && s m)
    nots := 0 }

def value (f : Frame ω) : Option (ω → Bool) :=
  if f.nots = 0 then f.conj.map fun c m => f.alts m || c m else none

end Frame

section
variable (holds : α → ω → Bool)

def step : Frame ω × List (Frame ω) → Token α → Option (Frame ω × List (Frame ω))
  | (f,up), .atom a => some (f.operand (holds a),up)
  | (f,up), .not => some ({ f with nots := f.nots + 1 },up)
  | (f,up), .or => f.value.map fun s => (⟨s,none,0⟩,up)
  | (f,up), .lpar => some (.empty,f :: up)
  | (f,g :: up), .rpar => f.value.map fun s => (g.operand s,up)
  | (_,[]), .rpar => none

def read (ts : List (Token α)) : Option (ω → Bool) :=
  (ts.foldlM (step holds) (Frame.empty,[])).bind fun (f,up) => if up.isEmpty then f.value else none

def Operand (ts : List (Token α)) (s : ω → Bool) : Prop :=
  ∀ f up,ts.foldlM (step holds) (f,up) = some (f.operand s,up)

def Reads (ts : List (Token α)) (ss : List (ω → Bool)) : Prop :=
  ∀ f up,f.nots = 0 → ts.foldlM (step holds) (f,up) = some (ss.foldl Frame.operand f,up)

def all (ss : List (ω → Bool)) (m : ω) : Bool := ss.all (· m)

end

variable {holds : α → ω → Bool} {ts us : List (Token α)} {s : ω → Bool} {ss rs : List (ω → Bool)}

theorem operandNots (ss : List (ω → Bool)) {f : Frame ω} (none : f.nots = 0) : (ss.foldl Frame.operand f).nots = 0 := by
  induction ss generalizing f with
  | nil => exact none
  | cons s ss ih => exact ih rfl

theorem operandAlts (ss : List (ω → Bool)) (f : Frame ω) : (ss.foldl Frame.operand f).alts = f.alts := by
  induction ss generalizing f with
  | nil => rfl
  | cons s ss ih => exact ih _

theorem negateNone (s : ω → Bool) : Frame.negate 0 s = s := funext fun _ => if_pos rfl

theorem operandConj (ss : List (ω → Bool)) {f : Frame ω} (none : f.nots = 0) (c : ω → Bool) (conj : f.conj = some c) :
    (ss.foldl Frame.operand f).conj = some fun m => c m && all ss m := by
  induction ss generalizing f c with
  | nil => simp [conj,all]
  | cons s ss ih =>
    rw [List.foldl_cons,ih rfl (fun m => c m && s m) (by simp [Frame.operand,conj,none,negateNone])]
    simp [all,Bool.and_assoc]

theorem operandsValue {f : Frame ω} (none : f.nots = 0) (first : f.conj = .none) (some : ss ≠ []) :
    (ss.foldl Frame.operand f).value = .some fun m => f.alts m || all ss m := by
  obtain ⟨s,ss,rfl⟩ := List.exists_cons_of_ne_nil some
  have conj := operandConj ss (f := f.operand s) rfl s (by simp [Frame.operand,first,none,negateNone])
  rw [List.foldl_cons,Frame.value,if_pos (operandNots ss rfl),conj,operandAlts]
  simp [Frame.operand,all]

theorem Operand.atom (a : α) : Operand holds [.atom a] (holds a) := fun _ _ => rfl

theorem Operand.not (one : Operand holds ts s) : Operand holds (.not :: ts) (fun m => !s m) := by
  intro f up
  rw [List.foldlM_cons]
  refine (one { f with nots := f.nots + 1 } up).trans ?_
  have flip : Frame.negate (f.nots + 1) s = Frame.negate f.nots fun m => !s m := by
    funext m
    simp only [Frame.negate]
    rcases Nat.mod_two_eq_zero_or_one f.nots with even | odd
    · rw [if_neg (by omega),if_pos even]
    · rw [if_pos (by omega),if_neg (by omega),Bool.not_not]
  simp [Frame.operand,flip]

theorem Operand.reads (one : Operand holds ts s) : Reads holds ts [s] := fun f up _ => one f up

theorem Reads.nil : Reads holds [] [] := fun _ _ _ => rfl

theorem Reads.append (first : Reads holds ts ss) (second : Reads holds us rs) : Reads holds (ts ++ us) (ss ++ rs) := by
  intro f up none
  rw [List.foldlM_append,first f up none,List.foldl_append]
  exact second _ up (operandNots ss none)

theorem Reads.paren (inside : Reads holds ts ss) (some : ss ≠ []) : Operand holds (.lpar :: ts ++ [.rpar]) (all ss) := by
  intro f up
  rw [List.cons_append,List.foldlM_cons]
  change (ts ++ [Token.rpar]).foldlM (step holds) (Frame.empty,f :: up) = _
  rw [List.foldlM_append,inside .empty (f :: up) rfl]
  change (step holds (ss.foldl Frame.operand .empty,f :: up) Token.rpar).bind Option.some = _
  rw [step,operandsValue rfl rfl some]
  simp [Frame.empty]

theorem Reads.either (left : Reads holds ts ss) (right : Reads holds us rs) (some : ss ≠ []) (some' : rs ≠ []) :
    Operand holds (.lpar :: ts ++ .or :: us ++ [.rpar]) fun m => all ss m || all rs m := by
  intro f up
  rw [List.cons_append,List.cons_append,List.foldlM_cons]
  change (ts ++ Token.or :: us ++ [Token.rpar]).foldlM (step holds) (Frame.empty,f :: up) = _
  rw [List.append_assoc,List.foldlM_append,left .empty (f :: up) rfl]
  change ((Token.or :: us) ++ [Token.rpar]).foldlM (step holds) (ss.foldl Frame.operand .empty,f :: up) = _
  rw [List.cons_append,List.foldlM_cons,step,operandsValue rfl rfl some]
  change (us ++ [Token.rpar]).foldlM (step holds) (⟨fun m => Frame.empty.alts m || all ss m,none,0⟩,f :: up) = _
  rw [List.foldlM_append,right _ (f :: up) rfl]
  change (step holds (rs.foldl Frame.operand _,f :: up) Token.rpar).bind Option.some = _
  rw [step,operandsValue rfl rfl some']
  simp [Frame.empty]

theorem Reads.read (all' : Reads holds ts ss) (some : ss ≠ []) : read holds ts = .some (all ss) := by
  rw [Query.read,all' .empty [] rfl]
  change (ss.foldl Frame.operand .empty).value = _
  rw [operandsValue rfl rfl some]
  simp [Frame.empty]

theorem readStuck (stuck : ts.foldlM (step holds) (Frame.empty,[]) = none) (us : List (Token α)) : read holds (ts ++ us) = none := by
  rw [Query.read,List.foldlM_append,stuck]
  rfl

theorem stuckLeft (ts : List (Token α)) : read holds (.lpar :: .or :: ts) = none := @readStuck _ _ _ [.lpar,.or] rfl ts

theorem stuckEmpty (ts : List (Token α)) : read holds (.lpar :: .rpar :: ts) = none := @readStuck _ _ _ [.lpar,.rpar] rfl ts

theorem stuckInner (ts : List (Token α)) : read holds (.lpar :: .lpar :: .rpar :: ts) = none :=
  @readStuck _ _ _ [.lpar,.lpar,.rpar] rfl ts

theorem stuckRight (left : Reads holds ts ss) (some : ss ≠ []) (us : List (Token α)) :
    read holds (.lpar :: ts ++ .or :: .rpar :: us) = none ∧ read holds (.lpar :: ts ++ .or :: .lpar :: .rpar :: us) = none := by
  have before : (Token.lpar :: ts ++ [Token.or]).foldlM (step holds) (Frame.empty,[]) =
      .some (⟨fun m => Frame.empty.alts m || all ss m,none,0⟩,[.empty]) := by
    rw [List.cons_append,List.foldlM_cons]
    change (ts ++ [Token.or]).foldlM (step holds) (Frame.empty,[.empty]) = _
    rw [List.foldlM_append,left .empty [.empty] rfl]
    change (step holds (ss.foldl Frame.operand .empty,[.empty]) Token.or).bind Option.some = _
    rw [step,operandsValue rfl rfl some]
    rfl
  constructor
  · rw [show Token.lpar :: ts ++ .or :: .rpar :: us = (Token.lpar :: ts ++ [.or] ++ [.rpar]) ++ us by simp]
    refine readStuck ?_ us
    rw [List.foldlM_append,before]
    rfl
  · rw [show Token.lpar :: ts ++ .or :: .lpar :: .rpar :: us = (Token.lpar :: ts ++ [.or] ++ [.lpar,.rpar]) ++ us by simp]
    refine readStuck ?_ us
    rw [List.foldlM_append,before]
    rfl

end Query
