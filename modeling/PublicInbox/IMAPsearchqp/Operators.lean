import PublicInbox.IMAPsearchqp.Program

/-! What the string of a search program says under Xapian's grammar. NOT and the parentheses of OR and of
sub-programs take the fragments that a key has pushed; the program is compiled right where these are
the operands that it has. -/
namespace PublicInbox.IMAPsearchqp.Program
open Query (Token Reads Operand)

variable (thisYear : Nat)

def dateRange (k : DateKey) (d : DateText) : Option Range :=
  (k.run thisYear ⟨none,[],[]⟩ d).bind fun q => match q.xap with
    | [.range r] => some r
    | _ => none

section
variable {ω : Type} (holds : Atom → ω → Bool)

mutual

/- The program as IMAP means it, where `holds` tells of each atomic key which messages it matches. -/
def Key.eval (m : ω) : Key → Bool
  | .flag f => !f.impossible
  | .string fieldName s => (phrases fieldName s).all (holds · m)
  | .larger n => holds (.larger n) m
  | .smaller n => holds (.smaller n) m
  | .date k d => (dateRange thisYear k d).any fun r => holds (.range r) m
  | .not k => !k.eval m
  | .or a b => a.eval m || b.eval m
  | .sub ks => ks.eval m

def Keys.eval (m : ω) : Keys → Bool
  | .last k => k.eval m
  | .cons k ks => k.eval m && ks.eval m

end

end

mutual

def Key.frags : Key → List Frag
  | .flag f => if f.impossible then [.text [.atom zero]] else []
  | .string fieldName s => [.text ((phrases fieldName s).map .atom)]
  | .larger n => [.text [.atom (.larger n)]]
  | .smaller n => [.text [.atom (.smaller n)]]
  | .date k d => (dateRange thisYear k d).toList.map fun r => .text [.atom (.range r)]
  | .not k => .text [.not] :: k.frags
  | .or a b => [.text (.lpar :: joined a.frags ++ .or :: joined b.frags ++ [.rpar])]
  | .sub ks => [.text (joined ks.frags)]

def Keys.frags : Keys → List Frag
  | .last k => k.frags
  | .cons k ks => k.frags ++ ks.frags

end

mutual

def Key.count : Key → Nat
  | .flag f => if f.impossible then 1 else 0
  | .string _ _ | .larger _ | .smaller _ | .date _ _ | .or _ _ | .sub _ => 1
  | .not k => k.count + 1

def Keys.count : Keys → Nat
  | .last k => k.count
  | .cons k ks => k.count + ks.count

end

mutual

def Key.operands : Key → Nat
  | .flag f => if f.impossible then 1 else 0
  | .string _ s => (wordsOf s).length
  | .larger _ | .smaller _ | .date _ _ | .not _ | .or _ _ => 1
  | .sub ks => if 1 < ks.count then 1 else ks.operands

def Keys.operands : Keys → Nat
  | .last k => k.operands
  | .cons k ks => k.operands + ks.operands

end

mutual

def Key.Sound : Key → Prop
  | .not k => k.Sound ∧ k.operands = 1
  | .or a b => (a.Sound ∧ b.Sound) ∧ a.operands ≠ 0 ∧ b.operands ≠ 0
  | .sub ks => ks.Sound ∧ (1 < ks.count → ks.operands ≠ 0)
  | _ => True

def Keys.Sound : Keys → Prop
  | .last k => k.Sound
  | .cons k ks => k.Sound ∧ ks.Sound

end

mutual

def Key.Dated : Key → Prop
  | .date k d => (dateRange thisYear k d).isSome
  | .not k => k.Dated
  | .or a b => a.Dated ∧ b.Dated
  | .sub ks => ks.Dated
  | _ => True

def Keys.Dated : Keys → Prop
  | .last k => k.Dated
  | .cons k ks => k.Dated ∧ ks.Dated

end

variable {thisYear}

theorem runRange {sql : Option (List Test)} {made : IMAPsearchqp.Q} {k : DateKey} {d : DateText}
    (ran : k.run thisYear ⟨sql,[],[]⟩ d = some made) : ∃ r,made.xap = [.range r] ∧ dateRange thisYear k d = some r := by
  cases k with
  | sentSince =>
    obtain ⟨day,found,ran⟩ := Option.bind_eq_some_iff.mp ran
    refine ⟨⟨.d,some day,none⟩,?_,by simp [dateRange,DateKey.run,SENTSINCE,found,IMAPsearchqp.Q.push]⟩
    dsimp only at ran
    split at ran
    · cases ran
      rfl
    · obtain ⟨ds,-,rfl⟩ := Option.map_eq_some_iff.mp ran
      rfl
  | sentOn =>
    obtain ⟨day,found,ran⟩ := Option.bind_eq_some_iff.mp ran
    obtain ⟨ds,time,rfl⟩ := Option.map_eq_some_iff.mp ran
    exact ⟨_,rfl,by simp [dateRange,DateKey.run,SENTON,found,time,IMAPsearchqp.Q.push,IMAPsearchqp.Q.andSql]⟩
  | sentBefore =>
    obtain ⟨day,found,ran⟩ := Option.bind_eq_some_iff.mp ran
    refine ⟨⟨.d,none,some day⟩,?_,by simp [dateRange,DateKey.run,SENTBEFORE,found,IMAPsearchqp.Q.push]⟩
    dsimp only at ran
    split at ran
    · cases ran
      rfl
    · obtain ⟨ds,-,rfl⟩ := Option.map_eq_some_iff.mp ran
      rfl
  | since =>
    obtain ⟨ts,time,rfl⟩ := Option.map_eq_some_iff.mp ran
    exact ⟨_,rfl,by simp [dateRange,DateKey.run,SINCE,time,IMAPsearchqp.Q.push,IMAPsearchqp.Q.andSql]⟩
  | on =>
    obtain ⟨ts,time,rfl⟩ := Option.map_eq_some_iff.mp ran
    exact ⟨_,rfl,by simp [dateRange,DateKey.run,ON,time,IMAPsearchqp.Q.push,IMAPsearchqp.Q.andSql]⟩
  | before =>
    obtain ⟨ts,time,rfl⟩ := Option.map_eq_some_iff.mp ran
    exact ⟨_,rfl,by simp [dateRange,DateKey.run,BEFORE,time,IMAPsearchqp.Q.push,IMAPsearchqp.Q.andSql]⟩

theorem dateRun {q q' : Q} {k : DateKey} {d : DateText} (run : date thisYear q k d = some q') :
    ∃ r,dateRange thisYear k d = some r ∧ q'.xap = q.xap ++ [.text [.atom (.range r)]] ∧ q'.stack = q.stack := by
  obtain ⟨made,ran,rfl⟩ := Option.map_eq_some_iff.mp run
  obtain ⟨r,xap,range⟩ := runRange ran
  exact ⟨r,range,by rw [xap]; rfl,rfl⟩

mutual

theorem searchKey1Frags {q q' : Q} : (k : Key) → searchKey1 thisYear q k = some q' →
    (q'.xap = q.xap ++ k.frags thisYear ∧ q'.stack = q.stack) ∧ k.Dated thisYear
  | .flag f, run => by
    obtain rfl := Option.some.inj run
    cases impossible : f.impossible <;> simp [Key.frags,Key.Dated,impossible,Program.impossible,Q.push]
  | .string fieldName s, run => by
    simp only [searchKey1] at run
    split at run <;> cases run
    exact ⟨⟨rfl,rfl⟩,trivial⟩
  | .larger n, run | .smaller n, run => by
    simp only [searchKey1] at run
    split at run <;> cases run
    exact ⟨⟨rfl,rfl⟩,trivial⟩
  | .date k d, run => by
    simp only [searchKey1] at run
    split at run
    · obtain ⟨r,range,xap,stack⟩ := dateRun run
      exact ⟨⟨by simp [Key.frags,range,xap],stack⟩,by simp [Key.Dated,range]⟩
    · cases run
  | .not k, run => by
    obtain ⟨⟨xap,stack⟩,dated⟩ := searchKey1Frags k run
    exact ⟨⟨by simp [xap,xapOnly,Key.frags],stack⟩,dated⟩
  | .or a b, run => by
    simp only [searchKey1,Option.bind_eq_some_iff] at run
    obtain ⟨qa,ranA,qb,ranB,closed⟩ := run
    obtain ⟨⟨xapA,stackA⟩,datedA⟩ := searchKey1Frags a ranA
    obtain ⟨⟨xapB,stackB⟩,datedB⟩ := searchKey1Frags b ranB
    refine ⟨?_,datedA,datedB⟩
    simp only [orSearchKeys,stackB,searchKeyA,stackA,opOr,xapOnly] at closed
    simp only [Option.toList_some,List.getLast?_append,List.getLast?_singleton,Option.some_or,if_true,List.dropLast_concat] at closed
    obtain rfl := Option.some.inj closed
    refine ⟨?_,rfl⟩
    simp [xapA,xapB,opOr,searchKeyA,Key.frags]
  | .sub ks, run => by
    simp only [searchKey1,Option.bind_eq_some_iff] at run
    obtain ⟨entered,enter,qs,ran,leave⟩ := run
    obtain ⟨⟨xap,stack⟩,dated⟩ := searchKeysFrags ks ran
    refine ⟨?_,dated⟩
    simp only [subqEnter] at enter
    split at enter
    · cases enter
    · obtain rfl := Option.some.inj enter
      simp only [subqLeave,stack] at leave
      obtain rfl := Option.some.inj leave
      refine ⟨?_,rfl⟩
      simp [xap,xapOnly,Key.frags]

theorem searchKeysFrags {q q' : Q} : (ks : Keys) → searchKeys thisYear q ks = some q' →
    (q'.xap = q.xap ++ ks.frags thisYear ∧ q'.stack = q.stack) ∧ ks.Dated thisYear
  | .last k, run => searchKey1Frags k run
  | .cons k ks, run => by
    simp only [searchKeys,Option.bind_eq_some_iff] at run
    obtain ⟨qk,ran,rest⟩ := run
    obtain ⟨⟨xap,stack⟩,dated⟩ := searchKey1Frags k ran
    obtain ⟨⟨xap',stack'⟩,dated'⟩ := searchKeysFrags ks rest
    exact ⟨⟨by rw [xap',xap,List.append_assoc]; rfl,stack'.trans stack⟩,dated,dated'⟩

end

mutual

theorem keyCount : (k : Key) → k.Dated thisYear → (k.frags thisYear).length = k.count
  | .flag f, _ => by simp only [Key.frags,Key.count]; split <;> rfl
  | .string _ _, _ | .larger _, _ | .smaller _, _ | .or _ _, _ | .sub _, _ => rfl
  | .date k d, dated => by
    obtain ⟨r,range⟩ := Option.isSome_iff_exists.mp dated
    simp [Key.frags,Key.count,range]
  | .not k, dated => congrArg Nat.succ (keyCount k dated)

theorem keysCount : (ks : Keys) → ks.Dated thisYear → (ks.frags thisYear).length = ks.count
  | .last k, dated => keyCount k dated
  | .cons k ks, dated => by
    rw [Keys.frags,List.length_append,keyCount k dated.1,keysCount ks dated.2]
    rfl

end

section
variable {ω : Type} {holds : Atom → ω → Bool}

mutual

theorem keyBlank : (k : Key) → k.count = 0 →
    k.frags thisYear = [] ∧ k.operands = 0 ∧ ∀ m,k.eval thisYear holds m = true
  | .flag f, blank => by
    have ignored : f.impossible = false := by
      by_contra impossible
      simp [Key.count,impossible] at blank
    simp [Key.frags,Key.operands,Key.eval,ignored]
  | .string _ _, blank | .larger _, blank | .smaller _, blank | .date _ _, blank | .or _ _, blank | .sub _, blank | .not _, blank => by
    cases blank

theorem keysBlank : (ks : Keys) → ks.count = 0 →
    ks.frags thisYear = [] ∧ ks.operands = 0 ∧ ∀ m,ks.eval thisYear holds m = true
  | .last k, blank => keyBlank k blank
  | .cons k ks, blank => by
    obtain ⟨frags,operands,eval⟩ := keyBlank k (Nat.eq_zero_of_add_eq_zero blank).1
    obtain ⟨frags',operands',eval'⟩ := keysBlank ks (Nat.eq_zero_of_add_eq_zero blank).2
    simp [Keys.frags,Keys.operands,Keys.eval,frags,frags',operands,operands',eval,eval']

end

def Compiled (holds : Atom → ω → Bool) (ts : List (Token Atom)) (n : Nat) (s : ω → Bool) : Prop :=
  ∃ ss,ss.length = n ∧ Query.all ss = s ∧ Reads holds ts ss

theorem Compiled.one {ts : List (Token Atom)} {s : ω → Bool} (operand : Operand holds ts s) : Compiled holds ts 1 s :=
  ⟨[s],rfl,by funext m; simp [Query.all],operand.reads⟩

theorem Compiled.nil : Compiled holds [] 0 fun _ => true := ⟨[],rfl,rfl,.nil⟩

theorem Compiled.append {ts us : List (Token Atom)} {n k : Nat} {s r : ω → Bool} (first : Compiled holds ts n s)
    (second : Compiled holds us k r) : Compiled holds (ts ++ us) (n + k) fun m => s m && r m := by
  obtain ⟨ss,length,all,reads⟩ := first
  obtain ⟨rs,length',all',reads'⟩ := second
  refine ⟨ss ++ rs,by simp [length,length'],?_,reads.append reads'⟩
  funext m
  rw [← all,← all']
  simp [Query.all]

theorem Compiled.atoms (as : List Atom) : Compiled holds (as.map .atom) as.length fun m => as.all (holds · m) := by
  induction as with
  | nil => exact .nil
  | cons a as ih =>
    have both := (Compiled.one (Operand.atom a : Operand holds [.atom a] (holds a))).append ih
    rw [Nat.add_comm] at both
    exact both

theorem joinedOperand {fs : List Frag} {n : Nat} {s : ω → Bool} (inside : Compiled holds (fs.flatMap Frag.tokens) n s)
    (many : 1 < fs.length) (some : n ≠ 0) : Operand holds (joined fs) s := by
  obtain ⟨ss,length,all,reads⟩ := inside
  have operands : ss ≠ [] := by
    rintro rfl
    exact some length.symm
  rw [joined,if_pos many]
  exact all ▸ reads.paren operands

theorem Compiled.joined {fs : List Frag} {n : Nat} {s : ω → Bool} (inside : Compiled holds (fs.flatMap Frag.tokens) n s)
    (some : 1 < fs.length → n ≠ 0) : Compiled holds (joined fs) (if 1 < fs.length then 1 else n) s := by
  split
  · rename_i many
    exact .one (joinedOperand inside many (some many))
  · rename_i few
    rwa [Program.joined,if_neg few]

theorem Compiled.either {ts us : List (Token Atom)} {n k : Nat} {s r : ω → Bool} (left : Compiled holds ts n s)
    (right : Compiled holds us k r) (some : n ≠ 0) (some' : k ≠ 0) :
    Operand holds (.lpar :: ts ++ .or :: us ++ [.rpar]) fun m => s m || r m := by
  obtain ⟨ss,length,rfl,reads⟩ := left
  obtain ⟨rs,length',rfl,reads'⟩ := right
  refine reads.either reads' ?_ ?_
  · rintro rfl
    exact some length.symm
  · rintro rfl
    exact some' length'.symm

mutual

theorem keyCompiled (positive : ∀ m,holds zero m = false) : (k : Key) → k.Dated thisYear → k.Sound →
    Compiled holds ((k.frags thisYear).flatMap Frag.tokens) k.operands (fun m => k.eval thisYear holds m) ∧
      (k.operands = 1 → Operand holds ((k.frags thisYear).flatMap Frag.tokens) fun m => k.eval thisYear holds m)
  | .flag f, _, _ => by
    cases impossible : f.impossible with
    | false =>
      simp only [Key.frags,Key.operands,Key.eval,impossible]
      exact ⟨.nil,fun one => by cases one⟩
    | true =>
      have never : Operand holds [.atom zero] (fun _ : ω => !true) := by
        have operand : Operand holds [.atom zero] (holds zero) := .atom zero
        rwa [show holds zero = fun _ => !true from funext positive] at operand
      simp only [Key.frags,Key.operands,Key.eval,impossible]
      exact ⟨.one never,fun _ => never⟩
  | .string fieldName s, _, _ => by
    have words : (phrases fieldName s).length = (wordsOf s).length := List.length_map ..
    have compiled : Compiled holds _ _ _ := .atoms (phrases fieldName s)
    simp only [Key.frags,Key.operands,Key.eval,List.flatMap_singleton,Frag.tokens,← words]
    refine ⟨compiled,fun one => ?_⟩
    obtain ⟨a,same⟩ := List.length_eq_one_iff.mp one
    rw [same]
    simpa using (Operand.atom a : Operand holds [.atom a] (holds a))
  | .larger n, _, _ => ⟨.one (.atom _),fun _ => .atom _⟩
  | .smaller n, _, _ => ⟨.one (.atom _),fun _ => .atom _⟩
  | .date k d, dated, _ => by
    obtain ⟨r,range⟩ := Option.isSome_iff_exists.mp dated
    simp only [Key.frags,Key.operands,Key.eval,range]
    exact ⟨.one (.atom _),fun _ => .atom _⟩
  | .not k, dated, sound => by
    have operand := (keyCompiled positive k dated sound.1).2 sound.2
    exact ⟨.one operand.not,fun _ => operand.not⟩
  | .or a b, dated, sound => by
    obtain ⟨⟨soundA,soundB⟩,someA,someB⟩ := sound
    have left := (keyCompiled positive a dated.1 soundA).1.joined fun _ => someA
    have right := (keyCompiled positive b dated.2 soundB).1.joined fun _ => someB
    have operand := left.either right (by split <;> simp [someA]) (by split <;> simp [someB])
    simp only [Key.frags,Key.operands,Key.eval,List.flatMap_singleton,Frag.tokens]
    exact ⟨.one operand,fun _ => operand⟩
  | .sub ks, dated, sound => by
    obtain ⟨compiled,operand⟩ := keysCompiled positive ks dated sound.1
    simp only [Key.frags,Key.operands,Key.eval,List.flatMap_singleton,Frag.tokens,← keysCount ks dated] at sound operand ⊢
    refine ⟨compiled.joined ?_,fun one => ?_⟩
    · intro many
      exact sound.2 (keysCount ks dated ▸ many)
    · split at one
      · rename_i many
        exact joinedOperand compiled many (sound.2 (keysCount ks dated ▸ many))
      · rename_i few
        rw [joined,if_neg few]
        exact operand (Nat.not_lt.mp few) one

theorem keysCompiled (positive : ∀ m,holds zero m = false) : (ks : Keys) → ks.Dated thisYear → ks.Sound →
    Compiled holds ((ks.frags thisYear).flatMap Frag.tokens) ks.operands (fun m => ks.eval thisYear holds m) ∧
      (ks.count ≤ 1 → ks.operands = 1 → Operand holds ((ks.frags thisYear).flatMap Frag.tokens) fun m => ks.eval thisYear holds m)
  | .last k, dated, sound => ⟨(keyCompiled positive k dated sound).1,fun _ => (keyCompiled positive k dated sound).2⟩
  | .cons k ks, dated, sound => by
    obtain ⟨first,alone⟩ := keyCompiled positive k dated.1 sound.1
    obtain ⟨rest,alone'⟩ := keysCompiled positive ks dated.2 sound.2
    simp only [Keys.frags,Keys.operands,Keys.eval,Keys.count,List.flatMap_append]
    refine ⟨first.append rest,fun few one => ?_⟩
    rcases Nat.eq_zero_or_pos k.count with none | some
    · obtain ⟨frags,operands,eval⟩ := @keyBlank thisYear ω holds k none
      simp only [frags,eval,List.flatMap_nil,List.nil_append,Bool.true_and]
      exact alone' (by omega) (by omega)
    · obtain ⟨frags,operands,eval⟩ := @keysBlank thisYear ω holds ks (by omega)
      simp only [frags,eval,List.flatMap_nil,List.append_nil,Bool.and_true]
      exact alone (by omega)

end

end

mutual

theorem keyEmpty : (k : Key) → k.Dated thisYear → k.Sound → k.operands = 0 → (k.frags thisYear).flatMap Frag.tokens = []
  | .flag f, _, _, empty => by
    have ignored : f.impossible = false := by
      by_contra impossible
      simp [Key.operands,impossible] at empty
    simp [Key.frags,ignored]
  | .string fieldName s, _, _, empty => by
    have words : wordsOf s = [] := List.length_eq_zero_iff.mp empty
    simp [Key.frags,Frag.tokens,phrases,words]
  | .larger _, _, _, empty | .smaller _, _, _, empty | .date _ _, _, _, empty | .not _, _, _, empty | .or _ _, _, _, empty => by cases empty
  | .sub ks, dated, sound, empty => by
    simp only [Key.operands] at empty
    split at empty
    · cases empty
    · rename_i few
      have inside := keysEmpty ks dated sound.1 empty
      simpa [Key.frags,Frag.tokens,joined,keysCount ks dated,few] using inside

theorem keysEmpty : (ks : Keys) → ks.Dated thisYear → ks.Sound → ks.operands = 0 → (ks.frags thisYear).flatMap Frag.tokens = []
  | .last k, dated, sound, empty => keyEmpty k dated sound empty
  | .cons k ks, dated, sound, empty => by
    rw [Keys.frags,List.flatMap_append,keyEmpty k dated.1 sound.1 (Nat.eq_zero_of_add_eq_zero empty).1,
      keysEmpty ks dated.2 sound.2 (Nat.eq_zero_of_add_eq_zero empty).2]
    rfl

end

mutual

theorem keyWords : (k : Key) → k.Dated thisYear → 1 < k.operands → ∃ as : List Atom,
    (k.frags thisYear).flatMap Frag.tokens = as.map .atom ∧ as.length = k.operands ∧
      ∀ {ω : Type} (holds : Atom → ω → Bool) m,k.eval thisYear holds m = as.all (holds · m)
  | .flag f, _, several => by
    simp only [Key.operands] at several
    split at several <;> omega
  | .string fieldName s, _, _ => ⟨phrases fieldName s,by simp [Key.frags,Frag.tokens],List.length_map ..,fun _ _ => rfl⟩
  | .larger _, _, several | .smaller _, _, several | .date _ _, _, several | .not _, _, several | .or _ _, _, several => by
    simp [Key.operands] at several
  | .sub ks, dated, several => by
    simp only [Key.operands] at several
    split at several
    · omega
    · rename_i few
      obtain ⟨as,tokens,length,eval⟩ := keysWords ks dated (Nat.not_lt.mp few) several
      refine ⟨as,?_,by rw [length,Key.operands,if_neg few],eval⟩
      simpa [Key.frags,Frag.tokens,joined,keysCount ks dated,few] using tokens

theorem keysWords : (ks : Keys) → ks.Dated thisYear → ks.count ≤ 1 → 1 < ks.operands → ∃ as : List Atom,
    (ks.frags thisYear).flatMap Frag.tokens = as.map .atom ∧ as.length = ks.operands ∧
      ∀ {ω : Type} (holds : Atom → ω → Bool) m,ks.eval thisYear holds m = as.all (holds · m)
  | .last k, dated, _, several => keyWords k dated several
  | .cons k ks, dated, few, several => by
    simp only [Keys.count,Keys.operands] at few several
    rcases Nat.eq_zero_or_pos k.count with none | some
    · have blank := fun {ω : Type} (holds : Atom → ω → Bool) => @keyBlank thisYear ω holds k none
      obtain ⟨frags,operands,-⟩ := blank (fun _ (_ : Unit) => true)
      obtain ⟨as,tokens,length,eval⟩ := keysWords ks dated.2 (by omega) (by omega)
      refine ⟨as,by simpa [Keys.frags,frags] using tokens,by simp [length,Keys.operands,operands],fun holds m => ?_⟩
      rw [Keys.eval,(blank holds).2.2 m,eval holds m]
      rfl
    · have blank := fun {ω : Type} (holds : Atom → ω → Bool) => @keysBlank thisYear ω holds ks (by omega)
      obtain ⟨frags,operands,-⟩ := blank (fun _ (_ : Unit) => true)
      obtain ⟨as,tokens,length,eval⟩ := keyWords k dated.1 (by omega)
      refine ⟨as,by simpa [Keys.frags,frags] using tokens,by simp [length,Keys.operands,operands],fun holds m => ?_⟩
      rw [Keys.eval,(blank holds).2.2 m,eval holds m,Bool.and_true]

end

def Denotes (thisYear : Nat) (query : List (Token Atom)) (p : Keys) : Prop :=
  ∀ {ω : Type} (holds : Atom → ω → Bool),(∀ m,holds zero m = false) →
    ∃ s,Query.read holds query = some s ∧ ∀ m,s m = p.eval thisYear holds m

def Keys.tokens (thisYear : Nat) (p : Keys) : List (Token Atom) := (p.frags thisYear).flatMap Frag.tokens

theorem denotesSound {p : Keys} (dated : p.Dated thisYear) (sound : p.Sound) (some : p.operands ≠ 0) :
    Denotes thisYear (p.tokens thisYear) p := by
  intro ω holds positive
  obtain ⟨ss,length,all,reads⟩ := (keysCompiled positive p dated sound).1
  refine ⟨Query.all ss,reads.read ?_,fun m => congrFun all m⟩
  rintro rfl
  exact some length.symm

mutual

/- `P` holds of the programs that consist of one NOT, OR or sub-program with several fragments in the key. -/
def Key.Each (P : Keys → Prop) : Key → Prop
  | .not k => P (.last (.not k)) ∧ k.Each P
  | .or a b => P (.last (.or a b)) ∧ a.Each P ∧ b.Each P
  | .sub ks => (1 < ks.count → P (.last (.sub ks))) ∧ ks.Each P
  | _ => True

def Keys.Each (P : Keys → Prop) : Keys → Prop
  | .last k => k.Each P
  | .cons k ks => k.Each P ∧ ks.Each P

end

abbrev Keys.Faithful (thisYear : Nat) (p : Keys) : Prop := Denotes thisYear (p.tokens thisYear) p

theorem notFaithful {k : Key} (dated : k.Dated thisYear) (sound : k.Sound) (faithful : (Keys.last (.not k)).Faithful thisYear) :
    k.operands = 1 := by
  by_contra other
  obtain ⟨s,read,tells⟩ := faithful (fun _ (_ : Unit) => false) fun _ => rfl
  have tokens : (Keys.last (.not k)).tokens thisYear = .not :: (k.frags thisYear).flatMap Frag.tokens := rfl
  rw [tokens] at read
  rcases Nat.eq_zero_or_pos k.operands with none | some
  · rw [keyEmpty k dated sound none] at read
    cases read
  · -- Without any match the words after the first one are false, and the NOT is true.
    obtain ⟨as,atoms,length,eval⟩ := keyWords k dated (by omega)
    obtain ⟨a,rest,rfl⟩ := List.exists_cons_of_length_pos (l := as) (by omega)
    obtain ⟨b,rest,rfl⟩ := List.exists_cons_of_length_pos (l := rest) (by simp only [List.length_cons] at length; omega)
    have first : Operand (fun _ (_ : Unit) => false) [.atom a] fun _ => false := .atom a
    obtain ⟨ss,count,all,reads⟩ := (Compiled.one first.not).append (Compiled.atoms (b :: rest))
    rw [atoms,List.map_cons] at read
    have there := (reads.read (by rintro rfl; simp at count)).symm.trans read
    have told := tells ()
    rw [← Option.some.inj there,all] at told
    simp [Keys.eval,Key.eval,eval] at told

theorem joinedEmpty {fs : List Frag} (empty : fs.flatMap Frag.tokens = []) : joined fs = [] ∨ joined fs = [.lpar,.rpar] := by
  rw [joined,empty]
  split
  · exact Or.inr rfl
  · exact Or.inl rfl

theorem orFaithful {a b : Key} (dated : a.Dated thisYear ∧ b.Dated thisYear) (sound : a.Sound ∧ b.Sound)
    (faithful : (Keys.last (.or a b)).Faithful thisYear) : a.operands ≠ 0 ∧ b.operands ≠ 0 := by
  obtain ⟨s,read,-⟩ := faithful (fun _ (_ : Unit) => false) fun _ => rfl
  have tokens : (Keys.last (.or a b)).tokens thisYear =
      .lpar :: joined (a.frags thisYear) ++ .or :: joined (b.frags thisYear) ++ [.rpar] := by
    simp [Keys.tokens,Keys.frags,Key.frags,Frag.tokens]
  rw [tokens] at read
  have left : a.operands ≠ 0 := by
    intro none
    rcases joinedEmpty (keyEmpty a dated.1 sound.1 none) with empty | parens
    · rw [empty] at read
      exact absurd (read.symm.trans (Query.stuckLeft _)) (by simp)
    · rw [parens] at read
      exact absurd (read.symm.trans (Query.stuckInner _)) (by simp)
  refine ⟨left,fun none => ?_⟩
  obtain ⟨ss,length,-,reads⟩ := (@keyCompiled _ _ (fun _ (_ : Unit) => false) (fun _ => rfl) a dated.1 sound.1).1.joined fun _ => left
  have some : ss ≠ [] := by
    rintro rfl
    split at length
    · cases length
    · exact left length.symm
  rcases joinedEmpty (keyEmpty b dated.2 sound.2 none) with empty | parens
  · rw [empty,List.append_assoc] at read
    exact absurd (read.symm.trans (Query.stuckRight reads some []).1) (by simp)
  · rw [parens,List.append_assoc] at read
    exact absurd (read.symm.trans (Query.stuckRight reads some [.rpar]).2) (by simp)

theorem subFaithful {ks : Keys} (dated : ks.Dated thisYear) (sound : ks.Sound) (many : 1 < ks.count)
    (faithful : (Keys.last (.sub ks)).Faithful thisYear) : ks.operands ≠ 0 := by
  intro none
  obtain ⟨s,read,-⟩ := faithful (fun _ (_ : Unit) => false) fun _ => rfl
  have tokens : (Keys.last (.sub ks)).tokens thisYear = [.lpar,.rpar] := by
    simp [Keys.tokens,Keys.frags,Key.frags,Frag.tokens,joined,keysCount ks dated,many,keysEmpty ks dated sound none]
  rw [tokens] at read
  exact absurd (read.symm.trans (Query.stuckEmpty [])) (by simp)

mutual

theorem keyEach : (k : Key) → k.Dated thisYear → (k.Sound ↔ k.Each (Keys.Faithful thisYear))
  | .flag _, _ | .string _ _, _ | .larger _, _ | .smaller _, _ | .date _ _, _ => Iff.rfl
  | .not k, dated => by
    have inside := keyEach k dated
    refine ⟨fun sound => ⟨denotesSound (p := .last (.not k)) dated sound (Nat.succ_ne_zero _),inside.mp sound.1⟩,fun each => ?_⟩
    have sound := inside.mpr each.2
    exact ⟨sound,notFaithful dated sound each.1⟩
  | .or a b, dated => by
    have left := keyEach a dated.1
    have right := keyEach b dated.2
    refine ⟨fun sound => ⟨denotesSound (p := .last (.or a b)) dated sound (Nat.succ_ne_zero _),left.mp sound.1.1,right.mp sound.1.2⟩,fun each => ?_⟩
    have sound := And.intro (left.mpr each.2.1) (right.mpr each.2.2)
    exact ⟨sound,orFaithful dated sound each.1⟩
  | .sub ks, dated => by
    have inside := keysEach ks dated
    refine ⟨fun sound => ⟨fun many => denotesSound (p := .last (.sub ks)) dated sound ?_,inside.mp sound.1⟩,fun each => ?_⟩
    · simp [Keys.operands,Key.operands,many]
    · have sound := inside.mpr each.2
      exact ⟨sound,fun many => subFaithful dated sound many (each.1 many)⟩

theorem keysEach : (ks : Keys) → ks.Dated thisYear → (ks.Sound ↔ ks.Each (Keys.Faithful thisYear))
  | .last k, dated => keyEach k dated
  | .cons k ks, dated => and_congr (keyEach k dated.1) (keysEach ks dated.2)

end

/- The string of a program, and those of the operators in it, say what they should if and only if every
operator has its operands and the program has one. -/
theorem operatorsCompiled {p : Keys} {query : List (Token Atom)} (accepted : parse thisYear p = some (.xap query)) :
    Denotes thisYear query p ∧ p.Each (Keys.Faithful thisYear) ↔ p.Sound ∧ p.operands ≠ 0 := by
  obtain ⟨q,ran,made⟩ := Option.map_eq_some_iff.mp accepted
  obtain ⟨⟨xap,-⟩,dated⟩ := searchKeysFrags p ran
  obtain rfl : p.tokens thisYear = query := by
    cases sql : q.sql with
    | some conds =>
      rw [sql] at made
      cases made
    | none =>
      rw [sql,xap] at made
      exact Parsed.xap.inj made
  constructor
  · rintro ⟨faithful,each⟩
    have sound := (keysEach p dated).mpr each
    refine ⟨sound,fun none => ?_⟩
    obtain ⟨s,read,-⟩ := faithful (fun _ (_ : Unit) => false) fun _ => rfl
    rw [Keys.tokens,keysEmpty p dated sound none] at read
    cases read
  · rintro ⟨sound,some⟩
    exact ⟨denotesSound dated sound some,(keysEach p dated).mp sound⟩

def fromA : Key := .string (some "FROM".toList) ['A']

def neither : Keys := .last (.not (.or fromA (.larger ['1','0'])))

theorem neitherCompiled : Denotes 2024 [.not,.lpar,.atom (.phrase ['f',':'] ['a']),.or,.atom (.larger ['1','0']),.rpar] neither ∧
    neither.Each (Keys.Faithful 2024) := by
  have sound : neither.Sound ∧ neither.operands ≠ 0 := by
    simp only [neither,Keys.Sound,Key.Sound,Keys.operands,Key.operands,fromA]
    decide
  exact (operatorsCompiled (by decide)).mpr sound

-- NOT ALL FROM A: the NOT of a key without fragments takes the next one.
theorem operandMissed : ¬ ∀ (thisYear : Nat) (p : Keys) (query : List (Token Atom)),parse thisYear p = some (.xap query) → Denotes thisYear query p := by
  intro all
  obtain ⟨s,read,tells⟩ := all 2024 (.cons (.not (.flag .all)) (.last fromA)) [.not,.atom (.phrase ['f',':'] ['a'])] (by decide)
    (fun _ (_ : Unit) => false) fun _ => rfl
  have told := tells ()
  obtain rfl := Option.some.inj read
  exact absurd told (by decide)

end PublicInbox.IMAPsearchqp.Program
