import Mathlib.Data.List.Basic

/-! Git.pm: git_quote and git_unquote, for the pathnames that git quotes in C style. -/
namespace PublicInbox.Git

abbrev Bytes := List UInt8

def gitEsc : List (UInt8 × UInt8) :=
  [('a'.toUInt8,7),('b'.toUInt8,8),('f'.toUInt8,12),('n'.toUInt8,10),('r'.toUInt8,13),('t'.toUInt8,9),('v'.toUInt8,11),
    ('"'.toUInt8,'"'.toUInt8),('\\'.toUInt8,'\\'.toUInt8)]

def escGit : List (UInt8 × UInt8) := gitEsc.map Prod.swap

def isPrint (b : UInt8) : Bool := ' '.toUInt8 ≤ b && b ≤ '~'.toUInt8

def needsQuote (b : UInt8) : Bool := ['\\'.toUInt8,'"'.toUInt8,7,8,12,10,13,9,11].contains b || !isPrint b

def octal (b : UInt8) : Bytes := [48 + b / 64,48 + b / 8 % 8,48 + b % 8]

def quoteByte (b : UInt8) : Bytes :=
  if needsQuote b then
    '\\'.toUInt8 :: match escGit.lookup b with
      | some letter => [letter]
      | none => octal b
  else [b]

def gitQuote (s : Bytes) : Bytes :=
  if s.any needsQuote then ['"'.toUInt8] ++ s.flatMap quoteByte ++ ['"'.toUInt8] else s

def escape : Bytes → Option (UInt8 × Nat)
  | [] => none
  | c :: t =>
    match gitEsc.lookup c with
    | some b => some (b,1)
    | none =>
      match t with
      | d :: e :: _ =>
        if 48 ≤ c ∧ c ≤ 51 ∧ 48 ≤ d ∧ d ≤ 55 ∧ 48 ≤ e ∧ e ≤ 55 then some ((c - 48) * 64 + (d - 48) * 8 + (e - 48),3) else none
      | _ => none

/- The substitution in git_unquote: the first argument counts what a match has taken already. -/
def unescape : Nat → Bytes → Bytes
  | _,[] => []
  | n + 1,_ :: t => unescape n t
  | 0,b :: t =>
    if b = '\\'.toUInt8 then
      match escape t with
      | some (c,n) => c :: unescape n t
      | none => b :: unescape 0 t
    else b :: unescape 0 t

def gitUnquote : Bytes → Bytes
  | [] => []
  | b :: t =>
    if b = '"'.toUInt8 ∧ t.getLast? = some '"'.toUInt8 ∧ '\n'.toUInt8 ∉ t.dropLast then unescape 0 t.dropLast else b :: t

def isControl (b : UInt8) : Bool := b < 32 || b == 127

inductive Inside : Bytes → Prop
  | nil : Inside []
  | byte {b : UInt8} {t : Bytes} : b ≠ '"'.toUInt8 → b ≠ '\\'.toUInt8 → isControl b = false → Inside t → Inside (b :: t)
  | letter {c : UInt8} {t : Bytes} : (gitEsc.lookup c).isSome = true → Inside t → Inside ('\\'.toUInt8 :: c :: t)
  | octal {c d e : UInt8} {t : Bytes} : (48 ≤ c ∧ c ≤ 51 ∧ 48 ≤ d ∧ d ≤ 55 ∧ 48 ≤ e ∧ e ≤ 55) → Inside t → Inside ('\\'.toUInt8 :: c :: d :: e :: t)

inductive Written (b : UInt8) : Bytes → Prop
  | plain : b ≠ '"'.toUInt8 → b ≠ '\\'.toUInt8 → isControl b = false → Written b [b]
  | letter {c : UInt8} : gitEsc.lookup c = some b → Written b ['\\'.toUInt8,c]
  | octal {c d e : UInt8} : gitEsc.lookup c = none → (48 ≤ c ∧ c ≤ 51 ∧ 48 ≤ d ∧ d ≤ 55 ∧ 48 ≤ e ∧ e ≤ 55) →
      (c - 48) * 64 + (d - 48) * 8 + (e - 48) = b → Written b ['\\'.toUInt8,c,d,e]

theorem everyByte {P : UInt8 → Prop} (each : ∀ n < 256,P (UInt8.ofNat n)) (b : UInt8) : P b := by
  have same : UInt8.ofNat b.toNat = b := UInt8.ofNat_toNat
  exact same ▸ each b.toNat b.toNat_lt

theorem byteFacts (b : UInt8) : (escGit.lookup b).all (fun c => gitEsc.lookup c == some b) = true ∧
    (gitEsc.lookup (48 + b / 64) = none ∧
      (48 ≤ 48 + b / 64 ∧ 48 + b / 64 ≤ 51 ∧ 48 ≤ 48 + b / 8 % 8 ∧ 48 + b / 8 % 8 ≤ 55 ∧ 48 ≤ 48 + b % 8 ∧ 48 + b % 8 ≤ 55) ∧
      (48 + b / 64 - 48) * 64 + (48 + b / 8 % 8 - 48) * 8 + (48 + b % 8 - 48) = b) ∧
    (needsQuote b = false → b ≠ '"'.toUInt8 ∧ b ≠ '\\'.toUInt8 ∧ isControl b = false) ∧
    ((gitEsc.lookup b).isSome = true → isControl b = false) ∧ (48 ≤ b → b ≤ 55 → isControl b = false) := by
  revert b
  exact everyByte (by decide +kernel)

theorem writtenLetter (b : UInt8) : (escGit.lookup b).all (fun c => gitEsc.lookup c == some b) = true := (byteFacts b).1

theorem writtenOctal (b : UInt8) : gitEsc.lookup (48 + b / 64) = none ∧
    (48 ≤ 48 + b / 64 ∧ 48 + b / 64 ≤ 51 ∧ 48 ≤ 48 + b / 8 % 8 ∧ 48 + b / 8 % 8 ≤ 55 ∧ 48 ≤ 48 + b % 8 ∧ 48 + b % 8 ≤ 55) ∧
    (48 + b / 64 - 48) * 64 + (48 + b / 8 % 8 - 48) * 8 + (48 + b % 8 - 48) = b := (byteFacts b).2.1

theorem writtenPlain (b : UInt8) : needsQuote b = false → b ≠ '"'.toUInt8 ∧ b ≠ '\\'.toUInt8 ∧ isControl b = false :=
  (byteFacts b).2.2.1

theorem written (b : UInt8) : Written b (quoteByte b) := by
  unfold quoteByte
  split
  · cases letter : escGit.lookup b with
    | some c =>
      have back := writtenLetter b
      rw [letter,Option.all_some] at back
      exact .letter (eq_of_beq back)
    | none =>
      obtain ⟨digit,digits,same⟩ := writtenOctal b
      exact .octal digit digits same
  · rename_i plain
    obtain ⟨quote,slash,control⟩ := writtenPlain b (Bool.not_eq_true _ ▸ plain)
    exact .plain quote slash control

theorem unescapeWritten {b : UInt8} {w : Bytes} (by' : Written b w) (t : Bytes) : unescape 0 (w ++ t) = b :: unescape 0 t := by
  cases by' with
  | plain quote slash control => rw [List.singleton_append,unescape,if_neg slash]
  | letter is => simp only [List.cons_append,List.nil_append,unescape,escape,is,if_true]
  | octal digit digits same =>
    simp only [List.cons_append,List.nil_append,unescape,escape,digit,if_pos digits,same,if_true]

theorem unescapeQuoted (s : Bytes) : unescape 0 (s.flatMap quoteByte) = s := by
  induction s with
  | nil => rfl
  | cons b s ih => rw [List.flatMap_cons,unescapeWritten (written b),ih]

theorem insideWritten {b : UInt8} {w t : Bytes} (by' : Written b w) (rest : Inside t) : Inside (w ++ t) := by
  cases by' with
  | plain quote slash control => exact .byte quote slash control rest
  | letter is => exact .letter (is ▸ rfl) rest
  | octal _ digits _ => exact .octal digits rest

theorem insideQuoted (s : Bytes) : Inside (s.flatMap quoteByte) := by
  induction s with
  | nil => exact .nil
  | cons b s ih => rw [List.flatMap_cons]; exact insideWritten (written b) ih

theorem letterPlain (b : UInt8) : (gitEsc.lookup b).isSome = true → isControl b = false := (byteFacts b).2.2.2.1

theorem digitPlain (b : UInt8) : 48 ≤ b → b ≤ 55 → isControl b = false := (byteFacts b).2.2.2.2

theorem controlCons {b : UInt8} {t : Bytes} (first : isControl b = false) (rest : ∀ c ∈ t,isControl c = false) :
    ∀ c ∈ b :: t,isControl c = false := List.forall_mem_cons.mpr ⟨first,rest⟩

theorem Inside.noControl {s : Bytes} (inside : Inside s) : ∀ b ∈ s,isControl b = false := by
  induction inside with
  | nil => exact fun _ none => absurd none List.not_mem_nil
  | byte _ _ plain _ ih => exact controlCons plain ih
  | letter is _ ih => exact controlCons rfl (controlCons (letterPlain _ is) ih)
  | octal digits _ ih =>
    obtain ⟨c,c',d,d',e,e'⟩ := digits
    have first := digitPlain _ c (UInt8.le_trans c' (by decide))
    exact controlCons rfl (controlCons first (controlCons (digitPlain _ d d') (controlCons (digitPlain _ e e') ih)))

theorem unquoteQuoted {inside : Bytes} (is : Inside inside) :
    gitUnquote (['"'.toUInt8] ++ inside ++ ['"'.toUInt8]) = unescape 0 inside := by
  have newline : '\n'.toUInt8 ∉ inside := fun mem => absurd (is.noControl _ mem) (by decide)
  rw [List.append_assoc,List.singleton_append,gitUnquote,List.getLast?_concat,List.dropLast_concat,if_pos ⟨rfl,rfl,newline⟩]

theorem unquotePlain {s : Bytes} (plain : ∀ b ∈ s,needsQuote b = false) : gitUnquote s = s := by
  cases s with
  | nil => rfl
  | cons b t =>
    have quote : b ≠ '"'.toUInt8 := fun same => absurd (plain b List.mem_cons_self) (same ▸ by decide)
    rw [gitUnquote,if_neg fun all => quote all.1]

theorem quoteRoundTrip (s : Bytes) : gitUnquote (gitQuote s) = s ∧
    ((∀ b ∈ s,needsQuote b = false) ∧ gitQuote s = s ∨
      ∃ inside,gitQuote s = ['"'.toUInt8] ++ inside ++ ['"'.toUInt8] ∧ Inside inside ∧ ∀ b ∈ inside,isControl b = false) := by
  unfold gitQuote
  split
  · have inside := insideQuoted s
    exact ⟨(unquoteQuoted inside).trans (unescapeQuoted s),.inr ⟨_,rfl,inside,inside.noControl⟩⟩
  · rename_i none
    have plain : ∀ b ∈ s,needsQuote b = false := fun b mem => Bool.not_eq_true _ ▸ List.any_eq_false.mp (Bool.not_eq_true _ ▸ none) b mem
    exact ⟨unquotePlain plain,.inl ⟨plain,rfl⟩⟩

end PublicInbox.Git
