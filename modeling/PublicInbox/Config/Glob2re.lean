import Mathlib.Data.List.Basic

/-! glob2re of Config.pm: a glob as the text of a regular expression. -/
namespace PublicInbox.Config

abbrev Text := List Char

def reMap (tok : Text) : Option Text :=
  if tok = ['*'] then some ['[','^','/',']','*','?']
  else if tok = ['?'] then some ['[','^','/',']']
  else if tok = ['/','*','*'] then some ['/','.','*']
  else if tok = ['*','*','/'] then some ['.','*','/']
  else if tok = ['/','*','*','/'] then some ['(','?',':','/','.','*','?','/','|','/',')']
  else if tok = ['['] then some ['[']
  else if tok = [']'] then some [']']
  else if tok = [','] then some [',']
  else none

def wordChar (c : Char) : Bool := c.isAlphanum || c == '_'

/- What quotemeta puts a backslash before; of the characters that are not ASCII that depends on the string. -/
def quoted (wide : Char → Bool) (c : Char) : Bool := if c.toNat < 128 then !wordChar c else wide c

def quotemeta (wide : Char → Bool) (s : Text) : Text := s.flatMap fun c => if quoted wide c then ['\\',c] else [c]

def schemeChar (c : Char) : Bool := c.isAlphanum || c == '+'

def hostChar (c : Char) : Bool := c.isDigit || ('a' ≤ c && c ≤ 'f') || ('A' ≤ c && c ≤ 'F') || c == ':'

def portRest : Text → Option Text
  | '/' :: s => some s
  | ':' :: s =>
    match s.takeWhile Char.isDigit,s.dropWhile Char.isDigit with
    | _ :: _,'/' :: s => some s
    | _,_ => none
  | _ => none

def urlRest (glob : Text) : Option Text :=
  match glob.takeWhile schemeChar,glob.dropWhile schemeChar with
  | _ :: _,':' :: '/' :: '/' :: '[' :: s =>
    match s.takeWhile hostChar,s.dropWhile hostChar with
    | _ :: _,']' :: s => portRest s
    | _,_ => none
  | _,_ => none

def cutUrl (glob : Text) : Text × Text :=
  match urlRest glob with
  | none => ([],glob)
  | some rest => (glob.take (glob.length - rest.length),rest)

def tokens : Bool → Text → List Text
  | _,[] => []
  | _,'/' :: '*' :: '*' :: '/' :: s => ['/','*','*','/'] :: tokens false s
  | true,'*' :: '*' :: '/' :: s => ['*','*','/'] :: tokens false s
  | _,['/','*','*'] => [['/','*','*']]
  | _,c :: s => [c] :: tokens false s

structure Quoting where
  p : Text
  inBracket : Int
  qm : Int
  re : Text

def counted (q : Quoting) (tok : Text) : Quoting × Option Text :=
  if q.p = ['\\'] then (q,none)
  else
    ({ q with
        p := tok
        inBracket := if tok = ['['] then q.inBracket + 1 else if tok = [']'] then q.inBracket - 1 else q.inBracket
        qm := if tok = [','] then q.qm + 1 else q.qm },reMap tok)

def replaceTok (wide : Char → Bool) (q : Quoting) (tok : Text) : Quoting :=
  match counted q tok with
  | (q,some re) => { q with re := q.re ++ re }
  | (q,none) =>
    if tok = ['-'] ∧ q.inBracket ≠ 0 then { q with p := tok, re := q.re ++ tok }
    else { q with p := tok, qm := q.qm + 1, re := q.re ++ quotemeta wide tok }

def quoting (wide : Char → Bool) (glob : Text) : Quoting := (tokens true glob).foldl (replaceTok wide) ⟨[],0,0,[]⟩

def bars (s : Text) : Text := s.map fun c => if c = ',' then '|' else c

def braceAt (s : Text) : Option (Text × Text) :=
  match s.dropWhile (· != '\\') with
  | '\\' :: '\x7b' :: s' =>
    match s'.dropWhile (· != ',') with
    | ',' :: s'' =>
      match s''.dropWhile (· != '\\') with
      | '\\' :: '\x7d' :: rest =>
        let inBraces := s'.takeWhile (· != ',') ++ ',' :: s''.takeWhile (· != '\\')
        some (s.takeWhile (· != '\\') ++ '(' :: (bars inBraces ++ [')']),rest)
      | _ => none
    | _ => none
  | _ => none

theorem dropShorter (p : Char → Bool) (s : Text) : (s.dropWhile p).length ≤ s.length := (List.dropWhile_sublist p).length_le

theorem braceShorter {s out rest : Text} (found : braceAt s = some (out,rest)) : rest.length < s.length := by
  unfold braceAt at found
  split at found
  · rename_i s' is
    split at found
    · rename_i s'' is'
      split at found
      · rename_i rest' is''
        cases found
        have one := dropShorter (· != '\\') s
        have two := dropShorter (· != ',') s'
        have three := dropShorter (· != '\\') s''
        rw [is] at one
        rw [is'] at two
        rw [is''] at three
        simp only [List.length_cons] at one two three
        omega
      · cases found
    · cases found
  · cases found

def braces (s : Text) : Text × Int :=
  match s with
  | [] => ([],0)
  | c :: s =>
    match _found : braceAt (c :: s) with
    | some (out,rest) => (out ++ (braces rest).1,(braces rest).2 + 1)
    | none => (c :: (braces s).1,(braces s).2)
termination_by s.length
decreasing_by
  · exact braceShorter _found
  · exact Nat.lt_succ_self _

def glob2re (wide : Char → Bool) (glob : Text) : Option Text :=
  let (schemaHostPort,re) := cutUrl glob
  let q := quoting wide re
  let (re',replaced) := braces q.re
  let changes := ((tokens true re).length : Int) + replaced
  if changes - q.qm ≠ 0 then some (quotemeta wide schemaHostPort ++ re') else none

end PublicInbox.Config
