import PublicInbox.Library.Leftmost
import Mathlib.Data.List.DropRight

/-! Eml.pm: a message is split into its header and its body, and put together again. -/
namespace PublicInbox.Mime

structure Eml where
  hdr : List Char
  crlf : List Char
  bdy : Option (List Char)
  deriving DecidableEq

namespace Eml
abbrev Text := List Char

def headerSizeLimit : Nat := 102400

def hdrTruncate (hdr : Text) : Text := (hdr.take headerSizeLimit).rdropWhile (· ≠ '\n')

def limited (hdr : Text) : Text := if hdr.length > headerSizeLimit then hdrTruncate hdr else hdr

def eol : Text → Option (Text × Text)
  | '\n' :: t => some (['\n'],t)
  | '\r' :: '\n' :: t => some (['\r','\n'],t)
  | _ => none

def emptyLine (u : Text) : Option (Text × Text × Text) :=
  match eol u with
  | some (e,t) => (eol t).map fun next => (e,next.1,next.2)
  | none => none

def fieldChar (c : Char) : Bool := c.isAlphanum || c == '-'

def blank (c : Char) : Bool := c == ' ' || c == '\t'

def fieldAt (u : Text) : Bool :=
  u.head?.any fieldChar && ((u.dropWhile fieldChar).dropWhile blank).head? == some ':'

def hasField : Bool → Text → Bool
  | _,[] => false
  | start,c :: t => start && fieldAt (c :: t) || hasField (c == '\n') t

def lastEol (s : Text) : Option Text :=
  if ['\r','\n'].isSuffixOf s then some ['\r','\n'] else if ['\n'].isSuffixOf s then some ['\n'] else none

def new (s : Text) : Eml :=
  match if Leftmost.index ['\r','\n'] s = none then Leftmost.index ['\n','\n'] s else none with
  | some (hdr,bdy) => ⟨limited (hdr ++ ['\n']),['\n'],some bdy⟩
  | none =>
    match Leftmost.find emptyLine s with
    | some (hdr,e,crlf,bdy) => ⟨limited (hdr ++ e),crlf,some bdy⟩
    | none =>
      match if hasField true s then lastEol s else none with
      | some crlf => ⟨limited (s.take (headerSizeLimit + 1)),crlf,none⟩
      | none => ⟨[],((Leftmost.find eol s).map fun found => found.2.1).getD ['\n'],some s⟩

def asString (eml : Eml) : Text :=
  match eml.bdy with
  | some bdy => eml.hdr ++ eml.crlf ++ bdy
  | none => eml.hdr

def rawSize (eml : Eml) : Nat :=
  match eml.bdy with
  | some bdy => eml.hdr.length + (bdy.length + eml.crlf.length)
  | none => eml.hdr.length

/- A header section, which may have no line at all, the empty line after it and any body. -/
structure Sectioned where
  hdr : Text
  crlf : Text
  bdy : Text
  whole : hdr = [] ∨ hdr.getLast? = some '\n'
  fits : hdr.length ≤ headerSizeLimit
  empty : crlf = ['\n'] ∨ crlf = ['\r','\n']

def Sectioned.text (m : Sectioned) : Text := m.hdr ++ m.crlf ++ m.bdy

def Held (s : Text) : Prop :=
  match Leftmost.find emptyLine s with
  | some (hdr,e,_,_) => (hdr ++ e).length ≤ headerSizeLimit
  | none => hasField true s = true ∧ lastEol s ≠ none ∧ s.length ≤ headerSizeLimit

theorem rawSizeLength (eml : Eml) : rawSize eml = (asString eml).length := by
  unfold rawSize asString
  cases eml.bdy with
  | none => rfl
  | some bdy =>
    simp only [List.length_append]
    omega

theorem eolSome {u e t : Text} (is : eol u = some (e,t)) : (e = ['\n'] ∨ e = ['\r','\n']) ∧ u = e ++ t := by
  unfold eol at is
  split at is
  · cases is
    exact ⟨.inl rfl,rfl⟩
  · cases is
    exact ⟨.inr rfl,rfl⟩
  · cases is

theorem eolAppend {e : Text} (is : e = ['\n'] ∨ e = ['\r','\n']) (t : Text) : eol (e ++ t) = some (e,t) := by
  rcases is with rfl | rfl <;> rfl

theorem emptyLineSome {u e crlf t : Text} (is : emptyLine u = some (e,crlf,t)) :
    (e = ['\n'] ∨ e = ['\r','\n']) ∧ (crlf = ['\n'] ∨ crlf = ['\r','\n']) ∧ u = e ++ crlf ++ t := by
  unfold emptyLine at is
  split at is
  · rename_i e' t' first
    obtain ⟨⟨crlf',t''⟩,second,same⟩ := Option.map_eq_some_iff.mp is
    cases same
    obtain ⟨end',text⟩ := eolSome first
    obtain ⟨end'',text'⟩ := eolSome second
    exact ⟨end',end'',by rw [text,text',List.append_assoc]⟩
  · cases is

theorem limitedFits {hdr : Text} : limited hdr = hdr ↔ hdr.length ≤ headerSizeLimit := by
  constructor
  · intro same
    by_contra long
    have short : (hdrTruncate hdr).length ≤ (hdr.take headerSizeLimit).length := (List.rdropWhile_prefix _ _).length_le
    rw [limited,if_pos (Nat.lt_of_not_le long)] at same
    rw [same,List.length_take] at short
    omega
  · exact fun fits => if_neg (Nat.not_lt.mpr fits)

theorem unixEmptyLine {s : Text} (unix : Leftmost.index ['\r','\n'] s = none) :
    Leftmost.find emptyLine s = (Leftmost.index ['\n','\n'] s).map fun found => (found.1,['\n'],['\n'],found.2) := by
  refine Leftmost.findMap (f := fun bdy => (['\n'],['\n'],bdy)) fun q u parts => ?_
  have apart {q u : Text} (parts : s = q ++ u) (t : Text) : u ≠ '\r' :: '\n' :: t := fun is =>
    Option.some_ne_none _ ((Leftmost.stripSome.mpr is).symm.trans (Leftmost.findNone.mp unix q u parts))
  cases bare : Leftmost.strip ['\n','\n'] u with
  | some bdy =>
    rw [Leftmost.stripSome.mp bare]
    rfl
  | none =>
    cases is : emptyLine u with
    | none => rfl
    | some found =>
      obtain ⟨e,crlf,bdy⟩ := found
      obtain ⟨end',end'',text⟩ := emptyLineSome is
      rcases end' with rfl | rfl
      · rcases end'' with rfl | rfl
        · have found := (Leftmost.stripSome (w := ['\n','\n'])).mpr text
          exact absurd (bare.symm.trans found) (Option.some_ne_none _).symm
        · have behind : s = (q ++ ['\n']) ++ '\r' :: '\n' :: bdy := by
            rw [parts,text]
            simp only [List.append_assoc,List.cons_append,List.nil_append]
          exact absurd rfl (apart behind bdy)
      · exact absurd text (apart parts _)

theorem newFound {s hdr e crlf bdy : Text} (first : Leftmost.find emptyLine s = some (hdr,e,crlf,bdy)) :
    new s = ⟨limited (hdr ++ e),crlf,some bdy⟩ := by
  unfold new
  split
  · rename_i hdr' bdy' here
    split at here
    · rename_i unix
      rw [unixEmptyLine unix,here,Option.map_some] at first
      cases first
      rfl
    · cases here
  · rw [first]

theorem newBodiless {s : Text} (none : Leftmost.find emptyLine s = none) :
    new s = match if hasField true s then lastEol s else .none with
      | some crlf => ⟨limited (s.take (headerSizeLimit + 1)),crlf,.none⟩
      | .none => ⟨[],((Leftmost.find eol s).map fun found => found.2.1).getD ['\n'],some s⟩ := by
  unfold new
  split
  · rename_i hdr bdy here
    split at here
    · rename_i unix
      rw [unixEmptyLine unix,here] at none
      cases none
    · cases here
  · rw [none]

theorem aloneString {s : Text} : limited (s.take (headerSizeLimit + 1)) = s ↔ s.length ≤ headerSizeLimit := by
  constructor
  · intro same
    by_contra long
    have cut : (s.take (headerSizeLimit + 1)).length = headerSizeLimit + 1 := by
      rw [List.length_take]
      omega
    have short : (hdrTruncate (s.take (headerSizeLimit + 1))).length ≤ headerSizeLimit :=
      ((List.rdropWhile_prefix _ _).length_le).trans (List.length_take_le _ _)
    have large : headerSizeLimit < (s.take (headerSizeLimit + 1)).length := by omega
    rw [limited,if_pos large] at same
    rw [same] at short
    exact long short
  · intro fits
    rw [List.take_of_length_le (Nat.le_succ_of_le fits)]
    exact limitedFits.mpr fits

theorem heldString (s : Text) : asString (new s) = s ↔ Held s := by
  unfold Held
  split
  · rename_i hdr e crlf bdy first
    obtain ⟨u,parts,is⟩ := Leftmost.findSpec first
    have text : s = hdr ++ e ++ (crlf ++ bdy) := by
      rw [parts,(emptyLineSome is).2.2]
      simp only [List.append_assoc]
    have whole : asString (new s) = limited (hdr ++ e) ++ (crlf ++ bdy) := by
      rw [newFound first]
      exact List.append_assoc ..
    rw [whole,← limitedFits]
    constructor
    · exact fun same => List.append_cancel_right (same.trans text)
    · exact fun fits => (congrArg (· ++ (crlf ++ bdy)) fits).trans text.symm
  · rename_i none
    rw [newBodiless none]
    split
    · rename_i crlf is
      split at is
      · rename_i field
        exact aloneString.trans ⟨fun fits => ⟨field,is ▸ Option.some_ne_none _,fits⟩,fun held => held.2.2⟩
      · cases is
    · rename_i is
      -- the line end that stands for the empty line is put before the text
      constructor
      · intro same
        have size := congrArg List.length same
        have some : ((Leftmost.find eol s).map fun found => found.2.1).getD ['\n'] ≠ [] := by
          cases first : Leftmost.find eol s with
          | none => exact List.cons_ne_nil _ _
          | some found =>
            obtain ⟨u,_,here⟩ := Leftmost.findSpec (p := found.1) (b := found.2) first
            rcases (eolSome (e := found.2.1) (t := found.2.2) here).1 with end' | end' <;>
              exact fun empty => nomatch end'.symm.trans empty
        simp only [asString,List.nil_append,List.length_append,Nat.add_eq_right] at size
        exact absurd (List.length_eq_zero_iff.mp size) some
      · rintro ⟨field,ends,_⟩
        rw [if_pos field] at is
        exact absurd is ends

namespace Sectioned
variable (m : Sectioned) (filled : m.hdr ≠ [])
include filled

theorem front : m.hdr = m.hdr.dropLast ++ ['\n'] :=
  (List.dropLast_append_getLast? _ (m.whole.resolve_left filled)).symm

theorem behind : m.text = m.hdr.dropLast ++ ('\n' :: (m.crlf ++ m.bdy)) := by
  conv_lhs => rw [text,m.front filled]
  simp only [List.append_assoc,List.cons_append,List.nil_append]

theorem held : Held m.text := by
  have size : m.hdr.dropLast.length + 1 ≤ headerSizeLimit := by
    have whole := congrArg List.length (m.front filled)
    rw [List.length_append,List.length_singleton] at whole
    exact whole ▸ m.fits
  have here : emptyLine ('\n' :: (m.crlf ++ m.bdy)) = some (['\n'],m.crlf,m.bdy) := by
    have newline : eol ('\n' :: (m.crlf ++ m.bdy)) = some (['\n'],m.crlf ++ m.bdy) := rfl
    simp only [emptyLine,newline,eolAppend m.empty,Option.map_some]
  obtain ⟨hdr,⟨e,crlf,bdy⟩,first,before⟩ := Leftmost.findFirst (q := m.hdr.dropLast) here
  rw [← m.behind filled] at first
  obtain ⟨u,parts,is⟩ := Leftmost.findSpec first
  obtain ⟨end',_,text⟩ := emptyLineSome is
  simp only [Held,first,List.length_append]
  rcases end' with rfl | rfl
  · exact (Nat.add_le_add_right before 1).trans size
  -- a carriage return is not where the last newline of the header is
  · have other : hdr.length ≠ m.hdr.dropLast.length := by
      intro same
      have split := (List.append_inj (parts.symm.trans (m.behind filled)) same).2
      rw [text] at split
      exact absurd (List.cons.inj split).1 (by decide)
    have strict : hdr.length + 1 ≤ m.hdr.dropLast.length := lt_of_le_of_ne before other
    exact (Nat.add_le_add_right strict 1).trans size

end Sectioned

theorem parsedSerialised (m : Sectioned) :
    (asString (new m.text) = m.text ∧ new (asString (new m.text)) = new m.text ∧
      rawSize (new m.text) = (asString (new m.text)).length) ↔ m.hdr ≠ [] ∨ Held m.text := by
  constructor
  · exact fun whole => .inr ((heldString _).mp whole.1)
  · intro meets
    have same := (heldString _).mpr (meets.elim m.held id)
    exact ⟨same,congrArg new same,rawSizeLength _⟩

def headless : Sectioned := ⟨[],['\n'],['h','e','l','l','o'],.inl rfl,Nat.zero_le _,.inl rfl⟩

theorem emptyLineDoubled : asString (new headless.text) = '\n' :: headless.text ∧ asString (new headless.text) ≠ headless.text := by
  decide

end Eml
end PublicInbox.Mime
