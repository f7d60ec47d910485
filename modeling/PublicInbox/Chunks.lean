import PublicInbox.Library.Feed
import Mathlib.Data.List.TakeWhile

/-! The patterns that HTTP.pm and H1ReqRes.pm share to follow a body in chunks, and the bodies that
they are written for. -/
namespace PublicInbox.Chunks
open Feed

inductive Left where
  | start
  | «end»
  | tlrEnd
  | chunk (n : Nat)
  deriving DecidableEq

def chunkMaxHdr : Nat := 256

def isHex (c : Char) : Bool := c.isDigit || c.toLower ∈ ['a','b','c','d','e','f']

def hexDigit (c : Char) : Nat := if c.isDigit then c.toNat - '0'.toNat else c.toLower.toNat - 'a'.toNat + 10

def hex (ds : List Char) : Nat := ds.foldl (fun n c => 16 * n + hexDigit c) 0

def takeLine : List Char → Option (List Char × List Char)
  | [] => none
  | '\r' :: '\n' :: rest => some ([],rest)
  | '\n' :: _ => none
  | c :: cs => (takeLine cs).map fun (l,rest) => (c :: l,rest)

def takeSize (rbuf : List Char) : Option ((List Char × List Char) × List Char) :=
  if rbuf.takeWhile isHex = [] then none
  else (takeLine (rbuf.dropWhile isHex)).map fun (ext,rest) => ((rbuf.takeWhile isHex,ext),rest)

def takeEnd : List Char → Option (Unit × List Char)
  | '\r' :: '\n' :: rest => some ((),rest)
  | _ => none

def isKeyChar (c : Char) : Bool := c.isAlpha || c.isDigit || c == '-'

def isTrailer : List Char → Bool
  | [] => false
  | c :: cs => c == ' ' || c == '\t' || (c.isAlpha && (cs.dropWhile isKeyChar).head? == some ':')

def trailersFrom (line : List Char) : List Char → Option (List Char × List Char)
  | [] => none
  | c :: rest =>
    if c = '\n' then
      if line = ['\r'] then some ([],rest)
      else if isTrailer line then (trailersFrom [] rest).map fun (tlr,rest) => (line ++ '\n' :: tlr,rest)
      else none
    else trailersFrom (line ++ [c]) rest

def takeTrailers (rbuf : List Char) : Option (List Char × List Char) := trailersFrom [] rbuf

structure SizeLine where
  digits : List Char
  ext : List Char
  some : digits ≠ []
  hexes : ∀ c ∈ digits,isHex c = true
  apart : ∀ c ∈ ext.head?,isHex c = false
  oneLine : '\n' ∉ ext

def SizeLine.text (l : SizeLine) : List Char := l.digits ++ l.ext ++ ['\r','\n']

def SizeLine.size (l : SizeLine) : Nat := hex l.digits

structure Chunk where
  line : SizeLine
  data : List Char
  sized : data.length = line.size
  more : data ≠ []

def Chunk.text (c : Chunk) : List Char := c.line.text ++ c.data ++ ['\r','\n']

structure Trailer where
  line : List Char
  named : isTrailer line = true
  oneLine : '\n' ∉ line

def Trailer.text (t : Trailer) : List Char := t.line ++ ['\n']

def trailerText (ts : List Trailer) : List Char := ts.flatMap Trailer.text

structure Body where
  chunks : List Chunk
  last : SizeLine
  zero : last.size = 0
  trailers : List Trailer

def Body.tail (b : Body) : List Char := b.last.text ++ trailerText b.trailers ++ ['\r','\n']

def Body.text (b : Body) : List Char := b.chunks.flatMap Chunk.text ++ b.tail

def Body.data (b : Body) : List Char := b.chunks.flatMap Chunk.data

def Body.lines (b : Body) : List SizeLine := b.chunks.map Chunk.line ++ [b.last]

structure Body.Within (b : Body) (tlr : Nat) : Prop where
  digits : ∀ l ∈ b.lines,l.digits.length ≤ 8
  line : ∀ l ∈ b.lines,l.text.length ≤ chunkMaxHdr + 1
  trailers : (trailerText b.trailers).length + 1 ≤ tlr

def helloBody : Body where
  chunks := [⟨⟨['5'],";a=b".toList,by decide,by simp; rfl,by simp; rfl,by decide⟩,"hello".toList,by decide,by decide⟩]
  last := ⟨['0'],[],by decide,by simp; rfl,by simp,by decide⟩
  zero := by decide
  trailers := [⟨"X-Md5: 1\r".toList,by decide,by decide⟩]

def garbageBody : Body where
  chunks := [⟨⟨['5'],"garbage".toList,by decide,by simp; rfl,by simp; rfl,by decide⟩,"hello".toList,by decide,by decide⟩]
  last := ⟨['0'],[],by decide,by simp; rfl,by simp,by decide⟩
  zero := by decide
  trailers := []

theorem noNewline {t buf rest : List Char} (only : '\n' ∉ t) (parts : t ++ ['\n'] = buf ++ rest) (some : rest ≠ []) : '\n' ∉ buf := by
  rcases List.append_eq_append_iff.mp parts with ⟨ends,is,follows⟩ | ⟨ends,is,-⟩
  · cases ends with
    | nil => rw [List.append_nil] at is; rwa [is]
    | cons c ends =>
      simp only [List.cons_append,List.cons.injEq] at follows
      exact absurd (List.append_eq_nil_iff.mp follows.2.symm).2 some
  · rw [is] at only
    exact fun mem => only (List.mem_append_left _ mem)

theorem takeLineNone {buf : List Char} (plain : '\n' ∉ buf) : takeLine buf = none := by
  induction buf with
  | nil => rfl
  | cons c cs ih =>
    obtain ⟨apart,later⟩ := List.ne_and_not_mem_of_not_mem_cons plain
    unfold takeLine
    split
    · rfl
    · rename_i is
      cases is
      exact absurd List.mem_cons_self later
    · rename_i is
      cases is
      exact absurd rfl apart
    · rename_i is
      obtain ⟨rfl,rfl⟩ := List.cons.inj is
      rw [ih later]
      rfl

theorem takeLineCons {c : Char} {cs : List Char} (plain : c ≠ '\n') (open' : cs.head? ≠ some '\n') :
    takeLine (c :: cs) = (takeLine cs).map fun (l,rest) => (c :: l,rest) := by
  conv_lhs => unfold takeLine
  split
  · rename_i is
    cases is
  · rename_i is
    obtain ⟨rfl,rfl⟩ := List.cons.inj is
    exact absurd rfl open'
  · rename_i is
    cases is
    exact absurd rfl plain
  · rename_i is
    obtain ⟨rfl,rfl⟩ := List.cons.inj is
    rfl

theorem lineWhole {ext : List Char} (oneLine : '\n' ∉ ext) (more : List Char) :
    takeLine (ext ++ '\r' :: '\n' :: more) = some (ext,more) := by
  induction ext with
  | nil => rfl
  | cons c cs ih =>
    obtain ⟨apart,later⟩ := List.ne_and_not_mem_of_not_mem_cons oneLine
    have plain : (cs ++ '\r' :: '\n' :: more).head? ≠ some '\n' := by
      cases cs with
      | nil => simp
      | cons d ds => simpa using fun is : d = '\n' => later (is ▸ List.mem_cons_self)
    rw [List.cons_append,takeLineCons (Ne.symm apart) plain,ih later]
    rfl

theorem lineTaken {buf ext rest : List Char} (found : takeLine buf = some (ext,rest)) :
    '\n' ∉ ext ∧ buf = ext ++ '\r' :: '\n' :: rest := by
  induction buf generalizing ext with
  | nil => cases found
  | cons c cs ih =>
    unfold takeLine at found
    split at found
    · cases found
    · rename_i is
      cases found
      exact ⟨List.not_mem_nil,is⟩
    · cases found
    · rename_i plain is
      obtain ⟨rfl,rfl⟩ := List.cons.inj is
      obtain ⟨⟨l,r⟩,inner,made⟩ := Option.map_eq_some_iff.mp found
      cases made
      obtain ⟨oneLine,all⟩ := ih inner
      exact ⟨List.not_mem_cons_of_ne_of_not_mem (fun is => plain is.symm) oneLine,congrArg _ all⟩

theorem takenDigits {ds more : List Char} (hexes : ∀ c ∈ ds,isHex c = true) (apart : ∀ c ∈ more.head?,isHex c = false) :
    (ds ++ more).takeWhile isHex = ds ∧ (ds ++ more).dropWhile isHex = more := by
  rw [List.takeWhile_append_of_pos hexes,List.dropWhile_append_of_pos hexes]
  cases more with
  | nil => simp
  | cons c cs => simp [apart c rfl]

theorem SizeLine.takes (l : SizeLine) : Takes takeSize l.text (l.digits,l.ext) where
  whole := by
    intro more
    have apart : ∀ c ∈ (l.ext ++ '\r' :: '\n' :: more).head?,isHex c = false := by
      cases is : l.ext with
      | nil => simp [isHex]
      | cons c cs => simpa [is] using l.apart
    have text : l.text ++ more = l.digits ++ (l.ext ++ '\r' :: '\n' :: more) := by simp [SizeLine.text]
    obtain ⟨taken,dropped⟩ := takenDigits l.hexes apart
    rw [text,takeSize,taken,dropped,if_neg l.some,lineWhole l.oneLine]
    rfl
  part := by
    intro buf rest is some
    have plain : '\n' ∉ l.digits ++ l.ext ++ ['\r'] := by
      have digits : '\n' ∉ l.digits := fun mem => absurd (l.hexes _ mem) (by decide)
      simp [digits,l.oneLine]
    have none := noNewline plain (by simpa [SizeLine.text] using is) some
    have dropped : '\n' ∉ buf.dropWhile isHex := fun mem => none ((List.dropWhile_sublist _).mem mem)
    rw [takeSize,takeLineNone dropped]
    exact ite_self _

theorem sizeTaken {buf digits ext rest : List Char} (found : takeSize buf = some ((digits,ext),rest)) :
    ∃ l : SizeLine,l.digits = digits ∧ l.ext = ext ∧ buf = l.text ++ rest := by
  rw [takeSize] at found
  split at found
  · cases found
  · rename_i some
    obtain ⟨⟨e,r⟩,line,made⟩ := Option.map_eq_some_iff.mp found
    cases made
    obtain ⟨oneLine,dropped⟩ := lineTaken line
    have all : buf = buf.takeWhile isHex ++ (ext ++ '\r' :: '\n' :: rest) := by
      rw [← dropped,List.takeWhile_append_dropWhile]
    refine ⟨⟨_,ext,some,fun c mem => List.mem_takeWhile_imp mem,fun c mem => ?_,oneLine⟩,rfl,rfl,?_⟩
    · have first : (buf.dropWhile isHex).head? = Option.some c := by
        rw [dropped]
        cases ext with
        | nil => cases mem
        | cons d ds => exact mem
      simpa [first] using List.head?_dropWhile_not isHex buf
    · simpa [SizeLine.text] using all

theorem SizeLine.textSame {l l' : SizeLine} {more more' : List Char} (same : l.text ++ more = l'.text ++ more') : l = l' ∧ more = more' := by
  have taken := l.takes.whole more
  rw [same,l'.takes.whole more'] at taken
  obtain ⟨⟨digits,ext⟩,rest⟩ : (l'.digits = l.digits ∧ l'.ext = l.ext) ∧ more' = more := by simpa using taken
  cases l
  cases l'
  cases digits
  cases ext
  exact ⟨rfl,rest.symm⟩

theorem Body.linesSame {b b' : Body} {next next' : List Char} (same : b.text ++ next = b'.text ++ next') : b.lines = b'.lines := by
  obtain ⟨chunks,last,zero,trailers⟩ := b
  obtain ⟨chunks',last',zero',trailers'⟩ := b'
  have sized (c : Chunk) : c.line.size ≠ 0 := fun none => c.more (List.length_eq_zero_iff.mp (c.sized.trans none))
  simp only [Body.text,Body.tail,Body.lines] at same ⊢
  induction chunks generalizing chunks' with
  | nil => cases chunks' with
    | nil =>
      simp only [List.flatMap_nil,List.nil_append,List.append_assoc] at same
      rw [(SizeLine.textSame same).1]
    | cons c' cs' =>
      simp only [List.flatMap_nil,List.flatMap_cons,List.nil_append,Chunk.text,List.append_assoc] at same
      exact absurd ((SizeLine.textSame same).1 ▸ zero) (sized c')
  | cons c cs ih => cases chunks' with
    | nil =>
      simp only [List.flatMap_nil,List.flatMap_cons,List.nil_append,Chunk.text,List.append_assoc] at same
      exact absurd ((SizeLine.textSame same).1.symm ▸ zero') (sized c)
    | cons c' cs' =>
      simp only [List.flatMap_cons,Chunk.text,List.append_assoc] at same
      obtain ⟨line,rest⟩ := SizeLine.textSame same
      have long : c.data.length = c'.data.length := c.sized.trans ((congrArg SizeLine.size line).trans c'.sized.symm)
      obtain ⟨_,later⟩ := List.append_inj rest long
      have inner := ih cs' (by simpa only [List.append_assoc] using List.append_cancel_left later)
      simp only [List.map_cons,List.cons_append,line,inner]

theorem endTakes : Takes takeEnd ['\r','\n'] () where
  whole := fun _ => rfl
  part := by
    intro buf rest is some
    match buf with
    | [] | [_] => simp [takeEnd]
    | a :: b :: cs =>
      simp only [List.cons_append,List.cons.injEq] at is
      exact absurd (List.append_eq_nil_iff.mp is.2.2.symm).2 some

theorem endTaken {buf rest : List Char} (found : takeEnd buf = some ((),rest)) : buf = ['\r','\n'] ++ rest := by
  unfold takeEnd at found
  split at found
  · cases found
    rfl
  · cases found

theorem trailersOpen {buf : List Char} (plain : '\n' ∉ buf) (line : List Char) : trailersFrom line buf = none := by
  induction buf generalizing line with
  | nil => rfl
  | cons c cs ih =>
    obtain ⟨apart,later⟩ := List.ne_and_not_mem_of_not_mem_cons plain
    rw [trailersFrom,if_neg (Ne.symm apart),ih later]

theorem trailersLine {l : List Char} (oneLine : '\n' ∉ l) (line more : List Char) :
    trailersFrom line (l ++ '\n' :: more) = trailersFrom (line ++ l) ('\n' :: more) := by
  induction l generalizing line with
  | nil => simp
  | cons c cs ih =>
    obtain ⟨apart,later⟩ := List.ne_and_not_mem_of_not_mem_cons oneLine
    rw [List.cons_append,trailersFrom,if_neg (Ne.symm apart),ih later,List.append_assoc]
    rfl

theorem Trailer.step (t : Trailer) (more : List Char) :
    takeTrailers (t.text ++ more) = (takeTrailers more).map fun (tlr,rest) => (t.text ++ tlr,rest) := by
  have apart : t.line ≠ ['\r'] := fun is => by
    have named := t.named
    rw [is] at named
    exact absurd named (by decide)
  rw [takeTrailers,Trailer.text,List.append_assoc,List.singleton_append,trailersLine t.oneLine,List.nil_append,
    trailersFrom,if_pos rfl,if_neg apart,if_pos t.named,takeTrailers]
  simp

theorem trailersTakes (ts : List Trailer) : Takes takeTrailers (trailerText ts ++ ['\r','\n']) (trailerText ts) where
  whole := by
    intro more
    induction ts with
    | nil => rfl
    | cons t ts ih =>
      have text : trailerText (t :: ts) ++ ['\r','\n'] ++ more = t.text ++ (trailerText ts ++ ['\r','\n'] ++ more) := by
        simp [trailerText]
      rw [text,t.step,ih]
      simp [trailerText]
  part := by
    intro buf rest is some
    induction ts generalizing buf with
    | nil =>
      have plain : '\n' ∉ ['\r'] := by decide
      exact trailersOpen (noNewline plain is some) []
    | cons t ts ih =>
      have parts : t.text ++ (trailerText ts ++ ['\r','\n']) = buf ++ rest := by simpa [trailerText] using is
      rcases List.append_eq_append_iff.mp parts with ⟨left,is,follows⟩ | ⟨left,is,follows⟩
      · rw [is,t.step,ih follows]
        rfl
      · cases left with
        | nil =>
          rw [List.append_nil] at is
          have again := t.step []
          rw [List.append_nil] at again
          rw [← is,again]
          rfl
        | cons c left => exact trailersOpen (noNewline t.oneLine is (by simp)) []

theorem trailersRead {buf line tlr rest : List Char} (open' : '\n' ∉ line) (found : trailersFrom line buf = some (tlr,rest)) :
    ∃ ts : List Trailer,trailerText ts = tlr ∧ line ++ buf = trailerText ts ++ ['\r','\n'] ++ rest := by
  induction buf generalizing line tlr with
  | nil => cases found
  | cons c cs ih =>
    rw [trailersFrom] at found
    split at found
    · rename_i newline
      subst newline
      split at found
      · rename_i last
        cases found
        exact ⟨[],rfl,by simp [last,trailerText]⟩
      · split at found
        · rename_i named
          obtain ⟨⟨t,r⟩,inner,made⟩ := Option.map_eq_some_iff.mp found
          cases made
          obtain ⟨ts,text,all⟩ := ih List.not_mem_nil inner
          refine ⟨⟨line,named,open'⟩ :: ts,by simp [← text,trailerText,Trailer.text],?_⟩
          simpa [trailerText,Trailer.text] using all
        · cases found
    · rename_i plain
      have more : '\n' ∉ line ++ [c] := by simp [open',Ne.symm plain]
      obtain ⟨ts,text,all⟩ := ih more found
      exact ⟨ts,text,by simpa using all⟩

theorem trailersTaken {buf tlr rest : List Char} (found : takeTrailers buf = some (tlr,rest)) :
    ∃ ts : List Trailer,trailerText ts = tlr ∧ buf = trailerText ts ++ ['\r','\n'] ++ rest :=
  trailersRead List.not_mem_nil found

end PublicInbox.Chunks
