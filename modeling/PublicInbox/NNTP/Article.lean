import PublicInbox.Eml.Survivors
import PublicInbox.Library.Decimal
import PublicInbox.Mid

/-! NNTP.pm: the replies to ARTICLE, HEAD and BODY. -/
namespace PublicInbox.NNTP
open Mime Mime.Eml Lines DotStuffing

structure Article where
  num : Nat
  mid : Text
  xref : Text
  midLine : '\n' ∉ mid
  xrefLine : '\n' ∉ xref

def messageID : Text := "Message-ID".toList

def xAltMessageID : Text := "X-Alt-Message-ID".toList

def isWord (c : Char) : Bool := c.isAlphanum || c == '_'

def dropNumbers : Nat → Text → Text
  | _,[] => []
  | n + 1,_ :: t => dropNumbers n t
  | 0,c :: t =>
    let digits := t.takeWhile Char.isDigit
    if c = ':' ∧ digits ≠ [] ∧ ¬ (t.dropWhile Char.isDigit).head?.any isWord then dropNumbers digits.length t
    else c :: dropNumbers 0 t

def serverName (xref : Text) : Text := xref.takeWhile (· ≠ ' ')

def newsgroups (xref : Text) : Text := (dropNumbers 0 (xref.dropWhile (· ≠ ' ')).tail).map fun c => if c = ' ' then ',' else c

section
variable (decode : Text → Text) (space : Char → Bool) (wrap : Nat → Text → Text)

def oneMessageID (hdr : Eml) (smsg : Article) : Eml :=
  let mids := headerRaw decode space messageID hdr
  if 1 < mids.length then
    let mid0 := ['<'] ++ smsg.mid ++ ['>']
    let hdr := headerSet wrap messageID [mid0] hdr
    let alt := headerRaw decode space xAltMessageID hdr
    headerSet wrap xAltMessageID (alt ++ uniq (alt ++ [mid0]) mids) hdr
  else hdr

def setNntpHeaders (hdr : Eml) (smsg : Article) : Eml :=
  let hdr := oneMessageID decode space wrap hdr smsg
  let hdr := headerSet wrap "Xref".toList [smsg.xref] hdr
  let hdr := headerSet wrap "Newsgroups".toList [newsgroups smsg.xref] hdr
  headerSet wrap "Path".toList [serverName smsg.xref ++ "!not-for-mail".toList] hdr

end

def midStart (l : Text) : Bool :=
  lower (l.take 11) == "message-id:".toList && (l.drop 11).dropWhile blank == ['\r','\n']

def folded (l : Text) : Option Text :=
  let blanks := l.takeWhile blank
  let text := (l.dropWhile blank).takeWhile (· ≠ '\r')
  if (l.dropWhile blank).dropWhile (· ≠ '\r') = ['\r','\n'] then
    match blanks.reverse with
    | [] => none
    -- the last blank is all that $2 can have
    | b :: more => if text ≠ [] then some text else if more ≠ [] then some [b] else none
  else none

def unfoldMids : List Text → List Text
  | l :: l' :: ls =>
    if midStart l then
      match folded l' with
      | some text => (l.take 11 ++ ' ' :: text ++ ['\r','\n']) :: unfoldMids ls
      | none => l :: unfoldMids (l' :: ls)
    else l :: unfoldMids (l' :: ls)
  | ls => ls

section
variable (decode : Text → Text) (space : Char → Bool) (wrap : Nat → Text → Text)

def msgHdrWrite (eml : Eml) (smsg : Article) : Text :=
  (unfoldMids (lines (toCrlf false (stripFrom (setNntpHeaders decode space wrap eml smsg).hdr)))).flatten

def msgBodyWrite (msg : Text) : Text := ended (toCrlf false (stuff true msg))

inductive Code where
  | article
  | head
  | body
  deriving DecidableEq

def Code.status (code : Code) (smsg : Article) : Text :=
  let about := Decimal.render smsg.num ++ " <".toList ++ smsg.mid ++ "> article retrieved - ".toList
  match code with
  | article => "220 ".toList ++ about ++ "head and body follow".toList
  | head => "221 ".toList ++ about ++ "head follows".toList
  | body => "222 ".toList ++ about ++ "body follows".toList

def blobCb (code : Code) (blob : Text) (smsg : Article) : Text :=
  let eml := Eml.new blob
  let bref := eml.bdy.getD blob
  let r := code.status smsg ++ ['\r','\n']
  match code with
  | .article => r ++ msgHdrWrite decode space wrap eml smsg ++ ['\r','\n'] ++ msgBodyWrite bref ++ ['.','\r','\n']
  | .head => r ++ msgHdrWrite decode space wrap eml smsg ++ ['.','\r','\n']
  | .body => r ++ msgBodyWrite bref ++ ['.','\r','\n']

end

theorem dropNumbersMem {n : Nat} {t : Text} {c : Char} (mem : c ∈ dropNumbers n t) : c ∈ t := by
  induction t generalizing n with
  | nil => cases n <;> cases mem
  | cons d t ih =>
    cases n with
    | succ n => exact List.mem_cons_of_mem _ (ih mem)
    | zero =>
      simp only [dropNumbers] at mem
      split at mem
      · exact List.mem_cons_of_mem _ (ih mem)
      · rcases List.mem_cons.mp mem with rfl | mem
        · exact List.mem_cons_self
        · exact List.mem_cons_of_mem _ (ih mem)

theorem newsgroupsLine (smsg : Article) : '\n' ∉ newsgroups smsg.xref := by
  intro mem
  obtain ⟨c,own,same⟩ := List.mem_map.mp mem
  split at same
  · cases same
  · exact smsg.xrefLine (same ▸ (List.dropWhile_sublist _).subset (List.mem_of_mem_tail (dropNumbersMem own)))

theorem pathLine (smsg : Article) : '\n' ∉ serverName smsg.xref ++ "!not-for-mail".toList := by
  rw [List.mem_append,not_or]
  exact ⟨fun mem => smsg.xrefLine (List.takeWhile_subset _ mem),by decide⟩

theorem unfoldLine (taking : Bool) (t : Text) : '\n' ∉ unfold taking t := by
  induction t generalizing taking with
  | nil => exact List.not_mem_nil
  | cons c t ih =>
    rw [unfold]
    split
    · exact ih true
    · split
      · exact List.not_mem_cons_of_ne_of_not_mem (by decide) (ih true)
      · rename_i other
        split
        · exact ih false
        · exact List.not_mem_cons_of_ne_of_not_mem (Ne.symm other) (ih false)

theorem headerRawLine {decode : Text → Text} {space : Char → Bool} {k : Text} {eml : Eml} : ∀ v ∈ headerRaw decode space k eml,'\n' ∉ v := by
  intro v mem
  obtain ⟨text,_,rfl⟩ := List.mem_map.mp mem
  exact unfoldLine false _

theorem foldedPlain {l text : Text} (is : folded l = some text) : dotted l = false := by
  rw [← Bool.not_eq_true]
  intro dot
  obtain ⟨t,rfl⟩ := List.head?_eq_some_iff.mp (eq_of_beq dot)
  have none : ('.' :: t).takeWhile blank = [] := List.takeWhile_cons_of_neg (by decide)
  simp only [folded,none,List.reverse_nil,ite_self] at is
  cases is

theorem foldedLine {l text : Text} (complete : Complete l) (is : folded l = some text) : '\n' ∉ text := by
  obtain ⟨w,rfl,inside⟩ := complete
  unfold folded at is
  extract_lets blanks t at is
  split at is
  · rename_i rest
    split at is
    · cases is
    · rename_i b more blanks'
      split at is
      · rw [← Option.some.inj is]
        intro mem
        have parts : t ++ ['\r','\n'] <:+ w ++ ['\n'] := by
          rw [← rest,List.takeWhile_append_dropWhile]
          exact List.dropWhile_suffix _
        obtain ⟨v,same⟩ := parts
        have front : v ++ t ++ ['\r'] = w := by
          refine @List.append_cancel_right _ _ ['\n'] _ ?_
          rw [← same]
          simp
        exact inside (front ▸ List.mem_append_left _ (List.mem_append_right _ mem))
      · split at is
        · cases is
          have last : b ∈ blanks := List.mem_reverse.mp (blanks' ▸ List.mem_cons_self)
          intro mem
          have is := List.mem_takeWhile_imp last
          rw [← List.mem_singleton.mp mem] at is
          exact absurd is (by decide)
        · cases is
  · cases is

theorem midStartName {l : Text} (is : midStart l = true) : lower (l.take 11) = "message-id:".toList := eq_of_beq (Bool.and_eq_true_iff.mp is).1

theorem midStartLine {l : Text} (is : midStart l = true) : '\n' ∉ l.take 11 := by
  intro mem
  have low : '\n'.toLower ∈ lower (l.take 11) := List.mem_map_of_mem mem
  rw [midStartName is] at low
  exact absurd low (by decide)

theorem midStartPlain {l : Text} (is : midStart l = true) (t : Text) : dotted (l.take 11 ++ t) = false := by
  rw [← Bool.not_eq_true]
  intro dot
  have name := midStartName is
  cases start : l.take 11 with
  | nil =>
    rw [start] at name
    cases name
  | cons c u =>
    rw [start] at name dot
    have first : c = '.' := Option.some.inj (eq_of_beq dot)
    rw [first] at name
    exact absurd (List.cons.inj name).1 (by decide)

theorem unfoldMidsDots (ls : List Text) : (unfoldMids ls).any dotted = ls.any dotted := by
  induction ls using unfoldMids.induct with
  | case1 l l' ls start text is ih =>
    have whole := midStartPlain start (l.drop 11)
    rw [List.take_append_drop] at whole
    simp only [unfoldMids,start,if_true,is,List.any_cons,List.append_assoc,midStartPlain start,whole,foldedPlain is,ih,Bool.false_or]
  | case2 l l' ls start is ih => simp only [unfoldMids,start,if_true,is,List.any_cons,ih]
  | case3 l l' ls start ih =>
    rw [unfoldMids,if_neg start,List.any_cons,ih,← List.any_cons]
  | case4 ls other =>
    unfold unfoldMids
    split
    · exact absurd rfl (other _ _ _)
    · rfl

theorem unfoldMidsComplete {ls : List Text} (complete : ∀ l ∈ ls,Complete l) : ∀ l ∈ unfoldMids ls,Complete l := by
  induction ls using unfoldMids.induct with
  | case1 l l' ls start text is ih =>
    obtain ⟨first,second,others⟩ : Complete l ∧ Complete l' ∧ ∀ l ∈ ls,Complete l := by simpa using complete
    simp only [unfoldMids,start,if_true,is]
    refine List.forall_mem_cons.mpr ⟨⟨l.take 11 ++ ' ' :: text ++ ['\r'],by simp,?_⟩,ih others⟩
    simp only [List.mem_append,List.mem_cons,List.not_mem_nil,or_false,not_or]
    exact ⟨⟨midStartLine start,by decide,foldedLine second is⟩,by decide⟩
  | case2 l l' ls start is ih =>
    obtain ⟨first,others⟩ := List.forall_mem_cons.mp complete
    simp only [unfoldMids,start,if_true,is]
    exact List.forall_mem_cons.mpr ⟨first,ih others⟩
  | case3 l l' ls start ih =>
    obtain ⟨first,others⟩ := List.forall_mem_cons.mp complete
    rw [unfoldMids,if_neg start]
    exact List.forall_mem_cons.mpr ⟨first,ih others⟩
  | case4 ls other =>
    unfold unfoldMids
    split
    · exact absurd rfl (other _ _ _)
    · exact complete

def located : List Text := ["Xref".toList,"Newsgroups".toList,"Path".toList]

def replaced (several : Bool) : List Text := if several then messageID :: xAltMessageID :: located else located

theorem nameMessageID : Name messageID := ⟨by decide,by decide,by decide,by decide⟩

theorem nameXAltMessageID : Name xAltMessageID := ⟨by decide,by decide,by decide,by decide⟩

theorem nameXref : Name "Xref".toList := ⟨by decide,by decide,by decide,by decide⟩

theorem nameNewsgroups : Name "Newsgroups".toList := ⟨by decide,by decide,by decide,by decide⟩

theorem namePath : Name "Path".toList := ⟨by decide,by decide,by decide,by decide⟩

section
variable {decode : Text → Text} {space : Char → Bool} {wrap : Nat → Text → Text} (tabs : Tabs wrap) (smsg : Article) {eml : Eml}
  (eol : eml.crlf = ['\n'] ∨ eml.crlf = ['\r','\n']) (whole : Whole eml.hdr)
include tabs eol whole

theorem locatedDots :
    let xref := headerSet wrap "Xref".toList [smsg.xref] eml
    let news := headerSet wrap "Newsgroups".toList [newsgroups smsg.xref] xref
    let path := headerSet wrap "Path".toList [serverName smsg.xref ++ "!not-for-mail".toList] news
    Whole path.hdr ∧ (lines path.hdr).any dotted = (outside located false (lines eml.hdr)).any dotted := by
  intro xref news path
  have eolXref : xref.crlf = ['\n'] ∨ xref.crlf = ['\r','\n'] := (headerSetCrlf wrap _ _ eml).symm ▸ eol
  have eolNews : news.crlf = ['\n'] ∨ news.crlf = ['\r','\n'] := (headerSetCrlf wrap _ _ xref).symm ▸ eolXref
  obtain ⟨wholeXref,dotsXref⟩ := headerSetDots tabs nameXref eol whole (List.forall_mem_singleton.mpr smsg.xrefLine)
    (List.forall_mem_cons.mpr ⟨⟨nameNewsgroups,by decide⟩,List.forall_mem_singleton.mpr ⟨namePath,by decide⟩⟩)
  obtain ⟨wholeNews,dotsNews⟩ := headerSetDots tabs nameNewsgroups eolXref wholeXref (List.forall_mem_singleton.mpr (newsgroupsLine smsg))
    (List.forall_mem_singleton.mpr ⟨namePath,by decide⟩)
  obtain ⟨wholePath,dotsPath⟩ := headerSetDots tabs namePath eolNews wholeNews (List.forall_mem_singleton.mpr (pathLine smsg))
    (fun _ mem => absurd mem List.not_mem_nil)
  refine ⟨wholePath,?_⟩
  rw [outsideNone] at dotsPath
  exact dotsPath.trans (dotsNews.trans dotsXref)

theorem oneMessageIDDots :
    let one := oneMessageID decode space wrap eml smsg
    Whole one.hdr ∧ one.crlf = eml.crlf ∧ (outside located false (lines one.hdr)).any dotted =
      (outside (replaced (1 < (headerRaw decode space messageID eml).length)) false (lines eml.hdr)).any dotted := by
  unfold oneMessageID replaced
  extract_lets mids mid0 hdr alt one
  by_cases several : 1 < mids.length
  · have is : one = headerSet wrap xAltMessageID (alt ++ uniq (alt ++ [mid0]) mids) hdr := if_pos several
    rw [is,if_pos (decide_eq_true several)]
    have own : ∀ k ∈ located,Name k ∧ lower k ≠ lower xAltMessageID ∧ lower k ≠ lower messageID := by
      refine List.forall_mem_cons.mpr ⟨⟨nameXref,by decide,by decide⟩,List.forall_mem_cons.mpr ⟨⟨nameNewsgroups,by decide,by decide⟩,
        List.forall_mem_singleton.mpr ⟨namePath,by decide,by decide⟩⟩⟩
    have mid0Line : '\n' ∉ mid0 := by
      simp only [mid0,List.mem_append,List.mem_singleton,not_or]
      exact ⟨⟨by decide,smsg.midLine⟩,by decide⟩
    have altLine : ∀ v ∈ alt ++ uniq (alt ++ [mid0]) mids,'\n' ∉ v := by
      intro v mem
      rcases List.mem_append.mp mem with old | new
      · exact headerRawLine v old
      · exact headerRawLine v (memUniq.mp new).1
    obtain ⟨wholeMid,dotsMid⟩ := headerSetDots tabs nameMessageID eol whole (List.forall_mem_singleton.mpr mid0Line)
      (List.forall_mem_cons.mpr ⟨⟨nameXAltMessageID,by decide⟩,fun k mem => ⟨(own k mem).1,(own k mem).2.2⟩⟩)
    have crlf : hdr.crlf = eml.crlf := headerSetCrlf wrap _ _ eml
    obtain ⟨wholeAlt,dotsAlt⟩ := headerSetDots tabs nameXAltMessageID (crlf.symm ▸ eol) wholeMid altLine
      fun k mem => ⟨(own k mem).1,(own k mem).2.1⟩
    exact ⟨wholeAlt,(headerSetCrlf wrap _ _ hdr).trans crlf,dotsAlt.trans dotsMid⟩
  · have is : one = eml := if_neg several
    rw [is,if_neg (fun several' => several (of_decide_eq_true several'))]
    exact ⟨whole,rfl,rfl⟩

theorem setNntpHeadersDots :
    Whole (setNntpHeaders decode space wrap eml smsg).hdr ∧
      (lines (setNntpHeaders decode space wrap eml smsg).hdr).any dotted =
        (outside (replaced (1 < (headerRaw decode space messageID eml).length)) false (lines eml.hdr)).any dotted := by
  obtain ⟨wholeOne,crlf,dotsOne⟩ := @oneMessageIDDots decode space wrap tabs smsg eml eol whole
  obtain ⟨wholeAll,dotsAll⟩ := locatedDots tabs smsg (crlf.symm ▸ eol) wholeOne
  exact ⟨wholeAll,dotsAll.trans dotsOne⟩

theorem msgHdrDots :
    Whole (msgHdrWrite decode space wrap eml smsg) ∧
      (lines (msgHdrWrite decode space wrap eml smsg)).any dotted =
        (outside (replaced (1 < (headerRaw decode space messageID eml).length)) false (lines eml.hdr)).any dotted := by
  obtain ⟨wholeSet,dotsSet⟩ := @setNntpHeadersDots decode space wrap tabs smsg eml eol whole
  obtain ⟨wholeStrip,dotsStrip⟩ := stripFromDots wholeSet
  have wholeCrlf : ∀ l ∈ lines (toCrlf false (stripFrom (setNntpHeaders decode space wrap eml smsg).hdr)),Complete l := by
    rw [crlfLines wholeStrip]
    intro l mem
    obtain ⟨l',own,rfl⟩ := List.mem_map.mp mem
    exact crlfComplete (wholeStrip l' own) false
  have complete := unfoldMidsComplete wholeCrlf
  refine ⟨wholeFlatten complete,?_⟩
  have same : dotted ∘ toCrlf false = dotted := funext (crlfDotted false)
  rw [msgHdrWrite,linesOf complete,unfoldMidsDots,crlfLines wholeStrip,List.any_map,same,dotsStrip,dotsSet]

end

def Code.selected (decode : Text → Text) (space : Char → Bool) (wrap : Nat → Text → Text) (code : Code) (blob : Text) (smsg : Article) : Text :=
  let hdr := msgHdrWrite decode space wrap (Eml.new blob) smsg
  let bdy := ended (toCrlf false ((Eml.new blob).bdy.getD []))
  match code with
  | article => hdr ++ ['\r','\n'] ++ bdy
  | head => hdr
  | body => bdy

def Undotted (decode : Text → Text) (space : Char → Bool) (blob : Text) : Prop :=
  ∀ l ∈ outside (replaced (1 < (headerRaw decode space messageID (Eml.new blob)).length)) false (lines (Eml.new blob).hdr),dotted l = false

def Code.Sound (decode : Text → Text) (space : Char → Bool) (code : Code) (blob : Text) : Prop :=
  (code ≠ .body → Undotted decode space blob) ∧ (code ≠ .head → (Eml.new blob).bdy ≠ none)

theorem joinedLine {a b c d n mid : Text} (number : '\n' ∉ n) (inside : '\n' ∉ mid) (plain : '\n' ∉ a ∧ '\n' ∉ b ∧ '\n' ∉ c ∧ '\n' ∉ d) :
    '\n' ∉ a ++ (n ++ b ++ mid ++ c) ++ d := by
  simp only [List.mem_append,not_or]
  exact ⟨⟨plain.1,⟨⟨number,plain.2.1⟩,inside⟩,plain.2.2.1⟩,plain.2.2.2⟩

theorem statusComplete (code : Code) (smsg : Article) : Complete (code.status smsg ++ ['\r','\n']) := by
  have number : '\n' ∉ Decimal.render smsg.num := fun mem => absurd (Decimal.renderDigits _ _ mem) (by decide)
  have inside : '\n' ∉ code.status smsg := by
    cases code with
    | article => exact joinedLine number smsg.midLine (by decide)
    | head => exact joinedLine number smsg.midLine (by decide)
    | body => exact joinedLine number smsg.midLine (by decide)
  refine ⟨code.status smsg ++ ['\r'],by simp,?_⟩
  rw [List.mem_append,not_or]
  exact ⟨inside,by decide⟩

theorem msgBodyStuffed (msg : Text) : msgBodyWrite msg = stuff true (ended (toCrlf false msg)) := by
  rw [msgBodyWrite,crlfStuff,endedStuff]

section
variable {decode : Text → Text} {space : Char → Bool} {wrap : Nat → Text → Text} (tabs : Tabs wrap) (blob : Text) (smsg : Article) (rest : Text)

theorem bodyReply : reply (blobCb decode space wrap .body blob smsg ++ rest) =
    some (Code.body.status smsg ++ ['\r','\n'],Code.body.selected decode space wrap blob smsg,rest) ↔ (Eml.new blob).bdy ≠ none := by
  have shape : blobCb decode space wrap .body blob smsg ++ rest = (Code.body.status smsg ++ ['\r','\n']) ++
      ([] ++ stuff true (ended (toCrlf false ((Eml.new blob).bdy.getD blob))) ++ terminator ++ rest) := by
    simp only [blobCb,msgBodyStuffed,List.append_assoc,List.nil_append]
    rfl
  have read := (@receiveWhole _ _ rest wholeNil (endedWhole (toCrlf false ((Eml.new blob).bdy.getD blob)))).mpr
    fun _ mem => nomatch mem
  rw [shape,replied (statusComplete _ _),read,List.nil_append,Code.selected]
  simp only [Option.some.injEq,Prod.mk.injEq,and_true]
  cases is : (Eml.new blob).bdy with
  | some bdy => simp
  | none =>
    refine ⟨fun same => ?_,fun other => absurd rfl other⟩
    have last := bodylessEnd is
    rw [Option.getD_none] at same
    rw [same] at last
    exact absurd rfl last

include tabs

theorem hdrWhole : Whole (msgHdrWrite decode space wrap (Eml.new blob) smsg) ∧
    ((∀ l ∈ lines (msgHdrWrite decode space wrap (Eml.new blob) smsg),dotted l = false) ↔ Undotted decode space blob) := by
  obtain ⟨whole,eol⟩ := newWhole blob
  obtain ⟨sent,dots⟩ := @msgHdrDots decode space wrap tabs smsg (Eml.new blob) eol whole
  refine ⟨sent,?_⟩
  have both := congrArg (· = false) dots
  unfold Undotted
  simpa only [List.any_eq_false,Bool.not_eq_true,eq_iff_iff] using both

theorem headReply : reply (blobCb decode space wrap .head blob smsg ++ rest) =
    some (Code.head.status smsg ++ ['\r','\n'],Code.head.selected decode space wrap blob smsg,rest) ↔ Undotted decode space blob := by
  obtain ⟨whole,dots⟩ := @hdrWhole decode space wrap tabs blob smsg
  have shape : blobCb decode space wrap .head blob smsg ++ rest = (Code.head.status smsg ++ ['\r','\n']) ++
      (msgHdrWrite decode space wrap (Eml.new blob) smsg ++ stuff true [] ++ terminator ++ rest) := by
    simp only [blobCb,stuff,List.append_assoc,List.nil_append]
    rfl
  have parts := @receiveWhole _ _ rest whole wholeNil
  rw [List.append_nil (msgHdrWrite decode space wrap (Eml.new blob) smsg)] at parts
  rw [shape,replied (statusComplete _ _),← dots,← parts]
  exact Iff.rfl

theorem articleReply : reply (blobCb decode space wrap .article blob smsg ++ rest) =
    some (Code.article.status smsg ++ ['\r','\n'],Code.article.selected decode space wrap blob smsg,rest) ↔
      Undotted decode space blob ∧ (Eml.new blob).bdy ≠ none := by
  obtain ⟨whole,dots⟩ := @hdrWhole decode space wrap tabs blob smsg
  have blankLine : Whole ['\r','\n'] := wholeNewline ['\r']
  have wholeHdr : Whole (msgHdrWrite decode space wrap (Eml.new blob) smsg ++ ['\r','\n']) := wholeConcat whole blankLine
  have wholeBdy := endedWhole (toCrlf false ((Eml.new blob).bdy.getD blob))
  have shape : blobCb decode space wrap .article blob smsg ++ rest = (Code.article.status smsg ++ ['\r','\n']) ++
      ((msgHdrWrite decode space wrap (Eml.new blob) smsg ++ ['\r','\n']) ++
        stuff true (ended (toCrlf false ((Eml.new blob).bdy.getD blob))) ++ terminator ++ rest) := by
    simp only [blobCb,msgBodyStuffed,List.append_assoc]
    rfl
  rw [shape,replied (statusComplete _ _),Code.selected]
  cases is : (Eml.new blob).bdy with
  | some bdy =>
    rw [is] at wholeBdy
    simp only [Option.getD_some] at wholeBdy ⊢
    have last : lines ['\r','\n'] = [['\r','\n']] := rfl
    rw [receiveWhole wholeHdr wholeBdy,← dots,wholeAppend whole,last,List.forall_mem_append,List.forall_mem_singleton]
    exact ⟨fun plain => ⟨plain.1,Option.some_ne_none _⟩,fun sound => ⟨sound.1,rfl⟩⟩
  | none =>
    refine ⟨fun read => ?_,fun sound => absurd rfl sound.2⟩
    rw [is] at wholeBdy
    simp only [Option.getD_none] at wholeBdy read
    rw [← linesFlatten (msgHdrWrite decode space wrap (Eml.new blob) smsg ++ ['\r','\n']),receiveParts wholeHdr wholeBdy] at read
    -- what is received ends with the whole message, what is selected with an empty line
    have ends := congrArg (fun t => (lines t).getLast?) read.2
    have takenWhole : Whole ((lines (msgHdrWrite decode space wrap (Eml.new blob) smsg ++ ['\r','\n'])).map taken).flatten := by
      refine wholeFlatten fun l mem => ?_
      obtain ⟨l',own,rfl⟩ := List.mem_map.mp mem
      exact takenComplete (wholeHdr l' own)
    have final : lines (ended (toCrlf false [])) = [['\r','\n']] := rfl
    simp only [wholeAppend takenWhole,linesFlatten,wholeAppend wholeHdr,final,List.getLast?_concat] at ends
    have some : lines (ended (toCrlf false blob)) ≠ [] := by
      intro empty
      have text := linesFlatten (ended (toCrlf false blob))
      rw [empty] at text
      unfold ended at text
      split at text
      · rename_i suffix
        rw [← text] at suffix
        cases suffix
      · exact absurd text.symm (List.append_ne_nil_of_right_ne_nil _ (List.cons_ne_nil _ _))
    rw [List.getLast?_append_of_ne_nil _ some] at ends
    exact absurd ends.symm (bodylessEnd is)

end

end PublicInbox.NNTP
