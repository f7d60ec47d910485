import PublicInbox.Import

/-! The stream that git fast-export writes for an epoch, and what replace_oids makes of each of its commits. -/
namespace PublicInbox.Import
open Leftmost Lines Decimal

def featureLine : Text := "feature done\n".toList

def encodingWord : Text := "encoding ".toList

def fromWord : Text := "from :".toList

def mergeWord : Text := "merge :".toList

abbrev Run (p : Char → Bool) := { t : Text // t ≠ [] ∧ ∀ c ∈ t,p c = true }

abbrev OneLine := { t : Text // '\n' ∉ t }

inductive Change where
  | modify (oid : Run isHex) (path : Run isWord)
  | delete (path : Run isWord)

structure Commit where
  root : Bool
  mark : Nat
  author : OneLine
  committer : OneLine
  encoding : Option OneLine
  message : Text
  parents : List Nat
  changes : List Change

structure Ref where
  text : Text
  given : text ≠ []
  line : '\n' ∉ text

def Change.line : Change → Text
  | modify oid path => modifyWord ++ oid.1 ++ ' ' :: path.1 ++ ['\n']
  | delete path => deleteWord ++ path.1 ++ ['\n']

section
variable (replaceMap : Text → Option Text)

def Change.mapped : Change → List Text
  | modify oid _ => if (replaceMap oid.1).isSome then [oid.1] else []
  | delete _ => []

def Change.replaced : Change → List Text
  | modify oid path =>
    match replaceMap oid.1 with
    | some content => [inlineWord ++ path.1 ++ '\n' :: dataWord ++ render content.length ++ ['\n'],content,['\n']]
    | none => [(modify oid path).line]
  | delete path => [(delete path).line]

end

def grown (tree : List Text) : List Change → List Text
  | [] => tree
  | .modify _ path :: cs => grown (path.1 :: tree) cs
  | .delete _ :: cs => grown tree cs

namespace Commit

def resetLine (ref : Text) : Text := resetWord ++ ref ++ ['\n']

def commitLine (ref : Text) : Text := commitWord ++ ref ++ ['\n']

def markLine (c : Commit) : Text := markWord ++ render c.mark ++ ['\n']

def authorLine (c : Commit) : Text := authorWord ++ c.author.1 ++ ['\n']

def committerLine (c : Commit) : Text := committerWord ++ c.committer.1 ++ ['\n']

def encodingLines (c : Commit) : List Text := (c.encoding.map fun e => encodingWord ++ e.1 ++ ['\n']).toList

def dataLine (n : Nat) : Text := dataWord ++ render n ++ ['\n']

def parentLines : List Nat → List Text
  | [] => []
  | p :: ps => (fromWord ++ render p ++ ['\n']) :: ps.map fun p => mergeWord ++ render p ++ ['\n']

def text (ref : Text) (c : Commit) : Text :=
  (if c.root then resetLine ref else []) ++ commitLine ref ++ c.markLine ++ c.authorLine ++ c.committerLine ++ c.encodingLines.flatten ++
    dataLine c.message.length ++ c.message ++ (parentLines c.parents).flatten ++ (c.changes.map Change.line).flatten ++ ['\n']

section
variable (ident : Text) (info : Option CmtInfo) (replaceMap : Text → Option Text) (tmp : Text)

def mapped (c : Commit) : List Text := c.changes.flatMap (Change.mapped replaceMap)

def restamped (w who : Text) (time : Option Text) (l : Text) : Text :=
  match stamp w l with
  | some t => w ++ who ++ ' ' :: time.getD t ++ ['\n']
  | none => l

def header (c : Commit) : List Text :=
  if c.mapped replaceMap = [] then [c.markLine,c.authorLine,c.committerLine] ++ c.encodingLines ++ [dataLine c.message.length,c.message]
  else
    [c.markLine,restamped authorWord (cmtAuthor info) (info.map CmtInfo.authorTime) c.authorLine,
      restamped committerWord ident (info.map CmtInfo.commitTime) c.committerLine] ++ c.encodingLines ++
      [dataLine (cmtSubject info (c.mapped replaceMap)).length,cmtSubject info (c.mapped replaceMap)]

def rewritten (c : Commit) : Text :=
  (if c.root then resetLine tmp else []) ++ commitLine tmp ++ (c.header ident info replaceMap).flatten ++ (parentLines c.parents).flatten ++
    (c.changes.flatMap (Change.replaced replaceMap)).flatten ++ ['\n']

end

end Commit

structure Export where
  commits : List Commit
  known : ∀ a p b,commits.flatMap Commit.changes = a ++ Change.delete p :: b → ∃ oid,Change.modify oid p ∈ a

def Export.text (ref : Text) (e : Export) : Text :=
  featureLine ++ (e.commits.map (Commit.text ref)).flatten ++ doneLine

def Export.expected (ident : Text) (info : Option CmtInfo) (replaceMap : Text → Option Text) (tmp : Text) (e : Export) : Result :=
  ⟨featureLine ++ (e.commits.map (Commit.rewritten ident info replaceMap tmp)).flatten,
    e.commits.countP fun c => c.mapped replaceMap ≠ [],(e.commits.getLast?).map fun c => render c.mark⟩

theorem readLineComplete {l : Text} (complete : Complete l) (rest : Text) : readLine (l ++ rest) = (l,rest) := by
  obtain ⟨w,rfl,inside⟩ := complete
  induction w with
  | nil => rfl
  | cons c w ih =>
    obtain ⟨first,others⟩ := List.ne_and_not_mem_of_not_mem_cons inside
    rw [List.cons_append,List.cons_append,readLine,if_neg (Ne.symm first),ih others]

theorem stripAppend (w t : Text) : strip w (w ++ t) = some t := stripSome.mpr rfl

theorem runAll {p : Char → Bool} (r : Run p) {c : Char} (ends : p c = false) (t : Text) : run p (r.1 ++ c :: t) = some (r.1,c :: t) := by
  have all : ∀ d ∈ r.1,p d = true := r.2.2
  have take : (r.1 ++ c :: t).takeWhile p = r.1 := by
    rw [List.takeWhile_append_of_pos all,List.takeWhile_cons_of_neg (by rw [ends]; exact Bool.false_ne_true),List.append_nil]
  have drop : (r.1 ++ c :: t).dropWhile p = c :: t := by
    rw [List.dropWhile_append_of_pos all,List.dropWhile_cons_of_neg (by rw [ends]; exact Bool.false_ne_true)]
  rw [run,take,drop,if_neg r.2.1]

def number (n : Nat) : Run Char.isDigit := ⟨render n,renderSome n,renderDigits n⟩

structure Plain (l : Text) : Prop where
  reset : named resetWord l = false
  commit : named commitWord l = false
  data : dataLen l = none
  modify : modified l = none
  delete : deleted l = none
  blank : l ≠ ['\n']
  done : l ≠ doneLine
  mark : marked l = none

section
variable {ident : Text} {info : Option CmtInfo} {replaceMap : Text → Option Text} {tmp : Text}

theorem loopLine {l : Text} (complete : Complete l) (st : State) (rest : Text) :
    loop ident info replaceMap tmp st (l ++ rest) =
      (line ident info replaceMap tmp st l rest).bind fun next => loop ident info replaceMap tmp next.1 next.2 := by
  have some : l ++ rest ≠ [] := by
    obtain ⟨w,rfl,_⟩ := complete
    simp
  rw [loop,dif_neg some,readLineComplete complete]
  split
  · rename_i st' rest' is
    rw [is]
    rfl
  · rename_i is
    rw [is]
    rfl

theorem linePlain {l : Text} (plain : Plain l) (st : State) (rest : Text) :
    line ident info replaceMap tmp st l rest = some (push st [l],rest) := by
  simp only [line,plain.reset,plain.commit,plain.data,plain.modify,plain.delete,plain.blank,plain.done,plain.mark,Bool.false_eq_true,if_false]

theorem lineBlank (st : State) (rest : Text) :
    line ident info replaceMap tmp st ['\n'] rest = some (endCommit ident info st,rest) := rfl

theorem lineDone (st : State) (rest : Text) :
    line ident info replaceMap tmp st doneLine rest = some ({ st with done := true },rest) := rfl

end

def apart (v w : Text) : Bool := (v.zip w).any fun p => p.1 != p.2

theorem stripApart {v w : Text} (is : apart v w = true) (x : Text) : strip w (v ++ x) = none := by
  rw [← Option.not_isSome_iff_eq_none]
  intro some
  obtain ⟨rest,found⟩ := Option.isSome_iff_exists.mp some
  have same := stripSome.mp found
  clear some found
  induction v generalizing w with
  | nil => cases is
  | cons c v ih =>
    cases w with
    | nil => cases is
    | cons d w =>
      obtain ⟨first,others⟩ := List.cons.inj same
      subst first
      refine ih ?_ others
      simpa [apart] using is

theorem stripLine {v w x l : Text} (text : l = v ++ x) (is : apart v w = true) : strip w l = none := by
  rw [text]
  exact stripApart is x

def starts : List Text := [resetWord,commitWord,dataWord,modifyWord,deleteWord,['\n'],doneLine,markWord]

theorem plainApart {v : Text} (is : starts.all (apart v) = true) (x : Text) : Plain (v ++ x) := by
  have each : ∀ w ∈ starts,strip w (v ++ x) = none := fun w mem => stripApart (List.all_eq_true.mp is w mem) x
  have other {w : Text} (mem : w ∈ starts) : v ++ x ≠ w := by
    intro same
    have all := stripAppend w []
    have none := each w mem
    rw [List.append_nil] at all
    rw [same,all] at none
    cases none
  simp only [starts,List.forall_mem_cons] at each
  obtain ⟨reset,commit,data,modify,delete,_,_,mark,_⟩ := each
  refine ⟨?_,?_,?_,?_,?_,other (by simp [starts]),other (by simp [starts]),?_⟩
  · rw [named,reset]
    rfl
  · rw [named,commit]
    rfl
  · rw [dataLen,data]
    rfl
  · rw [modified,modify]
    rfl
  · rw [deleted,delete]
    rfl
  · rw [marked,mark]
    rfl

section
variable {ident : Text} {info : Option CmtInfo} {replaceMap : Text → Option Text} {tmp : Text}

theorem namedRef (w : Text) (ref : Ref) : named w (w ++ ref.text ++ ['\n']) = true := by
  rw [named,List.append_assoc,stripAppend]
  cases is : ref.text with
  | nil => exact absurd is ref.given
  | cons c t =>
    have other : c ≠ '\n' := fun same => ref.line (is ▸ same ▸ List.mem_cons_self)
    simp [other]

theorem lineReset (ref : Ref) (st : State) (rest : Text) :
    line ident info replaceMap tmp st (Commit.resetLine ref.text) rest = some (push st [Commit.resetLine tmp],rest) := by
  rw [line,Commit.resetLine,if_pos (namedRef _ ref)]
  rfl

theorem lineCommit (ref : Ref) (st : State) (rest : Text) :
    line ident info replaceMap tmp st (Commit.commitLine ref.text) rest = some (push (flush st []) [Commit.commitLine tmp],rest) := by
  have other : named resetWord (Commit.commitLine ref.text) = false := by
    have text : Commit.commitLine ref.text = commitWord ++ (ref.text ++ ['\n']) := by rw [Commit.commitLine,List.append_assoc]
    rw [named,stripLine text (by decide)]
    rfl
  rw [line,if_neg (by rw [other]; exact Bool.false_ne_true),Commit.commitLine,if_pos (namedRef _ ref)]
  rfl

theorem notNamed {w l : Text} (none : strip w l = none) : ¬ named w l = true := by
  rw [named,none]
  exact Bool.false_ne_true

theorem dataLenLine (n : Nat) : dataLen (Commit.dataLine n) = some n := by
  have digits := runAll (number n) (show Char.isDigit '\n' = false from rfl) []
  have text : (number n).1 = render n := rfl
  rw [text] at digits
  rw [dataLen,Commit.dataLine,List.append_assoc,stripAppend,Option.bind_some,digits,Option.map_some,valueRender]

theorem lineData (n : Nat) (st : State) (rest : Text) : line ident info replaceMap tmp st (Commit.dataLine n) rest =
    (readAll n rest).map fun read => (push st (Commit.dataLine n :: lines read.1),read.2) := by
  have is := dataLenLine n
  have text : Commit.dataLine n = dataWord ++ (render n ++ ['\n']) := by rw [Commit.dataLine,List.append_assoc]
  rw [line,if_neg (notNamed (stripLine text (by decide))),if_neg (notNamed (stripLine text (by decide))),is]

theorem lineMark (c : Commit) (st : State) (rest : Text) :
    line ident info replaceMap tmp st c.markLine rest = some ({ push st [c.markLine] with mark := render c.mark },rest) := by
  have digits := runAll (number c.mark) (show Char.isDigit '\n' = false from rfl) []
  have text : (number c.mark).1 = render c.mark := rfl
  rw [text] at digits
  have mark : marked c.markLine = some (render c.mark) := by
    rw [marked,Commit.markLine,List.append_assoc,stripAppend,Option.bind_some,digits]
    rfl
  have shape : c.markLine = markWord ++ (render c.mark ++ ['\n']) := by rw [Commit.markLine,List.append_assoc]
  have none (w : Text) (is : apart markWord w = true) : strip w c.markLine = .none := shape ▸ stripApart is _
  have other (w : Text) (is : apart markWord w = true) : c.markLine ≠ w := by
    intro same
    have all := stripAppend w []
    rw [List.append_nil] at all
    have not := none w is
    rw [same,all] at not
    cases not
  simp only [line,named,dataLen,modified,deleted,none resetWord (by decide),none commitWord (by decide),
    none dataWord (by decide),none modifyWord (by decide),none deleteWord (by decide),other ['\n'] (by decide),
    other doneLine (by decide),mark,Option.any_none,Option.bind_none,Option.map_none,Bool.false_eq_true,if_false]

theorem modifiedLine (oid : Run isHex) (path : Run isWord) : modified (Change.modify oid path).line = some (oid.1,path.1) := by
  have first := runAll oid (show isHex ' ' = false from rfl) (path.1 ++ ['\n'])
  have second := runAll path (show isWord '\n' = false from rfl) []
  have space : strip [' '] (' ' :: (path.1 ++ ['\n'])) = some (path.1 ++ ['\n']) := stripAppend [' '] _
  have text : (Change.modify oid path).line = modifyWord ++ (oid.1 ++ ' ' :: (path.1 ++ ['\n'])) := by
    simp only [Change.line,List.append_assoc,List.cons_append]
  rw [modified,text,stripAppend,Option.bind_some,first]
  simp only [space,Option.bind_some,second,Option.map_some]

theorem lineModify (oid : Run isHex) (path : Run isWord) (st : State) (rest : Text) :
    line ident info replaceMap tmp st (Change.modify oid path).line rest =
      some ({ push st ((Change.modify oid path).replaced replaceMap) with
        tree := path.1 :: st.tree,oids := st.oids ++ (Change.modify oid path).mapped replaceMap },rest) := by
  have text : (Change.modify oid path).line = modifyWord ++ (oid.1 ++ ' ' :: (path.1 ++ ['\n'])) := by
    simp only [Change.line,List.append_assoc,List.cons_append]
  have data : dataLen (Change.modify oid path).line = none := by
    rw [dataLen,stripLine text (by decide)]
    rfl
  rw [line,if_neg (notNamed (stripLine text (by decide))),if_neg (notNamed (stripLine text (by decide))),data,modifiedLine]
  dsimp only
  cases is : replaceMap oid.1 with
  | none => simp only [Change.replaced,Change.mapped,is,Option.isSome_none,Bool.false_eq_true,if_false,List.append_nil,push]
  | some content => simp only [Change.replaced,Change.mapped,is,Option.isSome_some,if_true,push]

theorem lineDelete {path : Run isWord} {st : State} (known : path.1 ∈ st.tree) (rest : Text) :
    line ident info replaceMap tmp st (Change.delete path).line rest = some (push st [(Change.delete path).line],rest) := by
  have word := runAll path (show isWord '\n' = false from rfl) []
  have text : (Change.delete path).line = deleteWord ++ (path.1 ++ ['\n']) := by rw [Change.line,List.append_assoc]
  have data : dataLen (Change.delete path).line = none := by
    rw [dataLen,stripLine text (by decide)]
    rfl
  have modify : modified (Change.delete path).line = none := by
    rw [modified,stripLine text (by decide)]
    rfl
  have delete : deleted (Change.delete path).line = some path.1 := by
    rw [deleted,text,stripAppend,Option.bind_some,word]
    rfl
  rw [line,if_neg (notNamed (stripLine text (by decide))),if_neg (notNamed (stripLine text (by decide))),data,modify,delete]
  dsimp only
  rw [if_pos known]

end

end PublicInbox.Import
