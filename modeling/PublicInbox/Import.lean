import PublicInbox.Library.Leftmost
import PublicInbox.Library.Lines
import PublicInbox.Library.Decimal

/-! Import.pm: replace_oids, from the stream of git fast-export to one for git fast-import. -/
namespace PublicInbox.Import
open Leftmost Lines Decimal

abbrev Text := List Char

def resetWord : Text := "reset ".toList

def commitWord : Text := "commit ".toList

def authorWord : Text := "author ".toList

def committerWord : Text := "committer ".toList

def dataWord : Text := "data ".toList

def modifyWord : Text := "M 100644 ".toList

def inlineWord : Text := "M 100644 inline ".toList

def deleteWord : Text := "D ".toList

def markWord : Text := "mark :".toList

def doneLine : Text := "done\n".toList

def isHex (c : Char) : Bool := c.isDigit || ('a' ≤ c && c ≤ 'f')

def isWord (c : Char) : Bool := c.isAlphanum || c == '_'

def run (p : Char → Bool) (t : Text) : Option (Text × Text) := if t.takeWhile p = [] then none else some (t.takeWhile p,t.dropWhile p)

def named (w l : Text) : Bool := (strip w l).any fun t => t.head?.any (· != '\n')

def dataLen (l : Text) : Option Nat := ((strip dataWord l).bind (run Char.isDigit)).map fun found => value found.1

def modified (l : Text) : Option (Text × Text) :=
  match (strip modifyWord l).bind (run isHex) with
  | some (oid,t) => ((strip [' '] t).bind (run isWord)).map fun found => (oid,found.1)
  | none => none

def deleted (l : Text) : Option Text := ((strip deleteWord l).bind (run isWord)).map Prod.fst

def marked (l : Text) : Option Text :=
  match (strip markWord l).bind (run Char.isDigit) with
  | some (mark,t) => if t = [] ∨ t = ['\n'] then some mark else none
  | none => none

def zone (t : Text) : Bool :=
  let ds := match t with
    | '+' :: ds => ds
    | '-' :: ds => ds
    | ds => ds
  ds != [] && ds.all Char.isDigit

def stamp (w l : Text) : Option Text :=
  match strip w (if l.getLast? = some '\n' then l.dropLast else l) with
  | some t =>
    let tz := (t.reverse.takeWhile (· ≠ ' ')).reverse
    match t.reverse.dropWhile (· ≠ ' ') with
    | _ :: r =>
      let secs := (r.takeWhile (· ≠ ' ')).reverse
      if secs ≠ [] ∧ secs.all Char.isDigit ∧ zone tz ∧ r.dropWhile (· ≠ ' ') ≠ [] then some (secs ++ ' ' :: tz) else none
    | [] => none
  | none => none

structure CmtInfo where
  author : Text
  authorTime : Text
  commitTime : Text
  subject : Text

structure State where
  out : Text
  buf : List Text
  oids : List Text
  tree : List Text
  nreplace : Nat
  mark : Option Text
  done : Bool

structure Result where
  out : Text
  nreplace : Nat
  mark : Option Text

def readLine : Text → Text × Text
  | [] => ([],[])
  | c :: t => if c = '\n' then ([c],t) else (c :: (readLine t).1,(readLine t).2)

/- PublicInbox::IO::read_all: without a length it reads until EOF, and it croaks at a premature EOF. -/
def readAll (len : Nat) (rest : Text) : Option (Text × Text) :=
  if len = 0 then some (rest,[]) else if len ≤ rest.length then some (rest.take len,rest.drop len) else none

section
variable (ident : Text) (author : Text) (subject : Text)

def rewriteLines : Option Text → Option Text → List Text → List Text
  | _,_,[] => []
  | at',ct,l :: ls =>
    match stamp authorWord l with
    | some t => (authorWord ++ author ++ ' ' :: at'.getD t ++ ['\n']) :: rewriteLines (at'.getD t) ct ls
    | none =>
      match stamp committerWord l with
      | some t => (committerWord ++ ident ++ ' ' :: ct.getD t ++ ['\n']) :: rewriteLines at' (ct.getD t) ls
      | none =>
        if (dataLen l).isSome then (dataWord ++ render subject.length ++ ['\n']) :: subject :: ls.tail
        else l :: rewriteLines at' ct ls

end

section
variable (ident : Text) (info : Option CmtInfo) (replaceMap : Text → Option Text) (tmp : Text)

def cmtAuthor : Text := match info with
  | some i => i.author
  | none => "<>".toList

def cmtSubject (oids : List Text) : Text := (match info with
  | some i => i.subject
  | none => "purged ".toList ++ [' '].intercalate oids) ++ ['\n']

def rewriteCommit (oids : List Text) (buf : List Text) : List Text :=
  rewriteLines ident (cmtAuthor info) (cmtSubject info oids) (info.map CmtInfo.authorTime) (info.map CmtInfo.commitTime) buf

def push (st : State) (ls : List Text) : State := { st with buf := st.buf ++ ls }

def flush (st : State) (ls : List Text) : State := { st with out := st.out ++ (st.buf ++ ls).flatten,buf := [] }

def endCommit (st : State) : State :=
  flush (if st.oids = [] then st
    else { st with buf := rewriteCommit ident info st.oids st.buf,oids := [],nreplace := st.nreplace + 1 }) [['\n']]

local instance : LawfulBEq Text := inferInstance

def line (st : State) (l rest : Text) : Option (State × Text) :=
  if named resetWord l then some (push st [resetWord ++ tmp ++ ['\n']],rest)
  else if named commitWord l then some (push (flush st []) [commitWord ++ tmp ++ ['\n']],rest)
  else match dataLen l with
    -- read_all is called in list context: split(/^/sm)
    | some len => (readAll len rest).map fun read => (push st (l :: lines read.1),read.2)
    | none =>
      match modified l with
      | some (oid,path) =>
        let st := { st with tree := path :: st.tree }
        match replaceMap oid with
        | some content =>
          some (push { st with oids := st.oids ++ [oid] }
            [inlineWord ++ path ++ '\n' :: dataWord ++ render content.length ++ ['\n'],content,['\n']],rest)
        | none => some (push st [l],rest)
      | none =>
        match deleted l with
        | some path => some (if path ∈ st.tree then push st [l] else st,rest)
        | none =>
          if l = ['\n'] then some (endCommit ident info st,rest)
          else if l = doneLine then some ({ st with done := true },rest)
          else match marked l with
            | some mark => some ({ push st [l] with mark := mark },rest)
            | none => some (push st [l],rest)

theorem lineRest {ident : Text} {info : Option CmtInfo} {replaceMap : Text → Option Text} {tmp : Text} {st st' : State} {l rest rest' : Text}
    (is : line ident info replaceMap tmp st l rest = some (st',rest')) : rest'.length ≤ rest.length := by
  have same {a : State} (is : some (a,rest) = some (st',rest')) : rest'.length ≤ rest.length := by
    rw [(Prod.mk.inj (Option.some.inj is)).2]
  unfold line at is
  split at is
  · exact same is
  · split at is
    · exact same is
    · split at is
      · obtain ⟨⟨a,b⟩,read,pair⟩ := Option.map_eq_some_iff.mp is
        cases pair
        unfold readAll at read
        split at read
        · cases read
          exact Nat.zero_le _
        · split at read
          · cases read
            rw [List.length_drop]
            exact Nat.sub_le _ _
          · cases read
      · split at is
        · dsimp only at is
          split at is <;> exact same is
        · split at is
          · exact same is
          · split at is
            · exact same is
            · split at is
              · exact same is
              · split at is <;> exact same is

theorem readLineShorter {t : Text} (some : t ≠ []) : (readLine t).2.length < t.length := by
  induction t with
  | nil => exact absurd rfl some
  | cons c t ih =>
    rw [readLine]
    split
    · exact Nat.lt_succ_self _
    · cases t with
      | nil => exact Nat.zero_lt_one
      | cons d t => exact Nat.lt_succ_of_lt (ih (List.cons_ne_nil _ _))

def loop (st : State) (t : Text) : Option State :=
  if _some : t = [] then some st
  else match _is : line ident info replaceMap tmp st (readLine t).1 (readLine t).2 with
    | some (st',rest) => loop st' rest
    | none => none
termination_by t.length
decreasing_by exact Nat.lt_of_le_of_lt (lineRest _is) (readLineShorter _some)

def replaceOids (tree : List Text) (stream : Text) : Option Result :=
  match loop ident info replaceMap tmp ⟨[],[],[],tree,0,none,false⟩ stream with
  | some st => if st.done then some ⟨(flush st []).out,st.nreplace,st.mark⟩ else none
  | none => none

end

end PublicInbox.Import
