import PublicInbox.Import.Stream

/-! Import.pm: replace_oids over the export of an epoch. -/
namespace PublicInbox.Import
open Leftmost Lines Decimal

section
variable {ident : Text} {info : Option CmtInfo} {replaceMap : Text → Option Text} {tmp : Text}

theorem completeLine (w : Text) (digits : Text) (inside : '\n' ∉ w) (inside' : '\n' ∉ digits) : Complete (w ++ digits ++ ['\n']) := by
  refine ⟨w ++ digits,rfl,?_⟩
  rw [List.mem_append,not_or]
  exact ⟨inside,inside'⟩

theorem numberLine (n : Nat) : '\n' ∉ render n := fun mem => absurd (renderDigits n _ mem) (by decide)

theorem wordLine {p : Char → Bool} (r : Run p) (ends : p '\n' = false) : '\n' ∉ r.1 := by
  intro mem
  rw [r.2.2 _ mem] at ends
  cases ends

theorem changeComplete (change : Change) : Complete change.line := by
  cases change with
  | modify oid path =>
    refine ⟨modifyWord ++ oid.1 ++ ' ' :: path.1,rfl,?_⟩
    simp only [List.mem_append,List.mem_cons,not_or]
    exact ⟨⟨by decide,wordLine oid rfl⟩,by decide,wordLine path rfl⟩
  | delete path => exact completeLine _ _ (by decide) (wordLine path rfl)

theorem loopPlain {ls : List Text} (plain : ∀ l ∈ ls,Plain l ∧ Complete l) (st : State) (rest : Text) :
    loop ident info replaceMap tmp st (ls.flatten ++ rest) = loop ident info replaceMap tmp (push st ls) rest := by
  induction ls generalizing st with
  | nil => simp [push]
  | cons l ls ih =>
    obtain ⟨⟨here,complete⟩,others⟩ := List.forall_mem_cons.mp plain
    rw [List.flatten_cons,List.append_assoc,loopLine complete,linePlain here,Option.bind_some,ih others]
    simp [push]

theorem memGrown {tree : List Text} {changes : List Change} {path : Text} :
    path ∈ grown tree changes ↔ path ∈ tree ∨ ∃ oid p,Change.modify oid p ∈ changes ∧ p.1 = path := by
  induction changes generalizing tree with
  | nil => simp [grown]
  | cons change changes ih =>
    cases change with
    | modify oid p =>
      rw [grown,ih,List.mem_cons]
      constructor
      · rintro ((same | old) | ⟨oid',p',mem,same⟩)
        · exact .inr ⟨oid,p,List.mem_cons_self,same.symm⟩
        · exact .inl old
        · exact .inr ⟨oid',p',List.mem_cons_of_mem _ mem,same⟩
      · rintro (old | ⟨oid',p',mem,same⟩)
        · exact .inl (.inr old)
        · rcases List.mem_cons.mp mem with is | mem
          · cases is
            exact .inl (.inl same.symm)
          · exact .inr ⟨oid',p',mem,same⟩
    | delete p =>
      rw [grown,ih]
      constructor
      · rintro (old | ⟨oid',p',mem,same⟩)
        · exact .inl old
        · exact .inr ⟨oid',p',List.mem_cons_of_mem _ mem,same⟩
      · rintro (old | ⟨oid',p',mem,same⟩)
        · exact .inl old
        · rcases List.mem_cons.mp mem with is | mem
          · cases is
          · exact .inr ⟨oid',p',mem,same⟩

def Known (tree : List Text) (changes : List Change) : Prop := ∀ a p b,changes = a ++ Change.delete p :: b → p.1 ∈ grown tree a

theorem grownAppend (tree : List Text) (a b : List Change) : grown tree (a ++ b) = grown (grown tree a) b := by
  induction a generalizing tree with
  | nil => rfl
  | cons change a ih => cases change <;> exact ih _

theorem knownAppend {tree : List Text} {a b : List Change} (known : Known tree (a ++ b)) : Known tree a ∧ Known (grown tree a) b := by
  refine ⟨fun u p v parts => known u p (v ++ b) (by rw [parts]; simp),fun u p v parts => ?_⟩
  rw [← grownAppend]
  exact known (a ++ u) p v (by rw [parts]; simp)

theorem loopChanges {changes : List Change} {st : State} (known : Known st.tree changes) (rest : Text) :
    loop ident info replaceMap tmp st ((changes.map Change.line).flatten ++ rest) =
      loop ident info replaceMap tmp { push st (changes.flatMap (Change.replaced replaceMap)) with
        tree := grown st.tree changes,oids := st.oids ++ changes.flatMap (Change.mapped replaceMap) } rest := by
  induction changes generalizing st with
  | nil => simp [push,grown]
  | cons change changes ih =>
    obtain ⟨here,next⟩ := @knownAppend st.tree [change] changes known
    rw [List.map_cons,List.flatten_cons,List.append_assoc,loopLine (changeComplete change)]
    cases change with
    | modify oid path =>
      rw [lineModify,Option.bind_some,ih next]
      simp [push,grown]
    | delete path =>
      have present : path.1 ∈ st.tree := here [] path [] rfl
      have tail := @ih (push st [(Change.delete path).line]) next
      rw [lineDelete present,Option.bind_some,tail]
      simp [push,grown,Change.replaced,Change.mapped]

theorem plainOneLine {v : Text} (is : starts.all (apart v) = true) (inside : '\n' ∉ v) (l : OneLine) :
    Plain (v ++ l.1 ++ ['\n']) ∧ Complete (v ++ l.1 ++ ['\n']) :=
  ⟨List.append_assoc v l.1 ['\n'] ▸ plainApart is _,completeLine v l.1 inside l.2⟩

theorem plainNames (c : Commit) : ∀ l ∈ [c.authorLine,c.committerLine] ++ c.encodingLines,Plain l ∧ Complete l := by
  refine List.forall_mem_append.mpr ⟨List.forall_mem_cons.mpr ⟨plainOneLine (by decide) (by decide) c.author,
    List.forall_mem_singleton.mpr (plainOneLine (by decide) (by decide) c.committer)⟩,fun l mem => ?_⟩
  unfold Commit.encodingLines at mem
  cases is : c.encoding with
  | none =>
    rw [is] at mem
    cases mem
  | some e =>
    rw [is] at mem
    rw [List.mem_singleton.mp mem]
    exact plainOneLine (by decide) (by decide) e

theorem plainParents (parents : List Nat) : ∀ l ∈ Commit.parentLines parents,Plain l ∧ Complete l := by
  cases parents with
  | nil => exact fun _ mem => absurd mem List.not_mem_nil
  | cons p ps =>
    refine List.forall_mem_cons.mpr ⟨plainOneLine (by decide) (by decide) ⟨_,numberLine p⟩,fun l mem => ?_⟩
    obtain ⟨p',_,rfl⟩ := List.mem_map.mp mem
    exact plainOneLine (by decide) (by decide) ⟨_,numberLine p'⟩

def started (tmp : Text) (st : State) (c : Commit) : State :=
  { st with
    out := st.out ++ (st.buf ++ if c.root then [Commit.resetLine tmp] else []).flatten
    buf := [Commit.commitLine tmp,c.markLine,c.authorLine,c.committerLine] ++ c.encodingLines
    mark := some (render c.mark) }

theorem loopStarted (ref : Ref) (st : State) (c : Commit) (rest : Text) :
    loop ident info replaceMap tmp st ((if c.root then Commit.resetLine ref.text else []) ++ (Commit.commitLine ref.text ++
      (c.markLine ++ (([c.authorLine,c.committerLine] ++ c.encodingLines).flatten ++ rest)))) =
      loop ident info replaceMap tmp (started tmp st c) rest := by
  have names (st : State) (rest : Text) : loop ident info replaceMap tmp st (Commit.commitLine ref.text ++
      (c.markLine ++ (([c.authorLine,c.committerLine] ++ c.encodingLines).flatten ++ rest))) =
      loop ident info replaceMap tmp { st with
        out := st.out ++ st.buf.flatten
        buf := [Commit.commitLine tmp,c.markLine,c.authorLine,c.committerLine] ++ c.encodingLines
        mark := some (render c.mark) } rest := by
    have commit : Complete (Commit.commitLine ref.text) := completeLine commitWord ref.text (by decide) ref.line
    have mark : Complete c.markLine := completeLine markWord (render c.mark) (by decide) (numberLine c.mark)
    rw [loopLine commit,lineCommit,Option.bind_some,loopLine mark,lineMark,Option.bind_some,loopPlain (plainNames c)]
    simp [push,flush]
  cases root : c.root with
  | false =>
    rw [if_neg Bool.false_ne_true,List.nil_append,names,started,root]
    simp
  | true =>
    have reset : Complete (Commit.resetLine ref.text) := completeLine resetWord ref.text (by decide) ref.line
    rw [if_pos rfl,loopLine reset,lineReset,Option.bind_some,names,started,root]
    simp [push]

theorem readAllFront {message : Text} (some : message ≠ []) (rest : Text) :
    readAll message.length (message ++ rest) = .some (message,rest) := by
  have length : message.length ≠ 0 := fun zero => some (List.length_eq_zero_iff.mp zero)
  rw [readAll,if_neg length,if_pos (by rw [List.length_append]; exact Nat.le_add_right _ _),List.take_left,List.drop_left]

theorem textParts (ref : Text) (c : Commit) (rest : Text) : c.text ref ++ rest =
    (if c.root then Commit.resetLine ref else []) ++ (Commit.commitLine ref ++
      (c.markLine ++ (([c.authorLine,c.committerLine] ++ c.encodingLines).flatten ++ (Commit.dataLine c.message.length ++
        (c.message ++ ((Commit.parentLines c.parents).flatten ++ ((c.changes.map Change.line).flatten ++ (['\n'] ++ rest)))))))) := by
  simp [Commit.text]

/- The lines of the old message that stay behind the new one: rewrite_commit puts that in the place of the first. -/
def stale (replaceMap : Text → Option Text) (c : Commit) : Text :=
  if c.mapped replaceMap = [] then [] else (lines c.message).tail.flatten

def printed (ident : Text) (info : Option CmtInfo) (replaceMap : Text → Option Text) (tmp : Text) (c : Commit) : Text :=
  (if c.root then Commit.resetLine tmp else []) ++ Commit.commitLine tmp ++ (c.header ident info replaceMap).flatten ++ stale replaceMap c ++
    (Commit.parentLines c.parents).flatten ++ (c.changes.flatMap (Change.replaced replaceMap)).flatten ++ ['\n']

def ended (ident : Text) (info : Option CmtInfo) (replaceMap : Text → Option Text) (tmp : Text) (st : State) (c : Commit) : State :=
  { st with
    out := st.out ++ st.buf.flatten ++ printed ident info replaceMap tmp c
    buf := []
    tree := grown st.tree c.changes
    nreplace := st.nreplace + if c.mapped replaceMap = [] then 0 else 1
    mark := some (render c.mark) }

theorem stampApart {v w : Text} (is : apart v w = true) (x : Text) : stamp w (v ++ x ++ ['\n']) = none := by
  rw [stamp,List.getLast?_concat,if_pos rfl,List.dropLast_concat,stripApart is]

theorem dataLenApart {v : Text} (is : apart v dataWord = true) (x : Text) : dataLen (v ++ x ++ ['\n']) = none := by
  rw [dataLen,List.append_assoc,stripApart is]
  rfl

section
variable {author subject : Text}

theorem rewriteOther {v : Text} (is : [authorWord,committerWord,dataWord].all (apart v) = true) (x : Text) (at' ct : Option Text) (ls : List Text) :
    rewriteLines ident author subject at' ct ((v ++ x ++ ['\n']) :: ls) = (v ++ x ++ ['\n']) :: rewriteLines ident author subject at' ct ls := by
  simp only [List.all_cons,List.all_nil,Bool.and_eq_true] at is
  rw [rewriteLines,stampApart is.1,stampApart is.2.1,dataLenApart is.2.2.1]
  rfl

theorem rewriteAuthor (c : Commit) (at' ct : Option Text) (ls : List Text) : ∃ later,
    rewriteLines ident author subject at' ct (c.authorLine :: ls) =
      Commit.restamped authorWord author at' c.authorLine :: rewriteLines ident author subject later ct ls := by
  rw [rewriteLines,Commit.restamped]
  cases is : stamp authorWord c.authorLine with
  | some t => exact ⟨_,rfl⟩
  | none =>
    have committer : stamp committerWord c.authorLine = none := stampApart (by decide) _
    have data : dataLen c.authorLine = none := dataLenApart (by decide) _
    rw [committer,data]
    exact ⟨at',rfl⟩

theorem rewriteCommitter (c : Commit) (at' ct : Option Text) (ls : List Text) : ∃ later,
    rewriteLines ident author subject at' ct (c.committerLine :: ls) =
      Commit.restamped committerWord ident ct c.committerLine :: rewriteLines ident author subject at' later ls := by
  have name : stamp authorWord c.committerLine = none := stampApart (by decide) _
  rw [rewriteLines,name,Commit.restamped]
  cases is : stamp committerWord c.committerLine with
  | some t => exact ⟨_,rfl⟩
  | none =>
    have data : dataLen c.committerLine = none := dataLenApart (by decide) _
    rw [data]
    exact ⟨ct,rfl⟩

theorem rewriteData (n : Nat) (at' ct : Option Text) (ls : List Text) :
    rewriteLines ident author subject at' ct (Commit.dataLine n :: ls) = Commit.dataLine subject.length :: subject :: ls.tail := by
  have name : stamp authorWord (Commit.dataLine n) = none := stampApart (by decide) _
  have committer : stamp committerWord (Commit.dataLine n) = none := stampApart (by decide) _
  rw [rewriteLines,name,committer,dataLenLine]
  rfl

theorem rewriteHeader (c : Commit) (at' ct : Option Text) (ls : List Text) :
    rewriteLines ident author subject at' ct ([Commit.commitLine tmp,c.markLine,c.authorLine,c.committerLine] ++ c.encodingLines ++
      Commit.dataLine c.message.length :: ls) =
      [Commit.commitLine tmp,c.markLine,Commit.restamped authorWord author at' c.authorLine,
        Commit.restamped committerWord ident ct c.committerLine] ++ c.encodingLines ++
        Commit.dataLine subject.length :: subject :: ls.tail := by
  simp only [List.cons_append,List.nil_append]
  have commit := @rewriteOther ident author subject commitWord (by decide) tmp at' ct
  have mark := @rewriteOther ident author subject markWord (by decide) (render c.mark) at' ct
  unfold Commit.commitLine Commit.markLine
  rw [commit,mark]
  obtain ⟨at'',is⟩ := @rewriteAuthor ident author subject c at' ct
    (c.committerLine :: (c.encodingLines ++ Commit.dataLine c.message.length :: ls))
  obtain ⟨ct',is'⟩ := @rewriteCommitter ident author subject c at'' ct (c.encodingLines ++ Commit.dataLine c.message.length :: ls)
  rw [is,is']
  unfold Commit.encodingLines
  cases c.encoding with
  | none =>
    simp only [Option.map_none,Option.toList_none,List.nil_append]
    rw [rewriteData]
  | some e =>
    simp only [Option.map_some,Option.toList_some,List.cons_append,List.nil_append]
    rw [rewriteOther (by decide),rewriteData]

end

def filled (replaceMap : Text → Option Text) (tmp : Text) (st : State) (c : Commit) : State :=
  { st with
    out := st.out ++ (st.buf ++ if c.root then [Commit.resetLine tmp] else []).flatten
    buf := [Commit.commitLine tmp,c.markLine,c.authorLine,c.committerLine] ++ c.encodingLines ++ Commit.dataLine c.message.length ::
      (lines c.message ++ (Commit.parentLines c.parents ++ c.changes.flatMap (Change.replaced replaceMap)))
    oids := c.mapped replaceMap
    tree := grown st.tree c.changes
    mark := some (render c.mark) }

theorem linesSome {t : Text} (some : t ≠ []) : lines t ≠ [] := by
  intro none
  have whole := linesFlatten t
  rw [none] at whole
  exact some whole.symm

theorem endFilled {st : State} (none : st.oids = []) {c : Commit} (message : c.message ≠ []) :
    endCommit ident info (filled replaceMap tmp st c) = ended ident info replaceMap tmp st c := by
  have reset : (if c.root then [Commit.resetLine tmp] else []).flatten = if c.root then Commit.resetLine tmp else [] := by
    cases c.root <;> simp
  by_cases unmapped : c.mapped replaceMap = []
  · have same : (filled replaceMap tmp st c).oids = [] := unmapped
    rw [endCommit,if_pos same,ended,printed,stale,Commit.header,if_pos unmapped,if_pos unmapped,if_pos unmapped]
    simp only [flush,filled,unmapped,none,List.flatten_append,List.flatten_cons,linesFlatten,reset,Nat.add_zero,State.mk.injEq,and_true]
    simp
  · have some : ¬ (filled replaceMap tmp st c).oids = [] := unmapped
    rw [endCommit,if_neg some,ended,printed,stale,Commit.header,if_neg unmapped,if_neg unmapped,if_neg unmapped]
    simp only [flush,filled,rewriteCommit,rewriteHeader,List.tail_append_of_ne_nil (linesSome message),none,List.flatten_append,
      List.flatten_cons,reset,State.mk.injEq,and_true]
    simp

theorem loopCommit (ref : Ref) {st : State} (none : st.oids = []) {c : Commit} (message : c.message ≠ []) (known : Known st.tree c.changes)
    (rest : Text) : loop ident info replaceMap tmp st (c.text ref.text ++ rest) =
      loop ident info replaceMap tmp (ended ident info replaceMap tmp st c) rest := by
  have blank : Complete ['\n'] := ⟨[],rfl,List.not_mem_nil⟩
  have dataLine : Complete (Commit.dataLine c.message.length) := completeLine _ _ (by decide) (numberLine _)
  rw [textParts,loopStarted,loopLine dataLine,lineData,readAllFront message,Option.map_some,Option.bind_some,loopPlain (plainParents _)]
  dsimp only
  have changes := @loopChanges ident info replaceMap tmp c.changes
    (push (push (started tmp st c) (Commit.dataLine c.message.length :: lines c.message)) (Commit.parentLines c.parents)) known (['\n'] ++ rest)
  rw [changes,loopLine blank,lineBlank,Option.bind_some]
  dsimp only
  rw [← endFilled none message]
  simp [push,started,filled,none,Commit.mapped]

theorem loopEmpty (ref : Ref) {st : State} {c : Commit} (message : c.message = []) (rest : Text) :
    ∃ st',loop ident info replaceMap tmp st (c.text ref.text ++ rest) = some st' ∧ st'.done = st.done := by
  have dataLine : Complete (Commit.dataLine c.message.length) := completeLine _ _ (by decide) (numberLine _)
  rw [textParts,loopStarted,loopLine dataLine,lineData,message,readAll,List.length_nil,if_pos rfl,Option.map_some,Option.bind_some,
    loop,dif_pos rfl]
  exact ⟨_,rfl,rfl⟩

theorem loopCommits (ref : Ref) {commits : List Commit} {st : State} (none : st.oids = []) (message : ∀ c ∈ commits,c.message ≠ [])
    (known : Known st.tree (commits.flatMap Commit.changes)) (rest : Text) :
    loop ident info replaceMap tmp st ((commits.map (Commit.text ref.text)).flatten ++ rest) =
      loop ident info replaceMap tmp (commits.foldl (ended ident info replaceMap tmp) st) rest := by
  induction commits generalizing st with
  | nil => rfl
  | cons c commits ih =>
    obtain ⟨first,others⟩ := List.forall_mem_cons.mp message
    rw [List.flatMap_cons] at known
    obtain ⟨here,next⟩ := knownAppend known
    rw [List.map_cons,List.flatten_cons,List.append_assoc,loopCommit ref none first here,List.foldl_cons]
    exact ih none others next

theorem loopDies (ref : Ref) {commits : List Commit} {st : State} (none : st.oids = []) (empty : ∃ c ∈ commits,c.message = [])
    (known : Known st.tree (commits.flatMap Commit.changes)) (rest : Text) :
    ∃ st',loop ident info replaceMap tmp st ((commits.map (Commit.text ref.text)).flatten ++ rest) = some st' ∧ st'.done = st.done := by
  induction commits generalizing st with
  | nil =>
    obtain ⟨c,mem,_⟩ := empty
    cases mem
  | cons c commits ih =>
    rw [List.map_cons,List.flatten_cons,List.append_assoc]
    by_cases first : c.message = []
    · exact loopEmpty ref first _
    · rw [List.flatMap_cons] at known
      obtain ⟨here,next⟩ := knownAppend known
      obtain ⟨c',mem,is⟩ := empty
      have later : ∃ c ∈ commits,c.message = [] := by
        rcases List.mem_cons.mp mem with rfl | mem
        · exact absurd is first
        · exact ⟨c',mem,is⟩
      rw [loopCommit ref none first here]
      exact @ih (ended ident info replaceMap tmp st c) none later next

theorem endedAll (commits : List Commit) (st : State) :
    let st' := commits.foldl (ended ident info replaceMap tmp) st
    st'.out ++ st'.buf.flatten = st.out ++ st.buf.flatten ++ (commits.map (printed ident info replaceMap tmp)).flatten ∧
      st'.nreplace = st.nreplace + commits.countP (fun c => c.mapped replaceMap ≠ []) ∧
      st'.mark = ((commits.getLast?).map fun c => render c.mark).or st.mark := by
  induction commits generalizing st with
  | nil => simp
  | cons c commits ih =>
    obtain ⟨out,nreplace,mark⟩ := ih (ended ident info replaceMap tmp st c)
    refine ⟨?_,?_,?_⟩
    · rw [List.foldl_cons,out]
      simp [ended]
    · rw [List.foldl_cons,nreplace,List.countP_cons,ended]
      by_cases unmapped : c.mapped replaceMap = []
      · simp [unmapped]
      · simp [unmapped]
        omega
    · rw [List.foldl_cons,mark]
      cases commits with
      | nil => simp [ended]
      | cons c' commits => simp [List.getLast?_cons]

def featured (tree : List Text) : State := ⟨[],[featureLine],[],tree,0,none,false⟩

theorem loopFeature (tree : List Text) (rest : Text) :
    loop ident info replaceMap tmp ⟨[],[],[],tree,0,none,false⟩ (featureLine ++ rest) = loop ident info replaceMap tmp (featured tree) rest := by
  have plain : Plain featureLine := by
    have whole := @plainApart featureLine (by decide) []
    rwa [List.append_nil] at whole
  have complete : Complete featureLine := ⟨"feature done".toList,rfl,by decide⟩
  rw [loopLine complete,linePlain plain,Option.bind_some]
  rfl

theorem knownTree (tree : List Text) (e : Export) : Known tree (e.commits.flatMap Commit.changes) := by
  intro a p b parts
  obtain ⟨oid,mem⟩ := e.known a p b parts
  exact memGrown.mpr (.inr ⟨oid,p,mem,rfl⟩)

theorem replaceOidsDies (ref : Ref) {e : Export} (empty : ∃ c ∈ e.commits,c.message = []) (tree : List Text) :
    replaceOids ident info replaceMap tmp tree (e.text ref.text) = none := by
  obtain ⟨st,is,done⟩ := @loopDies ident info replaceMap tmp ref e.commits (featured tree) rfl empty (knownTree tree e) doneLine
  have no : st.done = false := done
  rw [replaceOids,Export.text,List.append_assoc,loopFeature,is]
  dsimp only
  rw [no]
  rfl

theorem printedLength (c : Commit) :
    (printed ident info replaceMap tmp c).length = (c.rewritten ident info replaceMap tmp).length + (stale replaceMap c).length := by
  simp only [printed,Commit.rewritten,List.length_append]
  omega

theorem printedSame {commits : List Commit} : (commits.map (printed ident info replaceMap tmp)).flatten =
    (commits.map (Commit.rewritten ident info replaceMap tmp)).flatten ↔ ∀ c ∈ commits,stale replaceMap c = [] := by
  constructor
  · intro same
    have lengths := congrArg List.length same
    clear same
    have longer (commits : List Commit) : (commits.map (Commit.rewritten ident info replaceMap tmp)).flatten.length ≤
        (commits.map (printed ident info replaceMap tmp)).flatten.length := by
      induction commits with
      | nil => exact Nat.le_refl 0
      | cons c commits ih =>
        simp only [List.map_cons,List.flatten_cons,List.length_append,printedLength]
        omega
    induction commits with
    | nil => exact fun _ mem => nomatch mem
    | cons c commits ih =>
      have rest := longer commits
      simp only [List.map_cons,List.flatten_cons,List.length_append,printedLength] at lengths
      exact List.forall_mem_cons.mpr ⟨List.length_eq_zero_iff.mp (by omega),ih (by omega)⟩
  · intro none
    refine congrArg List.flatten (List.map_congr_left fun c mem => ?_)
    rw [printed,Commit.rewritten,none c mem,List.append_nil]

theorem staleNone {c : Commit} (message : c.message ≠ []) :
    stale replaceMap c = [] ↔ (c.mapped replaceMap ≠ [] → (lines c.message).length = 1) := by
  have some := linesSome message
  have filled : ∀ l ∈ lines c.message,l ≠ [] := linesFilled c.message
  rw [stale]
  cases is : lines c.message with
  | nil => exact absurd is some
  | cons l ls =>
    rw [is] at filled
    split
    · rename_i unmapped
      exact ⟨fun _ mapped => absurd unmapped mapped,fun _ => rfl⟩
    · rename_i mapped
      rw [List.tail_cons,List.length_cons]
      constructor
      · intro none _
        cases ls with
        | nil => rfl
        | cons k ls => exact absurd (List.append_eq_nil_iff.mp none).1 (filled k (List.mem_cons_of_mem _ List.mem_cons_self))
      · intro one
        rw [List.length_eq_zero_iff.mp (Nat.succ.inj (one mapped))]
        rfl

theorem replaceOidsPrinted (ref : Ref) {e : Export} (message : ∀ c ∈ e.commits,c.message ≠ []) (tree : List Text) :
    replaceOids ident info replaceMap tmp tree (e.text ref.text) = some
      { e.expected ident info replaceMap tmp with out := featureLine ++ (e.commits.map (printed ident info replaceMap tmp)).flatten } := by
  have complete : Complete doneLine := ⟨"done".toList,rfl,by decide⟩
  have commits := @loopCommits ident info replaceMap tmp ref e.commits (featured tree) rfl message (knownTree tree e) doneLine
  obtain ⟨out,nreplace,mark⟩ := @endedAll ident info replaceMap tmp e.commits (featured tree)
  have last (st : State) : loop ident info replaceMap tmp st doneLine = some { st with done := true } := by
    have step := @loopLine ident info replaceMap tmp doneLine complete st []
    rw [List.append_nil,lineDone,Option.bind_some] at step
    rw [step,loop,dif_pos rfl]
  rw [replaceOids,Export.text,List.append_assoc,loopFeature,commits,last]
  dsimp only
  rw [if_pos rfl,Export.expected]
  simp only [flush,List.append_nil]
  rw [out,nreplace,mark]
  simp [featured]

theorem expectedPrinted (ref : Ref) {e : Export} (message : ∀ c ∈ e.commits,c.message ≠ []) (tree : List Text) :
    replaceOids ident info replaceMap tmp tree (e.text ref.text) = some (e.expected ident info replaceMap tmp) ↔
      ∀ c ∈ e.commits,stale replaceMap c = [] := by
  rw [replaceOidsPrinted ref message tree,Export.expected,Option.some.injEq,Result.mk.injEq]
  simp only [and_true,List.append_cancel_left_eq]
  exact printedSame

end

/- The stream for git fast-import is the one expected, unless a commit has no message, or one of several lines that is to be
replaced. -/
theorem replaceOidsExport (ident : Text) (info : Option CmtInfo) (replaceMap : Text → Option Text) (tmp : Text) (tree : List Text) (ref : Ref)
    (e : Export) : replaceOids ident info replaceMap tmp tree (e.text ref.text) = some (e.expected ident info replaceMap tmp) ↔
      ∀ c ∈ e.commits,c.message ≠ [] ∧ (c.mapped replaceMap ≠ [] → (lines c.message).length = 1) := by
  by_cases message : ∀ c ∈ e.commits,c.message ≠ []
  · rw [expectedPrinted ref message]
    exact forall₂_congr fun c mem => (staleNone (message c mem)).trans (and_iff_right (message c mem)).symm
  · obtain ⟨c,mem,empty⟩ : ∃ c ∈ e.commits,c.message = [] := by simpa using message
    rw [replaceOidsDies ref ⟨c,mem,empty⟩]
    exact ⟨fun same => (nomatch same),fun meets => absurd empty (meets c mem).1⟩

def master : Ref := ⟨"refs/heads/master".toList,by decide,by decide⟩

def putting (oid : Run isHex) (message : Text) : Commit :=
  ⟨true,1,⟨"A <a> 1 +0000".toList,by decide⟩,⟨"A <a> 1 +0000".toList,by decide⟩,none,message,[],
    [.modify oid ⟨['m'],by decide,List.all_eq_true.mp (by decide)⟩]⟩

def oneCommit (oid : Run isHex) (message : Text) : Export := ⟨[putting oid message],by
  intro a p b parts
  have mem : Change.delete p ∈ [putting oid message].flatMap Commit.changes := parts ▸ List.mem_append_right _ List.mem_cons_self
  simp [putting] at mem⟩

def kept : Run isHex := ⟨"ab".toList,by decide,List.all_eq_true.mp (by decide)⟩

def purged : Run isHex := ⟨"cd".toList,by decide,List.all_eq_true.mp (by decide)⟩

def purgeMap (oid : Text) : Option Text := if oid = "cd".toList then some [] else none

/- A commit without a message, as git commit --allow-empty-message makes it, and a message of two lines of a commit that is
rewritten -/
theorem messageSwallows :
    replaceOids "x <x>".toList none purgeMap "refs/heads/replace-cd".toList [] ((oneCommit kept []).text master.text) ≠
        some ((oneCommit kept []).expected "x <x>".toList none purgeMap "refs/heads/replace-cd".toList) ∧
      replaceOids "x <x>".toList none purgeMap "refs/heads/replace-cd".toList [] ((oneCommit purged "a\nb\n".toList).text master.text) ≠
        some ((oneCommit purged "a\nb\n".toList).expected "x <x>".toList none purgeMap "refs/heads/replace-cd".toList) := by
  constructor
  · rw [replaceOidsDies master ⟨putting kept [],List.mem_cons_self,rfl⟩]
    exact fun same => nomatch same
  · have message : ∀ c ∈ (oneCommit purged "a\nb\n".toList).commits,c.message ≠ [] :=
      List.forall_mem_singleton.mpr (List.cons_ne_nil _ _)
    intro same
    have stays := (expectedPrinted master message []).mp same (putting purged "a\nb\n".toList) List.mem_cons_self
    exact absurd stays (by decide)

end PublicInbox.Import
