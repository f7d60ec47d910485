import PublicInbox.Library.Lines

/-! Text sent as lines up to one that is a dot alone: a line of the text that starts with a dot is sent with another one. -/
namespace DotStuffing
open Lines

def terminator : List Char := ['.','\r','\n']

def dotted (l : List Char) : Bool := l.head? == some '.'

def stuff : Bool → List Char → List Char
  | _,[] => []
  | start,c :: t => if start && c == '.' then '.' :: c :: stuff false t else c :: stuff (c == '\n') t

def sent (l : List Char) : List Char := if dotted l then '.' :: l else l

def taken (l : List Char) : List Char := if dotted l then l.tail else l

def receiveLines : List (List Char) → Option (List Char × List (List Char))
  | [] => none
  | l :: ls => if l = terminator then some ([],ls) else (receiveLines ls).map fun rest => (taken l ++ rest.1,rest.2)

def receive (stream : List Char) : Option (List Char × List Char) := (receiveLines (lines stream)).map fun rest => (rest.1,rest.2.flatten)

def reply (stream : List Char) : Option (List Char × List Char × List Char) :=
  match lines stream with
  | [] => none
  | status :: ls => (receiveLines ls).map fun rest => (status,rest.1,rest.2.flatten)

theorem replyStatus {status : List Char} (complete : Complete status) (t : List Char) : reply (status ++ t) = (receive t).map fun rest => (status,rest) := by
  rw [reply,linesComplete complete,receive,Option.map_map]
  rfl

theorem replied {status content rest t : List Char} (complete : Complete status) :
    reply (status ++ t) = some (status,content,rest) ↔ receive t = some (content,rest) := by
  rw [replyStatus complete]
  cases receive t with
  | none => simp
  | some read => simp

theorem terminatorComplete : Complete terminator := ⟨['.','\r'],rfl,by decide⟩

theorem takenSent (l : List Char) : taken (sent l) = l := by
  unfold sent
  split
  · exact if_pos rfl
  · rename_i plain
    exact if_neg plain

theorem sentOther (l : List Char) : sent l ≠ terminator := by
  unfold sent
  split
  · rename_i dot
    intro same
    rw [(List.cons.inj same).2] at dot
    cases dot
  · rename_i plain
    rintro rfl
    exact plain rfl

theorem sentComplete {l : List Char} (complete : Complete l) : Complete (sent l) := by
  obtain ⟨w,rfl,inside⟩ := complete
  unfold sent
  split
  · exact ⟨'.' :: w,rfl,List.not_mem_cons_of_ne_of_not_mem (by decide) inside⟩
  · exact ⟨w,rfl,inside⟩

theorem takenComplete {l : List Char} (complete : Complete l) : Complete (taken l) := by
  obtain ⟨w,rfl,inside⟩ := complete
  unfold taken
  split
  · rename_i dot
    cases w with
    | nil => cases dot
    | cons c w => exact ⟨w,rfl,fun mem => inside (List.mem_cons_of_mem _ mem)⟩
  · exact ⟨w,rfl,inside⟩

theorem stuffInside {w : List Char} (inside : '\n' ∉ w) (t : List Char) : stuff false (w ++ '\n' :: t) = w ++ '\n' :: stuff true t := by
  induction w with
  | nil => rfl
  | cons c w ih =>
    obtain ⟨first,rest⟩ := List.ne_and_not_mem_of_not_mem_cons inside
    have next : (c == '\n') = false := beq_false_of_ne (Ne.symm first)
    simp only [List.cons_append,stuff,Bool.false_and,Bool.false_eq_true,if_false,next,ih rest]

theorem stuffLine {l : List Char} (complete : Complete l) (t : List Char) : stuff true (l ++ t) = sent l ++ stuff true t := by
  obtain ⟨w,rfl,inside⟩ := complete
  rw [List.append_assoc]
  cases w with
  | nil => rfl
  | cons c w =>
    obtain ⟨first,rest⟩ := List.ne_and_not_mem_of_not_mem_cons inside
    have next : (c == '\n') = false := beq_false_of_ne (Ne.symm first)
    simp only [List.cons_append,stuff,sent,dotted,List.head?_cons,Bool.true_and,next,stuffInside rest]
    by_cases dot : c = '.'
    · simp [dot]
    · have other : (c == '.') = false := beq_false_of_ne dot
      simp [other]

theorem stuffFlatten {ls : List (List Char)} (complete : ∀ l ∈ ls,Complete l) : stuff true ls.flatten = (ls.map sent).flatten := by
  induction ls with
  | nil => rfl
  | cons l ls ih =>
    rw [List.flatten_cons,stuffLine (complete l List.mem_cons_self),ih fun l mem => complete l (List.mem_cons_of_mem _ mem),
      List.map_cons,List.flatten_cons]

theorem receiveFrame {ls : List (List Char)} (other : ∀ l ∈ ls,l ≠ terminator) (more : List (List Char)) :
    receiveLines (ls ++ terminator :: more) = some ((ls.map taken).flatten,more) := by
  induction ls with
  | nil => exact if_pos rfl
  | cons l ls ih =>
    rw [List.cons_append,receiveLines,if_neg (other l List.mem_cons_self),ih fun l mem => other l (List.mem_cons_of_mem _ mem)]
    rfl

theorem receiveEarly {ls : List (List Char)} (mem : terminator ∈ ls) (more : List (List Char)) :
    ∃ t a,receiveLines (ls ++ more) = some (t,a ++ more) := by
  induction ls with
  | nil => cases mem
  | cons l ls ih =>
    rw [List.cons_append,receiveLines]
    split
    · exact ⟨[],ls,rfl⟩
    · rename_i other
      obtain ⟨t,a,found⟩ := ih (List.mem_of_ne_of_mem (Ne.symm other) mem)
      exact ⟨taken l ++ t,a,by rw [found]; rfl⟩

theorem takenShorter (l : List Char) : (taken l).length ≤ l.length := by
  unfold taken
  split
  · rw [List.length_tail]
    exact Nat.sub_le _ _
  · exact Nat.le_refl _

theorem takenDotted {l : List Char} (dot : dotted l = true) : (taken l).length < l.length := by
  rw [taken,if_pos dot]
  cases l with
  | nil => cases dot
  | cons c l => exact Nat.lt_succ_self _

theorem takenFlatten (ls : List (List Char)) : (ls.map taken).flatten.length ≤ ls.flatten.length := by
  induction ls with
  | nil => exact Nat.le_refl _
  | cons l ls ih =>
    simp only [List.map_cons,List.flatten_cons,List.length_append]
    exact Nat.add_le_add (takenShorter l) ih

theorem takenPlain {ls : List (List Char)} : (ls.map taken).flatten = ls.flatten ↔ ∀ l ∈ ls,dotted l = false := by
  constructor
  · intro same l mem
    rw [← Bool.not_eq_true]
    intro dot
    obtain ⟨a,b,rfl⟩ := List.append_of_mem mem
    have length := congrArg List.length same
    simp only [List.map_append,List.map_cons,List.flatten_append,List.flatten_cons,List.length_append] at length
    have before := takenFlatten a
    have after := takenFlatten b
    have here := takenDotted dot
    omega
  · intro plain
    congr 1
    exact List.map_congr_left (fun l mem => if_neg (by rw [plain l mem]; exact Bool.false_ne_true)) |>.trans (List.map_id _)

theorem receiveParts {hdr : List (List Char)} {bdy rest t : List Char} (complete : ∀ l ∈ hdr,Complete l) (whole : Whole bdy) :
    receive (hdr.flatten ++ stuff true bdy ++ terminator ++ rest) = some (t,rest) ↔
      terminator ∉ hdr ∧ t = (hdr.map taken).flatten ++ bdy := by
  have stuffed : stuff true bdy = ((lines bdy).map sent).flatten := by
    rw [← stuffFlatten whole,linesFlatten]
  have each : ∀ l ∈ hdr ++ (lines bdy).map sent ++ [terminator],Complete l := by
    simp only [List.mem_append,List.mem_singleton,List.mem_map]
    rintro l ((mem | ⟨l',inside,rfl⟩) | rfl)
    · exact complete l mem
    · exact sentComplete (whole l' inside)
    · exact terminatorComplete
  have read : lines (hdr.flatten ++ stuff true bdy ++ terminator ++ rest) =
      hdr ++ ((lines bdy).map sent ++ terminator :: lines rest) := by
    have parts := linesAppend each rest
    simp only [List.flatten_append,List.flatten_cons,List.flatten_nil,List.append_nil,← stuffed] at parts
    rw [parts]
    simp only [List.append_assoc,List.singleton_append]
  rw [receive,read]
  by_cases early : terminator ∈ hdr
  · obtain ⟨u,a,found⟩ := receiveEarly early ((lines bdy).map sent ++ terminator :: lines rest)
    rw [found]
    refine ⟨fun is => ?_,fun is => absurd early is.1⟩
    obtain ⟨_,left⟩ := Prod.mk.inj (Option.some.inj is)
    have length := congrArg List.length left
    simp only [List.flatten_append,List.flatten_cons,List.length_append,linesFlatten,terminator,List.length_cons] at length
    omega
  · have other : ∀ l ∈ hdr ++ (lines bdy).map sent,l ≠ terminator := by
      intro l mem
      rcases List.mem_append.mp mem with inside | inside
      · exact ne_of_mem_of_not_mem inside early
      · obtain ⟨l',_,rfl⟩ := List.mem_map.mp inside
        exact sentOther l'
    have back : ((lines bdy).map sent).map taken = lines bdy := by
      rw [List.map_map]
      exact (List.map_congr_left fun l _ => takenSent l).trans (List.map_id _)
    rw [← List.append_assoc,receiveFrame other,List.map_append,back,List.flatten_append,linesFlatten]
    simp only [Option.map_some,linesFlatten,Option.some.injEq,Prod.mk.injEq,and_true]
    exact ⟨fun same => ⟨early,same.symm⟩,fun same => same.2.symm⟩

theorem terminatorDotted : dotted terminator = true := rfl

theorem receiveWhole {hdr bdy rest : List Char} (wholeHdr : Whole hdr) (whole : Whole bdy) :
    receive (hdr ++ stuff true bdy ++ terminator ++ rest) = some (hdr ++ bdy,rest) ↔ ∀ l ∈ lines hdr,dotted l = false := by
  have parts := @receiveParts (lines hdr) bdy rest (hdr ++ bdy) wholeHdr whole
  rw [linesFlatten] at parts
  rw [parts,List.append_left_inj,← takenPlain,linesFlatten,eq_comm]
  refine ⟨fun is => is.2,fun same => ⟨fun mem => ?_,same⟩⟩
  have plain := takenPlain.mp (same.trans (linesFlatten hdr).symm) terminator mem
  exact absurd (plain.symm.trans terminatorDotted) Bool.false_ne_true

end DotStuffing
