import PublicInbox.Eml.Header
import PublicInbox.Library.DotStuffing

/-! The line ends of a message on the wire, and strip_from. -/
namespace PublicInbox.Mime.Eml
open Lines DotStuffing

def toCrlf : Bool → Text → Text
  | _,[] => []
  | cr,c :: t => if c = '\n' ∧ cr = false then '\r' :: '\n' :: toCrlf false t else c :: toCrlf (c == '\r') t

def stripFrom (t : Text) : Text :=
  let s := t.dropWhile fun c => c == '\r' || c == '\n'
  if "From ".toList.isPrefixOf s then
    match s.dropWhile (· ≠ '\n') with
    | [] => t
    | _ :: rest => rest
  else t

def ended (t : Text) : Text := if ['\r','\n'].isSuffixOf t then t else t ++ ['\r','\n']

theorem crlfStuff (cr start : Bool) (t : Text) : toCrlf cr (stuff start t) = stuff start (toCrlf cr t) := by
  induction t generalizing cr start with
  | nil => rfl
  | cons c t ih =>
    by_cases dot : c = '.'
    · subst dot
      cases start <;> simp [stuff,toCrlf,ih]
    · have other : (c == '.') = false := beq_false_of_ne dot
      by_cases line : c = '\n' ∧ cr = false
      · obtain ⟨rfl,rfl⟩ := line
        simp [stuff,toCrlf,ih]
      · simp [stuff,toCrlf,other,line,ih]

theorem stuffCrlf (start : Bool) (t : Text) : stuff start (t ++ ['\r','\n']) = stuff start t ++ ['\r','\n'] := by
  induction t generalizing start with
  | nil => cases start <;> rfl
  | cons c t ih =>
    simp only [List.cons_append,stuff]
    split
    · rw [ih,List.cons_append,List.cons_append]
    · rw [ih,List.cons_append]

theorem stuffSuffix (start : Bool) (t : Text) : ['\r','\n'] <:+ stuff start t ↔ ['\r','\n'] <:+ t := by
  constructor
  · intro is
    induction t generalizing start with
    | nil => exact is
    | cons c t ih =>
      simp only [stuff] at is
      split at is
      · rename_i dot
        rw [Bool.and_eq_true,beq_iff_eq] at dot
        rcases List.suffix_cons_iff.mp is with same | is
        · cases same
        · rcases List.suffix_cons_iff.mp is with same | is
          · cases (List.cons.inj same).1.trans dot.2
          · exact (ih _ is).trans (List.suffix_cons _ _)
      · rcases List.suffix_cons_iff.mp is with same | is
        · obtain ⟨first,rest⟩ := List.cons.inj same
          subst first
          cases t with
          | nil => cases rest
          | cons d t =>
            simp only [stuff] at rest
            split at rest
            · cases rest
            · obtain ⟨second,rest⟩ := List.cons.inj rest
              subst second
              cases t with
              | nil => exact List.suffix_rfl
              | cons e t =>
                simp only [stuff] at rest
                split at rest <;> cases rest
        · exact (ih _ is).trans (List.suffix_cons _ _)
  · rintro ⟨u,rfl⟩
    rw [stuffCrlf]
    exact List.suffix_append _ _

theorem endedStuff (t : Text) : ended (stuff true t) = stuff true (ended t) := by
  unfold ended
  simp only [List.isSuffixOf_iff_suffix,stuffSuffix]
  split
  · rfl
  · rw [stuffCrlf]

theorem endedWhole (t : Text) : Whole (ended t) := by
  unfold ended
  split
  · rename_i is
    obtain ⟨u,rfl⟩ := List.isSuffixOf_iff_suffix.mp is
    exact eolWhole (.inr rfl)
  · exact eolWhole (.inr rfl)

theorem crlfLine {l : Text} (complete : Complete l) (cr : Bool) (t : Text) : toCrlf cr (l ++ t) = toCrlf cr l ++ toCrlf false t := by
  obtain ⟨w,rfl,inside⟩ := complete
  induction w generalizing cr with
  | nil => cases cr <;> rfl
  | cons c w ih =>
    obtain ⟨first,rest⟩ := List.ne_and_not_mem_of_not_mem_cons inside
    simp only [List.cons_append,toCrlf,Ne.symm first,false_and,if_false,ih _ rest]

theorem crlfComplete {l : Text} (complete : Complete l) (cr : Bool) : Complete (toCrlf cr l) := by
  obtain ⟨w,rfl,inside⟩ := complete
  induction w generalizing cr with
  | nil =>
    cases cr
    · exact ⟨['\r'],rfl,by decide⟩
    · exact ⟨[],rfl,List.not_mem_nil⟩
  | cons c w ih =>
    obtain ⟨first,rest⟩ := List.ne_and_not_mem_of_not_mem_cons inside
    obtain ⟨v,same,plain⟩ := ih (c == '\r') rest
    refine ⟨c :: v,?_,List.not_mem_cons_of_ne_of_not_mem first plain⟩
    simp only [List.cons_append,toCrlf,Ne.symm first,false_and,if_false,same]

theorem crlfFlatten {ls : List Text} (complete : ∀ l ∈ ls,Complete l) : toCrlf false ls.flatten = (ls.map (toCrlf false)).flatten := by
  induction ls with
  | nil => rfl
  | cons l ls ih =>
    rw [List.flatten_cons,crlfLine (complete l List.mem_cons_self),ih fun l mem => complete l (List.mem_cons_of_mem _ mem),
      List.map_cons,List.flatten_cons]

theorem crlfLines {t : Text} (whole : Whole t) : lines (toCrlf false t) = (lines t).map (toCrlf false) := by
  conv_lhs => rw [← linesFlatten t,crlfFlatten whole]
  refine linesOf fun l mem => ?_
  obtain ⟨l',inside,rfl⟩ := List.mem_map.mp mem
  exact crlfComplete (whole l' inside) false

theorem crlfDotted (cr : Bool) (l : Text) : dotted (toCrlf cr l) = dotted l := by
  cases l with
  | nil => rfl
  | cons c l =>
    rw [toCrlf]
    split
    · rename_i line
      rw [line.1]
      rfl
    · rfl

theorem crlfEnds (w : Text) : ['\r','\n'] <:+ '\r' :: toCrlf true (w ++ ['\n']) ∧ ['\r','\n'] <:+ toCrlf false (w ++ ['\n']) := by
  induction w with
  | nil => exact ⟨List.suffix_rfl,List.suffix_rfl⟩
  | cons c w ih =>
    have next (cr : Bool) : ['\r','\n'] <:+ toCrlf cr (c :: w ++ ['\n']) := by
      rw [List.cons_append,toCrlf]
      split
      · exact ih.2.trans ((List.suffix_cons _ _).trans (List.suffix_cons _ _))
      · by_cases ret : c = '\r'
        · rw [ret]
          exact ih.1
        · rw [beq_false_of_ne ret]
          exact ih.2.trans (List.suffix_cons _ _)
    exact ⟨(next true).trans (List.suffix_cons _ _),next false⟩

theorem newNone {s : Text} (none : (new s).bdy = none) : Leftmost.find emptyLine s = .none ∧ hasField true s = true ∧ Whole s := by
  unfold new at none
  split at none
  · cases none
  · split at none
    · cases none
    · rename_i found
      split at none
      · rename_i crlf is
        split at is
        · rename_i field
          exact ⟨found,field,(lastEolEnds is).2⟩
        · cases is
      · cases none

theorem emptyLineAt {l : Text} (is : toCrlf false l = ['\r','\n']) : l = ['\n'] ∨ l = ['\r','\n'] := by
  cases l with
  | nil => cases is
  | cons c l =>
    rw [toCrlf] at is
    split at is
    · rename_i line
      have rest := (List.cons.inj (List.cons.inj is).2).2
      cases l with
      | nil => exact .inl (by rw [line.1])
      | cons d l =>
        rw [toCrlf] at rest
        split at rest <;> cases rest
    · obtain ⟨ret,rest⟩ := List.cons.inj is
      subst ret
      cases l with
      | nil => cases rest
      | cons d l =>
        rw [toCrlf] at rest
        split at rest
        · cases rest
        · obtain ⟨line,rest⟩ := List.cons.inj rest
          subst line
          cases l with
          | nil => exact .inr rfl
          | cons e l =>
            rw [toCrlf] at rest
            split at rest <;> cases rest

theorem linesEnd {s l : Text} {front : List Text} (parts : lines s = front ++ [l]) : s = front.flatten ++ l := by
  rw [← linesFlatten s,parts,List.flatten_append,List.flatten_cons,List.flatten_nil,List.append_nil]

theorem bodylessEnd {s : Text} (none : (new s).bdy = none) : (lines (ended (toCrlf false s))).getLast? ≠ some ['\r','\n'] := by
  obtain ⟨found,field,whole⟩ := newNone none
  rcases List.eq_nil_or_concat (lines s) with empty | ⟨front,l,parts⟩
  · have nil : s = [] := by rw [← linesFlatten s,empty]; rfl
    rw [nil] at field
    cases field
  rw [List.concat_eq_append] at parts
  have text := linesEnd parts
  obtain ⟨w,same,inside⟩ := whole l (parts ▸ List.mem_append_right _ List.mem_cons_self)
  have ends : ended (toCrlf false s) = toCrlf false s := by
    have := (crlfEnds (front.flatten ++ w)).2
    rw [List.append_assoc,← same,← text] at this
    exact if_pos (List.isSuffixOf_iff_suffix.mpr this)
  rw [ends,crlfLines whole,parts,List.map_append,List.map_singleton,List.getLast?_concat]
  intro is
  have short := emptyLineAt (Option.some.inj is)
  rcases List.eq_nil_or_concat front with rfl | ⟨before,l',rfl⟩
  · rw [List.flatten_nil,List.nil_append] at text
    rw [text] at field
    rcases short with rfl | rfl <;> cases field
  · rw [List.concat_eq_append] at parts text
    obtain ⟨w',same',_⟩ := whole l' (parts ▸ List.mem_append_left _ (List.mem_append_right _ List.mem_cons_self))
    have blank : emptyLine ('\n' :: l) ≠ .none := by
      rcases short with rfl | rfl <;> exact Option.some_ne_none _
    refine blank (Leftmost.findNone.mp found (before.flatten ++ w') ('\n' :: l) ?_)
    rw [text,same']
    simp

theorem strippedPlain {run : Text} (ends : ∀ c ∈ run,c = '\r' ∨ c = '\n') {w : Text} (inside : '\n' ∉ w) :
    ∀ l ∈ lines (run ++ ('F' :: w ++ ['\n'])),dotted l = false := by
  induction run with
  | nil =>
    have complete : Complete ('F' :: w ++ ['\n']) := ⟨'F' :: w,rfl,List.not_mem_cons_of_ne_of_not_mem (by decide) inside⟩
    have one := linesComplete complete []
    rw [List.append_nil] at one
    intro l mem
    rw [List.nil_append,one,lines,List.mem_singleton] at mem
    rw [mem]
    rfl
  | cons c run ih =>
    obtain ⟨own,others⟩ := List.forall_mem_cons.mp ends
    intro l mem
    rw [List.cons_append,lines] at mem
    split at mem
    · rcases List.mem_cons.mp mem with rfl | mem
      · rename_i line
        rw [line]
        rfl
      · exact ih others l mem
    · rename_i other
      have ret : c = '\r' := own.resolve_right other
      split at mem
      · rw [List.mem_singleton.mp mem,ret]
        rfl
      · rename_i l' ls is
        rcases List.mem_cons.mp mem with rfl | mem
        · rw [ret]
          rfl
        · exact ih others l (is ▸ List.mem_cons_of_mem _ mem)

theorem stripFromCut (t : Text) : stripFrom t = t ∨
    ∃ run w,(∀ c ∈ run,c = '\r' ∨ c = '\n') ∧ '\n' ∉ w ∧ t = run ++ ('F' :: w ++ ['\n']) ++ stripFrom t := by
  unfold stripFrom
  extract_lets s
  split
  · rename_i start
    split
    · exact .inl rfl
    · rename_i c rest cut
      right
      obtain ⟨u,text⟩ := List.isPrefixOf_iff_prefix.mp start
      have newline : c = '\n' := by
        have := List.head?_dropWhile_not (· ≠ '\n') s
        rw [cut] at this
        simpa using this
      subst newline
      obtain ⟨w,same⟩ : ∃ w,s.takeWhile (· ≠ '\n') = 'F' :: w := by
        rw [← text]
        exact ⟨_,rfl⟩
      have whole : s = 'F' :: w ++ '\n' :: rest := by
        rw [← same,← cut,List.takeWhile_append_dropWhile]
      refine ⟨t.takeWhile fun c => c == '\r' || c == '\n',w,?_,?_,?_⟩
      · intro c mem
        simpa using List.mem_takeWhile_imp mem
      · intro mem
        have each := List.mem_takeWhile_imp (same ▸ List.mem_cons_of_mem _ mem : '\n' ∈ s.takeWhile (· ≠ '\n'))
        exact absurd each (by decide)
      · calc
          t = t.takeWhile (fun c => c == '\r' || c == '\n') ++ s := (List.takeWhile_append_dropWhile).symm
          _ = _ := by rw [whole]; simp
  · exact .inl rfl

theorem stripFromDots {t : Text} (whole : Whole t) : Whole (stripFrom t) ∧ (lines (stripFrom t)).any dotted = (lines t).any dotted := by
  rcases stripFromCut t with same | ⟨run,w,ends,inside,parts⟩
  · rw [same]
    exact ⟨whole,rfl⟩
  · have front : Whole (run ++ ('F' :: w ++ ['\n'])) := by
      rw [← List.append_assoc]
      exact wholeNewline _
    have cut : lines t = lines (run ++ ('F' :: w ++ ['\n'])) ++ lines (stripFrom t) := by
      conv_lhs => rw [parts]
      exact wholeAppend front _
    have plain : (lines (run ++ ('F' :: w ++ ['\n']))).any dotted = false :=
      List.any_eq_false.mpr fun l mem dot => absurd ((strippedPlain ends inside l mem).symm.trans dot) Bool.false_ne_true
    refine ⟨fun l mem => whole l (cut ▸ List.mem_append_right _ mem),?_⟩
    rw [cut,List.any_append,plain,Bool.false_or]

end PublicInbox.Mime.Eml
