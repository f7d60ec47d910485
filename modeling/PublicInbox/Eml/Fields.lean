import PublicInbox.Eml.Survivors
import PublicInbox.SearchDates

/-! Eml.pm: a header as a list of fields, and header_set as an edit of that list. -/
namespace PublicInbox.Mime.Eml
open Lines
open SearchDates (isSpace)

/- The characters of octets in UTF-8: the first argument is how many octets of a character are still to come,
the second the bits that are there. -/
def characters : Nat → Nat → Text → Text
  | _,_,[] => []
  | 0,_,a :: t =>
    if a.toNat < 128 then a :: characters 0 0 t
    else if a.toNat < 224 then characters 1 (a.toNat % 32) t
    else if a.toNat < 240 then characters 2 (a.toNat % 16) t
    else characters 3 (a.toNat % 8) t
  | n + 1,bits,a :: t =>
    let bits := bits * 64 + a.toNat % 64
    if n = 0 then Char.ofNat bits :: characters 0 0 t else characters n bits t

def utf8Decode (t : Text) : Text := if encode (characters 0 0 t) = t then characters 0 0 t else t

def folded : Text → Bool
  | [] => true
  | c :: t => (c != '\n' || t.head?.any blank) && folded t

def FieldName (k : Text) : Prop := ∀ c ∈ k,33 ≤ c.toNat ∧ c.toNat ≤ 126 ∧ c ≠ ':'

instance (k : Text) : Decidable (FieldName k) :=
  decidable_of_iff (k.all fun c => 33 ≤ c.toNat ∧ c.toNat ≤ 126 ∧ c ≠ ':') (by simp only [List.all_eq_true,decide_eq_true_eq,FieldName])

structure Field where
  name : Text
  body : Text
  named : FieldName name
  folds : folded body = true

def Field.text (f : Field) : Text := f.name ++ ':' :: f.body ++ ['\n']

def block (fs : List Field) : Text := (fs.map Field.text).flatten

def own (k : Text) (f : Field) : Bool := lower f.name == lower k

def setFields (k : Text) : List Field → List Field → List Field
  | [],new => new
  | f :: fs,new => if own k f then new.take 1 ++ setFields k fs new.tail else f :: setFields k fs new

def grouped : List Text → List (List Text)
  | [] => []
  | l :: ls =>
    match grouped ls with
    | [] => [[l]]
    | g :: gs => if (g.head?.bind List.head?).any blank then (l :: g) :: gs else [l] :: g :: gs

def headers (t : Text) : List (Text × Text) :=
  (grouped (lines t)).map fun g => (g.flatten.takeWhile (· ≠ ':'),(g.flatten.dropWhile (· ≠ ':')).tail)

def others (k : Text) (hs : List (Text × Text)) : List (Text × Text) := hs.filter fun h => lower h.1 != lower k

theorem linesPrefix {p t l : Text} {ls : List Text} (inside : '\n' ∉ p) (is : lines t = l :: ls) : lines (p ++ t) = (p ++ l) :: ls := by
  induction p with
  | nil => exact is
  | cons c p ih =>
    obtain ⟨first,rest⟩ := List.ne_and_not_mem_of_not_mem_cons inside
    rw [List.cons_append,lines,if_neg (Ne.symm first),ih rest]
    rfl

theorem blankContinues {l : Text} (complete : Complete l) (start : l.head?.any blank = true) : continues l = true := by
  obtain ⟨w,rfl,_⟩ := complete
  cases w with
  | nil => cases start
  | cons c w =>
    have is : blank c = true := start
    have other : c ≠ ':' := fun same => absurd (same ▸ is) (by decide)
    have run : (c :: w ++ ['\n']).takeWhile (· ≠ ':') = c :: (w ++ ['\n']).takeWhile (· ≠ ':') :=
      List.takeWhile_cons_of_pos (decide_eq_true other)
    have last : (c :: w ++ ['\n']).getLast? = some '\n' := List.getLast?_concat
    rw [continues,run,last,List.any_cons,is]
    rfl

theorem blankLater {k l : Text} (name : FieldName k) (start : l.head?.any blank = true) : begins k l = false := by
  rw [← Bool.not_eq_true]
  intro is
  obtain ⟨u,same⟩ := List.isPrefixOf_iff_prefix.mp (Bool.and_eq_true_iff.mp is).1
  cases l with
  | nil => cases start
  | cons c l =>
    have isBlank : blank c = true := start
    have low : c.toLower = c := by
      rcases Bool.or_eq_true_iff.mp isBlank with space | tab
      · rw [eq_of_beq space]
        rfl
      · rw [eq_of_beq tab]
        rfl
    cases k with
    | nil =>
      have colon : c = ':' := low.symm.trans (List.cons.inj same).1.symm
      rw [colon] at isBlank
      cases isBlank
    | cons d k =>
      have first : d.toLower = c := (List.cons.inj same).1.trans low
      have here : d = c := by
        rcases Bool.or_eq_true_iff.mp isBlank with space | tab
        · rw [eq_of_beq space] at first ⊢
          exact (lowerPlain (by decide) (by decide)).mp first
        · rw [eq_of_beq tab] at first ⊢
          exact (lowerPlain (by decide) (by decide)).mp first
      have wide := (name d List.mem_cons_self).1
      rw [here] at wide
      rcases Bool.or_eq_true_iff.mp isBlank with space | tab
      · rw [eq_of_beq space] at wide
        exact absurd wide (by decide)
      · rw [eq_of_beq tab] at wide
        exact absurd wide (by decide)

section
variable {k : Text} (name : FieldName k)
include name

theorem FieldName.colon : ':' ∉ k := fun mem => (name _ mem).2.2 rfl

theorem FieldName.line : '\n' ∉ k := fun mem => absurd (name _ mem).1 (by decide)

theorem FieldName.blanks : k.any blank = false := by
  rw [List.any_eq_false]
  intro c mem is
  have wide := (name c mem).1
  rcases Bool.or_eq_true_iff.mp is with space | tab
  · rw [eq_of_beq space] at wide
    exact absurd wide (by decide)
  · rw [eq_of_beq tab] at wide
    exact absurd wide (by decide)

end

theorem foldedLines {w : Text} (folds : folded w = true) : ∃ l ls,lines (w ++ ['\n']) = l :: ls ∧ Complete l ∧
    l.head? = (w ++ ['\n']).head? ∧ ∀ l ∈ ls,Complete l ∧ l.head?.any blank = true := by
  induction w with
  | nil => exact ⟨['\n'],[],rfl,⟨[],rfl,List.not_mem_nil⟩,rfl,fun _ mem => nomatch mem⟩
  | cons c w ih =>
    obtain ⟨next,rest⟩ := Bool.and_eq_true_iff.mp folds
    obtain ⟨l,ls,is,complete,first,each⟩ := ih rest
    by_cases newline : c = '\n'
    · subst newline
      refine ⟨['\n'],l :: ls,?_,⟨[],rfl,List.not_mem_nil⟩,rfl,List.forall_mem_cons.mpr ⟨⟨complete,?_⟩,each⟩⟩
      · rw [List.cons_append,lines,if_pos rfl,is]
      · cases w with
        | nil => cases next
        | cons d w =>
          rw [first]
          exact next
    · obtain ⟨v,rfl,inside⟩ := complete
      refine ⟨c :: (v ++ ['\n']),ls,?_,⟨c :: v,rfl,List.not_mem_cons_of_ne_of_not_mem (Ne.symm newline) inside⟩,rfl,each⟩
      rw [List.cons_append,lines,if_neg newline,is]

theorem fieldLines (f : Field) : ∃ l ls,lines f.text = (f.name ++ ':' :: l) :: ls ∧ Complete (f.name ++ ':' :: l) ∧
    ∀ l ∈ ls,Complete l ∧ l.head?.any blank = true := by
  obtain ⟨l,ls,is,⟨v,same,inside⟩,_,each⟩ := foldedLines f.folds
  have front : '\n' ∉ f.name ++ [':'] := by
    rw [List.mem_append,not_or]
    exact ⟨f.named.line,by decide⟩
  refine ⟨l,ls,?_,⟨f.name ++ ':' :: v,by rw [same]; simp,?_⟩,each⟩
  · have whole := linesPrefix front is
    simpa only [Field.text,List.append_assoc,List.cons_append,List.nil_append] using whole
  · rw [List.mem_append,not_or]
    exact ⟨f.named.line,List.not_mem_cons_of_ne_of_not_mem (by decide) inside⟩

theorem fieldWhole (f : Field) : Whole f.text := by
  obtain ⟨l,ls,is,complete,each⟩ := fieldLines f
  rw [Whole,is]
  exact List.forall_mem_cons.mpr ⟨complete,fun l mem => (each l mem).1⟩

theorem blockLinesAppend (f : Field) (fs : List Field) : lines (block (f :: fs)) = lines f.text ++ lines (block fs) :=
  wholeAppend (fieldWhole f) _

def fieldParts (k : Text) (f : Field) : List Part := if own k f then [.field f.text] else (lines f.text).map .other

theorem partsGoing {k : Text} {ls : List Text} (each : ∀ l ∈ ls,continues l = true) (text : Text) (more : List Text) :
    parts k (some text) (ls ++ more) = parts k (some (text ++ ls.flatten)) more := by
  induction ls generalizing text with
  | nil => rw [List.flatten_nil,List.append_nil,List.nil_append]
  | cons l ls ih =>
    rw [List.cons_append,parts,if_pos (each l List.mem_cons_self),ih fun l mem => each l (List.mem_cons_of_mem _ mem),
      List.flatten_cons,List.append_assoc]

theorem partsBlock {k : Text} (name : FieldName k) (fs : List Field) (going : Option Text) :
    parts k going (lines (block fs)) = flush going ++ fs.flatMap (fieldParts k) := by
  induction fs generalizing going with
  | nil => cases going <;> rfl
  | cons f fs ih =>
    obtain ⟨l,ls,is,complete,each⟩ := fieldLines f
    have goes : ∀ l ∈ ls,continues l = true := fun l mem => blankContinues (each l mem).1 (each l mem).2
    have plain : ∀ l ∈ ls,begins k l = false := fun l mem => blankLater name (each l mem).2
    have ends : continues (f.name ++ ':' :: l) = false := fieldEnds f.named.blanks f.named.colon
    have noColon {k : Text} (name : FieldName k) : ':' ∉ lower k := fun mem => name.colon (lowerColon.mp mem)
    have newline : (f.name ++ ':' :: l).getLast? = some '\n' := by
      obtain ⟨w,same,_⟩ := complete
      rw [same,List.getLast?_concat]
    have starts : begins k (f.name ++ ':' :: l) = own k f := by
      rw [Bool.eq_iff_iff,beginsField (noColon name) (noColon f.named),own,beq_iff_eq,eq_comm]
      exact and_iff_left newline
    have text : (f.name ++ ':' :: l) ++ ls.flatten = f.text := by
      rw [← linesFlatten f.text,is,List.flatten_cons]
    have here : parts k none (lines (block (f :: fs))) = (f :: fs).flatMap (fieldParts k) := by
      rw [blockLinesAppend,is,List.cons_append,parts,starts,List.flatMap_cons,fieldParts]
      split
      · rw [partsGoing goes,ih,text]
        rfl
      · rw [partsNone plain,ih,is]
        rfl
    cases going with
    | none => exact here
    | some old =>
      have step : parts k (some old) (lines (block (f :: fs))) = .field old :: parts k none (lines (block (f :: fs))) := by
        rw [blockLinesAppend,is,List.cons_append,parts,parts,if_neg (Bool.not_eq_true _ ▸ ends)]
        split <;> rfl
      rw [step,here]
      rfl

theorem replaceFields (k : Text) (fs new : List Field) :
    (replace (fs.flatMap (fieldParts k)) (new.map Field.text)).1 ++
      (replace (fs.flatMap (fieldParts k)) (new.map Field.text)).2.flatten = block (setFields k fs new) := by
  induction fs generalizing new with
  | nil => rfl
  | cons f fs ih =>
    rw [List.flatMap_cons,fieldParts,setFields]
    split
    · cases new with
      | nil => exact ih []
      | cons n new =>
        rw [List.map_cons,List.singleton_append,replace,List.append_assoc,ih new]
        rfl
    · rw [replaceOther,linesFlatten,List.append_assoc,ih new]
      rfl

theorem headerSetBlock {wrap : Nat → Text → Text} {k : Text} (name : FieldName k) {fs new : List Field} {crlf : Text} {bdy : Option Text}
    {vals : List Text} (made : new.map Field.text = vals.map (rendered wrap (k ++ [':',' ']) crlf)) :
    headerSet wrap k vals ⟨block fs,crlf,bdy⟩ = ⟨block (setFields k fs new),crlf,bdy⟩ := by
  have whole := replaceFields k fs new
  rw [headerSet]
  split
  · rename_i none
    rw [none] at made
    have nothing : new = [] := List.map_eq_nil_iff.mp made
    rw [nothing,List.map_nil,replaceNone,List.flatten_nil,List.append_nil] at whole
    rw [nothing,← whole,partsBlock name]
    rfl
  · rw [← whole,made,partsBlock name]
    rfl

theorem fieldsBlock (k : Text) (fs : List Field) : fields (fs.flatMap (fieldParts k)) = (fs.filter (own k)).map Field.text := by
  induction fs with
  | nil => rfl
  | cons f fs ih =>
    rw [List.flatMap_cons,fieldParts,List.filter_cons]
    split
    · rw [List.singleton_append,fields,ih,List.map_cons]
    · rw [fieldsOther,ih]

theorem headerRawBlock {decode : Text → Text} {space : Char → Bool} {k : Text} (name : FieldName k) (fs : List Field) (crlf : Text)
    (bdy : Option Text) : headerRaw decode space k ⟨block fs,crlf,bdy⟩ = ((fs.filter (own k)).map Field.text).map (rawValue decode space k) := by
  rw [headerRaw,partsBlock name,← fieldsBlock]
  rfl

theorem setFieldsOwn {k : Text} {new : List Field} (each : ∀ f ∈ new,own k f = true) (fs : List Field) :
    (setFields k fs new).filter (own k) = new := by
  induction fs generalizing new with
  | nil => exact List.filter_eq_self.mpr each
  | cons f fs ih =>
    rw [setFields]
    split
    · cases new with
      | nil => exact ih each
      | cons n new =>
        obtain ⟨first,rest⟩ := List.forall_mem_cons.mp each
        calc
          (n :: setFields k fs new).filter (own k) = n :: (setFields k fs new).filter (own k) := List.filter_cons_of_pos first
          _ = n :: new := by rw [ih rest]
    · rename_i other
      rw [List.filter_cons_of_neg other,ih each]

theorem setFieldsOthers {k : Text} {new : List Field} (each : ∀ f ∈ new,own k f = true) (fs : List Field) :
    (setFields k fs new).filter (!own k ·) = fs.filter (!own k ·) := by
  have gone {f : Field} (is : own k f = true) (fs : List Field) : (f :: fs).filter (!own k ·) = fs.filter (!own k ·) :=
    List.filter_cons_of_neg (by simp [is])
  induction fs generalizing new with
  | nil => exact List.filter_eq_nil_iff.mpr fun f mem => by simp [each f mem]
  | cons f fs ih =>
    rw [setFields]
    split
    · rename_i is
      rw [gone is]
      cases new with
      | nil => exact ih each
      | cons n new =>
        obtain ⟨first,rest⟩ := List.forall_mem_cons.mp each
        exact (gone first _).trans (ih rest)
    · rename_i other
      simp only [List.filter_cons,ih each]

theorem groupedCons {l : Text} {ls more : List Text} (each : ∀ l ∈ ls,l.head?.any blank = true)
    (next : ∀ g ∈ (grouped more).head?,(g.head?.bind List.head?).any blank = false) :
    grouped (l :: ls ++ more) = (l :: ls) :: grouped more := by
  induction ls generalizing l with
  | nil =>
    rw [List.singleton_append,grouped]
    cases is : grouped more with
    | nil => rfl
    | cons g gs =>
      rw [is] at next
      simp only [next g rfl]
      rfl
  | cons l' ls ih =>
    obtain ⟨first,rest⟩ := List.forall_mem_cons.mp each
    rw [List.cons_append,grouped,ih rest]
    exact if_pos first

theorem groupedBlock (fs : List Field) : grouped (lines (block fs)) = fs.map fun f => lines f.text := by
  induction fs with
  | nil => rfl
  | cons f fs ih =>
    obtain ⟨l,ls,is,_,each⟩ := fieldLines f
    rw [blockLinesAppend,is,groupedCons fun l mem => (each l mem).2,ih,List.map_cons,is]
    intro g mem
    rw [ih] at mem
    cases fs with
    | nil => cases mem
    | cons f' fs =>
      obtain ⟨l',ls',is',_,_⟩ := fieldLines f'
      rw [List.map_cons,List.head?_cons,Option.mem_some_iff] at mem
      rw [← mem,is',← Bool.not_eq_true]
      intro start
      have named := f'.named
      cases name : f'.name with
      | nil =>
        rw [name] at start
        cases start
      | cons c k =>
        have none := named.blanks
        rw [name] at start none
        have isBlank : blank c = true := start
        rw [List.any_cons,isBlank] at none
        cases none

theorem headersBlock (fs : List Field) : headers (block fs) = fs.map fun f => (f.name,f.body ++ ['\n']) := by
  rw [headers,groupedBlock,List.map_map]
  refine List.map_congr_left fun f _ => ?_
  have all : ∀ c ∈ f.name,decide (c ≠ ':') = true := fun c mem => decide_eq_true (f.named c mem).2.2
  have text : f.text = f.name ++ ':' :: (f.body ++ ['\n']) := by
    rw [Field.text,List.append_assoc]
    rfl
  simp only [Function.comp_apply,linesFlatten]
  rw [text,beforeColon f.named.colon,List.dropWhile_append_of_pos all,List.dropWhile_cons_of_neg (by decide)]
  rfl

theorem othersBlock (k : Text) (fs : List Field) :
    others k (headers (block fs)) = (fs.filter (!own k ·)).map fun f => (f.name,f.body ++ ['\n']) := by
  rw [others,headersBlock,List.filter_map]
  rfl

end PublicInbox.Mime.Eml
