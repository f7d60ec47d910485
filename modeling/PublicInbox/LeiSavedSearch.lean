import PublicInbox.Library.ConfigValue

/-! LeiSavedSearch.pm: the settings that cquote_val and its callers write, and what a reader of the file gets back. -/
namespace PublicInbox.LeiSavedSearch
open ConfigValue

def cquote (c : Char) : Option Char :=
  if c = '\n' then some 'n' else if c = '\t' then some 't' else if c = '\x08' then some 'b' else none

def cquoteVal (val : Text) : Text :=
  let val := val.flatMap fun c => match cquote c with
    | some letter => ['\\',letter]
    | none => [c]
  val.flatMap fun c => if c = '"' then ['\\','"'] else [c]

inductive Field
  | q
  | path
  | only
  | «include»
  | exclude
  | limit
  | dedupe
  | output
  deriving DecidableEq

def Field.name : Field → Text
  | q => "q".toList
  | path => "path".toList
  | only => "only".toList
  | «include» => "include".toList
  | exclude => "exclude".toList
  | limit => "limit".toList
  | dedupe => "dedupe".toList
  | output => "output".toList

def singleFields : List Field := [.limit,.dedupe,.output]

def line (k : Field) (val : Text) : Text :=
  '\t' :: k.name ++ " = ".toList ++ (if k ∈ singleFields then val else cquoteVal val) ++ ['\n']

/- The whole of cquote_val: its second substitution meets no quote that the first one wrote. -/
def quoted (c : Char) : Option Char := if c = '"' then some '"' else cquote c

def Field.escape (k : Field) : Char → Option Char := if k ∈ singleFields then fun _ => none else quoted

theorem cquoteLetter {c letter : Char} (is : cquote c = some letter) : letter ≠ '"' ∧ unescape letter = some c := by
  unfold cquote at is
  split at is
  · rename_i same
    cases is
    exact same ▸ ⟨by decide,rfl⟩
  split at is
  · rename_i same
    cases is
    exact same ▸ ⟨by decide,rfl⟩
  split at is
  · rename_i same
    cases is
    exact same ▸ ⟨by decide,rfl⟩
  · cases is

theorem cquoteWritten (val : Text) : cquoteVal val = written quoted val := by
  simp only [cquoteVal,written,List.flatMap_assoc]
  congr 1
  funext c
  unfold ConfigValue.unit quoted
  cases is : cquote c with
  | some letter =>
    have other : c ≠ '"' := by
      rintro rfl
      cases is
    have plain := (cquoteLetter is).1
    simp [other,plain]
  | none =>
    by_cases quote : c = '"' <;> simp [quote]

theorem escapes (k : Field) : Escapes k.escape := by
  intro c letter is
  unfold Field.escape at is
  split at is
  · cases is
  · unfold quoted at is
    split at is
    · rename_i quote
      cases is
      rw [quote]
      rfl
    · exact (cquoteLetter is).2

theorem lineWritten (k : Field) (val : Text) : line k val = '\t' :: k.name ++ " = ".toList ++ written k.escape val ++ ['\n'] := by
  unfold line Field.escape
  split
  · have plain : written (fun _ => none) val = val := List.flatMap_singleton' val
    rw [plain]
  · rw [cquoteWritten]

theorem settingLine (k : Field) (val rest : Text) :
    setting (line k val ++ rest) = (parse start (' ' :: (written k.escape val ++ '\n' :: rest))).map fun read => (k.name,read) := by
  rw [lineWritten,List.append_assoc,List.append_assoc]
  cases k <;> rfl

def Field.special (k : Field) : List Char := if k ∈ singleFields then ['\\','#',';','"','\n'] else ['\\','#',';']

def Field.blanks (k : Field) : List Char := if k ∈ singleFields then [' ','\t','\r'] else [' ','\r']

structure Kept (k : Field) (val : Text) : Prop where
  inside : ∀ c ∈ val,c ∉ k.special
  first : ∀ c ∈ val.head?,c ∉ k.blanks
  last : ∀ c ∈ val.getLast?,c ∉ k.blanks

theorem quotedNone (c : Char) : quoted c = none ↔ c ∉ ['"','\n','\t','\x08'] := by
  simp only [List.mem_cons,List.not_mem_nil,or_false,not_or]
  unfold quoted cquote
  by_cases quote : c = '"'
  · simp [quote]
  by_cases line : c = '\n'
  · simp [line]
  by_cases tab : c = '\t'
  · simp [tab]
  by_cases back : c = '\x08'
  · simp [back]
  · simp [quote,line,tab,back]

theorem bareSpecial (k : Field) (c : Char) : (k.escape c = none → c ∉ ConfigValue.special) ↔ c ∉ k.special := by
  unfold Field.escape Field.special
  split
  · exact ⟨fun plain => plain rfl,fun plain _ => plain⟩
  · rw [quotedNone]
    constructor
    · intro plain mem
      have own : c ∈ ConfigValue.special ∧ c ∉ ['"','\n','\t','\x08'] := by
        simp only [List.mem_cons,List.not_mem_nil,or_false] at mem
        rcases mem with rfl | rfl | rfl <;> decide
      exact plain own.2 own.1
    · intro plain bare mem
      simp only [ConfigValue.special,List.mem_cons,List.not_mem_nil,or_false,not_or] at mem plain bare
      obtain ⟨slash,hash,semi⟩ := plain
      obtain ⟨quote,line,_⟩ := bare
      simp only [slash,hash,semi,quote,line,or_self] at mem

theorem bareBlank {k : Field} {c : Char} (plain : c ∉ k.special) : ¬ Blank k.escape c ↔ c ∉ k.blanks := by
  unfold Blank isSpace Field.escape Field.blanks
  unfold Field.special at plain
  split
  · rename_i single
    rw [if_pos single] at plain
    simp only [List.mem_cons,List.not_mem_nil,or_false,not_or] at plain
    obtain ⟨_,_,_,_,line⟩ := plain
    simp [line,or_assoc]
  · rw [quotedNone]
    simp only [List.mem_cons,List.not_mem_nil,or_false,not_or,Bool.or_eq_true,beq_iff_eq]
    constructor
    · rintro none
      constructor
      · rintro rfl
        exact none (by decide)
      · rintro rfl
        exact none (by decide)
    · rintro ⟨space,ret⟩ ⟨⟨_,line,tab,_⟩,blank⟩
      simp only [space,ret,line,tab,or_self] at blank

theorem keptPlain (k : Field) (val : Text) : Plain k.escape val ↔ Kept k val := by
  constructor
  · intro plain
    have inside := fun c mem => (bareSpecial k c).mp (plain.bare c mem)
    exact ⟨inside,fun c is => (bareBlank (inside c (List.mem_of_mem_head? is))).mp (plain.first c is),
      fun c is => (bareBlank (inside c (List.mem_of_mem_getLast? is))).mp (plain.last c is)⟩
  · intro kept
    exact ⟨fun c mem => (bareSpecial k c).mpr (kept.inside c mem),
      fun c is => (bareBlank (kept.inside c (List.mem_of_mem_head? is))).mpr (kept.first c is),
      fun c is => (bareBlank (kept.inside c (List.mem_of_mem_getLast? is))).mpr (kept.last c is)⟩

theorem savedReadBack (k : Field) (val rest : Text) : setting (line k val ++ rest) = some (k.name,val,rest) ↔ Kept k val := by
  rw [settingLine,← keptPlain,← readBack (escapes k) val rest]
  constructor
  · intro is
    obtain ⟨read,found,same⟩ := Option.map_eq_some_iff.mp is
    rw [found,(Prod.mk.inj same).2]
  · intro is
    rw [is,Option.map_some]

theorem hashCut : setting (line .q "nick#1".toList) ≠ some (Field.q.name,"nick#1".toList,[]) := by decide

end PublicInbox.LeiSavedSearch
