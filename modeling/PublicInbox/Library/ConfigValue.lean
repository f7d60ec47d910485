import Mathlib.Data.List.Infix
import Mathlib.Data.Bool.AllAny

/-! Settings of a configuration file, by the grammar of git-config(1), and when a value that is written character by
character is read back as it was. -/
namespace ConfigValue

abbrev Text := List Char

def isSpace (c : Char) : Bool := c == ' ' || c == '\t' || c == '\n' || c == '\r'

def unescape (c : Char) : Option Char :=
  if c = 't' then some '\t'
  else if c = 'b' then some '\x08'
  else if c = 'n' then some '\n'
  else if c = '\\' then some '\\'
  else if c = '"' then some '"'
  else none

/- How far the reading of a value has come: `pending` holds blanks that count only if more of the value follows. -/
structure Scan where
  quoted : Bool
  comment : Bool
  escaped : Bool
  kept : Text
  pending : Text

inductive Turn
  | bad
  | done
  | more (st : Scan)

def start : Scan := ⟨false,false,false,[],[]⟩

def Scan.take (st : Scan) : Scan := { st with kept := st.kept ++ st.pending,pending := [] }

def Scan.add (st : Scan) (c : Char) : Scan := { st with escaped := false,kept := st.kept ++ [c] }

def Scan.blank (st : Scan) (c : Char) : Scan := if st.kept = [] then st else { st with pending := st.pending ++ [c] }

def turn (st : Scan) (c : Char) : Turn :=
  if st.escaped then
    -- a backslash at the end of a line: the value goes on in the next one
    if c = '\n' then .more { st with escaped := false }
    else
      match unescape c with
      | some x => .more (st.add x)
      | none => .bad
  else if c = '\n' then if st.quoted then .bad else .done
  else if st.comment then .more st
  else if !st.quoted && isSpace c then .more (st.blank c)
  else if !st.quoted && (c == ';' || c == '#') then .more { st with comment := true }
  else if c = '\\' then .more { st.take with escaped := true }
  else if c = '"' then .more { st.take with quoted := !st.quoted }
  else .more (st.take.add c)

def parse (st : Scan) : Text → Option (Text × Text)
  | [] => if st.quoted then none else some (st.kept,[])
  | c :: t =>
    -- a carriage return before a newline is part of the newline
    if c = '\r' ∧ t.head? = some '\n' then parse st t
    else
      match turn st c with
      | .bad => none
      | .done => some (st.kept,t)
      | .more st => parse st t

theorem parseNil (st : Scan) : parse st [] = if st.quoted then none else some (st.kept,[]) := rfl

theorem parseCons (st : Scan) (c : Char) (t : Text) : parse st (c :: t) =
    if c = '\r' ∧ t.head? = some '\n' then parse st t
    else
      match turn st c with
      | .bad => none
      | .done => some (st.kept,t)
      | .more st => parse st t := rfl

def nameChar (c : Char) : Bool := c.isAlphanum || c == '-'

def setting (text : Text) : Option (Text × Text × Text) :=
  let text := text.dropWhile isSpace
  let name := text.takeWhile nameChar
  match name.head?.map Char.isAlpha,(text.dropWhile nameChar).dropWhile fun c => c == ' ' || c == '\t' with
  | some true,'=' :: text => (parse start text).map fun read => (name.map Char.toLower,read)
  | _,_ => none

def unit (esc : Char → Option Char) (a : Char) : Text :=
  match esc a with
  | some c => ['\\',c]
  | none => [a]

def written (esc : Char → Option Char) (v : Text) : Text := v.flatMap (unit esc)

def Blank (esc : Char → Option Char) (a : Char) : Prop := esc a = none ∧ isSpace a = true

instance (esc : Char → Option Char) (a : Char) : Decidable (Blank esc a) := inferInstanceAs (Decidable (_ ∧ _))

def special : List Char := ['\\','#',';','"','\n']

structure Plain (esc : Char → Option Char) (v : Text) : Prop where
  bare : ∀ a ∈ v,esc a = none → a ∉ special
  first : ∀ a ∈ v.head?,¬ Blank esc a
  last : ∀ a ∈ v.getLast?,¬ Blank esc a

def Scan.size (st : Scan) : Nat := st.kept.length + st.pending.length

def chars : Bool → Text → Nat
  | _,[] => 0
  | escaped,c :: t =>
    if c = '\n' then chars false t
    else if escaped then chars false t + 1
    else if c = '\\' then chars true t
    else chars false t + 1

theorem charsStep (escaped : Bool) (c : Char) (t : Text) : chars escaped (c :: t) =
    if c = '\n' then chars false t
    else if escaped then chars false t + 1
    else if c = '\\' then chars true t
    else chars false t + 1 := rfl

theorem charsEscaped (t : Text) : chars false t ≤ chars true t ∧ chars true t ≤ chars false t + 1 := by
  induction t with
  | nil => exact ⟨le_rfl,Nat.le_succ _⟩
  | cons c t ih =>
    simp only [charsStep,Bool.false_eq_true,if_true,if_false]
    split
    · exact ⟨le_rfl,Nat.le_succ _⟩
    · split <;> omega

theorem charsCons {c : Char} (escaped : Bool) (t : Text) (is : c ≠ '\n') : chars escaped t ≤ chars escaped (c :: t) := by
  have bounds := charsEscaped t
  cases escaped <;> simp only [charsStep,is,if_false,if_true,Bool.false_eq_true]
  · split <;> omega
  · omega

theorem takeSize (st : Scan) : st.take.size = st.size := by
  simp only [Scan.size,Scan.take,List.length_append,List.length_nil,Nat.add_zero]

theorem addSize (st : Scan) (c : Char) : (st.add c).size = st.size + 1 := by
  simp only [Scan.size,Scan.add,List.length_append,List.length_singleton]
  omega

theorem blankSize (st : Scan) (c : Char) : (st.blank c).size ≤ st.size + 1 := by
  unfold Scan.blank
  split
  · exact Nat.le_succ _
  · simp only [Scan.size,List.length_append,List.length_singleton]
    omega

theorem blankEscaped (st : Scan) (c : Char) : (st.blank c).escaped = st.escaped := by
  unfold Scan.blank
  split <;> rfl

theorem turnBound {st st' : Scan} {c : Char} (t : Text) (is : turn st c = .more st') :
    st'.size + chars st'.escaped t ≤ st.size + chars st.escaped (c :: t) := by
  have bounds := charsEscaped t
  unfold turn at is
  cases escaped : st.escaped with
  | true =>
    rw [if_pos escaped] at is
    split at is
    · rename_i line
      cases is
      simp only [charsStep,line,if_true]
      exact le_rfl
    · rename_i line
      split at is
      · cases is
        rw [addSize,charsStep,if_neg line,if_pos rfl]
        simp only [Scan.add]
        omega
      · cases is
  | false =>
    rw [escaped,if_neg Bool.false_ne_true] at is
    split at is
    · split at is <;> cases is
    · rename_i line
      have one : chars false t ≤ chars false (c :: t) := charsCons false t line
      split at is
      · cases is
        rw [escaped]
        exact Nat.add_le_add_left one _
      · split at is
        · rename_i blank
          cases is
          have plain : c ≠ '\\' := by
            rintro rfl
            simp only [isSpace] at blank
            revert blank
            cases st.quoted <;> decide
          have size := blankSize st c
          rw [blankEscaped,escaped,charsStep,if_neg line,if_neg Bool.false_ne_true,if_neg plain]
          omega
        · split at is
          · cases is
            exact Nat.add_le_add_left (escaped ▸ one) _
          · split at is
            · rename_i slash
              cases is
              have size : Scan.size { st.take with escaped := true } = st.size := takeSize st
              rw [size,charsStep,if_neg line,if_neg Bool.false_ne_true,if_pos slash]
            · split at is
              · cases is
                have size : Scan.size { st.take with quoted := !st.quoted } = st.size := takeSize st
                rw [size]
                exact Nat.add_le_add_left (escaped ▸ one) _
              · rename_i slash _
                cases is
                rw [addSize,takeSize,charsStep,if_neg line,if_neg Bool.false_ne_true,if_neg slash]
                simp only [Scan.add]
                omega

theorem parseShorter {st : Scan} {c : Char} {t val rem : Text} (is : parse st (c :: t) = some (val,rem)) : rem.length ≤ t.length := by
  induction t generalizing st c with
  | nil =>
    rw [parseCons] at is
    split at is
    · simp only [parseNil] at is
      split at is <;> cases is
      exact le_rfl
    · split at is
      · cases is
      · cases is
        exact le_rfl
      · simp only [parseNil] at is
        split at is <;> cases is
        exact le_rfl
  | cons d t ih =>
    rw [parseCons] at is
    split at is
    · exact Nat.le_succ_of_le (ih is)
    · split at is
      · cases is
      · cases is
        exact le_rfl
      · exact Nat.le_succ_of_le (ih is)

theorem parseBound {st : Scan} {front val rem : Text} (is : parse st (front ++ rem) = some (val,rem)) :
    val.length ≤ st.size + chars st.escaped front := by
  induction front generalizing st with
  | nil =>
    cases rem with
    | nil =>
      rw [List.nil_append,parseNil] at is
      split at is <;> cases is
      exact Nat.le_add_right_of_le (Nat.le_add_right _ _)
    | cons c t => exact absurd (parseShorter is) (Nat.not_succ_le_self _)
  | cons c front ih =>
    rw [List.cons_append,parseCons] at is
    split at is
    · rename_i both
      have line : c ≠ '\n' := both.1 ▸ (by decide)
      exact (ih is).trans (Nat.add_le_add_left (charsCons _ _ line) _)
    · split at is
      · cases is
      · obtain ⟨same,_⟩ := Prod.mk.inj (Option.some.inj is)
        rw [← same]
        exact Nat.le_add_right_of_le (Nat.le_add_right _ _)
      · rename_i st' more
        exact (ih is).trans (turnBound front more)

theorem turnKept {st st' : Scan} {c : Char} (is : turn st c = .more st') : st.kept <+: st'.kept := by
  unfold turn at is
  repeat' split at is
  all_goals cases is
  all_goals simp only [Scan.add,Scan.take,Scan.blank,List.prefix_rfl,List.prefix_append,List.append_assoc]
  split <;> exact List.prefix_rfl

theorem parseKept {st : Scan} {text val rem : Text} (is : parse st text = some (val,rem)) : st.kept <+: val := by
  induction text generalizing st with
  | nil =>
    rw [parseNil] at is
    split at is <;> cases is
    exact List.prefix_rfl
  | cons c t ih =>
    rw [parseCons] at is
    split at is
    · exact ih is
    · split at is
      · cases is
      · cases is
        exact List.prefix_rfl
      · rename_i more
        exact (turnKept more).trans (ih is)

def Escapes (esc : Char → Option Char) : Prop := ∀ a c,esc a = some c → unescape c = some a

theorem unescapeLine {c a : Char} (is : unescape c = some a) : c ≠ '\n' ∧ c ≠ '\r' := by
  have line : unescape '\n' = none := by decide
  have ret : unescape '\r' = none := by decide
  constructor
  · rintro rfl
    cases line.symm.trans is
  · rintro rfl
    cases ret.symm.trans is

structure Reads (esc : Char → Option Char) (st : Scan) (w : Text) : Prop where
  quoted : st.quoted = false
  comment : st.comment = false
  escaped : st.escaped = false
  all : st.kept ++ st.pending = w
  nothing : st.kept = [] → w = []
  last : st.pending = [] ↔ ∀ a ∈ w.getLast?,¬ Blank esc a

theorem startReads (esc : Char → Option Char) : Reads esc start [] :=
  ⟨rfl,rfl,rfl,rfl,fun _ => rfl,fun _ _ is => absurd is (by simp),fun _ => rfl⟩

section Reading
variable {esc : Char → Option Char} {st : Scan} {w : Text}

theorem Reads.size (reads : Reads esc st w) : st.size = w.length := by
  rw [Scan.size,← List.length_append,reads.all]

theorem Reads.turnSlash (reads : Reads esc st w) : turn st '\\' = .more { st.take with escaped := true } := by
  simp [turn,reads.quoted,reads.comment,reads.escaped,isSpace]

theorem Reads.turnBare (reads : Reads esc st w) {a : Char} (plain : a ∉ special) :
    turn st a = .more (if isSpace a then st.blank a else st.take.add a) := by
  simp only [special,List.mem_cons,List.not_mem_nil,or_false,not_or] at plain
  obtain ⟨slash,hash,semi,quote,line⟩ := plain
  cases space : isSpace a <;> simp [turn,reads.quoted,reads.comment,reads.escaped,slash,hash,semi,quote,line,space]

theorem Reads.advance (reads : Reads esc st w) (escapes : Escapes esc) {a : Char} (bare : esc a = none → a ∉ special)
    (first : w = [] → ¬ Blank esc a) {t : Text} (whole : ¬ (esc a = none ∧ a = '\r' ∧ t.head? = some '\n')) :
    ∃ st',Reads esc st' (w ++ [a]) ∧ parse st (unit esc a ++ t) = parse st' t := by
  unfold unit
  cases is : esc a with
  | some c =>
    obtain ⟨line,ret⟩ := unescapeLine (escapes a c is)
    have second : turn { st.take with escaped := true } c = .more (st.take.add a) := by
      simp only [turn,line,escapes a c is,if_true,if_false]
      rfl
    refine ⟨st.take.add a,⟨reads.quoted,reads.comment,rfl,?_,?_,?_⟩,?_⟩
    · simp only [Scan.add,Scan.take,List.append_nil,reads.all]
    · intro none
      exact absurd none (List.append_ne_nil_of_right_ne_nil _ (List.cons_ne_nil _ _))
    · rw [List.getLast?_concat]
      refine ⟨fun _ b last blank => ?_,fun _ => rfl⟩
      cases last
      cases is.symm.trans blank.1
    · rw [List.cons_append,parseCons,if_neg (fun both => absurd both.1 (by decide)),reads.turnSlash]
      simp only [List.cons_append,List.nil_append]
      rw [parseCons,if_neg (fun both => ret both.1),second]
  | none =>
    have step : parse st ([a] ++ t) = parse (if isSpace a then st.blank a else st.take.add a) t := by
      rw [List.singleton_append,parseCons,if_neg (fun both => whole ⟨is,both⟩),reads.turnBare (bare is)]
    refine ⟨_,?_,step⟩
    cases space : isSpace a with
    | true =>
      have some : st.kept ≠ [] := fun none => first (reads.nothing none) ⟨is,space⟩
      have next : st.blank a = { st with pending := st.pending ++ [a] } := if_neg some
      rw [if_pos rfl,next]
      refine ⟨reads.quoted,reads.comment,reads.escaped,?_,fun none => absurd none some,?_⟩
      · simp only [← reads.all,List.append_assoc]
      · rw [List.getLast?_concat]
        refine ⟨fun none => absurd none (List.append_ne_nil_of_right_ne_nil _ (List.cons_ne_nil _ _)),fun last => ?_⟩
        exact absurd ⟨is,space⟩ (last a rfl)
    | false =>
      rw [if_neg Bool.false_ne_true]
      refine ⟨reads.quoted,reads.comment,rfl,?_,?_,?_⟩
      · simp only [Scan.add,Scan.take,List.append_nil,reads.all]
      · intro none
        exact absurd none (List.append_ne_nil_of_right_ne_nil _ (List.cons_ne_nil _ _))
      · rw [List.getLast?_concat]
        refine ⟨fun _ b last blank => ?_,fun _ => rfl⟩
        cases last
        cases space.symm.trans blank.2

theorem Reads.finish (reads : Reads esc st w) (rest : Text) : parse st ('\n' :: rest) = some (st.kept,rest) := by
  rw [parseCons,if_neg (fun both => absurd both.1 (by decide))]
  simp [turn,reads.escaped,reads.quoted]

theorem writtenCons (esc : Char → Option Char) (a : Char) (v : Text) : written esc (a :: v) = unit esc a ++ written esc v :=
  List.flatMap_cons

theorem writtenHead {a : Char} {v rest : Text} (bare : esc a = none → a ≠ '\n') : (written esc (a :: v) ++ rest).head? ≠ some '\n' := by
  rw [writtenCons,unit]
  cases is : esc a with
  | some c => simp
  | none => simpa using bare is

theorem Reads.reach (reads : Reads esc st w) (escapes : Escapes esc) {u : Text} (rest : Text) (bare : ∀ a ∈ u,esc a = none → a ∉ special)
    (first : w = [] → ∀ a ∈ u.head?,¬ Blank esc a) (last : ∀ a ∈ (w ++ u).getLast?,¬ Blank esc a) :
    parse st (written esc u ++ '\n' :: rest) = some (w ++ u,rest) := by
  induction u generalizing st w with
  | nil =>
    rw [List.append_nil] at last
    have none := reads.last.mpr last
    have all := reads.all
    rw [none,List.append_nil] at all
    rw [written,List.flatMap_nil,List.nil_append,reads.finish,all,List.append_nil]
  | cons a u ih =>
    have whole : ¬ (esc a = none ∧ a = '\r' ∧ (written esc u ++ '\n' :: rest).head? = some '\n') := by
      rintro ⟨is,ret,line⟩
      cases u with
      | nil =>
        rw [List.getLast?_concat] at last
        exact last a rfl ⟨is,ret ▸ (by decide)⟩
      | cons b u =>
        refine writtenHead (fun is same => ?_) line
        exact bare b (.tail _ (.head _)) is (same ▸ (by decide))
    obtain ⟨st',reads',step⟩ := reads.advance escapes (bare a (.head _)) (fun none => first none a rfl) whole
    rw [writtenCons,List.append_assoc,step]
    have shift : w ++ a :: u = w ++ [a] ++ u := List.append_cons w a u
    rw [shift] at last ⊢
    exact ih reads' (fun b mem => bare b (.tail _ mem)) (fun none => absurd none (List.append_ne_nil_of_right_ne_nil _ (List.cons_ne_nil _ _))) last

theorem writtenChars (escapes : Escapes esc) (u : Text) : chars false (written esc u ++ ['\n']) ≤ u.length := by
  induction u with
  | nil => exact le_rfl
  | cons a u ih =>
    have bounds := charsEscaped (written esc u ++ ['\n'])
    rw [writtenCons,unit,List.length_cons]
    cases is : esc a with
    | some c =>
      obtain ⟨line,_⟩ := unescapeLine (escapes a c is)
      simp only [List.cons_append,List.nil_append,charsStep,line,if_true,if_false,Bool.false_eq_true]
      simpa using ih
    | none =>
      simp only [List.cons_append,List.nil_append,charsStep,if_false,Bool.false_eq_true]
      split
      · omega
      · split <;> omega

theorem unescapeLetter {c a : Char} (is : unescape c = some a) : c = '"' ∨ a = '\\' ∨ c ∉ special ∧ isSpace c = false ∧ c ≠ a := by
  unfold unescape at is
  split at is
  · rename_i same
    cases is
    exact .inr (.inr (same ▸ (by decide)))
  split at is
  · rename_i same
    cases is
    exact .inr (.inr (same ▸ (by decide)))
  split at is
  · rename_i same
    cases is
    exact .inr (.inr (same ▸ (by decide)))
  split at is
  · cases is
    exact .inr (.inl rfl)
  split at is
  · rename_i same
    exact .inl same
  · cases is

theorem Reads.short (escapes : Escapes esc) {st : Scan} {u rest val : Text} (escaped : st.escaped = false)
    (is : parse st (written esc u ++ '\n' :: rest) = some (val,rest)) : val.length ≤ st.size + u.length := by
  rw [List.append_cons] at is
  exact (parseBound is).trans (Nat.add_le_add_left (escaped ▸ writtenChars escapes u) _)

theorem Reads.slashLost (reads : Reads esc st w) (escapes : Escapes esc) (slash : esc '\\' = none) {u rest : Text} :
    parse st ('\\' :: (written esc u ++ '\n' :: rest)) ≠ some (w ++ '\\' :: u,rest) := by
  intro is
  rw [parseCons,if_neg (fun both => absurd both.1 (by decide)),reads.turnSlash] at is
  have size : Scan.size { st.take with escaped := true } = w.length := (takeSize st).trans reads.size
  cases u with
  | nil =>
    have bound := @parseBound _ ['\n'] _ _ is
    rw [size,List.length_append] at bound
    exact absurd bound (Nat.not_succ_le_self _)
  | cons a u =>
    have few := writtenChars escapes u
    rw [writtenCons,unit] at is
    cases letter : esc a with
    | none =>
      rw [letter,List.append_cons] at is
      have bound := parseBound is
      rw [size,List.length_append] at bound
      simp only [List.cons_append,List.nil_append,charsStep,List.length_cons,if_true] at bound
      split at bound <;> omega
    | some c =>
      rw [letter] at is
      obtain ⟨line,ret⟩ := unescapeLine (escapes a c letter)
      have fixed : turn { st.take with escaped := true } '\\' = .more (st.take.add '\\') := rfl
      simp only [List.cons_append,List.nil_append] at is
      rw [parseCons,if_neg (fun both => absurd both.1 (by decide)),fixed] at is
      simp only at is
      rw [parseCons,if_neg (fun both => ret both.1)] at is
      rcases unescapeLetter (escapes a c letter) with quote | same | ⟨plain,space,other⟩
      · have opens : turn (st.take.add '\\') '"' = .more { (st.take.add '\\').take with quoted := true } := by
          simp [turn,Scan.take,Scan.add,reads.quoted,reads.comment,isSpace]
        rw [quote,opens] at is
        have bound := Reads.short escapes rfl is
        have less : Scan.size { (st.take.add '\\').take with quoted := true } = w.length + 1 := by
          have once : (st.take.add '\\').take.size = w.length + 1 := by
            rw [takeSize,addSize,takeSize,reads.size]
          exact once
        rw [less] at bound
        simp only [List.length_append,List.length_cons] at bound
        omega
      · rw [same,slash] at letter
        cases letter
      · simp only [special,List.mem_cons,List.not_mem_nil,or_false,not_or] at plain
        have turns : turn (st.take.add '\\') c = .more ((st.take.add '\\').take.add c) := by
          simp [turn,Scan.take,Scan.add,reads.quoted,reads.comment,plain,space]
        rw [turns] at is
        have kept := parseKept is
        simp only [Scan.add,Scan.take,List.append_nil,reads.all,List.append_assoc,List.cons_append,List.nil_append] at kept
        exact other (List.cons_prefix_cons.mp (List.cons_prefix_cons.mp ((List.prefix_append_right_inj w).mp kept)).2).1

theorem Reads.lost (reads : Reads esc st w) (escapes : Escapes esc) {a : Char} (bare : esc a = none) (is : a ∈ special) {u rest : Text} :
    parse st (a :: (written esc u ++ '\n' :: rest)) ≠ some (w ++ a :: u,rest) := by
  intro read
  have size := reads.size
  have long : (w ++ a :: u).length = w.length + u.length + 1 := by
    rw [List.length_append,List.length_cons,Nat.add_assoc]
  have drops (st' : Scan) (more : turn st a = .more st') (ret : a ≠ '\r') (escaped : st'.escaped = false) (same : st'.size = st.size) : False := by
    rw [parseCons,if_neg (fun both => ret both.1),more] at read
    have bound := Reads.short escapes escaped read
    omega
  simp only [special,List.mem_cons,List.not_mem_nil,or_false] at is
  rcases is with rfl | rfl | rfl | rfl | rfl
  · exact reads.slashLost escapes bare read
  · exact drops { st with comment := true } (by simp [turn,reads.quoted,reads.comment,reads.escaped,isSpace]) (by decide) reads.escaped rfl
  · exact drops { st with comment := true } (by simp [turn,reads.quoted,reads.comment,reads.escaped,isSpace]) (by decide) reads.escaped rfl
  · exact drops { st.take with quoted := true } (by simp [turn,reads.quoted,reads.comment,reads.escaped,isSpace]) (by decide)
      reads.escaped (takeSize st)
  · have ended := reads.finish (written esc u ++ '\n' :: rest)
    rw [ended] at read
    obtain ⟨kept,_⟩ := Prod.mk.inj (Option.some.inj read)
    have all := congrArg List.length reads.all
    rw [List.length_append,kept] at all
    omega

theorem Reads.plain (reads : Reads esc st w) (escapes : Escapes esc) {u rest : Text} (first : w = [] → ∀ a ∈ u.head?,¬ Blank esc a)
    (read : parse st (written esc u ++ '\n' :: rest) = some (w ++ u,rest)) :
    (∀ a ∈ u,esc a = none → a ∉ special) ∧ ∀ a ∈ (w ++ u).getLast?,¬ Blank esc a := by
  induction u generalizing st w with
  | nil =>
    rw [written,List.flatMap_nil,List.nil_append,reads.finish,List.append_nil] at read
    obtain ⟨kept,_⟩ := Prod.mk.inj (Option.some.inj read)
    have all := reads.all
    rw [kept] at all
    rw [List.append_nil]
    exact ⟨fun _ mem => absurd mem List.not_mem_nil,reads.last.mp (List.append_right_eq_self.mp all)⟩
  | cons a u ih =>
    have bare : esc a = none → a ∉ special := by
      intro is mem
      rw [writtenCons,unit,is] at read
      exact reads.lost escapes is mem read
    have shift : w ++ a :: u = w ++ [a] ++ u := List.append_cons w a u
    have whole : ¬ (esc a = none ∧ a = '\r' ∧ (written esc u ++ '\n' :: rest).head? = some '\n') := by
      rintro ⟨is,ret⟩
      rw [writtenCons,unit,is] at read
      simp only [List.cons_append,List.nil_append] at read
      rw [parseCons,if_pos ret] at read
      have bound := Reads.short escapes reads.escaped read
      rw [reads.size,List.length_append,List.length_cons] at bound
      omega
    obtain ⟨st',reads',step⟩ := reads.advance escapes bare (fun none => first none a rfl) whole
    rw [writtenCons,List.append_assoc,step,shift] at read
    obtain ⟨others,last⟩ := ih reads' (fun none => absurd none (List.append_ne_nil_of_right_ne_nil _ (List.cons_ne_nil _ _))) read
    rw [shift]
    exact ⟨List.forall_mem_cons.mpr ⟨bare,others⟩,last⟩

theorem parseBlank {c : Char} (space : isSpace c = true) (line : c ≠ '\n') (t : Text) : parse start (c :: t) = parse start t := by
  rw [parse]
  split
  · rfl
  · simp [turn,start,line,space,Scan.blank]

theorem readBack (escapes : Escapes esc) (v rest : Text) :
    parse start (' ' :: (written esc v ++ '\n' :: rest)) = some (v,rest) ↔ Plain esc v := by
  rw [parseBlank rfl (by decide)]
  have reads := startReads esc
  constructor
  · intro read
    have first : ∀ a ∈ v.head?,¬ Blank esc a := by
      intro a head blank
      obtain ⟨u,rfl⟩ := List.head?_eq_some_iff.mp head
      rw [writtenCons,unit,blank.1] at read
      simp only [List.cons_append,List.nil_append] at read
      by_cases line : a = '\n'
      · rw [line,reads.finish] at read
        cases read
      · rw [parseBlank blank.2 line] at read
        exact absurd (Reads.short escapes rfl read) (by simp [start,Scan.size])
    obtain ⟨bare,last⟩ := reads.plain escapes (fun _ => first) read
    exact ⟨bare,first,last⟩
  · intro plain
    exact reads.reach escapes rest plain.bare (fun _ => plain.first) plain.last

end Reading

end ConfigValue
