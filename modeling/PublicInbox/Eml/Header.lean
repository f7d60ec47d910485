import PublicInbox.Eml
import PublicInbox.Library.Lines

/-! Eml.pm: what re_memo matches in a header, and header_raw and header_set, which both go by it. -/
namespace PublicInbox.Mime.Eml
open Lines

def lower (t : Text) : Text := t.map Char.toLower

def begins (k l : Text) : Bool := (lower k ++ [':']).isPrefixOf (lower l) && l.getLast? == some '\n'

def continues (l : Text) : Bool := (l.takeWhile (· ≠ ':')).any blank && l.getLast? == some '\n'

inductive Part where
  | other (line : Text)
  | field (text : Text)
  deriving DecidableEq

def flush : Option Text → List Part
  | some text => [.field text]
  | none => []

/- What a global match of re_memo takes, and the lines between: the first argument is the match that goes on. -/
def parts (k : Text) : Option Text → List Text → List Part
  | going,[] => flush going
  | going,l :: ls =>
    match going with
    | some text =>
      if continues l then parts k (some (text ++ l)) ls
      else if begins k l then .field text :: parts k (some l) ls
      else .field text :: .other l :: parts k none ls
    | none => if begins k l then parts k (some l) ls else .other l :: parts k none ls

theorem partsOther (k l : Text) (ls : List Text) :
    parts k none (l :: ls) = if begins k l then parts k (some l) ls else .other l :: parts k none ls := rfl

theorem partsField (k text l : Text) (ls : List Text) : parts k (some text) (l :: ls) =
    if continues l then parts k (some (text ++ l)) ls
    else if begins k l then .field text :: parts k (some l) ls
    else .field text :: .other l :: parts k none ls := rfl

def fields : List Part → List Text
  | [] => []
  | .other _ :: ps => fields ps
  | .field text :: ps => text :: fields ps

section
variable (decode : Text → Text) (space : Char → Bool)

def unfold : Bool → Text → Text
  | _,[] => []
  | taking,c :: t =>
    if taking && blank c then unfold true t
    else if c = '\n' then ' ' :: unfold true t
    else if c = '\r' ∧ t.head? = some '\n' then unfold false t
    else c :: unfold false t

def rawValue (k text : Text) : Text :=
  unfold false (((decode ((text.drop (k.length + 1)).dropWhile blank)).rdropWhile space).dropWhile space)

def headerRaw (k : Text) (eml : Eml) : List Text := (fields (parts k none (lines eml.hdr))).map (rawValue decode space k)

end

def replace : List Part → List Text → Text × List Text
  | [],vals => ([],vals)
  | .other l :: ps,vals =>
    let (t,left) := replace ps vals
    (l ++ t,left)
  | .field _ :: ps,[] => replace ps []
  | .field _ :: ps,v :: vals =>
    let (t,left) := replace ps vals
    (v ++ t,left)

def encode (t : Text) : Text := t.flatMap fun c => (String.utf8EncodeChar c).map fun b => Char.ofNat b.toNat

section
variable (wrap : Nat → Text → Text)

def wraps (v : Text) : Bool := v.tails.any (fun u => u.head? == some '\n' && u.tail.head?.any (!blank ·)) || !v.contains '\n'

def rendered (pfx crlf v : Text) : Text :=
  let len := 78 - pfx.length
  if len ≤ v.length && wraps v then pfx ++ wrap len (encode v) ++ crlf else pfx ++ encode v ++ crlf

def headerSet (k : Text) (vals : List Text) (eml : Eml) : Eml :=
  if vals = [] then { eml with hdr := (replace (parts k none (lines eml.hdr)) []).1 }
  else
    let (t,left) := replace (parts k none (lines eml.hdr)) (vals.map (rendered wrap (k ++ [':',' ']) eml.crlf))
    { eml with hdr := t ++ left.flatten }

end

def Absent (k t : Text) : Prop := ∀ l ∈ lines t,begins k l = false

theorem partsNone {k : Text} {ls : List Text} (absent : ∀ l ∈ ls,begins k l = false) (more : List Text) :
    parts k none (ls ++ more) = ls.map Part.other ++ parts k none more := by
  induction ls with
  | nil => rfl
  | cons l ls ih =>
    simp only [List.cons_append,partsOther,absent l List.mem_cons_self,Bool.false_eq_true,if_false,List.map_cons]
    rw [ih fun l mem => absent l (List.mem_cons_of_mem _ mem)]

theorem replaceOther (ls : List Text) (ps : List Part) (vals : List Text) :
    replace (ls.map Part.other ++ ps) vals = (ls.flatten ++ (replace ps vals).1,(replace ps vals).2) := by
  induction ls with
  | nil => rfl
  | cons l ls ih =>
    rw [List.flatten_cons,List.append_assoc]
    exact congrArg (fun r : Text × List Text => (l ++ r.1,r.2)) ih

theorem fieldsOther (ls : List Text) (ps : List Part) : fields (ls.map Part.other ++ ps) = fields ps := by
  induction ls with
  | nil => rfl
  | cons l ls ih => exact ih

theorem partsAbsent {k t : Text} (absent : Absent k t) : parts k none (lines t) = (lines t).map Part.other := by
  have whole : parts k none (lines t ++ []) = (lines t).map Part.other ++ [] := partsNone absent []
  rwa [List.append_nil,List.append_nil] at whole

theorem headerRawAbsent {decode : Text → Text} {space : Char → Bool} {k : Text} {eml : Eml} (absent : Absent k eml.hdr) :
    headerRaw decode space k eml = [] := by
  have none := fieldsOther (lines eml.hdr) []
  rw [List.append_nil] at none
  rw [headerRaw,partsAbsent absent,none]
  rfl

theorem replaceAbsent {k t : Text} (absent : Absent k t) (vals : List Text) :
    replace (parts k none (lines t)) vals = (t,vals) := by
  have whole : replace ((lines t).map Part.other ++ []) vals = ((lines t).flatten ++ [],vals) := replaceOther (lines t) [] vals
  rw [List.append_nil,linesFlatten,List.append_nil] at whole
  rw [partsAbsent absent,whole]

theorem headerSetAbsent {wrap : Nat → Text → Text} {k v : Text} {eml : Eml} (absent : Absent k eml.hdr) :
    headerSet wrap k [v] eml = { eml with hdr := eml.hdr ++ rendered wrap (k ++ [':',' ']) eml.crlf v } := by
  rw [headerSet,if_neg (List.cons_ne_nil _ _),List.map_singleton,replaceAbsent absent]
  simp only [List.flatten_cons,List.flatten_nil,List.append_nil]

def kept (k : Text) : Bool → List Text → List Text
  | _,[] => []
  | inside,l :: ls =>
    if inside && continues l then kept k true ls
    else if begins k l then kept k true ls
    else l :: kept k false ls

theorem keptCons (k : Text) (inside : Bool) (l : Text) (ls : List Text) : kept k inside (l :: ls) =
    if inside && continues l then kept k true ls
    else if begins k l then kept k true ls
    else l :: kept k false ls := rfl

theorem replaceParts (k : Text) (going : Option Text) (ls : List Text) :
    (replace (parts k going ls) []).1 = (kept k going.isSome ls).flatten := by
  induction ls generalizing going with
  | nil => cases going <;> rfl
  | cons l ls ih =>
    cases going with
    | none =>
      simp only [partsOther,keptCons,Option.isSome_none,Bool.false_and,Bool.false_eq_true,if_false]
      split
      · exact ih (some l)
      · exact congrArg (l ++ ·) (ih none)
    | some text =>
      simp only [partsField,keptCons,Option.isSome_some,Bool.true_and]
      split
      · exact ih _
      · split
        · exact ih (some l)
        · exact congrArg (l ++ ·) (ih none)

theorem headerSetNone {wrap : Nat → Text → Text} {k : Text} {eml : Eml} :
    headerSet wrap k [] eml = { eml with hdr := (kept k false (lines eml.hdr)).flatten } := by
  rw [headerSet,if_pos rfl,replaceParts]
  rfl

theorem keptSublist (k : Text) (inside : Bool) (ls : List Text) : (kept k inside ls).Sublist ls := by
  induction ls generalizing inside with
  | nil => exact .slnil
  | cons l ls ih =>
    rw [keptCons]
    split
    · exact (ih true).cons l
    · split
      · exact (ih true).cons l
      · exact (ih false).cons_cons l

theorem keptAbsent (k : Text) (inside : Bool) (ls : List Text) : ∀ l ∈ kept k inside ls,begins k l = false := by
  induction ls generalizing inside with
  | nil => exact fun _ none => absurd none List.not_mem_nil
  | cons l ls ih =>
    rw [keptCons]
    split
    · exact ih true
    · split
      · exact ih true
      · rename_i other
        exact List.forall_mem_cons.mpr ⟨Bool.not_eq_true _ ▸ other,ih false⟩

theorem keptAppend {k : Text} {ls : List Text} (absent : ∀ l ∈ ls,begins k l = false) (more : List Text) :
    kept k false (ls ++ more) = ls ++ kept k false more := by
  induction ls with
  | nil => rfl
  | cons l ls ih =>
    simp only [List.cons_append,keptCons,Bool.false_and,absent l List.mem_cons_self,Bool.false_eq_true,if_false]
    rw [ih fun l mem => absent l (List.mem_cons_of_mem _ mem)]

theorem keptPlain {k : Text} {ls : List Text} (plain : ∀ l ∈ ls,begins k l = false ∧ continues l = false) (inside : Bool) :
    kept k inside ls = ls := by
  induction ls generalizing inside with
  | nil => rfl
  | cons l ls ih =>
    obtain ⟨other,ends⟩ := plain l List.mem_cons_self
    simp only [keptCons,ends,other,Bool.and_false,Bool.false_eq_true,if_false]
    rw [ih fun l mem => plain l (List.mem_cons_of_mem _ mem)]

theorem fieldsNone {k : Text} {going : Option Text} {ls : List Text} (none : fields (parts k going ls) = []) :
    going = .none ∧ ∀ l ∈ ls,begins k l = false := by
  induction ls generalizing going with
  | nil =>
    cases going with
    | none => exact ⟨rfl,fun _ none => absurd none List.not_mem_nil⟩
    | some text => cases none
  | cons l ls ih =>
    cases going with
    | none =>
      rw [partsOther] at none
      split at none
      · cases (ih none).1
      · rename_i other
        exact ⟨rfl,List.forall_mem_cons.mpr ⟨Bool.not_eq_true _ ▸ other,(ih none).2⟩⟩
    | some text =>
      rw [partsField] at none
      split at none
      · cases (ih none).1
      · split at none <;> cases none

theorem headerRawNone {decode : Text → Text} {space : Char → Bool} {k : Text} {eml : Eml} :
    headerRaw decode space k eml = [] ↔ Absent k eml.hdr :=
  ⟨fun none => (fieldsNone (List.map_eq_nil_iff.mp none)).2,headerRawAbsent⟩

theorem beforeColon {k : Text} (noColon : ':' ∉ k) (t : Text) : (k ++ ':' :: t).takeWhile (· ≠ ':') = k := by
  have all : ∀ c ∈ k,decide (c ≠ ':') = true := fun c mem => decide_eq_true fun same => noColon (same ▸ mem)
  rw [List.takeWhile_append_of_pos all,List.takeWhile_cons_of_neg (by decide),List.append_nil]

theorem beginsField {k k' t : Text} (name : ':' ∉ lower k) (name' : ':' ∉ lower k') :
    begins k (k' ++ ':' :: t) = true ↔ lower k = lower k' ∧ (k' ++ ':' :: t).getLast? = some '\n' := by
  have text : lower (k' ++ ':' :: t) = lower k' ++ ':' :: lower t := by
    rw [lower,List.map_append,List.map_cons]
    rfl
  simp only [begins,Bool.and_eq_true,List.isPrefixOf_iff_prefix,beq_iff_eq,text]
  refine and_congr_left' ⟨?_,?_⟩
  · rintro ⟨rest,same⟩
    rw [List.append_assoc,List.singleton_append] at same
    have names := congrArg (List.takeWhile (· ≠ ':')) same
    rwa [beforeColon name,beforeColon name'] at names
  · intro same
    exact ⟨lower t,by rw [same,List.append_assoc,List.singleton_append]⟩

theorem fieldEnds {k t : Text} (noBlank : k.any blank = false) (noColon : ':' ∉ k) : continues (k ++ ':' :: t) = false := by
  rw [continues,beforeColon noColon,noBlank,Bool.false_and]

theorem rdropEnds (t : Text) : Whole (t.rdropWhile (· ≠ '\n')) := by
  induction t using List.reverseRecOn with
  | nil => exact fun _ none => absurd none List.not_mem_nil
  | append_singleton t c ih =>
    by_cases newline : c = '\n'
    · rw [newline,List.rdropWhile_concat,if_neg (by decide)]
      exact wholeNewline t
    · rw [List.rdropWhile_concat,if_pos (decide_eq_true newline)]
      exact ih

theorem limitedWhole {t : Text} (whole : Whole t) : Whole (limited t) := by
  unfold limited
  split
  · exact rdropEnds _
  · exact whole

theorem eolWhole {t e : Text} (is : e = ['\n'] ∨ e = ['\r','\n']) : Whole (t ++ e) := by
  rcases is with rfl | rfl
  · exact wholeNewline t
  · rw [← List.singleton_append,← List.append_assoc]
    exact wholeNewline _

theorem lastEolEnds {s e : Text} (is : lastEol s = some e) : (e = ['\n'] ∨ e = ['\r','\n']) ∧ Whole s := by
  unfold lastEol at is
  split at is
  · rename_i ends
    cases is
    obtain ⟨t,rfl⟩ := List.isSuffixOf_iff_suffix.mp ends
    exact ⟨.inr rfl,eolWhole (.inr rfl)⟩
  · split at is
    · rename_i ends
      cases is
      obtain ⟨t,rfl⟩ := List.isSuffixOf_iff_suffix.mp ends
      exact ⟨.inl rfl,eolWhole (.inl rfl)⟩
    · cases is

theorem newWhole (s : Text) : Whole (new s).hdr ∧ ((new s).crlf = ['\n'] ∨ (new s).crlf = ['\r','\n']) := by
  unfold new
  split
  · exact ⟨limitedWhole (wholeNewline _),.inl rfl⟩
  · split
    · rename_i hdr e crlf bdy found
      obtain ⟨u,_,is⟩ := Leftmost.findSpec found
      obtain ⟨first,second,_⟩ := emptyLineSome is
      exact ⟨limitedWhole (eolWhole first),second⟩
    · split
      · rename_i crlf is
        split at is
        · obtain ⟨ends,whole⟩ := lastEolEnds is
          refine ⟨?_,ends⟩
          by_cases fits : s.length ≤ headerSizeLimit
          · rw [List.take_of_length_le (fits.trans (Nat.le_succ _))]
            exact limitedWhole whole
          · rw [limited,if_pos (by rw [List.length_take]; omega)]
            exact rdropEnds _
        · cases is
      · refine ⟨fun _ none => absurd none List.not_mem_nil,?_⟩
        cases found : Leftmost.find eol s with
        | none => exact .inl rfl
        | some m =>
          obtain ⟨u,_,is⟩ := Leftmost.findSpec found
          exact (eolSome is).1

end PublicInbox.Mime.Eml
