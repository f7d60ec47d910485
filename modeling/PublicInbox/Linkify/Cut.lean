import Mathlib.Data.Bool.AllAny
import Mathlib.Data.List.TakeWhile
import PublicInbox.Linkify

/-! How linkify_1 and linkify_mids cut a text: nothing is lost, and what stands around a URL. -/
namespace PublicInbox.Linkify

def joined (source : Text → Text) (links : Text × List (Text × Text)) : Text :=
  links.1 ++ links.2.flatMap fun link => source link.1 ++ link.2

/- Before a link the text ends with nothing of `bad', after it the text begins with no word, and there is
text between two links. -/
def Apart (bad : Char → Bool) : Text → List (Text × Text) → Prop
  | _,[] => True
  | before,(_,after) :: rest => Runs.Stops bad before.getLast? ∧ Runs.Stops asciiWord after.head? ∧ (rest ≠ [] → after ≠ []) ∧
      Apart bad after rest

theorem upperRange (c : Char) : c.isUpper = true ↔ 65 ≤ c.toNat ∧ c.toNat ≤ 90 := decide_eq_true_iff

theorem lowerRange (c : Char) : c.isLower = true ↔ 97 ≤ c.toNat ∧ c.toNat ≤ 122 :=
  Bool.and_eq_true_iff.trans (and_congr decide_eq_true_iff decide_eq_true_iff)

theorem digitRange (c : Char) : c.isDigit = true ↔ 48 ≤ c.toNat ∧ c.toNat ≤ 57 :=
  Bool.and_eq_true_iff.trans (and_congr decide_eq_true_iff decide_eq_true_iff)

theorem alphanumParts (c : Char) : c.isAlphanum = (c.isUpper || c.isLower || c.isDigit) := rfl

theorem wordNarrow {c : Char} (word : asciiWord c = true) : c.toNat < 128 := by
  rw [asciiWord,alphanumParts] at word
  simp only [Bool.or_eq_true,upperRange,lowerRange,digitRange,beq_iff_eq] at word
  rcases word with ((upper | lower) | digit) | rfl
  · exact upper.2.trans_lt (by decide)
  · exact lower.2.trans_lt (by decide)
  · exact digit.2.trans_lt (by decide)
  · decide

theorem ofNarrow {p : Char → Prop} (all : ∀ n < 128,p (Char.ofNat n)) {c : Char} (narrow : c.toNat < 128) : p c := by
  have own := all c.toNat narrow
  rwa [Char.ofNat_toNat] at own

def starts (c : Char) : Bool := fold c ∈ ['f','h','n','i','s','g']

theorem wordPath {c : Char} (word : asciiWord c = true) : pathChar c = true :=
  @ofNarrow (fun c => asciiWord c = true → pathChar c = true) (by decide) c (wordNarrow word) word

theorem startsPath {c : Char} (first : starts c = true) : pathChar c = true := by
  have letter : ∀ d ∈ ['f','h','n','i','s','g'],d.isLower = true := List.all_iff_forall_prop.mp (by decide)
  simp only [pathChar,letter _ (of_decide_eq_true first),Bool.true_or]

theorem lowerWide {c : Char} (wide : 128 ≤ c.toNat) : c.toLower = c := by
  refine dif_neg fun upper => ?_
  have low : c.toNat ≤ 90 := upper.2
  omega

theorem startsWord (words : Words) {c : Char} (first : starts c = true) : words.word c = true := by
  by_cases narrow : c.toNat < 128
  · rw [words.ascii c narrow]
    exact @ofNarrow (fun c => starts c = true → asciiWord c = true) (by decide) c narrow first
  · by_cases long : c = 'ſ'
    · rw [long,words.longS]
    · have mem : fold c ∈ ['f','h','n','i','s','g'] := of_decide_eq_true first
      rw [fold,if_neg long] at mem
      split at mem
      · exact absurd mem (by decide)
      · rw [lowerWide (not_lt.mp narrow)] at mem
        have low : ∀ d ∈ ['f','h','n','i','s','g'],d.toNat < 128 := List.all_iff_forall_prop.mp (by decide)
        exact absurd (low c mem) narrow

/-! What $LINK_RE matches -/

theorem foldedParts {p t rest : Text} (found : dropFolded p t = some rest) : ∃ scheme,t = scheme ++ rest ∧ scheme.map fold = p := by
  induction p generalizing t with
  | nil => exact ⟨[],Option.some.inj found,rfl⟩
  | cons d p ih =>
    cases t with
    | nil => cases found
    | cons c t =>
      simp only [dropFolded] at found
      split at found
      · rename_i same
        obtain ⟨scheme,rfl,folded⟩ := ih found
        exact ⟨c :: scheme,rfl,by rw [List.map_cons,same,folded]⟩
      · cases found

theorem dropWhileFirst {inPart : Char → Bool} (t : Text) : Runs.Stops inPart (t.dropWhile inPart).head? := by
  intro c head
  have := List.head?_dropWhile_not inPart t
  rw [Option.mem_def.mp head] at this
  exact this

theorem partAtSpec (mark : Char) {inPart : Char → Bool} (wider : ∀ c,pathChar c = true → inPart c = true) (t : Text) :
    (partAt mark inPart t).1 ++ (partAt mark inPart t).2 = t ∧
      (Runs.Stops pathChar t.head? → Runs.Stops pathChar (partAt mark inPart t).2.head?) := by
  cases t with
  | nil => exact ⟨rfl,id⟩
  | cons c t =>
    simp only [partAt]
    split
    · refine ⟨congrArg _ List.takeWhile_append_dropWhile,fun _ d head => ?_⟩
      by_contra inside
      exact Bool.noConfusion ((wider d (Bool.not_eq_false _ ▸ inside)).symm.trans (dropWhileFirst t d head))
    · exact ⟨rfl,id⟩

def Ended (t : Text) : Prop := Runs.Stops starts t.head? ∧ Runs.Stops asciiWord t.head?

theorem endedPath {t : Text} (stops : Runs.Stops pathChar t.head?) : Ended t := by
  constructor
  · intro c head
    by_contra first
    exact Bool.noConfusion ((startsPath (Bool.not_eq_false _ ▸ first)).symm.trans (stops c head))
  · intro c head
    by_contra word
    exact Bool.noConfusion ((wordPath (Bool.not_eq_false _ ▸ word)).symm.trans (stops c head))

theorem endedHost {words : Words} {t : Text} (stops : Runs.Stops (hostChar words) t.head?) : Ended t := by
  have outside : ∀ c ∈ t.head?,words.word c = false := fun c head => (Bool.or_eq_false_iff.mp (stops c head)).1
  constructor
  · intro c head
    by_contra first
    exact Bool.noConfusion ((startsWord words (Bool.not_eq_false _ ▸ first)).symm.trans (outside c head))
  · intro c head
    by_contra word
    have word : asciiWord c = true := Bool.not_eq_false _ ▸ word
    rw [← words.ascii c (wordNarrow word)] at word
    exact Bool.noConfusion (word.symm.trans (outside c head))

theorem pathAtSpec {words : Words} {t : Text} (stops : Runs.Stops (hostChar words) t.head?) :
    (pathAt t).1 ++ (pathAt t).2 = t ∧ Ended (pathAt t).2 := by
  unfold pathAt
  split
  · rename_i t
    have query := @partAtSpec '?' pathChar (fun _ => id) (t.dropWhile pathChar)
    have fragment := @partAtSpec '#' (fun c => pathChar c || c == '?') (fun c inside => by rw [inside,Bool.true_or])
      (partAt '?' pathChar (t.dropWhile pathChar)).2
    refine ⟨?_,endedPath (fragment.2 (query.2 (dropWhileFirst t)))⟩
    dsimp only
    rw [List.cons_append,List.cons_append,List.cons_append,List.append_assoc,List.append_assoc,fragment.1,query.1,
      List.takeWhile_append_dropWhile]
  · exact ⟨rfl,endedHost stops⟩

theorem urlAtSpec {words : Words} {s url rest : Text} (found : urlAt words s = some (url,rest)) :
    s = url ++ rest ∧ (∃ c ∈ s.head?,starts c = true) ∧ url ≠ [] ∧ Ended rest := by
  obtain ⟨t,scheme,host⟩ := Option.bind_eq_some_iff.mp found
  obtain ⟨p,mem,folded⟩ := List.exists_of_findSome?_eq_some scheme
  obtain ⟨front,rfl,letters⟩ := foldedParts folded
  split at host
  · cases host
  · rename_i some
    cases host
    have path := pathAtSpec (@dropWhileFirst (hostChar words) t)
    have taken : (front ++ t).take ((front ++ t).length - t.length) = front := by
      rw [List.length_append,Nat.add_sub_cancel]
      exact List.take_left
    have initial : ∀ p ∈ schemes,((p ++ [':','/','/']).head?.any fun d => d ∈ ['f','h','n','i','s','g']) = true :=
      List.all_iff_forall_prop.mp (by decide)
    obtain ⟨d,head,letter⟩ := Option.any_eq_true _ _ |>.mp (initial p mem)
    cases front with
    | nil =>
      rw [← letters] at head
      cases head
    | cons c front =>
      rw [← letters] at head
      have same : fold c = d := Option.some.inj head
      refine ⟨?_,⟨c,rfl,by rw [starts,same]; exact letter⟩,by rw [taken]; simp,path.2⟩
      rw [taken,List.append_assoc,List.append_assoc,path.1,List.takeWhile_append_dropWhile]

structure Matched (words : Words) (inWord : Bool) (s : Text) (beg : Option Char) (url rest : Text) : Prop where
  text : s = beg.toList ++ url ++ rest
  some : url ≠ []
  opens : ∀ c ∈ beg,c ∈ ['(','\'','!']
  boundary : beg = none → inWord = false ∧ ∃ c ∈ s.head?,starts c = true
  ended : Ended rest

theorem linkAtSpec {words : Words} {inWord : Bool} {s url rest : Text} {beg : Option Char}
    (found : linkAt words inWord s = some (beg,url,rest)) : Matched words inWord s beg url rest := by
  cases s with
  | nil => cases found
  | cons c t =>
    simp only [linkAt] at found
    split at found
    · rename_i opens
      obtain ⟨⟨url,rest⟩,at',same⟩ := Option.map_eq_some_iff.mp found
      cases same
      obtain ⟨rfl,-,some,ended⟩ := urlAtSpec at'
      exact ⟨rfl,some,fun d same => Option.some.inj same ▸ opens,fun none => (nomatch none),ended⟩
    · split at found
      · cases found
      · rename_i outside
        obtain ⟨⟨url,rest⟩,at',same⟩ := Option.map_eq_some_iff.mp found
        cases same
        obtain ⟨text,first,some,ended⟩ := urlAtSpec at'
        exact ⟨text,some,fun d none => (nomatch none),fun _ => ⟨Bool.not_eq_true _ ▸ outside,first⟩,ended⟩

theorem dropLastAppend {t : Text} {c : Char} (last : t.getLast? = some c) : t.dropLast ++ [c] = t :=
  List.dropLast_append_getLast? c last

theorem anyLast {t : Text} {ends : Text} (any : t.getLast?.any (· ∈ ends) = true) : ∃ c ∈ ends,t.getLast? = some c := by
  cases last : t.getLast? with
  | none =>
    rw [last] at any
    cases any
  | some c =>
    rw [last] at any
    exact ⟨c,of_decide_eq_true any,rfl⟩

theorem trimPairSpec {close : Char} (outside : asciiWord close = false) (url : Text) :
    (trimPair close url).1 ++ (trimPair close url).2 = url ∧ Runs.Stops asciiWord (trimPair close url).2.head? := by
  have stops : ∀ rest : Text,Runs.Stops asciiWord (close :: rest).head? := fun rest c same => Option.some.inj same ▸ outside
  simp only [trimPair]
  split
  · rename_i last
    exact ⟨dropLastAppend last,stops []⟩
  · split
    · rename_i both
      obtain ⟨c,-,last⟩ := anyLast both.2
      refine ⟨?_,stops _⟩
      rw [last,Option.toList_some,← @List.singleton_append _ close,← List.append_assoc,dropLastAppend both.1,dropLastAppend last]
    · exact ⟨List.append_nil _,fun c none => nomatch none⟩

theorem trimSpec {beg : Option Char} (opens : ∀ c ∈ beg,c ∈ ['(','\'','!']) (url : Text) :
    (trim beg url).1 ++ (trim beg url).2 = url ∧ Runs.Stops asciiWord (trim beg url).2.head? := by
  unfold trim
  split
  · exact trimPairSpec (by decide) url
  · rename_i beg _
    have outside : ∀ c ∈ ['(','\'','!'],asciiWord c = false := List.all_iff_forall_prop.mp (by decide)
    exact trimPairSpec (outside beg (opens beg rfl)) url
  · split
    · rename_i ends
      obtain ⟨c,mem,last⟩ := anyLast ends
      have outside : ∀ c ∈ ['.',',',';'],asciiWord c = false := List.all_iff_forall_prop.mp (by decide)
      rw [last,Option.toList_some]
      split
      · rename_i paired
        refine ⟨?_,fun d same => Option.some.inj same ▸ rfl⟩
        rw [← @List.singleton_append _ ')',← List.append_assoc,dropLastAppend paired.1,dropLastAppend last]
      · exact ⟨dropLastAppend last,fun d same => Option.some.inj same ▸ outside c mem⟩
    · split
      · rename_i dangling
        exact ⟨dropLastAppend dangling.2,fun d same => Option.some.inj same ▸ rfl⟩
      · exact ⟨List.append_nil _,fun c none => nomatch none⟩

theorem cutSkip (words : Words) (skip : Nat) (inWord : Bool) (s : Text) :
    ∃ inWord',cut words skip inWord s = cut words 0 inWord' (s.drop skip) := by
  induction skip generalizing inWord s with
  | zero => exact ⟨inWord,rfl⟩
  | succ skip ih =>
    cases s with
    | nil => exact ⟨inWord,by rw [List.drop_nil]; rfl⟩
    | cons c s => exact ih (words.word c) s

/- What a cut is: no text is lost, a link has no word around it, and a link at the very beginning has a
letter of a scheme there and no word before. -/
structure Shape (words : Words) (inWord : Bool) (s : Text) (links : Text × List (Text × Text)) : Prop where
  text : joined id links = s
  apart : Apart words.word links.1 links.2
  initial : links.2 ≠ [] → links.1 = [] → inWord = false ∧ ∃ c ∈ s.head?,starts c = true

theorem joinedCons (source : Text → Text) (before url after : Text) (rest : List (Text × Text)) :
    joined source (before,(url,after) :: rest) = before ++ (source url ++ joined source (after,rest)) := by
  simp only [joined,List.flatMap_cons,List.append_assoc]

theorem apartLonger {bad : Char → Bool} {more before : Text} {links : List (Text × Text)} (apart : Apart bad before links)
    (last : links ≠ [] → before = [] → Runs.Stops bad more.getLast?) : Apart bad (more ++ before) links := by
  cases links with
  | nil => trivial
  | cons link rest =>
    refine ⟨?_,apart.2⟩
    by_cases none : before = []
    · rw [none,List.append_nil]
      exact last (List.cons_ne_nil _ _) none
    · rw [List.getLast?_append_of_ne_nil _ none]
      exact apart.1

theorem cutShape (words : Words) {n : Nat} {s : Text} (short : s.length ≤ n) (inWord : Bool) :
    Shape words inWord s (cut words 0 inWord s) := by
  induction n generalizing s inWord with
  | zero =>
    rw [List.length_eq_zero_iff.mp (Nat.le_zero.mp short)]
    exact ⟨rfl,trivial,fun some => absurd rfl some⟩
  | succ n ih =>
    cases s with
    | nil => exact ⟨rfl,trivial,fun some => absurd rfl some⟩
    | cons c t =>
      simp only [cut]
      split
      · rename_i beg url rest found
        obtain ⟨text,some,opens,boundary,ended⟩ := linkAtSpec found
        obtain ⟨whole,stops⟩ := trimSpec opens url
        have lengths := congrArg List.length text
        have urlLong := List.length_pos_iff.mpr some
        simp only [List.length_append,List.length_cons] at lengths short
        have tail : t.drop (t.length - rest.length) = rest := by
          have : (c :: t).drop (t.length - rest.length + 1) = rest := by
            rw [text,List.drop_left']
            simp only [List.length_append]
            omega
          rwa [List.drop_succ_cons] at this
        obtain ⟨inWord',skipped⟩ := cutSkip words (t.length - rest.length) (words.word c) t
        rw [skipped,tail]
        obtain ⟨text',apart,initial⟩ := @ih rest (by omega) inWord'
        generalize cut words 0 inWord' rest = after at text' apart initial
        have between : after.2 ≠ [] → after.1 ≠ [] := fun more none => by
          obtain ⟨-,d,head,first⟩ := initial more none
          exact Bool.noConfusion (first.symm.trans (ended.1 d head))
        have begins : Runs.Stops asciiWord ((trim beg url).2 ++ after.1).head? := by
          cases own : (trim beg url).2 with
          | cons d rest' =>
            rw [own] at stops
            exact stops
          | nil =>
            rw [List.nil_append]
            intro d head
            refine ended.2 d ?_
            rw [← text',joined]
            cases first : after.1 with
            | nil => rw [first] at head; cases head
            | cons e rest' => rw [first] at head; exact head
        refine ⟨?_,⟨?_,begins,fun more none => between more (List.append_eq_nil_iff.mp none).2,
          apartLonger apart fun more none => absurd none (between more)⟩,fun _ none => boundary ?_⟩
        · rw [joinedCons]
          have split : joined id ((trim beg url).2 ++ after.1,after.2) = (trim beg url).2 ++ joined id after := by
            simp only [joined,List.append_assoc]
          rw [split,text',text,id,← List.append_assoc (trim beg url).1,whole,List.append_assoc]
        · intro d last
          cases beg with
          | none => cases last
          | some e =>
            have outside : ∀ e ∈ ['(','\'','!'],asciiWord e = false ∧ e.toNat < 128 := List.all_iff_forall_prop.mp (by decide)
            have same : e = d := Option.some.inj last
            rw [← same,words.ascii e (outside e (opens e rfl)).2]
            exact (outside e (opens e rfl)).1
        · cases beg with
          | none => rfl
          | some e => cases none
      · obtain ⟨text,apart,initial⟩ := @ih t (Nat.le_of_succ_le_succ short) (words.word c)
        refine ⟨congrArg (c :: ·) text,?_,fun _ none => (nomatch none)⟩
        exact @apartLonger _ [c] _ _ apart fun more none d last => Option.some.inj last ▸ (initial more none).1

/-! What linkify_mids cuts -/

def bracketed (mid : Text) : Text := '<' :: mid ++ ['>']

theorem cutMidsText (s : Text) : ∀ inside,joined bracketed (cutMids inside s) = inside.elim [] ('<' :: ·) ++ s := by
  induction s with
  | nil =>
    intro inside
    cases inside with
    | none => rfl
    | some mid => rfl
  | cons c s ih =>
    have text := ih none
    rw [Option.elim_none,List.nil_append] at text
    intro inside
    cases inside with
    | none =>
      simp only [cutMids]
      split
      · rename_i opens
        rw [ih,opens]
        rfl
      · exact congrArg (c :: ·) text
    | some mid =>
      simp only [cutMids,Option.elim_some]
      split
      · rename_i closes
        rw [closes]
        split
        · rename_i none
          rw [none]
          exact congrArg ('<' :: '>' :: ·) text
        · rw [joinedCons,text,bracketed]
          simp only [List.nil_append,List.cons_append,List.append_assoc]
      · rw [ih,Option.elim_some]
        simp only [List.cons_append,List.append_assoc,List.nil_append]

end PublicInbox.Linkify
