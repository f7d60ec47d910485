import Mathlib.Data.Bool.AllAny
import PublicInbox.Linkify.Cut

/-! What the anchors of Linkify.pm stand for, and where its placeholders stay in the page. -/
namespace PublicInbox.Linkify

def tailed (c : Char) : Bool := (decide (c.toNat < 32) && !(c ∈ ['\t','\n','\x1b'])) || c == '\x7f'

def joins (c : Char) : Bool := asciiWord c || tailed c

structure EscapeOk (c : Char) (e : Text) : Prop where
  noMark : 'L' ∈ e → c = 'L'
  plain : ∀ x ∈ e,x ≠ '<' ∧ x ≠ '>'
  some : e ≠ []
  first : ∀ x ∈ e.head?,asciiWord x = true → e = [c]
  last : ∀ x ∈ e.getLast?,asciiWord x = joins c
  word : asciiWord c = true → e = [c]

theorem escapeWide {c : Char} (wide : 128 ≤ c.toNat) : escape c = ['&','#'] ++ Decimal.render c.toNat ++ [';'] := by
  have other : ∀ d : Char,d.toNat < 128 → c ≠ d := fun d narrow same => by
    rw [same] at wide
    omega
  have high : ¬ c.toNat < 32 := by omega
  have high' : ¬ c.toNat < 128 := by omega
  simp only [escape,if_neg (other '"' (by decide)),if_neg (other '&' (by decide)),if_neg (other '\'' (by decide)),
    if_neg (other '<' (by decide)),if_neg (other '>' (by decide)),if_neg (other '\x00' (by decide)),
    if_neg (other '\x07' (by decide)),if_neg (other '\x08' (by decide)),other '\t' (by decide),other '\n' (by decide),or_self,
    if_false,if_neg (other '\x0b' (by decide)),if_neg (other '\x0c' (by decide)),if_neg (other '\r' (by decide)),
    if_neg (other '\x1b' (by decide)),if_neg (other '\x7f' (by decide)),if_neg high,if_neg high']

instance (c : Char) (e : Text) : Decidable (EscapeOk c e) :=
  haveI : Decidable (∀ x ∈ e,x ≠ '<' ∧ x ≠ '>') := List.decidableBAll _ _
  haveI : Decidable (∀ x ∈ e.head?,asciiWord x = true → e = [c]) := Option.decidableForallMem _
  haveI : Decidable (∀ x ∈ e.getLast?,asciiWord x = joins c) := Option.decidableForallMem _
  decidable_of_iff (('L' ∈ e → c = 'L') ∧ (∀ x ∈ e,x ≠ '<' ∧ x ≠ '>') ∧ e ≠ [] ∧ (∀ x ∈ e.head?,asciiWord x = true → e = [c]) ∧
    (∀ x ∈ e.getLast?,asciiWord x = joins c) ∧ (asciiWord c = true → e = [c]))
    ⟨fun ⟨a,b,c,d,e,f⟩ => ⟨a,b,c,d,e,f⟩,fun ⟨a,b,c,d,e,f⟩ => ⟨a,b,c,d,e,f⟩⟩

theorem escapeNarrow : ∀ n < 128,EscapeOk (Char.ofNat n) (escape (Char.ofNat n)) := by decide +kernel

theorem escapeOk (c : Char) : EscapeOk c (escape c) := by
  by_cases wide : 128 ≤ c.toNat
  · have digit : ∀ x ∈ Decimal.render c.toNat,x.isDigit = true := Decimal.renderDigits _
    have none : asciiWord c = false := by
      by_contra word
      have := wordNarrow (Bool.not_eq_false _ ▸ word)
      omega
    have low : ¬ c.toNat < 32 := by omega
    have other : c ≠ '\x7f' := fun same => by
      rw [same] at wide
      exact absurd wide (by decide)
    have parts : ∀ x ∈ ['&','#'] ++ Decimal.render c.toNat ++ [';'],x ∈ ['&','#',';'] ∨ x.isDigit = true := by
      intro x mem
      simp only [List.mem_append,List.mem_cons,List.not_mem_nil,or_false] at mem ⊢
      rcases mem with ((rfl | rfl) | inside) | rfl
      · exact .inl (.inl rfl)
      · exact .inl (.inr (.inl rfl))
      · exact .inr (digit x inside)
      · exact .inl (.inr (.inr rfl))
    rw [escapeWide wide]
    refine ⟨fun mem => ?_,fun x mem => ⟨?_,?_⟩,by simp,fun x head word => ?_,fun x final => ?_,fun word => ?_⟩
    · exact absurd (parts 'L' mem) (by decide)
    · rintro rfl
      exact absurd (parts '<' mem) (by decide)
    · rintro rfl
      exact absurd (parts '>' mem) (by decide)
    · rw [← Option.some.inj head] at word
      exact absurd word (by decide)
    · rw [List.getLast?_concat] at final
      rw [← Option.some.inj final,joins,none,tailed,decide_eq_false low,beq_eq_false_iff_ne.mpr other]
      rfl
    · rw [none] at word
      cases word
  · have narrow := escapeNarrow c.toNat (not_le.mp wide)
    rwa [Char.ofNat_toNat] at narrow

/-! What ascii_html does to a whole text follows from what it does to a character. -/

theorem htmlAppend (s t : Text) : asciiHtml (s ++ t) = asciiHtml s ++ asciiHtml t := List.flatMap_append

theorem htmlPlain (s : Text) : ∀ x ∈ asciiHtml s,x ≠ '<' ∧ x ≠ '>' := by
  intro x mem
  obtain ⟨c,-,inside⟩ := List.mem_flatMap.mp mem
  exact (escapeOk c).plain x inside

theorem htmlWord {s : Text} (word : ∀ c ∈ s,asciiWord c = true) : asciiHtml s = s := by
  induction s with
  | nil => rfl
  | cons c s ih =>
    rw [asciiHtml,List.flatMap_cons,(escapeOk c).word (word c List.mem_cons_self),List.singleton_append]
    exact congrArg _ (ih fun d mem => word d (List.mem_cons_of_mem _ mem))

theorem htmlLast (s : Text) : Runs.Stops asciiWord (asciiHtml s).getLast? ↔ Runs.Stops joins s.getLast? := by
  rcases List.eq_nil_or_concat s with rfl | ⟨front,c,rfl⟩
  · exact ⟨fun _ _ none => (nomatch none),fun _ _ none => (nomatch none)⟩
  · have ok := escapeOk c
    have one : asciiHtml [c] = escape c := List.flatMap_singleton _ _
    rw [List.concat_eq_append,htmlAppend,List.getLast?_concat,one,List.getLast?_append_of_ne_nil _ ok.some]
    constructor
    · intro stops d same
      obtain ⟨x,final⟩ := Option.ne_none_iff_exists'.mp (mt List.getLast?_eq_none_iff.mp ok.some)
      rw [← Option.some.inj same,← ok.last x final]
      exact stops x final
    · intro stops x final
      rw [ok.last x final]
      exact stops c rfl

theorem htmlFirst (s : Text) : Runs.Stops asciiWord (asciiHtml s).head? ↔ Runs.Stops asciiWord s.head? := by
  cases s with
  | nil => exact Iff.rfl
  | cons c s =>
    have ok := escapeOk c
    rw [asciiHtml,List.flatMap_cons,List.head?_append_of_ne_nil _ ok.some]
    constructor
    · intro stops d same
      rw [← Option.some.inj same]
      by_contra word
      have word : asciiWord c = true := Bool.not_eq_false _ ▸ word
      rw [ok.word word] at stops
      exact Bool.noConfusion (word.symm.trans (stops c rfl))
    · intro stops x head
      by_contra word
      have word : asciiWord x = true := Bool.not_eq_false _ ▸ word
      have same := ok.first x head word
      rw [same] at head
      cases head
      exact Bool.noConfusion (word.symm.trans (stops c rfl))

theorem prefixUnescaped {w s : Text} (word : ∀ c ∈ w,asciiWord c = true) (found : w <+: asciiHtml s) : w <+: s := by
  induction w generalizing s with
  | nil => exact List.nil_prefix
  | cons c w ih =>
    cases s with
    | nil => exact absurd (List.prefix_nil.mp found) (by simp)
    | cons d s =>
      have ok := escapeOk d
      rw [asciiHtml,List.flatMap_cons] at found
      have head : c ∈ (escape d).head? := by
        rw [← List.head?_append_of_ne_nil _ ok.some]
        obtain ⟨rest,same⟩ := found
        rw [← same]
        rfl
      have own := ok.first c head (word c List.mem_cons_self)
      rw [own] at head found
      cases head
      rw [List.singleton_append,List.cons_prefix_cons] at found
      exact List.cons_prefix_cons.mpr ⟨rfl,ih (fun x mem => word x (List.mem_cons_of_mem _ mem)) found.2⟩

theorem infixPast {a : Char} {w x y : Text} (absent : a ∉ x) (found : (a :: w) <:+: x ++ y) : (a :: w) <:+: y := by
  induction x with
  | nil => exact found
  | cons c x ih =>
    rw [List.mem_cons,not_or] at absent
    rcases List.infix_cons_iff.mp found with whole | later
    · exact absurd (List.cons_prefix_cons.mp whole).1 absent.1
    · exact ih absent.2 later

theorem infixUnescaped {w s : Text} (word : ∀ c ∈ w,asciiWord c = true) (found : ('L' :: w) <:+: asciiHtml s) :
    ('L' :: w) <:+: s := by
  induction s with
  | nil => exact absurd (List.infix_nil.mp found) (by simp)
  | cons d s ih =>
    have ok := escapeOk d
    by_cases whole : ('L' :: w) <+: asciiHtml (d :: s)
    · exact (prefixUnescaped (List.forall_mem_cons.mpr ⟨by decide,word⟩) whole).isInfix
    · have later : ('L' :: w) <:+: asciiHtml s := by
        rw [asciiHtml,List.flatMap_cons] at found whole
        by_cases own : 'L' ∈ escape d
        · have same : escape d = ['L'] := by rw [ok.noMark own]; rfl
          rw [same,List.singleton_append] at found whole
          exact (List.infix_cons_iff.mp found).resolve_left whole
        · exact infixPast own found
      exact (ih later).trans (List.suffix_cons d s).isInfix

/-! Placeholders among texts -/

def Clean (self : Self) (s : Text) : Prop := ∀ key,(self key).isSome → ¬ (mark ++ key) <:+: s

theorem Clean.part {self : Self} {s t : Text} (clean : Clean self s) (part : t <:+: s) : Clean self t :=
  fun key known found => clean key known (found.trans part)

theorem keyWord {c : Char} (letter : keyLetter c = true) : asciiWord c = true := by
  simp only [keyLetter,Bool.or_eq_true,Bool.and_eq_true,decide_eq_true_eq] at letter
  rw [asciiWord,alphanumParts]
  simp only [Bool.or_eq_true,upperRange,lowerRange]
  rcases letter with low | high
  · exact .inl (.inl (.inr ⟨low.1,(Char.le_def.mp low.2).trans (by decide : 102 ≤ 122)⟩))
  · exact .inl (.inl (.inl ⟨high.1,(Char.le_def.mp high.2).trans (by decide : 74 ≤ 90)⟩))

section
variable (salt : Salt) (self : Self) (shown : Text → Text)

def placed (url : Text) : Text := mark ++ salt.key (asciiHtml url)

theorem placedWord (url : Text) : ∀ c ∈ placed salt url,asciiWord c = true :=
  List.forall_mem_append.mpr ⟨List.all_iff_forall_prop.mp (by decide),fun c mem => keyWord (salt.letters _ c mem)⟩

theorem placedPlain (url : Text) : ∀ x ∈ placed salt url,x ≠ '<' := by
  rintro x mem rfl
  exact absurd (placedWord salt url _ mem) (by decide)

theorem markedCons (before url after : Text) (rest : List (Text × Text)) :
    marked salt (before,(url,after) :: rest) = before ++ (placed salt url ++ marked salt (after,rest)) := by
  simp only [marked,placed,List.flatMap_cons,List.append_assoc]

theorem htmlMarkedCons (before url after : Text) (rest : List (Text × Text)) :
    asciiHtml (marked salt (before,(url,after) :: rest)) =
      asciiHtml before ++ (placed salt url ++ asciiHtml (marked salt (after,rest))) := by
  rw [markedCons,htmlAppend,htmlAppend,htmlWord (placedWord salt url)]

theorem markedFirst (after : Text) (rest : List (Text × Text)) :
    Runs.Stops asciiWord (asciiHtml (marked salt (after,rest))).head? ↔
      Runs.Stops asciiWord after.head? ∧ (rest ≠ [] → after ≠ []) := by
  rw [htmlFirst]
  cases after with
  | nil =>
    cases rest with
    | nil => exact ⟨fun stops => ⟨stops,fun some => absurd rfl some⟩,fun both => both.1⟩
    | cons link rest =>
      rw [markedCons,List.nil_append]
      constructor
      · intro stops
        exact absurd (stops 'L' rfl) (by decide)
      · intro both
        exact absurd rfl (both.2 (List.cons_ne_nil _ _))
  | cons c after =>
    exact ⟨fun stops => ⟨stops,fun _ => List.cons_ne_nil _ _⟩,fun both => both.1⟩

theorem apartCons (before url after : Text) (rest : List (Text × Text)) :
    Apart joins before ((url,after) :: rest) ↔ Runs.Stops asciiWord (asciiHtml before).getLast? ∧
      Runs.Stops asciiWord (asciiHtml (marked salt (after,rest))).head? ∧ Apart joins after rest := by
  rw [htmlLast,markedFirst,Apart,and_assoc]

theorem placeholderNil : placeholder self shown [] = [] := rfl

theorem placeholderPlaced (url : Text) : placeholder self shown (placed salt url) =
    ((self (salt.key (asciiHtml url))).map shown).getD (placed salt url) := by
  have key : (placed salt url).drop 7 = salt.key (asciiHtml url) := rfl
  have all : (salt.key (asciiHtml url)).all keyLetter = true := List.all_eq_true.mpr (salt.letters _)
  have front : mark.isPrefixOf (placed salt url) = true := List.isPrefixOf_iff_prefix.mpr (List.prefix_append _ _)
  simp only [placeholder,key,salt.long,all,front,Bool.and_true,beq_self_eq_true,if_true]

theorem placeholderLonger {before after : Text} (more : before ≠ [] ∨ after ≠ []) (url : Text) :
    placeholder self shown (before ++ (placed salt url ++ after)) = before ++ (placed salt url ++ after) := by
  rw [placeholder,if_neg]
  intro whole
  simp only [Bool.and_eq_true,beq_iff_eq] at whole
  have long := whole.1.2
  have some : 0 < before.length + after.length := by
    rcases more with some | some <;> have := List.length_pos_iff.mpr some <;> omega
  simp only [List.length_drop,List.length_append,placed,salt.long,show mark.length = 7 from rfl] at long
  omega

variable {self} in
theorem placeholderClean {s w : Text} (clean : Clean self s) (part : w <:+: asciiHtml s) : placeholder self shown w = w := by
  rw [placeholder]
  split
  · rename_i whole
    simp only [Bool.and_eq_true] at whole
    obtain ⟨rest,rfl⟩ := List.isPrefixOf_iff_prefix.mp whole.1.1
    have key : (mark ++ rest).drop 7 = rest := rfl
    have letters : ∀ c ∈ rest,asciiWord c = true := fun c mem => keyWord (List.all_eq_true.mp (key ▸ whole.2) c mem)
    rw [key]
    cases known : self rest with
    | none => rfl
    | some value =>
      exact absurd (infixUnescaped (List.forall_mem_append.mpr ⟨(List.all_iff_forall_prop.mp (by decide) : ∀ c ∈ ['I','N','K','I','F','Y'],asciiWord c = true),letters⟩) part)
        (clean rest (by rw [known]; rfl))
  · rfl

variable {self} in
theorem fillClean {s t : Text} (clean : Clean self s) (part : t <:+: asciiHtml s) : fill self shown t = t :=
  Runs.substClean fun _ inside => placeholderClean shown clean (inside.trans part)

def whole (url : Text) : Text := placeholder self shown (placed salt url)

variable {self} in
theorem fillCons {before url after : Text} {rest : List (Text × Text)} (clean : Clean self before)
    (ends : Runs.Stops asciiWord (asciiHtml before).getLast?)
    (begins : Runs.Stops asciiWord (asciiHtml (marked salt (after,rest))).head?) :
    fill self shown (asciiHtml (marked salt (before,(url,after) :: rest))) =
      asciiHtml before ++ (whole salt self shown url ++ fill self shown (asciiHtml (marked salt (after,rest)))) := by
  have first : fill self shown (asciiHtml before) = asciiHtml before := fillClean shown clean List.infix_rfl
  rw [fill] at first
  simp only [fill]
  rw [htmlMarkedCons,Runs.substSplit (placeholderNil self shown) ends,first,Runs.substRun (placedWord salt url),
    Runs.substStop (placeholderNil self shown) begins,List.nil_append,whole]

variable {self} in
theorem fillApart {before : Text} {links : List (Text × Text)} (apart : Apart joins before links) (clean : Clean self before)
    (cleans : ∀ link ∈ links,Clean self link.2) : fill self shown (asciiHtml (marked salt (before,links))) =
      asciiHtml before ++ links.flatMap fun link => whole salt self shown link.1 ++ asciiHtml link.2 := by
  induction links generalizing before with
  | nil =>
    have same : marked salt (before,[]) = before := List.append_nil _
    rw [same,fillClean shown clean List.infix_rfl,List.flatMap_nil,List.append_nil]
  | cons link rest ih =>
    obtain ⟨url,after⟩ := link
    obtain ⟨ends,begins,further⟩ := (apartCons salt before url after rest).mp apart
    have later := ih further (cleans _ List.mem_cons_self) fun link mem => cleans link (List.mem_cons_of_mem _ mem)
    rw [fillCons salt shown clean ends begins,later,List.flatMap_cons]
    simp only [List.append_assoc]

end

theorem untagText {x : Text} (plain : ∀ c ∈ x,c ≠ '<') (y : Text) : untag false (x ++ y) = x ++ untag false y := by
  induction x with
  | nil => rfl
  | cons c x ih =>
    rw [List.cons_append,untag,if_neg (plain c List.mem_cons_self),ih fun d mem => plain d (List.mem_cons_of_mem _ mem),
      List.cons_append]

theorem untagInside {x : Text} (plain : ∀ c ∈ x,c ≠ '>') (y : Text) : untag true (x ++ '>' :: y) = untag false y := by
  induction x with
  | nil => rfl
  | cons c x ih =>
    rw [List.cons_append,untag,bne_iff_ne.mpr (plain c List.mem_cons_self)]
    exact ih fun d mem => plain d (List.mem_cons_of_mem _ mem)

section
variable (salt : Salt) {self : Self} {shown : Text → Text}

theorem joinedStays {text : Text → Text} {before : Text} {links : List (Text × Text)} (joined : ¬ Apart joins before links)
    (clean : Clean self before) (cleans : ∀ link ∈ links,Clean self link.2)
    (reads : ∀ link ∈ links,∀ y,untag false (whole salt self shown link.1 ++ y) = text link.1 ++ untag false y) :
    ∃ link ∈ links,placed salt link.1 <:+: untag false (fill self shown (asciiHtml (marked salt (before,links)))) := by
  induction links generalizing before with
  | nil => exact absurd trivial joined
  | cons link rest ih =>
    obtain ⟨url,after⟩ := link
    rw [apartCons] at joined
    have plain : ∀ c ∈ asciiHtml before,c ≠ '<' := fun c mem => (htmlPlain before c mem).1
    by_cases alone : Runs.Stops asciiWord (asciiHtml before).getLast? ∧
        Runs.Stops asciiWord (asciiHtml (marked salt (after,rest))).head?
    · obtain ⟨link,mem,stays⟩ := ih (fun further => joined ⟨alone.1,alone.2,further⟩) (cleans _ List.mem_cons_self)
        (fun link mem => cleans link (List.mem_cons_of_mem _ mem)) fun link mem => reads link (List.mem_cons_of_mem _ mem)
      refine ⟨link,List.mem_cons_of_mem _ mem,stays.trans ?_⟩
      rw [fillCons salt shown clean alone.1 alone.2,untagText plain,reads (url,after) List.mem_cons_self,← List.append_assoc]
      exact (List.suffix_append _ _).isInfix
    · refine ⟨(url,after),List.mem_cons_self,?_⟩
      obtain ⟨front,left,right,rest',same,-,noLeft,noRight,filled⟩ := Runs.substAround (placeholderNil self shown)
        (placedWord salt url) (asciiHtml before) (asciiHtml (marked salt (after,rest)))
      have more : left ≠ [] ∨ right ≠ [] := by
        by_contra neither
        rw [not_or,not_not,not_not] at neither
        exact alone ⟨noLeft.mp neither.1,noRight.mp neither.2⟩
      have kept : fill self shown front = front := fillClean shown clean (same ▸ (List.prefix_append front left).isInfix)
      rw [fill] at kept
      rw [htmlMarkedCons,fill,filled,kept,placeholderLonger salt self shown more]
      rw [same] at plain
      have text : ∀ y,front ++ (left ++ (placed salt url ++ right) ++ y) = (front ++ left) ++ (placed salt url ++ (right ++ y)) := by
        intro y
        simp only [List.append_assoc]
      rw [text,untagText plain,untagText (placedPlain salt url)]
      exact List.infix_append' _ _ _

variable (self)

theorem storeKeeps {value : Text → Text} {links : List (Text × Text)} {key : Text}
    (other : ∀ link ∈ links,salt.key (asciiHtml link.1) ≠ key) : store salt value self links key = self key := by
  induction links generalizing self with
  | nil => rfl
  | cons link rest ih =>
    have kept := ih (Function.update self (salt.key (asciiHtml link.1)) (some (value link.1)))
      fun l mem => other l (List.mem_cons_of_mem _ mem)
    rw [store] at kept ⊢
    rw [List.foldl_cons,kept,Function.update_of_ne (other link List.mem_cons_self).symm]

theorem storeFound {value : Text → Text} {links : List (Text × Text)} {link : Text × Text} (mem : link ∈ links) :
    ∃ l ∈ links,salt.key (asciiHtml l.1) = salt.key (asciiHtml link.1) ∧
      store salt value self links (salt.key (asciiHtml link.1)) = some (value l.1) := by
  induction links generalizing self link with
  | nil => cases mem
  | cons first rest ih =>
    by_cases again : ∃ l ∈ rest,salt.key (asciiHtml l.1) = salt.key (asciiHtml link.1)
    · obtain ⟨l,mem',same⟩ := again
      obtain ⟨m,inside,key,found⟩ := ih (Function.update self (salt.key (asciiHtml first.1)) (some (value first.1))) mem'
      rw [same] at key found
      exact ⟨m,List.mem_cons_of_mem _ inside,key,found⟩
    · rcases List.mem_cons.mp mem with rfl | later
      · refine ⟨link,List.mem_cons_self,rfl,?_⟩
        have kept := @storeKeeps salt (Function.update self (salt.key (asciiHtml link.1)) (some (value link.1))) value rest
          (salt.key (asciiHtml link.1)) fun l mem' same => again ⟨l,mem',same⟩
        rw [store] at kept ⊢
        rw [List.foldl_cons,kept,Function.update_self]
      · exact absurd ⟨link,later,rfl⟩ again

end

def Collisionless (salt : Salt) (links : List (Text × Text)) : Prop :=
  ∀ l ∈ links,∀ m ∈ links,salt.key (asciiHtml m.1) = salt.key (asciiHtml l.1) → asciiHtml m.1 = asciiHtml l.1

theorem htmlJoined (source : Text → Text) (links : Text × List (Text × Text)) : asciiHtml (joined source links) =
    asciiHtml links.1 ++ links.2.flatMap fun link => asciiHtml (source link.1) ++ asciiHtml link.2 := by
  rw [joined,htmlAppend]
  congr 1
  induction links.2 with
  | nil => rfl
  | cons link rest ih => rw [List.flatMap_cons,List.flatMap_cons,htmlAppend,htmlAppend,ih]

theorem joinedParts (source : Text → Text) (links : Text × List (Text × Text)) :
    links.1 <:+: joined source links ∧ ∀ link ∈ links.2,link.2 <:+: joined source links := by
  refine ⟨(List.prefix_append _ _).isInfix,fun link mem => ?_⟩
  obtain ⟨early,late,same⟩ := List.append_of_mem mem
  rw [joined,same,List.flatMap_append,List.flatMap_cons]
  refine ⟨links.1 ++ early.flatMap (fun l => source l.1 ++ l.2) ++ source link.1,late.flatMap fun l => source l.1 ++ l.2,?_⟩
  simp only [List.append_assoc]

section
variable (salt : Salt) (self : Self) (shown source value : Text → Text) (extra : Text) (links : Text × List (Text × Text))

theorem untagLinks {shows : Text → Text} {list : List (Text × Text)}
    (reads : ∀ link ∈ list,∀ y,untag false (shows link.1 ++ y) = source link.1 ++ untag false y) :
    untag false (list.flatMap fun link => shows link.1 ++ asciiHtml link.2) =
      list.flatMap fun link => source link.1 ++ asciiHtml link.2 := by
  induction list with
  | nil => rfl
  | cons link list ih =>
    have plain : ∀ c ∈ asciiHtml link.2,c ≠ '<' := fun c mem => (htmlPlain link.2 c mem).1
    rw [List.flatMap_cons,List.flatMap_cons,List.append_assoc,reads link List.mem_cons_self,untagText plain,
      ih fun l mem => reads l (List.mem_cons_of_mem _ mem),List.append_assoc]

theorem wholeFound (apart : Collisionless salt links.2) {link : Text × Text} (mem : link ∈ links.2) :
    ∃ l ∈ links.2,asciiHtml l.1 = asciiHtml link.1 ∧
      whole salt (store salt value self links.2) shown link.1 = shown (value l.1) := by
  obtain ⟨l,inside,key,found⟩ := @storeFound salt self value links.2 link mem
  refine ⟨l,inside,apart link mem l inside key,?_⟩
  rw [whole,placeholderPlaced,found]
  rfl

variable {salt self shown source value extra links}

theorem undoneIff (clean : Clean (store salt value self links.2) (joined source links)) (apart : Collisionless salt links.2)
    (reads : ∀ u v,asciiHtml v = asciiHtml u → ∀ y,untag false (shown (value v) ++ y) = asciiHtml (source u) ++ extra ++ untag false y) :
    untag false (fill (store salt value self links.2) shown (asciiHtml (marked salt links))) = asciiHtml (joined source links) ↔
      Apart joins links.1 links.2 ∧ (extra = [] ∨ links.2 = []) := by
  have parts := joinedParts source links
  have texts : ∀ link ∈ links.2,∀ y,untag false (whole salt (store salt value self links.2) shown link.1 ++ y) =
      (asciiHtml (source link.1) ++ extra) ++ untag false y := by
    intro link mem y
    obtain ⟨l,-,same,is⟩ := wholeFound salt self shown value links apart mem
    rw [is,reads link.1 l.1 same]
  have cleans : ∀ link ∈ links.2,Clean (store salt value self links.2) link.2 := fun link mem => clean.part (parts.2 link mem)
  by_cases alone : Apart joins links.1 links.2
  · have plain : ∀ c ∈ asciiHtml links.1,c ≠ '<' := fun c mem => (htmlPlain links.1 c mem).1
    rw [fillApart salt shown alone (clean.part parts.1) cleans,untagText plain,
      untagLinks (fun u => asciiHtml (source u) ++ extra) texts,htmlJoined,List.append_cancel_left_eq]
    simp only [alone,true_and]
    constructor
    · intro same
      rw [or_iff_not_imp_right]
      intro some
      obtain ⟨link,rest,cons⟩ := List.exists_cons_of_ne_nil some
      have lengths := congrArg List.length same
      have more : ∀ list : List (Text × Text),
          (list.flatMap fun link => asciiHtml (source link.1) ++ extra ++ asciiHtml link.2).length =
            (list.flatMap fun link => asciiHtml (source link.1) ++ asciiHtml link.2).length + list.length * extra.length := by
        intro list
        induction list with
        | nil => simp
        | cons l list ih =>
          simp only [List.flatMap_cons,List.length_append,ih,List.length_cons,Nat.succ_mul]
          omega
      rw [more,cons,List.length_cons,Nat.succ_mul] at lengths
      exact List.length_eq_zero_iff.mp (by omega)
    · rintro (none | none)
      · rw [none]
        simp only [List.append_nil]
      · rw [none]
        rfl
  · simp only [alone,false_and,iff_false]
    intro same
    obtain ⟨link,mem,stays⟩ := @joinedStays salt _ _ (fun u => asciiHtml (source u) ++ extra) _ _ alone (clean.part parts.1) cleans texts
    obtain ⟨l,-,-,found⟩ := @storeFound salt self value links.2 link mem
    rw [same] at stays
    exact clean _ (by rw [found]; rfl) (infixUnescaped (fun c inside => placedWord salt link.1 c (List.mem_cons_of_mem _ inside)) stays)

end

/-! The links of both functions -/

theorem untagTag {href : Text} (plain : ∀ c ∈ href,c ≠ '>') (y : Text) : untag false (tag href ++ y) = untag false y := by
  have inside : ∀ c ∈ ['a','\n','h','r','e','f','=','"'] ++ href ++ ['"'],c ≠ '>' := by
    simp only [List.forall_mem_append]
    exact ⟨⟨List.all_iff_forall_prop.mp (by decide),plain⟩,List.all_iff_forall_prop.mp (by decide)⟩
  have whole : tag href ++ y = '<' :: (['a','\n','h','r','e','f','=','"'] ++ href ++ ['"'] ++ '>' :: y) := by
    simp only [tag,List.append_assoc,List.cons_append,List.nil_append]
  rw [whole,untag,if_pos rfl,untagInside inside]

theorem untagTagEnd (y : Text) : untag false (tagEnd ++ y) = untag false y := rfl

theorem untagHtml (u y : Text) : untag false (asciiHtml u ++ y) = asciiHtml u ++ untag false y :=
  untagText (fun c mem => (htmlPlain u c mem).1) y

theorem untagAnchor (u y : Text) : untag false (anchor (asciiHtml u) ++ y) = asciiHtml u ++ untag false y := by
  rw [anchor,List.append_assoc,List.append_assoc,untagTag (fun c mem => (htmlPlain u c mem).2),untagHtml,untagTagEnd]

def rawText (raw : Bool) : Text := if raw then [' ','(','r','a','w',')'] else []

theorem htmlBracketed (mid : Text) : asciiHtml (bracketed mid) = ['&','l','t',';'] ++ asciiHtml mid ++ ['&','g','t',';'] := by
  have whole : bracketed mid = ['<'] ++ mid ++ ['>'] := rfl
  rw [whole,htmlAppend,htmlAppend]
  rfl

theorem untagMid {midEscape : Text → Text} {pfx : Text} (plain : ∀ c ∈ pfx,c ≠ '>') (raw : Bool) {u v : Text}
    (same : asciiHtml v = asciiHtml u) (y : Text) : untag false (midLink midEscape pfx raw v ++ y) =
      asciiHtml (bracketed u) ++ rawText raw ++ untag false y := by
  have href : ∀ more,(∀ c ∈ more,c ≠ '>') → ∀ c ∈ pfx ++ ['/'] ++ asciiHtml (midEscape v) ++ more,c ≠ '>' := by
    intro more rest
    simp only [List.forall_mem_append]
    exact ⟨⟨⟨plain,List.all_iff_forall_prop.mp (by decide)⟩,fun c mem => (htmlPlain _ c mem).2⟩,rest⟩
  have page := href ['/'] (List.all_iff_forall_prop.mp (by decide))
  have rawPage := href ['/','r','a','w'] (List.all_iff_forall_prop.mp (by decide))
  rw [htmlBracketed,midLink,same]
  generalize pfx ++ ['/'] ++ asciiHtml (midEscape v) ++ ['/'] = page' at page
  generalize pfx ++ ['/'] ++ asciiHtml (midEscape v) ++ ['/','r','a','w'] = rawPage' at rawPage
  have lt : ∀ y,untag false (['&','l','t',';'] ++ y) = ['&','l','t',';'] ++ untag false y := untagText (List.all_iff_forall_prop.mp (by decide))
  have gt : ∀ y,untag false (['&','g','t',';'] ++ y) = ['&','g','t',';'] ++ untag false y := untagText (List.all_iff_forall_prop.mp (by decide))
  have more : untag false ((if raw then [' ','('] ++ tag rawPage' ++ ['r','a','w'] ++ tagEnd ++ [')'] else []) ++ y) =
      rawText raw ++ untag false y := by
    cases raw with
    | false => rfl
    | true =>
      have opens : ∀ y,untag false ([' ','('] ++ y) = [' ','('] ++ untag false y := untagText (List.all_iff_forall_prop.mp (by decide))
      have text : ∀ y,untag false (['r','a','w'] ++ y) = ['r','a','w'] ++ untag false y := untagText (List.all_iff_forall_prop.mp (by decide))
      have closes : ∀ y,untag false ([')'] ++ y) = [')'] ++ untag false y := untagText (List.all_iff_forall_prop.mp (by decide))
      simp only [if_true,List.append_assoc]
      rw [opens,untagTag rawPage,text,untagTagEnd,closes]
      rfl
  rw [List.append_assoc,List.append_assoc,List.append_assoc,List.append_assoc,List.append_assoc,lt,untagTag page,untagHtml,
    untagTagEnd,gt,more]
  simp only [List.append_assoc]

/-! The results -/

def befores : Text → List (Text × Text) → List Text
  | _,[] => []
  | before,(_,after) :: rest => before :: befores after rest

theorem apartTailed {words : Words} {before : Text} {links : List (Text × Text)} (apart : Apart words.word before links) :
    Apart joins before links ↔ ∀ t ∈ befores before links,Runs.Stops tailed t.getLast? := by
  induction links generalizing before with
  | nil => exact ⟨fun _ => List.forall_mem_nil _,fun _ => trivial⟩
  | cons link rest ih =>
    obtain ⟨ends,begins,between,further⟩ := apart
    have own : Runs.Stops joins before.getLast? ↔ Runs.Stops tailed before.getLast? := by
      refine forall₂_congr fun c last => ?_
      have none : asciiWord c = false := by
        by_contra word
        have word : asciiWord c = true := Bool.not_eq_false _ ▸ word
        rw [← words.ascii c (wordNarrow word)] at word
        exact Bool.noConfusion (word.symm.trans (ends c last))
      rw [joins,none,Bool.false_or]
    rw [befores,List.forall_mem_cons,← own,← ih further]
    exact ⟨fun all => ⟨all.1,all.2.2.2⟩,fun all => ⟨all.1,begins,between,all.2⟩⟩

theorem shortClean (salt : Salt) (value : Text → Text) (links : List (Text × Text)) {s : Text} (short : s.length < 47) :
    Clean (store salt value (fun _ => none) links) s := by
  have long : ∀ self : Self,(∀ key,(self key).isSome → key.length = 40) → ∀ key,(store salt value self links key).isSome →
      key.length = 40 := by
    induction links with
    | nil => exact fun _ own => own
    | cons link rest ih =>
      refine fun self own => ih _ fun key known => ?_
      by_cases same : key = salt.key (asciiHtml link.1)
      · rw [same,salt.long]
      · have kept := @Function.update_of_ne _ _ _ _ _ same (some (value link.1)) self
        exact own key (kept ▸ known)
  intro key known found
  have empty : ∀ key : Text,((none : Option Text)).isSome = true → key.length = 40 := fun _ none => Bool.noConfusion none
  have := long _ empty key known
  have := found.length_le
  simp only [List.length_append,show mark.length = 7 from rfl] at this
  omega

/- to_html with each anchor replaced by its text is ascii_html where no URL stands right behind a control
character with an escape that ends with a letter or digit; and linkify_mids where in addition no <mid> has a
word or another <mid> next to it, and there is no $raw. -/
theorem linkifiedExact (words : Words) (salt : Salt) (self : Self) (midEscape : Text → Text) (pfx s : Text) (raw : Bool)
    (plain : ∀ c ∈ pfx,c ≠ '>')
    (apart : Collisionless salt (cut words 0 false s).2) (clean : Clean (linkify1 words salt self s).1 s)
    (apartMids : Collisionless salt (cutMids none s).2) (cleanMids : Clean (linkifyMids midEscape salt self pfx s raw).1 s) :
    (untag false (toHtml words salt self s) = asciiHtml s ↔
      ∀ t ∈ befores (cut words 0 false s).1 (cut words 0 false s).2,Runs.Stops tailed t.getLast?) ∧
    ((∀ t ∈ befores (cut words 0 false s).1 (cut words 0 false s).2,Runs.Stops tailed t.getLast?) →
      toHtml words salt self s = asciiHtml (cut words 0 false s).1 ++
        (cut words 0 false s).2.flatMap fun link => anchor (asciiHtml link.1) ++ asciiHtml link.2) ∧
    (untag false (linkifyMids midEscape salt self pfx s raw).2 = asciiHtml s ↔
      Apart joins (cutMids none s).1 (cutMids none s).2 ∧ (raw = false ∨ (cutMids none s).2 = [])) := by
  have shape := cutShape words (Nat.le_refl s.length) false
  have whole := cutMidsText s none
  rw [Option.elim_none,List.nil_append] at whole
  refine ⟨?_,fun good => ?_,?_⟩
  · have exact' := @undoneIff salt self anchor id asciiHtml [] (cut words 0 false s) (shape.text.symm ▸ clean) apart
      fun u v same y => by rw [same,untagAnchor,List.append_nil,id]
    rw [shape.text] at exact'
    rw [← apartTailed shape.apart]
    simp only [true_or,and_true] at exact'
    exact exact'
  · have parts := joinedParts id (cut words 0 false s)
    rw [shape.text] at parts
    have filled := fillApart salt anchor ((apartTailed shape.apart).mpr good) (clean.part parts.1) fun link mem => clean.part (parts.2 link mem)
    have page : toHtml words salt self s = _ := filled
    rw [page]
    congr 1
    refine List.flatMap_congr fun link mem => ?_
    obtain ⟨l,-,same,is⟩ := wholeFound salt self anchor asciiHtml (cut words 0 false s) apart mem
    rw [← same]
    exact congrArg (· ++ _) is
  · have exact' := @undoneIff salt self id bracketed (midLink midEscape pfx raw) (rawText raw) (cutMids none s) (whole.symm ▸ cleanMids)
      apartMids fun u v same y => untagMid plain raw same y
    rw [whole] at exact'
    have none : rawText raw = [] ↔ raw = false := by cases raw <;> simp [rawText]
    rw [none] at exact'
    exact exact'

def sameKey : Salt := ⟨fun _ => List.replicate 40 'a',fun _ => rfl,fun _ => List.all_iff_forall_prop.mp (by decide)⟩

def latin : Words := ⟨fun c => asciiWord c || c == 'ſ',fun c narrow => by
  have other : (c == 'ſ') = false := beq_eq_false_iff_ne.mpr fun same => by
    rw [same] at narrow
    exact absurd narrow (by decide)
  rw [other,Bool.or_false],by decide⟩

def twoKeys : Salt := ⟨fun t => List.replicate 40 (if t.length % 2 = 0 then 'a' else 'b'),fun _ => List.length_replicate,fun t c mem => by
  rw [List.eq_of_mem_replicate mem]
  split <;> decide⟩

def mixed : Text := "http://a/ <b> <cd>".toList

theorem linkedOnce : untag false (toHtml latin twoKeys (fun _ => none) mixed) = asciiHtml mixed ∧
    untag false (linkifyMids id twoKeys (fun _ => none) ['.','.'] mixed false).2 = asciiHtml mixed := by
  have urls : cut latin 0 false mixed = ([],[("http://a/".toList," <b> <cd>".toList)]) := by decide +kernel
  have mids : cutMids none mixed = ("http://a/ ".toList,[(['b'],[' ']),(['c','d'],[])]) := by decide +kernel
  have apart : Collisionless twoKeys (cut latin 0 false mixed).2 := by
    rw [urls,Collisionless]
    decide +kernel
  have apartMids : Collisionless twoKeys (cutMids none mixed).2 := by
    rw [mids,Collisionless]
    decide +kernel
  have exact' := linkifiedExact latin twoKeys (fun _ => none) id ['.','.'] mixed false (List.all_iff_forall_prop.mp (by decide)) apart
    (shortClean _ _ _ (by decide)) apartMids (shortClean _ _ _ (by decide))
  have ends : ∀ bad : Char → Bool,bad ' ' = false → Runs.Stops bad (some ' ') := fun bad fine c is => by
    cases is
    exact fine
  have none : ∀ bad,Runs.Stops bad (none : Option Char) := fun _ _ none => nomatch none
  rw [urls,mids] at exact'
  refine ⟨exact'.1.mpr ?_,exact'.2.2.mpr ⟨⟨ends _ (by decide),ends _ (by decide),fun _ => by decide,ends _ (by decide),none _,
    fun more => absurd rfl more,trivial⟩,.inl rfl⟩⟩
  exact List.forall_mem_singleton.mpr (none _)

/- A form feed before a URL, and two <mid> side by side -/
theorem placeholdersStay :
    (Clean (linkify1 latin sameKey (fun _ => none) ['\x0c','h','t','t','p',':','/','/','a']).1 ['\x0c','h','t','t','p',':','/','/','a'] ∧
      untag false (toHtml latin sameKey (fun _ => none) ['\x0c','h','t','t','p',':','/','/','a']) ≠
        asciiHtml ['\x0c','h','t','t','p',':','/','/','a']) ∧
    (Clean (linkifyMids id sameKey (fun _ => none) ['.','.'] ['<','a','>','<','a','>'] false).1 ['<','a','>','<','a','>'] ∧
      untag false (linkifyMids id sameKey (fun _ => none) ['.','.'] ['<','a','>','<','a','>'] false).2 ≠
        asciiHtml ['<','a','>','<','a','>']) := by
  refine ⟨⟨shortClean _ _ _ (by decide),fun same => ?_⟩,shortClean _ _ _ (by decide),fun same => ?_⟩
  · exact absurd (congrArg List.length same) (by decide +kernel)
  · exact absurd (congrArg List.length same) (by decide +kernel)

end PublicInbox.Linkify
