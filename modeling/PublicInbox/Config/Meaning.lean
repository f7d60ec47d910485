import PublicInbox.Config.Reading
import Mathlib.Order.CompletePartialOrder

/-! glob2re means what the glob means. -/
namespace PublicInbox.Config
open Regex (Means Ends Re)
open Computability

section
variable {wide : Char → Bool}

theorem outNotLazy {d : Int} (s : Text) : (textOut wide d s).head? ≠ some '?' := by
  cases s with
  | nil => nofun
  | cons c s =>
    by_cases closes : c = ']'
    · subst closes
      exact fun bad => absurd (Option.some.inj bad) (by decide)
    · obtain ⟨e,r,out,other⟩ := @outHead wide d _ closes
      rw [textOut,out]
      exact fun bad => other (by rw [Option.some.inj bad]; decide)

theorem altsMeans {d : Int} {others : List (List Item)} (ok : ∀ is ∈ others,ListItems is)
    (read : OthersRead wide d others) :
    ∃ alts,altsOut wide d others = Regex.altsText alts ∧ (∀ a ∈ alts,Means a.1 a.2) ∧
      alts.map Prod.snd = others.map itemsLang := by
  induction others generalizing d with
  | nil => exact ⟨[],rfl,nofun,rfl⟩
  | cons is others ih =>
    obtain ⟨own,_,rest⟩ := read
    obtain ⟨alts,text,means,langs⟩ := ih (fun x mem => ok x (List.mem_cons_of_mem _ mem)) rest
    refine ⟨(textOut wide d (itemsText is),itemsLang is) :: alts,?_,?_,?_⟩
    · rw [altsOut,text]
      rfl
    · refine List.forall_mem_cons.mpr ⟨?_,means⟩
      exact itemsMean (fun i mem => (ok is List.mem_cons_self i mem).1) own
    · rw [List.map_cons,List.map_cons,langs]

end

/-! ** -/

def line : Language Char := {s | '\n' ∉ s}

def slash : Language Char := {['/']}

theorem dirParts : line * slash = lineDir := by
  ext s
  rw [Language.mem_mul]
  constructor
  · rintro ⟨u,none,_,rfl,rfl⟩
    exact ⟨u,none,rfl⟩
  · rintro ⟨u,none,rfl⟩
    exact ⟨u,none,['/'],rfl,rfl⟩

theorem belowParts : slash * line = lineBelow := by
  ext s
  rw [Language.mem_mul]
  constructor
  · rintro ⟨_,rfl,u,none,rfl⟩
    exact ⟨u,none,rfl⟩
  · rintro ⟨u,none,rfl⟩
    exact ⟨['/'],rfl,u,none,rfl⟩

theorem deepParts : slash * lineDir + slash = Part.deep.lineLang := by
  ext s
  rw [Language.mem_add,Language.mem_mul]
  constructor
  · rintro (⟨_,rfl,_,⟨u,none,rfl⟩,rfl⟩ | only)
    · exact .inr ⟨u,none,rfl⟩
    · exact .inl only
  · rintro (only | ⟨u,none,rfl⟩)
    · exact .inr only
    · exact .inl ⟨['/'],rfl,u ++ ['/'],⟨u,none,rfl⟩,rfl⟩

theorem starLine : (Re.star .dot).lang = line := Set.ext Regex.anyStar

theorem deepMeans : Means deepOut Part.deep.lineLang := by
  refine ⟨[.opens,.atom (.char '/'),.atom .dot,.star,.atom (.char '/'),.bar,.atom (.char '/'),.closes],
    [.alt (Regex.seqOf [.char '/',.star .dot,.char '/']) (Regex.seqOf [.char '/'])],fun s => ?_,fun _ _ _ => rfl,?_⟩
  · show Regex.lex .outside ('(' :: '?' :: ':' :: '/' :: '.' :: '*' :: '?' :: '/' :: '|' :: '/' :: ')' :: s) = _
    rw [Regex.lexGroup,Regex.lexChar rfl,Regex.lexDot,Regex.lexLazy,Regex.lexChar rfl,Regex.lexBar,Regex.lexChar rfl,
      Regex.lexCloses]
    simp only [Option.map_map]
    rfl
  · rw [List.map_singleton,List.prod_singleton]
    show slash * ((Re.star .dot).lang * (slash * 1)) + slash * 1 = _
    rw [mul_one,starLine,dirParts,deepParts]

theorem firstMeans : Means ['.','*','/'] lineDir := by
  refine ⟨[.atom .dot,.star,.atom (.char '/')],[.star .dot,.char '/'],fun s => ?_,fun _ _ _ => rfl,?_⟩
  · show Regex.lex .outside ('.' :: '*' :: '/' :: s) = _
    rw [Regex.lexDot,Regex.lexStar (by simp),Regex.lexChar rfl]
    simp only [Option.map_map]
    rfl
  · rw [List.map_cons,List.map_singleton,List.prod_cons,List.prod_singleton,starLine]
    exact dirParts

theorem lastMeans : Ends ['/','.','*'] lineBelow := by
  refine ⟨[.atom (.char '/'),.atom .dot,.star],[.char '/',.star .dot],rfl,fun _ => rfl,?_⟩
  rw [List.map_cons,List.map_singleton,List.prod_cons,List.prod_singleton,starLine]
  exact belowParts

/-! The whole -/

section
variable {wide : Char → Bool}

theorem partMeans {p : Part} {d : Int} (ok : p.Ok) (read : p.Read wide d) : Means (p.final wide d) p.lineLang := by
  cases p with
  | item i => exact itemMeans ok read
  | deep => exact deepMeans
  | list first others =>
    obtain ⟨alts,text,means,langs⟩ := altsMeans ok.2.2 read.2
    have head : Means (textOut wide d (itemsText first)) (itemsLang first) :=
      itemsMean (fun i mem => (ok.2.1 i mem).1) read.1
    have group := head.group means (outNotLazy _)
    have whole : (Part.list first others).lineLang = itemsLang first + (others.map itemsLang).sum := by
      show ((first :: others).map itemsLang).sum = _
      rw [List.map_cons,List.sum_cons]
    rw [whole,← langs,Part.final,text]
    exact group

theorem partsMean {ps : List Part} {d : Int} (ok : ∀ p ∈ ps,p.Ok) (read : PartsRead wide d ps) :
    Means (partsFinal wide d ps) (ps.map Part.lineLang).prod := by
  induction ps generalizing d with
  | nil => exact Means.nil
  | cons p ps ih =>
    rw [List.map_cons,List.prod_cons]
    refine (partMeans (ok p List.mem_cons_self) read.1).append ?_
    exact ih (fun x mem => ok x (List.mem_cons_of_mem _ mem)) read.2

theorem globEnds {g : Glob} (ok : g.Ok) (read : g.Read wide) : Ends (globRe wide g) g.lineLang := by
  have last : Ends (lastOut g) (if g.deepLast then lineBelow else 1) := by
    unfold lastOut
    split
    · exact lastMeans
    · exact Ends.nil
  have first : Means (firstOut g) (if g.deepFirst then lineDir else 1) := by
    unfold firstOut
    split
    · exact firstMeans
    · exact Means.nil
  exact first.ends ((partsMean ok.parts read).ends last)

end

/-! Without a newline where a ** is, it is denoted all the same. -/

theorem mulNarrow {l l' m m' : Language Char} (first : l ≤ l') (second : m ≤ m') : l * m ≤ l' * m' := by
  rintro s ⟨a,inA,b,inB,rfl⟩
  exact ⟨a,first inA,b,second inB,rfl⟩

theorem partNarrow (p : Part) : p.lineLang ≤ p.lang := by
  cases p with
  | item i => exact le_rfl
  | list first others => exact le_rfl
  | deep =>
    rintro s (only | ⟨u,_,rfl⟩)
    · exact .inl only
    · exact .inr ⟨u,rfl⟩

theorem partsNarrow (ps : List Part) : (ps.map Part.lineLang).prod ≤ (ps.map Part.lang).prod := by
  induction ps with
  | nil => exact le_rfl
  | cons p ps ih =>
    rw [List.map_cons,List.map_cons,List.prod_cons,List.prod_cons]
    exact mulNarrow (partNarrow p) ih

theorem globNarrow (g : Glob) : g.lineLang ≤ g.lang := by
  refine mulNarrow ?_ (mulNarrow (partsNarrow g.parts) ?_)
  · split
    · rintro s ⟨u,_,rfl⟩
      exact ⟨u,rfl⟩
    · exact le_rfl
  · split
    · rintro s ⟨u,_,rfl⟩
      exact ⟨u,rfl⟩
    · exact le_rfl

/- Of a glob without a negated class, without * and ? in a class, whose classes mean the same with the - left alone only
   where {in_bracket} is not 0, and with nothing that is quoted behind the first alternative of a list. -/
theorem globMeans (wide : Char → Bool) (g : Glob) (ok : g.Ok) (read : g.Read wide) :
    (glob2re wide g.text = none ↔ g.Plain) ∧
      ∀ text,glob2re wide g.text = some text → ∃ re,Regex.read text = some re ∧
        ∀ s,(s ∈ re.lang ↔ s ∈ g.lang) ↔ (s ∈ g.lang → s ∈ g.lineLang) := by
  refine ⟨globUndef ok read,fun text returned => ?_⟩
  have same : text = globRe wide g := by
    rw [globReturns ok read] at returned
    split at returned
    · exact (Option.some.inj returned).symm
    · cases returned
  obtain ⟨re,reads,lang⟩ := (globEnds ok read).read
  refine ⟨re,same ▸ reads,fun s => ?_⟩
  have narrow : s ∈ re.lang → s ∈ g.lang := fun mem => globNarrow g (lang ▸ mem)
  rw [← lang]
  exact ⟨fun both mem => both.mpr mem,fun wide => ⟨narrow,wide⟩⟩

def deepGlob : Glob :=
  ⟨true,[.list [.lit 'a',.lit '.'] [[.lit 'b']],.deep,.item (.cls none false ['c','-','e'])],true⟩

theorem globMeansDeep : (glob2re (fun _ => false) deepGlob.text = none ↔ deepGlob.Plain) ∧
    ∀ text,glob2re (fun _ => false) deepGlob.text = some text → ∃ re,Regex.read text = some re ∧
      ∀ s,(s ∈ re.lang ↔ s ∈ deepGlob.lang) ↔ (s ∈ deepGlob.lang → s ∈ deepGlob.lineLang) := by
  have lits {c : Char} (ok : c ∉ syntaxChars) (comma : ',' ≠ c) : (Item.lit c).Ok ∧ ',' ∉ (Item.lit c).text :=
    ⟨ok,by simpa [Item.text] using comma⟩
  refine globMeans _ _ ⟨?_,?_,fun none => absurd none (by decide),rfl⟩ ?_
  · refine List.forall_mem_cons.mpr ⟨⟨List.cons_ne_nil _ _,?_,?_⟩,List.forall_mem_cons.mpr ⟨trivial,List.forall_mem_cons.mpr ⟨?_,by simp⟩⟩⟩
    · exact List.forall_mem_cons.mpr ⟨lits (by decide) (by decide),
        List.forall_mem_cons.mpr ⟨lits (by decide) (by decide),by simp⟩⟩
    · exact List.forall_mem_cons.mpr ⟨List.forall_mem_cons.mpr ⟨lits (by decide) (by decide),by simp⟩,by simp⟩
    · exact ⟨(by simp),by simp,(by simp),fun _ _ => ⟨by decide,by decide⟩,rfl⟩
  · exact ⟨⟨(by simp),(by simp),trivial⟩,List.forall_mem_cons.mpr ⟨⟨by simp,trivial⟩,by simp⟩,(by simp),trivial⟩
  · exact ⟨⟨⟨trivial,trivial,trivial⟩,⟨trivial,trivial⟩,⟨.inr (.inr rfl),trivial⟩,trivial⟩,trivial,
      ⟨rfl,by simp,_,rfl,fun _ => rfl⟩,trivial⟩

def negated : Glob := ⟨false,[.item (.cls (some '!') false ['a'])],false⟩

def dotted : Glob := ⟨false,[.list [.lit 'a'] [[.lit 'b',.lit '.',.lit 'c']]],false⟩

/- a is what [!a] is not, and {a,b.c} is a list. -/
theorem globNegated : negated.Ok ∧ (∃ re,(glob2re (fun _ => false) negated.text).bind Regex.read = some re ∧
    ['a'] ∈ re.lang ∧ ['a'] ∉ negated.lang) ∧ dotted.Ok ∧ glob2re (fun _ => false) dotted.text = none ∧ ¬dotted.Plain := by
  have lits {c : Char} (ok : c ∉ syntaxChars) (comma : ',' ≠ c) : (Item.lit c).Ok ∧ ',' ∉ (Item.lit c).text :=
    ⟨ok,by simpa [Item.text] using comma⟩
  refine ⟨⟨?_,⟨by simp,trivial⟩,fun _ => by decide,rfl⟩,⟨Regex.seqOf [.set false [('!','!'),('a','a')]],?_,?_,?_⟩,
    ⟨?_,?_,fun _ => by decide,rfl⟩,?_,fun plain => absurd (plain.2.2 _ List.mem_cons_self) Bool.false_ne_true⟩
  · refine List.forall_mem_cons.mpr ⟨⟨?_,by simp,(by simp),(by simp),rfl⟩,by simp⟩
    rintro n ⟨⟩
    exact .inl rfl
  · have smooth := ((@smoothPlain '[' (by decide)).append ((@smoothEscape '!' (by decide) (by decide)).append
      ((@smoothPlain 'a' (by decide)).append (@smoothPlain ']' (by decide)))))
    have same : braces (quoting (fun _ => false) negated.text).re = (['[','\\','!','a',']'],0) := smooth.whole
    have cut : cutUrl negated.text = ([],negated.text) := rfl
    unfold glob2re
    simp only [cut,same]
    rfl
  · rw [Regex.seqLang,List.map_singleton,List.prod_singleton]
    exact ⟨'a',rfl,rfl⟩
  · intro mem
    have only : negated.lang = Regex.one fun c => inClass false ['a'] c != true := by
      show 1 * (([Item.cls (some '!') false ['a']].map Item.lang).prod * 1) = _
      rw [one_mul,mul_one,List.map_singleton,List.prod_singleton]
      rfl
    rw [only] at mem
    obtain ⟨c,same,outside⟩ := mem
    cases same
    exact absurd outside (by decide)
  · refine List.forall_mem_cons.mpr ⟨⟨List.cons_ne_nil _ _,?_,?_⟩,by simp⟩
    · exact List.forall_mem_cons.mpr ⟨lits (by decide) (by decide),by simp⟩
    · exact List.forall_mem_cons.mpr ⟨List.forall_mem_cons.mpr ⟨lits (by decide) (by decide),
        List.forall_mem_cons.mpr ⟨lits (by decide) (by decide),List.forall_mem_cons.mpr ⟨lits (by decide) (by decide),by simp⟩⟩⟩,
        (by simp)⟩
  · exact ⟨⟨by simp,trivial⟩,List.forall_mem_cons.mpr ⟨⟨(by simp),(by simp),(by simp),trivial⟩,by simp⟩,trivial⟩
  · have smooth := (@smoothPlain '\x7b' (by decide)).append ((@smoothPlain 'a' (by decide)).append
      ((@smoothPlain ',' (by decide)).append ((@smoothPlain 'b' (by decide)).append
      ((@smoothEscape '.' (by decide) (by decide)).append ((@smoothPlain 'c' (by decide)).append
      (@smoothEscape '\x7d' (by decide) (by decide)))))))
    have none : braceAt ['\\','\x7b','a',',','b','\\','.','c','\\','\x7d'] = .none := by decide
    have same : braces (quoting (fun _ => false) dotted.text).re =
        (['\\','\x7b','a',',','b','\\','.','c','\\','\x7d'],0) := by
      have rest : braces ['\x7b','a',',','b','\\','.','c','\\','\x7d'] = _ := smooth.whole
      have opens := bracesNone none
      rw [rest] at opens
      exact opens
    have cut : cutUrl dotted.text = ([],dotted.text) := rfl
    unfold glob2re
    simp only [cut,same]
    decide

end PublicInbox.Config
