import Mathlib.Algebra.Group.Nat.Defs
import Mathlib.Data.Bool.AllAny
import PublicInbox.Eml.Header

/-! LeiDedupe.pm: _regen_oid takes some headers away for the time of a digest. -/
namespace PublicInbox.LeiDedupe
open Mime Mime.Eml Lines

def oidIgnore : List Text :=
  [['S','t','a','t','u','s'],['X','-','S','t','a','t','u','s'],
    ['C','o','n','t','e','n','t','-','L','e','n','g','t','h'],['L','i','n','e','s'],['B','y','t','e','s']]

structure Ref where
  addr : UInt64
  vals : List Text

def hexDigit (n : Nat) : Char := if n < 10 then Char.ofNat (48 + n) else Char.ofNat (87 + n)

def hex (addr : UInt64) : Text :=
  ((List.range 16).reverse.map fun i => hexDigit (addr.toNat / 16 ^ i % 16)).dropWhile (· = '0')

def refText (addr : UInt64) : Text := ['A','R','R','A','Y','(','0','x'] ++ hex addr ++ [')']

section
variable {δ : Type} (decode : Text → Text) (space : Char → Bool) (wrap : Nat → Text → Text) (gitSha : Text → δ)
variable (alloc : Text → UInt64)

def stash (st : Eml × List (Text × Ref)) (k : Text) : Eml × List (Text × Ref) :=
  let v := headerRaw decode space k st.1
  if v = [] then st else (headerSet wrap k [] st.1,st.2 ++ [(k,⟨alloc k,v⟩)])

def restore (eml : Eml) (kv : Text × Ref) : Eml := headerSet wrap kv.1 [refText kv.2.addr] eml

def regenOid (eml : Eml) : Eml × δ :=
  let st := oidIgnore.foldl (stash decode space wrap alloc) (eml,[])
  (st.2.foldl (restore wrap) st.1,gitSha (asString st.1))

end

def placeholder (crlf : Text) (k : Text) (addr : UInt64) : Text := k ++ ':' :: ([' '] ++ refText addr ++ crlf)

theorem nameColon : ∀ k ∈ oidIgnore,':' ∉ k ∧ ':' ∉ lower k := by decide

theorem namePlain : ∀ k ∈ oidIgnore,k.any blank = false ∧ k.all (fun c => c ≠ '\n') = true ∧ k.length ≤ 14 := by decide

theorem namesApart : ∀ k ∈ oidIgnore,∀ k' ∈ oidIgnore,lower k = lower k' → k = k' := by decide

theorem hexDigitPlain {n : Nat} (small : n < 16) : (hexDigit n).toNat < 128 ∧ hexDigit n ≠ '\n' := by
  revert small
  revert n
  decide

theorem hexPlain (addr : UInt64) : ∀ c ∈ hex addr,c.toNat < 128 ∧ c ≠ '\n' := by
  intro c mem
  obtain ⟨i,_,rfl⟩ := List.mem_map.mp ((List.dropWhile_sublist _).mem mem)
  exact hexDigitPlain (Nat.mod_lt _ (by decide))

theorem hexShort (addr : UInt64) : (hex addr).length ≤ 16 := by
  refine (List.dropWhile_sublist _).length_le.trans ?_
  rw [List.length_map,List.length_reverse,List.length_range]

theorem refPlain (addr : UInt64) : ∀ c ∈ refText addr,c.toNat < 128 ∧ c ≠ '\n' := by
  simp only [refText,List.forall_mem_append]
  exact ⟨⟨List.all_iff_forall_prop.mp (by decide),hexPlain addr⟩,List.all_iff_forall_prop.mp (by decide)⟩

theorem refShort (addr : UInt64) : (refText addr).length ≤ 25 := by
  have short := hexShort addr
  simp only [refText,List.length_append,List.length_cons,List.length_nil]
  omega

theorem encodeNarrow {c : Char} (narrow : c.toNat < 128) : (String.utf8EncodeChar c).map (fun b => Char.ofNat b.toNat) = [c] := by
  have all : ∀ n < 128,(String.utf8EncodeChar (Char.ofNat n)).map (fun b => Char.ofNat b.toNat) = [Char.ofNat n] := by decide
  have own := all c.toNat narrow
  rwa [Char.ofNat_toNat] at own

theorem encodePlain {t : Text} (plain : ∀ c ∈ t,c.toNat < 128) : encode t = t := by
  induction t with
  | nil => rfl
  | cons c t ih =>
    rw [encode,List.flatMap_cons,encodeNarrow (plain c List.mem_cons_self)]
    exact congrArg (c :: ·) (ih fun d mem => plain d (List.mem_cons_of_mem _ mem))

section
variable {wrap : Nat → Text → Text} {crlf : Text} {k : Text}

theorem renderedRef (known : k ∈ oidIgnore) (addr : UInt64) :
    rendered wrap (k ++ [':',' ']) crlf (refText addr) = placeholder crlf k addr := by
  have short := refShort addr
  have name := (namePlain k known).2.2
  have fits : ¬ 78 - (k ++ [':',' ']).length ≤ (refText addr).length := by
    rw [List.length_append,List.length_cons,List.length_singleton]
    omega
  simp only [rendered,decide_eq_false fits,Bool.false_and,Bool.false_eq_true,if_false,
    encodePlain fun c mem => (refPlain addr c mem).1,placeholder,List.append_assoc,List.cons_append,List.nil_append]

variable (eol' : crlf = ['\n'] ∨ crlf = ['\r','\n'])
include eol'

theorem placeholderComplete (known : k ∈ oidIgnore) (addr : UInt64) : Complete (placeholder crlf k addr) := by
  have name : '\n' ∉ k := fun mem => absurd (List.all_eq_true.mp (namePlain k known).2.1 _ mem) (by decide)
  have ref : '\n' ∉ refText addr := fun mem => (refPlain addr _ mem).2 rfl
  rcases eol' with rfl | rfl
  · exact ⟨k ++ ':' :: ([' '] ++ refText addr),by simp [placeholder],by simp [name,ref]⟩
  · exact ⟨k ++ ':' :: ([' '] ++ refText addr ++ ['\r']),by simp [placeholder],by simp [name,ref]⟩

theorem beginsPlaceholder (known : k ∈ oidIgnore) {k' : Text} (known' : k' ∈ oidIgnore) (addr : UInt64) :
    begins k (placeholder crlf k' addr) = true ↔ k = k' := by
  obtain ⟨w,text,_⟩ := placeholderComplete eol' known' addr
  have ends : (placeholder crlf k' addr).getLast? = some '\n' := by rw [text,List.getLast?_concat]
  rw [placeholder] at ends ⊢
  rw [beginsField (nameColon k known).2 (nameColon k' known').2,and_iff_left ends]
  exact ⟨namesApart k known k' known',congrArg lower⟩

theorem absentPlaceholder (known : k ∈ oidIgnore) {k' : Text} (known' : k' ∈ oidIgnore) (apart : k ≠ k') (addr : UInt64) :
    begins k (placeholder crlf k' addr) = false :=
  Bool.not_eq_true _ ▸ mt (beginsPlaceholder eol' known known' addr).mp apart

end

theorem placeholderEnds {crlf k : Text} (known : k ∈ oidIgnore) (addr : UInt64) : continues (placeholder crlf k addr) = false :=
  fieldEnds (namePlain k known).1 (nameColon k known).1

section
variable (alloc : Text → UInt64)

def placeholders (crlf : Text) (ks : List Text) : Text := (ks.map fun k => placeholder crlf k (alloc k)).flatten

def Unaffected (eml : Eml) : Prop :=
  ∃ rest ks,ks.Sublist oidIgnore ∧ Whole rest ∧ (∀ k ∈ oidIgnore,Absent k rest) ∧
    eml.hdr = rest ++ placeholders alloc eml.crlf ks

variable {alloc} {decode : Text → Text} {space : Char → Bool} {wrap : Nat → Text → Text}

theorem placeholderLines {crlf : Text} (eol' : crlf = ['\n'] ∨ crlf = ['\r','\n']) {ks : List Text} (known : ∀ k ∈ ks,k ∈ oidIgnore)
    {rest : Text} (whole : Whole rest) :
    lines (rest ++ placeholders alloc crlf ks) = lines rest ++ ks.map fun k => placeholder crlf k (alloc k) := by
  rw [wholeAppend whole,placeholders,linesOf]
  intro l mem
  obtain ⟨k,inside,rfl⟩ := List.mem_map.mp mem
  exact placeholderComplete eol' (known k inside) _

structure Stashed (alloc : Text → UInt64) (ks : List Text) (eml eml' : Eml) (kvs : List (Text × Ref)) : Prop where
  whole : Whole eml'.hdr
  lines : ∀ l ∈ lines eml'.hdr,l ∈ lines eml.hdr
  absent : ∀ k ∈ ks,Absent k eml'.hdr
  crlf : eml'.crlf = eml.crlf
  bdy : eml'.bdy = eml.bdy
  keys : (kvs.map Prod.fst).Sublist ks
  addr : ∀ kv ∈ kvs,kv.2.addr = alloc kv.1

theorem stashes (ks : List Text) {eml : Eml} (whole : Whole eml.hdr) (before : List (Text × Ref)) :
    ∃ eml' kvs,ks.foldl (stash decode space wrap alloc) (eml,before) = (eml',before ++ kvs) ∧ Stashed alloc ks eml eml' kvs := by
  induction ks generalizing eml before with
  | nil =>
    exact ⟨eml,[],by rw [List.foldl_nil,List.append_nil],whole,fun _ mem => mem,fun _ none => absurd none List.not_mem_nil,rfl,rfl,
      .slnil,fun _ none => absurd none List.not_mem_nil⟩
  | cons k ks ih =>
    by_cases none : headerRaw decode space k eml = []
    · have idle : stash decode space wrap alloc (eml,before) k = (eml,before) := if_pos none
      obtain ⟨eml',kvs,run,after⟩ := ih whole before
      have absent : Absent k eml'.hdr := fun l mem => headerRawNone.mp none l (after.lines l mem)
      exact ⟨eml',kvs,by rw [List.foldl_cons,idle,run],
        { after with absent := List.forall_mem_cons.mpr ⟨absent,after.absent⟩,keys := after.keys.cons k }⟩
    · have taken : stash decode space wrap alloc (eml,before) k = ({ eml with hdr := (kept k false (lines eml.hdr)).flatten },
          before ++ [(k,⟨alloc k,headerRaw decode space k eml⟩)]) := by
        rw [← headerSetNone]
        exact if_neg none
      have complete : ∀ l ∈ kept k false (lines eml.hdr),Complete l := fun l mem => whole l ((keptSublist k false _).mem mem)
      have own := linesOf complete
      obtain ⟨eml',kvs,run,after⟩ := @ih { eml with hdr := (kept k false (lines eml.hdr)).flatten } (wholeFlatten complete)
        (before ++ [(k,⟨alloc k,headerRaw decode space k eml⟩)])
      have kept' : ∀ l ∈ lines eml'.hdr,l ∈ kept k false (lines eml.hdr) := fun l mem => own ▸ after.lines l mem
      refine ⟨eml',(k,⟨alloc k,headerRaw decode space k eml⟩) :: kvs,?_,after.whole,?_,?_,after.crlf,after.bdy,after.keys.cons_cons k,
        List.forall_mem_cons.mpr ⟨rfl,after.addr⟩⟩
      · rw [List.foldl_cons,taken,run,List.append_assoc,List.singleton_append]
      · exact fun l mem => (keptSublist k false _).mem (kept' l mem)
      · exact List.forall_mem_cons.mpr ⟨fun l mem => keptAbsent k false _ l (kept' l mem),after.absent⟩

theorem restores {kvs : List (Text × Ref)} {eml : Eml} (whole : Whole eml.hdr) (eol' : eml.crlf = ['\n'] ∨ eml.crlf = ['\r','\n'])
    (known : ∀ kv ∈ kvs,kv.1 ∈ oidIgnore) (apart : (kvs.map Prod.fst).Nodup) (absent : ∀ kv ∈ kvs,Absent kv.1 eml.hdr)
    (addr : ∀ kv ∈ kvs,kv.2.addr = alloc kv.1) :
    kvs.foldl (restore wrap) eml = { eml with hdr := eml.hdr ++ placeholders alloc eml.crlf (kvs.map Prod.fst) } := by
  induction kvs generalizing eml with
  | nil => rw [List.foldl_nil,List.map_nil,placeholders,List.map_nil,List.flatten_nil,List.append_nil]
  | cons kv kvs ih =>
    obtain ⟨own,rest⟩ := List.forall_mem_cons.mp known
    obtain ⟨first,others⟩ := List.forall_mem_cons.mp absent
    obtain ⟨fresh,apart'⟩ := List.nodup_cons.mp apart
    have complete := placeholderComplete eol' own (alloc kv.1)
    have one : restore wrap eml kv = { eml with hdr := eml.hdr ++ placeholder eml.crlf kv.1 (alloc kv.1) } := by
      rw [restore,headerSetAbsent first,renderedRef own,addr kv List.mem_cons_self]
    have lines' : lines (eml.hdr ++ placeholder eml.crlf kv.1 (alloc kv.1)) =
        lines eml.hdr ++ [placeholder eml.crlf kv.1 (alloc kv.1)] := by
      have own := linesComplete complete []
      rw [List.append_nil] at own
      rw [wholeAppend whole,own]
      rfl
    rw [List.foldl_cons,one,@ih { eml with hdr := eml.hdr ++ placeholder eml.crlf kv.1 (alloc kv.1) } ?_ eol' rest apart' ?_
      fun kv mem => addr kv (List.mem_cons_of_mem _ mem)]
    · simp only [placeholders,List.map_cons,List.flatten_cons,List.append_assoc]
    · intro l mem
      rw [lines'] at mem
      rcases List.mem_append.mp mem with old | new
      · exact whole l old
      · exact List.mem_singleton.mp new ▸ complete
    · intro kv' mem l inside
      rw [lines'] at inside
      rcases List.mem_append.mp inside with old | new
      · exact others kv' mem l old
      · have other : kv'.1 ≠ kv.1 := fun same => fresh (same ▸ List.mem_map_of_mem mem)
        exact List.mem_singleton.mp new ▸ absentPlaceholder eol' (rest kv' mem) own other _

theorem stashPlaced {rest : Text} {ks' ks : List Text} (some : ks'.Sublist ks) {eml : Eml}
    (eol' : eml.crlf = ['\n'] ∨ eml.crlf = ['\r','\n']) (known : ∀ k ∈ ks,k ∈ oidIgnore) (apart : ks.Nodup) (whole : Whole rest)
    (absent : ∀ k ∈ ks,Absent k rest) (before : List (Text × Ref)) :
    ∃ kvs,ks.foldl (stash decode space wrap alloc) ({ eml with hdr := rest ++ placeholders alloc eml.crlf ks' },before) =
      ({ eml with hdr := rest },before ++ kvs) ∧ kvs.map Prod.fst = ks' ∧ ∀ kv ∈ kvs,kv.2.addr = alloc kv.1 := by
  induction some generalizing before with
  | slnil => exact ⟨[],by simp [placeholders],rfl,fun _ none => absurd none List.not_mem_nil⟩
  | @cons ks' ks k some ih =>
    obtain ⟨own,known'⟩ := List.forall_mem_cons.mp known
    obtain ⟨first,absent'⟩ := List.forall_mem_cons.mp absent
    obtain ⟨fresh,apart'⟩ := List.nodup_cons.mp apart
    have none : Absent k (rest ++ placeholders alloc eml.crlf ks') := by
      intro l mem
      rw [placeholderLines eol' (fun k mem => known' k (some.mem mem)) whole] at mem
      rcases List.mem_append.mp mem with old | new
      · exact first l old
      · obtain ⟨k',inside,rfl⟩ := List.mem_map.mp new
        exact absentPlaceholder eol' own (known' k' (some.mem inside)) (fun same => fresh (same ▸ some.mem inside)) _
    have idle : stash decode space wrap alloc ({ eml with hdr := rest ++ placeholders alloc eml.crlf ks' },before) k =
        ({ eml with hdr := rest ++ placeholders alloc eml.crlf ks' },before) := if_pos (headerRawNone.mpr none)
    rw [List.foldl_cons,idle]
    exact ih known' apart' absent' before
  | @cons_cons ks' ks k some ih =>
    obtain ⟨own,known'⟩ := List.forall_mem_cons.mp known
    obtain ⟨first,absent'⟩ := List.forall_mem_cons.mp absent
    obtain ⟨fresh,apart'⟩ := List.nodup_cons.mp apart
    have known'' : ∀ k' ∈ k :: ks',k' ∈ oidIgnore :=
      List.forall_mem_cons.mpr ⟨own,fun k' mem => known' k' (some.mem mem)⟩
    have own' : lines (rest ++ placeholders alloc eml.crlf (k :: ks')) = lines rest ++ (k :: ks').map fun k => placeholder eml.crlf k (alloc k) :=
      placeholderLines eol' known'' whole
    have there : headerRaw decode space k { eml with hdr := rest ++ placeholders alloc eml.crlf (k :: ks') } ≠ [] := by
      intro none
      have absent := headerRawNone.mp none (placeholder eml.crlf k (alloc k))
        (own' ▸ List.mem_append_right _ List.mem_cons_self)
      rw [(beginsPlaceholder eol' own own _).mpr rfl] at absent
      cases absent
    have left : kept k false (lines (rest ++ placeholders alloc eml.crlf (k :: ks'))) =
        lines rest ++ ks'.map fun k => placeholder eml.crlf k (alloc k) := by
      have plain : ∀ l ∈ ks'.map fun k => placeholder eml.crlf k (alloc k),begins k l = false ∧ continues l = false := by
        intro l mem
        obtain ⟨k',inside,rfl⟩ := List.mem_map.mp mem
        have is := known' k' (some.mem inside)
        exact ⟨absentPlaceholder eol' own is (fun same => fresh (same ▸ some.mem inside)) _,placeholderEnds is _⟩
      rw [own',keptAppend first,List.map_cons,kept,Bool.false_and,if_neg Bool.false_ne_true,
        if_pos ((beginsPlaceholder eol' own own _).mpr rfl),keptPlain plain]
    have taken : stash decode space wrap alloc ({ eml with hdr := rest ++ placeholders alloc eml.crlf (k :: ks') },before) k =
        ({ eml with hdr := rest ++ placeholders alloc eml.crlf ks' },before ++ [(k,⟨alloc k,headerRaw decode space k
          { eml with hdr := rest ++ placeholders alloc eml.crlf (k :: ks') }⟩)]) := by
      have gone := @headerSetNone wrap k { eml with hdr := rest ++ placeholders alloc eml.crlf (k :: ks') }
      rw [left,List.flatten_append,linesFlatten] at gone
      rw [stash,if_neg there,gone]
      rfl
    obtain ⟨kvs,run,keys,addr⟩ := ih known' apart' absent' (before ++ [(k,⟨alloc k,headerRaw decode space k
      { eml with hdr := rest ++ placeholders alloc eml.crlf (k :: ks') }⟩)])
    exact ⟨(k,⟨alloc k,_⟩) :: kvs,by rw [List.foldl_cons,taken,run,List.append_assoc,List.singleton_append],congrArg (k :: ·) keys,
      List.forall_mem_cons.mpr ⟨rfl,addr⟩⟩

variable {δ : Type} {gitSha : Text → δ}

theorem ignoredApart : oidIgnore.Nodup := by decide

theorem dedupeUnchanged (s : Text) :
    ((regenOid decode space wrap gitSha alloc (new s)).1.hdr = (new s).hdr ∧
      (regenOid decode space wrap gitSha alloc (new s)).1.bdy = (new s).bdy) ↔ Unaffected alloc (new s) := by
  obtain ⟨whole,eol'⟩ := newWhole s
  constructor
  · rintro ⟨same,_⟩
    obtain ⟨eml',kvs,run,after⟩ := @stashes alloc decode space wrap oidIgnore _ whole []
    have known : ∀ kv ∈ kvs,kv.1 ∈ oidIgnore := fun kv mem => after.keys.mem (List.mem_map_of_mem mem)
    rw [regenOid,run,List.nil_append,restores after.whole (after.crlf ▸ eol') known (ignoredApart.sublist after.keys)
      (fun kv mem => after.absent kv.1 (known kv mem)) after.addr,after.crlf] at same
    exact ⟨eml'.hdr,kvs.map Prod.fst,after.keys,after.whole,after.absent,same.symm⟩
  · rintro ⟨rest,ks,some,whole',absent,parts⟩
    obtain ⟨kvs,run,keys,addr⟩ := @stashPlaced alloc decode space wrap rest ks oidIgnore some (new s) eol' (fun _ mem => mem)
      ignoredApart whole' absent []
    have known : ∀ kv ∈ kvs,kv.1 ∈ oidIgnore := fun kv mem => some.mem (keys ▸ List.mem_map_of_mem mem)
    rw [← parts,List.nil_append] at run
    rw [regenOid,run,@restores alloc wrap kvs { new s with hdr := rest } whole' eol' known (keys ▸ ignoredApart.sublist some)
      (fun kv mem => absent kv.1 (known kv mem)) addr,keys]
    exact ⟨parts.symm,rfl⟩

def statusMail : Text := ['S','t','a','t','u','s',':',' ','R','O','\n','\n','h','i','\n']

theorem statusReplaced : (regenOid id Char.isWhitespace (fun _ v => v) id (fun _ => 0xf00) (new statusMail)).1.hdr ≠ (new statusMail).hdr := by
  decide

end

end PublicInbox.LeiDedupe
