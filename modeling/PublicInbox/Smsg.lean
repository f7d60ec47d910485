import PublicInbox.Mid
import PublicInbox.Library.Decimal

/-! Smsg.pm: the summary of a message, and the one text of lines that over.sqlite3 keeps of it. -/
namespace PublicInbox

namespace Smsg
abbrev Text := List Char

/- The header of a message; From, To, Cc and Subject are what `header` decoded, any text at all. -/
structure Hdr extends Header where
  «from» : List Text
  «to» : List Text
  cc : List Text
  subject : List Text

end Smsg

open Smsg in
structure Smsg where
  subject : Option Text
  «from» : Option Text
  references : Option Text
  «to» : Option Text
  cc : Option Text
  blob : Option Text
  mid : Option Text
  bytes : Option Text
  lines : Option Text
  -- {From} and {Subject}, for git-fast-import
  importFrom : Option Text
  importSubject : Option Text
  deriving DecidableEq

namespace Smsg

def translate (val : Text) : Text := (val.filter (· ≠ '\r')).map fun c => if c ∈ ['\x00','\t','\n'] then ' ' else c

def joined (all : List Text) : Text := translate ([',',' '].intercalate all)

def capitalized (all : List Text) (before : Option Text) : Option Text :=
  let val := match all with
    | first :: _ :: _ => translate first
    | _ => joined all
  if val ≠ [] then some val else before

def midText (m : Mid) : Text := m.val.toList

def populate (smsg : Smsg) (hdr : Hdr) : Smsg :=
  { smsg with
    «from» := some (joined hdr.from)
    «to» := some (joined hdr.to)
    cc := some (joined hdr.cc)
    subject := some (joined hdr.subject)
    importFrom := capitalized hdr.from smsg.importFrom
    importSubject := capitalized hdr.subject smsg.importSubject
    mid := smsg.mid.or ((mids hdr.toHeader).head?.map midText) }

def candidates (hdr : Header) (mids : List Mid) : List Mid :=
  if 1 < mids.length then PublicInbox.references hdr ++ mids else PublicInbox.references hdr

def parseReferences (smsg : Smsg) (hdr : Header) (mids : List Mid) : Smsg × List Text :=
  let refs := candidates hdr mids
  let keep := uniq [smsg.mid.getD []] ((refs.filter fun ref => ¬ maxMidSize < ref.val.length).map midText)
  if keep = [] then (smsg,[])
  else ({ smsg with references := some (['<'] ++ ['>',' ','<'].intercalate keep ++ ['>']) },keep)

inductive DocField where
  | subject
  | «from»
  | references
  | «to»
  | cc
  | blob
  | mid
  | bytes
  | lines
  deriving DecidableEq

def docFields : List DocField := [.subject,.from,.references,.to,.cc,.blob,.mid,.bytes,.lines]

def get (smsg : Smsg) : DocField → Option Text
  | .subject => smsg.subject
  | .from => smsg.from
  | .references => smsg.references
  | .to => smsg.to
  | .cc => smsg.cc
  | .blob => smsg.blob
  | .mid => smsg.mid
  | .bytes => smsg.bytes
  | .lines => smsg.lines

def toDocData (smsg : Smsg) : Text := ['\n'].intercalate (docFields.map fun f => (smsg.get f).getD [])

def encoded (smsg : Smsg) : ByteArray := (String.ofList (toDocData smsg)).toByteArray

def utf8Decode (data : ByteArray) : Text :=
  match data.utf8Decode? with
  | some t => t.toList
  | none => data.toList.map fun b => Char.ofNat b.toNat

-- split(/\n/) into nine scalars: at most ten pieces, and then empty ones at the end stay
def split (data : Text) : List Text :=
  let vals := data.splitOn '\n'
  if data = [] then []
  else if vals.length ≤ 10 then vals
  else vals.take 9 ++ [['\n'].intercalate (vals.drop 9)]

def loadFromData (smsg : Smsg) (data : ByteArray) : Smsg :=
  let vals := split (utf8Decode data)
  { smsg with
    subject := vals[0]?
    «from» := vals[1]?
    references := vals[2]?
    «to» := vals[3]?
    cc := vals[4]?
    blob := vals[5]?
    mid := vals[6]?
    bytes := vals[7]?
    lines := vals[8]? }

/- What is set on a summary before populate: the object id in hexadecimal, the sizes, and perhaps a Message-ID that has
left uniq_mids. -/
structure Preset where
  blob : Option Text
  hex : ∀ oid ∈ blob,oid.all Char.isAlphanum = true
  mid : Option String
  bytes : Option Nat
  lines : Option Nat

def Preset.smsg (p : Preset) : Smsg :=
  { subject := none
    «from» := none
    references := none
    «to» := none
    cc := none
    blob := p.blob
    mid := p.mid.map fun s => midText (cleanMid s)
    bytes := p.bytes.map Decimal.render
    lines := p.lines.map Decimal.render
    importFrom := none
    importSubject := none }

def built (p : Preset) (hdr : Hdr) (ids : List String) : Smsg :=
  (parseReferences (populate p.smsg hdr) hdr.toHeader (uniqMids ids [])).1

theorem memIntercalated {c : Char} {sep : Text} {ls : List Text} (mem : c ∈ sep.intercalate ls) : c ∈ sep ∨ ∃ l ∈ ls,c ∈ l := by
  induction ls with
  | nil => simp at mem
  | cons l ls ih => cases ls with
    | nil => exact .inr ⟨l,List.mem_cons_self,by simpa using mem⟩
    | cons k ls =>
      rw [List.intercalate_cons_cons,List.mem_append,List.mem_append] at mem
      rcases mem with (here | between) | back
      · exact .inr ⟨l,List.mem_cons_self,here⟩
      · exact .inl between
      · exact (ih back).imp_right fun ⟨m,inside,here⟩ => ⟨m,List.mem_cons_of_mem _ inside,here⟩

theorem translateLine (val : Text) : '\n' ∉ translate val := by
  intro mem
  obtain ⟨c,_,same⟩ := List.mem_map.mp mem
  split at same
  · cases same
  · rename_i other
    exact other (same ▸ List.mem_cons_of_mem _ (List.mem_cons_of_mem _ List.mem_cons_self))

theorem cleanLine (s : String) : '\n' ∉ midText (cleanMid s) := by
  intro mem
  have inside := List.mem_of_mem_take (by simpa [cleanMid,midText] using mem)
  simp at inside

theorem uniqLine {ids : List String} {seen : List Mid} {m : Mid} (mem : m ∈ uniqMids ids seen) : '\n' ∉ midText m := by
  obtain ⟨s,_,rfl⟩ := List.mem_map.mp (memUniq.mp mem).1
  exact cleanLine s

theorem referencesLine {hdr : Header} {m : Mid} (mem : m ∈ PublicInbox.references hdr) : '\n' ∉ midText m :=
  uniqLine (List.mem_reverse.mp mem)

theorem renderLine (n : Nat) : '\n' ∉ Decimal.render n := fun mem => absurd (Decimal.renderDigits n _ mem) (by decide)

def Clean (smsg : Smsg) : Prop := ∀ f,∀ val ∈ smsg.get f,'\n' ∉ val

theorem presetClean (p : Preset) : Clean p.smsg := by
  intro f val is
  cases f with
  | subject | «from» | references | «to» | cc => cases is
  | blob => exact fun mem => absurd (List.all_eq_true.mp (p.hex val is) _ mem) (by decide)
  | mid =>
    obtain ⟨s,_,rfl⟩ := Option.map_eq_some_iff.mp is
    exact cleanLine s
  | bytes =>
    obtain ⟨n,_,rfl⟩ := Option.map_eq_some_iff.mp is
    exact renderLine n
  | lines =>
    obtain ⟨n,_,rfl⟩ := Option.map_eq_some_iff.mp is
    exact renderLine n

theorem populateClean {smsg : Smsg} (clean : Clean smsg) (hdr : Hdr) : Clean (populate smsg hdr) := by
  intro f val is
  cases f with
  | subject | «from» | «to» | cc =>
    cases is
    exact translateLine _
  | references => exact clean .references val is
  | blob => exact clean .blob val is
  | bytes => exact clean .bytes val is
  | lines => exact clean .lines val is
  | mid =>
    rcases Option.or_eq_some_iff.mp is with own | ⟨_,found⟩
    · exact clean .mid val own
    · obtain ⟨m,first,rfl⟩ := Option.map_eq_some_iff.mp found
      exact uniqLine (List.mem_of_mem_head? first)

theorem candidatesLine {hdr : Header} {mids : List Mid} (each : ∀ m ∈ mids,'\n' ∉ midText m) : ∀ m ∈ candidates hdr mids,'\n' ∉ midText m := by
  intro m mem
  unfold candidates at mem
  split at mem
  · exact (List.mem_append.mp mem).elim referencesLine (each m)
  · exact referencesLine mem

theorem parseClean {smsg : Smsg} (clean : Clean smsg) (hdr : Header) {mids : List Mid} (each : ∀ m ∈ mids,'\n' ∉ midText m) :
    Clean (parseReferences smsg hdr mids).1 := by
  unfold parseReferences
  extract_lets refs keep
  split
  · exact clean
  intro f val is
  cases f with
  | subject => exact clean .subject val is
  | «from» => exact clean .from val is
  | «to» => exact clean .to val is
  | cc => exact clean .cc val is
  | blob => exact clean .blob val is
  | mid => exact clean .mid val is
  | bytes => exact clean .bytes val is
  | lines => exact clean .lines val is
  | references =>
    cases is
    intro mem
    rcases memIntercalated (by simpa using mem) with between | ⟨l,kept,here⟩
    · exact absurd between (by decide)
    · obtain ⟨m,found,rfl⟩ := List.mem_map.mp (memUniq.mp kept).1
      exact candidatesLine each m (List.mem_of_mem_filter found) here

theorem builtClean (p : Preset) (hdr : Hdr) (ids : List String) : Clean (built p hdr ids) :=
  parseClean (populateClean (presetClean p) hdr) hdr.toHeader fun _ mem => uniqLine mem

theorem splitDocData {smsg : Smsg} (clean : Clean smsg) :
    split (utf8Decode (encoded smsg)) = docFields.map fun f => (smsg.get f).getD [] := by
  have decoded : utf8Decode (encoded smsg) = toDocData smsg := by
    rw [utf8Decode,encoded,String.toByteArray_ofList,List.utf8Decode?_utf8Encode]
  have vals : (toDocData smsg).splitOn '\n' = docFields.map fun f => (smsg.get f).getD [] := by
    rw [toDocData,List.splitOn_intercalate]
    · intro l mem
      obtain ⟨f,_,rfl⟩ := List.mem_map.mp mem
      cases is : smsg.get f with
      | none => exact List.not_mem_nil
      | some val => exact clean f val is
    · exact List.cons_ne_nil _ _
  have filled : toDocData smsg ≠ [] := by
    intro empty
    rw [empty,List.splitOn_nil] at vals
    exact absurd (congrArg List.length vals) (by simp [docFields])
  rw [decoded,split,if_neg filled,vals,if_pos (by simp [docFields])]

theorem loadGet (smsg : Smsg) (data : ByteArray) (f : DocField) :
    (loadFromData smsg data).get f = (split (utf8Decode data))[docFields.idxOf f]? := by
  cases f <;> rfl

theorem fieldAt (f : DocField) (vals : DocField → Text) : (docFields.map vals)[docFields.idxOf f]? = some (vals f) := by
  cases f <;> rfl

theorem loadedDefined {smsg : Smsg} (clean : Clean smsg) (into : Smsg) (f : DocField) :
    (loadFromData into (encoded smsg)).get f = some ((smsg.get f).getD []) := by
  rw [loadGet,splitDocData clean,fieldAt]

theorem docDataRoundTrip (p : Preset) (hdr : Hdr) (ids : List String) (into : Smsg) :
    Clean (built p hdr ids) ∧
      ∀ f,(loadFromData into (encoded (built p hdr ids))).get f = some (((built p hdr ids).get f).getD []) :=
  ⟨builtClean p hdr ids,loadedDefined (builtClean p hdr ids) into⟩

def headless : Preset :=
  { blob := some "c0ffee".toList
    hex := fun _ is => by cases is; decide
    mid := none
    bytes := some 1
    lines := some 1 }

theorem referencesDefined :
    (loadFromData headless.smsg (encoded (built headless ⟨⟨[],[],[],[],[]⟩,[],[],[],[]⟩ []))).references ≠
      (built headless ⟨⟨[],[],[],[],[]⟩,[],[],[],[]⟩ []).references := by
  have loaded := loadedDefined (builtClean headless ⟨⟨[],[],[],[],[]⟩,[],[],[],[]⟩ []) headless.smsg .references
  have before : (built headless ⟨⟨[],[],[],[],[]⟩,[],[],[],[]⟩ []).references = none := by decide
  rw [before]
  exact fun same => absurd (loaded.symm.trans same) (Option.some_ne_none _)

end Smsg

end PublicInbox
