import PublicInbox.ContentHash.Reading

/-! Content hashes identify content where no value holds a separator. A part body is not
terminated, so a body that holds the opening of a part reads as two parts. -/
namespace PublicInbox.ContentHash
open Tagged

theorem tailSingle {s : Bytes} (pure : 0 ∉ s) : (words s).tail = [] := by
  rw [wordsSingle pure]
  rfl

theorem pureClosed {c : Content} (headers : ∀ h ∈ c.headers, '\x00' ∉ h.2.toList)
    (parts : ∀ p ∈ c.parts, (∀ fn ∈ p.filename, '\x00' ∉ fn.toList) ∧
      (∀ d ∈ p.descriptions, '\x00' ∉ d.toList) ∧ 0 ∉ p.content) : c.Closed := by
  have single : ∀ s : String, '\x00' ∉ s.toList → (words (encode s)).tail = [] :=
    fun s pure => tailSingle fun mem => pure (zeroMemEncode.mp mem)
  have notOpen : ¬ Opens [] := fun ⟨_,_,_,_,_,same⟩ => by cases same
  have text : ∀ s : String, '\x00' ∉ s.toList → TextClosed s :=
    fun s pure => by simp [TextClosed,single s pure]
  refine ⟨fun h mem _ => ⟨by simp [single h.2 (headers h mem)],fun X Y cut => ?_⟩,fun p mem =>
    ⟨fun fn some => text fn ((parts p mem).1 fn some),
      fun d some => text d ((parts p mem).2.1 d some),fun X Y cut => ?_⟩⟩
  · rw [single h.2 (headers h mem)] at cut
    simp at cut
  · rw [tailSingle (parts p mem).2.2] at cut
    obtain ⟨_,rfl⟩ := List.append_eq_nil_iff.mp cut.symm
    exact notOpen

theorem digestIdentifies (u : Unicode) {a b : Eml} (closedA : (normalised u a).Closed)
    (closedB : (normalised u b).Closed) :
    contentDigest u a = contentDigest u b ↔ normalised u a = normalised u b := by
  rw [digestOfContent,digestOfContent]
  constructor
  · exact bytesUnique (normalisedLegal u a) (normalisedLegal u b) closedA closedB
  · intro same
    rw [same]

theorem walkLeaves (ps : List Part) {n k : Nat} (fits : ps.length ≤ n) :
    walk n ⟨ps.map .leaf,[],k⟩ [] = ps.mapIdx (fun i p => (p,⟨1,[k + i + 1]⟩)) := by
  induction ps generalizing n k with
  | nil => cases n with
    | zero => rfl
    | succ n => rfl
  | cons p ps ih =>
    obtain ⟨n,rfl⟩ : ∃ j, n = j + 1 := ⟨n - 1,by simp only [List.length_cons] at fits; omega⟩
    have rest := ih (n := n) (k := k + 1) (by simpa using fits)
    simp only [List.map_cons,walk,Level.next,List.nil_append,List.length_singleton,rest,
      List.mapIdx_cons,Nat.add_zero]
    congr 2
    funext i q
    congr 4
    omega

theorem splitBody (u : Unicode) (eml : Eml) {l : List Part} {t p q r : Part} {c : Bool}
    (fits : l.length + 2 ≤ mimePartsLimit) (name : q.filename = p.filename)
    (about : q.contentDescription = p.contentDescription) (noName : r.filename = none)
    (plain : r.contentDescription = [])
    (whole : partContent u p = partContent u q ++ 0 :: label ⟨1,[l.length + 2]⟩ ++
      0 :: encode "b" ++ 0 :: partContent u r) :
    contentDigest u { eml with mime := .node t c ((l ++ [p]).map .leaf) } =
      contentDigest u { eml with mime := .node t c ((l ++ [q,r]).map .leaf) } ∧
    normalised u { eml with mime := .node t c ((l ++ [p]).map .leaf) } ≠
      normalised u { eml with mime := .node t c ((l ++ [q,r]).map .leaf) } := by
  have one := walkLeaves (l ++ [p]) (n := mimePartsLimit) (k := 0) (by simp; omega)
  have two := walkLeaves (l ++ [q,r]) (n := mimePartsLimit) (k := 0) (by simpa using fits)
  constructor
  · unfold contentDigest
    simp only [eachPart,one,two]
    have last : 1 + l.length + 1 = l.length + 2 := by omega
    simp [List.mapIdx_append,contentDigI,name,about,noName,plain,whole,last]
  · intro same
    have counts := congrArg (fun c => c.parts.length) same
    simp only [normalised,eachPart,one,two,List.length_map,List.length_append,List.length_mapIdx,
      List.length_cons,List.length_nil] at counts
    omega

def textPart (s : String) : Part := ⟨none,[],none,none,false,some s,some s,encode s⟩

def rawPart (body : Bytes) : Part :=
  ⟨none,[],some "application/octet-stream",none,false,none,none,body⟩

def simpleEml (author : String) (mime : Mime) : Eml where
  hdr := ⟨["<m@x>"],[],[],[],[]⟩
  header := fun h => if h = "From" then [author] else if h = "Subject" then ["hi"] else []
  mime := mime

/- An unquoted name, another case of the host and CRLF line ends change nothing. -/
theorem quotedSameDigest :
    contentDigest ascii (simpleEml "A <a@x.ORG>" (.leaf (textPart "hi\r\nyou \r\n"))) =
      contentDigest ascii (simpleEml "\"A\" <a@x.org>" (.leaf (textPart "hi\nyou\n"))) :=
  (digestIdentifies ascii (pureClosed (by decide +kernel) (by decide +kernel))
    (pureClosed (by decide +kernel) (by decide +kernel))).mpr (by decide +kernel)

/- One binary attachment with NULs against two text parts. -/
theorem splitPartCollides :
    ¬ ∀ a b : Eml, contentDigest ascii a = contentDigest ascii b ↔
      normalised ascii a = normalised ascii b := by
  intro identify
  have split := splitBody ascii (simpleEml "a@x" (.leaf (textPart ""))) (l := [])
    (t := textPart "") (p := rawPart (encode "patch" ++ 0 :: encode "1:2" ++ 0 :: encode "b" ++
      0 :: encode "evil")) (q := textPart "patch") (r := textPart "evil") (c := false)
    (by decide) rfl rfl rfl rfl (by decide +kernel)
  exact split.2 ((identify _ _).mp split.1)

end PublicInbox.ContentHash
