import PublicInbox.Mid
import PublicInbox.V2Writable

/-! The texts V2Writable handles, with the Message-IDs read as MID.pm reads them. What the
digests and the content hash are is left open; a generated Message-ID is only known to stand
between angle brackets unchanged. -/
namespace PublicInbox

structure Eml where
  hdr : Header
  rest : String
  deriving DecidableEq

def Mid.Bracketed (m : Mid) : Prop :=
  m.val.toList ≠ [] ∧ ∀ c ∈ m.val.toList, c ∉ ['>','\n','\t','\r','\x00']

instance (m : Mid) : Decidable m.Bracketed := @instDecidableAnd _ _ _ (List.decidableBAll _ _)

def angled (m : Mid) : String := String.ofList ('<' :: m.val.toList ++ ['>'])

def Header.appendMid (hdr : Header) (m : Mid) : Header :=
  { hdr with messageID := hdr.messageID ++ [angled m] }

theorem uniqSnoc {α : Type} [DecidableEq α] (seen xs : List α) {x : α} (fresh : x ∉ seen)
    (new : x ∉ xs) : uniq seen (xs ++ [x]) = uniq seen xs ++ [x] := by
  induction xs generalizing seen with
  | nil => simp [uniq,fresh]
  | cons y ys ih =>
    have later : x ∉ ys := fun mem => new (List.mem_cons_of_mem _ mem)
    by_cases old : y ∈ seen
    · simp only [List.cons_append,uniq,if_pos old]
      exact ih seen fresh later
    · simp only [List.cons_append,uniq,if_neg old]
      have other : x ∉ y :: seen := by
        intro mem
        rcases List.mem_cons.mp mem with rfl | mem
        · exact new List.mem_cons_self
        · exact fresh mem
      rw [ih (y :: seen) other later]

theorem midScanInside {text : List Char} (plain : ∀ c ∈ text, c ≠ '>') (sofar : List Char)
    (some : sofar ≠ [] ∨ text ≠ []) :
    midScan (.some sofar) (text ++ ['>']) = [String.ofList (sofar.reverse ++ text)] := by
  induction text generalizing sofar with
  | nil =>
    have full : sofar ≠ [] := some.resolve_right (by simp)
    simp [midScan,full]
  | cons c cs ih =>
    have head := plain c List.mem_cons_self
    have rest := ih (fun x mem => plain x (List.mem_cons_of_mem _ mem)) (c :: sofar)
      (Or.inl (List.cons_ne_nil _ _))
    simp only [List.cons_append,midScan,if_neg head]
    rw [rest,List.reverse_cons,List.append_assoc,List.singleton_append]

theorem extractAngled {m : Mid} (good : m.Bracketed) : midExtract (angled m) = [m.val] := by
  have plain : ∀ c ∈ m.val.toList, c ≠ '>' := by
    intro c mem same
    exact good.2 c mem (by simp [same])
  unfold midExtract angled
  rw [String.toList_ofList,List.cons_append]
  simp only [midScan,if_true]
  rw [midScanInside plain [] (Or.inr good.1)]
  simp

theorem cleanBracketed {m : Mid} (good : m.Bracketed) : cleanMid m.val = m := by
  have kept : m.val.toList.filter (fun c => c ∉ ['\n','\t','\r','\x00']) = m.val.toList := by
    refine List.filter_eq_self.mpr ?_
    intro c mem
    have clean := good.2 c mem
    simp only [List.mem_cons,not_or] at clean
    simp [clean]
  have short : m.val.toList.length ≤ maxMidSize := by
    rw [String.length_toList]
    exact m.short
  cases m with
  | mk val le =>
    simp only [cleanMid,Mid.mk.injEq]
    rw [kept,List.take_of_length_le short,String.ofList_toList]

theorem extractSnoc (values : List String) {m : Mid} (good : m.Bracketed) :
    (extractMids (values ++ [angled m])).map cleanMid = (extractMids values).map cleanMid ++ [m] := by
  have last : extractMids [angled m] = [m.val] := by
    unfold extractMids
    rw [List.flatMap_cons,List.flatMap_nil,List.append_nil,extractAngled good]
  have split : extractMids (values ++ [angled m]) = extractMids values ++ extractMids [angled m] := by
    unfold extractMids
    exact List.flatMap_append
  rw [split,last,List.map_append,List.map_cons,List.map_nil,cleanBracketed good]

theorem midsAppendMid {hdr : Header} {m : Mid} (good : m.Bracketed) (new : m ∉ mids hdr) :
    mids (hdr.appendMid m) = mids hdr ++ [m] := by
  unfold mids uniqMids at new ⊢
  rw [memUniq] at new
  rw [Header.appendMid,extractSnoc _ good]
  exact uniqSnoc _ _ List.not_mem_nil (fun mem => new ⟨mem,List.not_mem_nil⟩)

namespace V2Writable

def emlTexts {H R : Type} (hash : Eml → H) (drop : String → String) (digest : Eml → Salt R → Mid)
    (good : ∀ e salt, (digest e salt).Bracketed) : Texts Eml Mid H R where
  mids := fun e => PublicInbox.mids e.hdr
  midsForIndex := fun e => PublicInbox.midsForIndex e.hdr
  references := fun e => PublicInbox.references e.hdr
  contentHash := hash
  contentHashes := fun e => [hash e]
  dropUnwantedHeaders := fun e => { e with rest := drop e.rest }
  appendMid := fun e m => { e with hdr := e.hdr.appendMid m }
  digest2mid := digest
  purged := ⟨⟨[],[],[],[],[]⟩,""⟩
  midsIndexed := by
    intro e m mem
    unfold PublicInbox.mids PublicInbox.midsForIndex uniqMids extractMids at *
    rw [memUniq] at mem ⊢
    rw [List.flatMap_append,List.map_append]
    exact ⟨List.mem_append_left _ mem.1,mem.2⟩
  midsDropped := fun _ => rfl
  midsAppended := fun e salt new => midsAppendMid (good e salt) new
  midsPurged := rfl

def letters : Texts Eml Mid String Nat :=
  emlTexts (fun e => e.rest) id (fun _ _ => ⟨"20200101000000.x@z",by decide⟩) (fun _ _ => by decide +kernel)

def letter (messageID : List String) (rest : String) : Eml := ⟨⟨messageID,[],[],[],[]⟩,rest⟩

def keysAsFound {α : Type} : Shuffle α := ⟨id,fun _ => .refl _⟩

end V2Writable
end PublicInbox
