import Mathlib.Data.List.Basic

/-! Message-IDs as MID.pm extracts them. Whatever leaves `uniqMids` is at most
MAX_MID_SIZE characters long, so the bound is part of the type. -/
namespace PublicInbox

def maxMidSize : Nat := 244

structure Mid where
  val : String
  short : val.length ≤ maxMidSize
  deriving DecidableEq, Repr

def uniq {α : Type} [DecidableEq α] (seen : List α) : List α → List α
  | [] => []
  | x :: xs => if x ∈ seen then uniq seen xs else x :: uniq (x :: seen) xs

@[simp] theorem memUniq {α : Type} [DecidableEq α] {seen xs : List α} {x : α} :
    x ∈ uniq seen xs ↔ x ∈ xs ∧ x ∉ seen := by
  induction xs generalizing seen with
  | nil => simp [uniq]
  | cons y ys ih =>
    by_cases old : y ∈ seen
    · simp only [uniq,if_pos old,ih,List.mem_cons]
      constructor
      · rintro ⟨mem,fresh⟩
        exact ⟨Or.inr mem,fresh⟩
      · rintro ⟨rfl | mem,fresh⟩
        · exact absurd old fresh
        · exact ⟨mem,fresh⟩
    · simp only [uniq,if_neg old,ih,List.mem_cons,not_or]
      constructor
      · rintro (rfl | ⟨mem,_,fresh⟩)
        · exact ⟨Or.inl rfl,old⟩
        · exact ⟨Or.inr mem,fresh⟩
      · rintro ⟨rfl | mem,fresh⟩
        · exact Or.inl rfl
        · by_cases same : x = y
          · exact Or.inl same
          · exact Or.inr ⟨mem,same,fresh⟩

def cleanMid (s : String) : Mid :=
  ⟨String.ofList ((s.toList.filter (fun c => c ∉ ['\n','\t','\r','\x00'])).take maxMidSize),
    by rw [String.length_ofList]; exact List.length_take_le _ _⟩

def uniqMids (mids : List String) (seen : List Mid) : List Mid := uniq seen (mids.map cleanMid)

theorem cleanNoNul (s : String) : '\x00' ∉ (cleanMid s).val.toList := by
  intro mem
  have inside := List.mem_of_mem_take (by simpa [cleanMid] using mem)
  simp at inside

-- `m/<([^>]+)>/gs`. `inside` is the reversed text since the last `<` that may still
-- start a match; a `<` in it does not restart the match.
def midScan (inside : Option (List Char)) : List Char → List String
  | [] => []
  | c :: cs => match inside with
    | none => if c = '<' then midScan (some []) cs else midScan none cs
    | some text =>
      if c = '>' then
        if text = [] then midScan none cs else String.ofList text.reverse :: midScan none cs
      else midScan (some (c :: text)) cs

def midExtract (value : String) : List String := midScan none value.toList

structure Header where
  messageID : List String
  xAltMessageID : List String
  references : List String
  inReplyTo : List String
  -- the addresses PublicInbox::Address::emails finds in To, From and Cc
  emails : List String
  deriving DecidableEq, Repr

-- Only for Message-ID and X-Alt-Message-ID: a value without brackets stands for itself.
def extractMids (values : List String) : List String :=
  values.flatMap (fun v => match midExtract v with
    | [] => [v]
    | cur => cur)

def mids (hdr : Header) : List Mid := uniqMids (extractMids hdr.messageID) []

def midsForIndex (hdr : Header) : List Mid :=
  uniqMids (extractMids (hdr.messageID ++ hdr.xAltMessageID)) []

-- Old git-send-email asked for In-Reply-To and got "y" or "n".
-- Only the Message-IDs are cleaned: an address that cleaning changes is none of them.
def notMids (hdr : Header) : List Mid :=
  ((["y","n"] ++ hdr.emails).filter fun a => (cleanMid a).val == a).map cleanMid

def references (hdr : Header) : List Mid :=
  let found := (hdr.references ++ hdr.inReplyTo).flatMap midExtract
  (uniqMids found.reverse (notMids hdr)).reverse

def parseReferences (mid : Mid) (refs mids : List Mid) : List Mid :=
  let refs := if 1 < mids.length then refs ++ mids else refs
  uniq [mid] (refs.filter (fun r => ¬ maxMidSize < r.val.length))

theorem memParseReferences {mid : Mid} {refs mids : List Mid} {r : Mid} :
    r ∈ parseReferences mid refs mids ↔
      r ≠ mid ∧ (r ∈ refs ∨ 1 < mids.length ∧ r ∈ mids) := by
  have size : r.val.length ≤ maxMidSize := r.short
  unfold parseReferences
  by_cases several : 1 < mids.length
  · simp [several,size,and_comm]
  · simp [several,size,and_comm]

end PublicInbox
