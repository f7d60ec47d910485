import PublicInbox.Eml.Crlf

/-! POP3.pm: the replies to RETR and TOP. -/
namespace PublicInbox.POP3
open Mime Mime.Eml Lines DotStuffing

def toCrlfFull (blob : Text) : Text := stripFrom (toCrlf false blob)

/- What splice takes of len lines for a number: from 2^63 on it is negative as an IV, and counts from the end. -/
def spliced (n len : Nat) : Nat := if n < 9223372036854775808 then n else len - (18446744073709551616 - min n 18446744073709551615)

def topLines (n : Nat) (bdy : Text) : Text := ((lines bdy).take (spliced n (lines bdy).length)).flatten

def retrStatus : Text := "+OK message follows\r\n".toList

def headerEnd : Text := ['\r','\n','\r','\n']

def retrText (topNr : Option Nat) (blob : Text) : Text :=
  let bref := toCrlfFull blob
  match topNr with
  | none => bref
  | some n =>
    match Leftmost.index headerEnd bref with
    | some (hdr,bdy) => hdr ++ headerEnd ++ topLines n bdy
    | none => bref ++ headerEnd

def retrCbText (topNr : Option Nat) (blob : Text) : Text := retrStatus ++ (ended (stuff true (retrText topNr blob)) ++ terminator)

def retrSelected (topNr : Option Nat) (blob : Text) : Text :=
  match topNr,Leftmost.index headerEnd (toCrlfFull blob) with
  | some n,some (hdr,bdy) => ended (hdr ++ headerEnd ++ topLines n bdy)
  | _,_ => ended (toCrlfFull blob)

def RetrSound (topNr : Option Nat) (blob : Text) : Prop := topNr ≠ none → Leftmost.index headerEnd (toCrlfFull blob) ≠ none

theorem retrStatusComplete : Complete retrStatus := ⟨"+OK message follows\r".toList,rfl,by decide⟩

theorem endedShort (t : Text) : (ended t).length ≤ t.length + 2 := by
  unfold ended
  split
  · exact Nat.le_add_right _ _
  · rw [List.length_append]
    exact Nat.le_refl _

theorem endedLong (t : Text) : t.length ≤ (ended t).length := by
  unfold ended
  split
  · exact Nat.le_refl _
  · rw [List.length_append]
    exact Nat.le_add_right _ _

theorem retrRead (topNr : Option Nat) (blob rest : Text) : reply (retrCbText topNr blob ++ rest) = some (retrStatus,ended (retrText topNr blob),rest) := by
  have shape : retrCbText topNr blob ++ rest = retrStatus ++ ([] ++ stuff true (ended (retrText topNr blob)) ++ terminator ++ rest) := by
    simp only [retrCbText,endedStuff,List.append_assoc,List.nil_append]
  rw [shape,replied retrStatusComplete]
  exact (@receiveWhole _ _ rest wholeNil (endedWhole _)).mpr fun _ mem => nomatch mem

theorem retrReply (topNr : Option Nat) (blob rest : Text) :
    reply (retrCbText topNr blob ++ rest) = some (retrStatus,retrSelected topNr blob,rest) ↔ RetrSound topNr blob := by
  rw [retrRead,Option.some.injEq,Prod.mk.injEq,Prod.mk.injEq]
  simp only [true_and,and_true]
  cases topNr with
  | none => simp [retrText,retrSelected,RetrSound]
  | some n =>
    cases cut : Leftmost.index headerEnd (toCrlfFull blob) with
    | some parts => simp [retrText,retrSelected,RetrSound,cut]
    | none =>
      simp only [retrText,retrSelected,RetrSound,cut]
      refine ⟨fun same => ?_,fun sound => absurd rfl (sound (Option.some_ne_none n))⟩
      have long := endedLong (toCrlfFull blob ++ headerEnd)
      have short := endedShort (toCrlfFull blob)
      have length := congrArg List.length same
      simp only [List.length_append] at long length
      have four : headerEnd.length = 4 := rfl
      omega

end PublicInbox.POP3
