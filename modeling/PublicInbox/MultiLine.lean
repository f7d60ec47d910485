import PublicInbox.NNTP.Article
import PublicInbox.POP3.Retr

/-! The replies of several lines that carry a message: ARTICLE, HEAD and BODY of NNTP, RETR and TOP of POP3. -/
namespace PublicInbox.MultiLine
open Mime Mime.Eml DotStuffing

inductive Request where
  | nntp (code : NNTP.Code)
  | pop3 (topNr : Option Nat)

section
variable (decode : Text → Text) (space : Char → Bool) (wrap : Nat → Text → Text)

def Request.response (request : Request) (blob : Text) (smsg : NNTP.Article) : Text :=
  match request with
  | nntp code => NNTP.blobCb decode space wrap code blob smsg
  | pop3 topNr => POP3.retrCbText topNr blob

def Request.status (request : Request) (smsg : NNTP.Article) : Text :=
  match request with
  | nntp code => code.status smsg ++ ['\r','\n']
  | pop3 _ => POP3.retrStatus

def Request.selected (request : Request) (blob : Text) (smsg : NNTP.Article) : Text :=
  match request with
  | nntp code => code.selected decode space wrap blob smsg
  | pop3 topNr => POP3.retrSelected topNr blob

def Request.Sound (request : Request) (blob : Text) : Prop :=
  match request with
  | nntp code => code.Sound decode space blob
  | pop3 topNr => POP3.RetrSound topNr blob

end

/- What a client takes from the connection: the status line, what was asked for, and nothing of what comes after. -/
theorem replyWhole {decode : Text → Text} {space : Char → Bool} {wrap : Nat → Text → Text} (tabs : Tabs wrap) (request : Request)
    (blob : Text) (smsg : NNTP.Article) (rest : Text) :
    reply (request.response decode space wrap blob smsg ++ rest) =
      some (request.status smsg,request.selected decode space wrap blob smsg,rest) ↔ request.Sound decode space blob := by
  cases request with
  | pop3 topNr => exact POP3.retrReply topNr blob rest
  | nntp code =>
    cases code with
    | article =>
      refine (NNTP.articleReply tabs blob smsg rest).trans ?_
      simp [Request.Sound,NNTP.Code.Sound]
    | head =>
      refine (NNTP.headReply tabs blob smsg rest).trans ?_
      simp [Request.Sound,NNTP.Code.Sound]
    | body =>
      refine (@NNTP.bodyReply decode space wrap blob smsg rest).trans ?_
      simp [Request.Sound,NNTP.Code.Sound]

def aboutOne : NNTP.Article := ⟨1,"a@b".toList,"news a:1".toList,by decide,by decide⟩

def dottedBody : Text := "A: b\n\n.\n".toList

theorem repliesWhole :
    reply (POP3.retrCbText none dottedBody ++ ['x']) = some (POP3.retrStatus,"A: b\r\n\r\n.\r\n".toList,['x']) ∧
      ∀ request ∈ [Request.pop3 (some 0),.nntp .article,.nntp .head,.nntp .body],
        reply (request.response id (· == ' ') (fun _ v => v) dottedBody aboutOne ++ ['x']) =
          some (request.status aboutOne,request.selected id (· == ' ') (fun _ v => v) dottedBody aboutOne,['x']) := by
  have whole := fun request => @replyWhole id (· == ' ') (fun _ v => v)
    (fun _ v inside => ⟨v,[],(List.append_nil v).symm,inside,fun _ mem => nomatch mem⟩) request dottedBody aboutOne ['x']
  have undotted : NNTP.Undotted id (· == ' ') dottedBody := by
    unfold NNTP.Undotted
    decide +kernel
  have body : (Eml.new dottedBody).bdy ≠ none := by decide +kernel
  refine ⟨(whole (.pop3 none)).mpr fun top => absurd rfl top,fun request mem => (whole request).mpr ?_⟩
  simp only [List.mem_cons,List.not_mem_nil,or_false] at mem
  rcases mem with rfl | rfl | rfl | rfl
  · exact fun _ => by decide +kernel
  all_goals exact ⟨fun _ => undotted,fun _ => body⟩

def dottedHeader : Text := "A: b\n.\nC: d\n\nbody\n".toList

theorem headEarly : reply ((Request.nntp .head).response id (· == ' ') (fun _ v => v) dottedHeader aboutOne) ≠
    some ((Request.nntp .head).status aboutOne,(Request.nntp .head).selected id (· == ' ') (fun _ v => v) dottedHeader aboutOne,[]) := by
  decide +kernel

end PublicInbox.MultiLine
