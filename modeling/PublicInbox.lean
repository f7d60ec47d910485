import PublicInbox.Checkpoint.Truthful
import PublicInbox.CodeSearchIdx
import PublicInbox.Config.Meaning
import PublicInbox.ContentHash.Identity
import PublicInbox.DS.RunTimers
import PublicInbox.DS.Wbuf
import PublicInbox.Eml.EachPart
import PublicInbox.Eml.HeaderSet
import PublicInbox.ExtSearchIdx.Consistency
import PublicInbox.ExtSearchIdx.Copies
import PublicInbox.ExtSearchIdx.Dedupe
import PublicInbox.ExtSearchIdx.Slices
import PublicInbox.Fetch.Epochs
import PublicInbox.H1ReqRes
import PublicInbox.HTTP
import PublicInbox.HTTP.Agreement
import PublicInbox.IMAP.BodyStructure
import PublicInbox.IMAP.Literals
import PublicInbox.IMAPsearchqp.Agreement
import PublicInbox.IMAPsearchqp.Operators
import PublicInbox.Import.Replace
import PublicInbox.Khashl
import PublicInbox.LeiDedupe
import PublicInbox.LeiMailSync
import PublicInbox.LeiSavedSearch
import PublicInbox.LeiXSearch
import PublicInbox.Limiter
import PublicInbox.Linkify.Anchors
import PublicInbox.MultiLine
import PublicInbox.NNTP
import PublicInbox.NNTP.Listings
import PublicInbox.NetReader
import PublicInbox.Over
import PublicInbox.OverIdx.Ghosts
import PublicInbox.POP3.Slice
import PublicInbox.POP3.Views
import PublicInbox.SearchDates.Agreement
import PublicInbox.SearchIdx
import PublicInbox.SearchIdx.AsOne
import PublicInbox.SharedKV
import PublicInbox.Smsg
import PublicInbox.SolverGit.Answers
import PublicInbox.V2Writable.Agreement
import PublicInbox.V2Writable.LogStack
import PublicInbox.View.Nesting
import PublicInbox.View.Pages
import PublicInbox.ViewDiff.Ids
import PublicInbox.WwwStatic.Honoured
import PublicInbox.XapHelper.Prefork
import PublicInbox.XapHelper.SrchCache
