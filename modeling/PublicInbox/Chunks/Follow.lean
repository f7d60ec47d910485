import PublicInbox.Chunks

/-! The loop of read_input_chunked in HTTP.pm and of pass_res_chunked in H1ReqRes.pm, for whatever they
do with what they find, and what a body comes to that they follow. -/
namespace PublicInbox.Chunks
open Feed

structure Reading (σ : Type) where
  left : Left
  rbuf : List Char
  sink : σ
  deriving DecidableEq

/- What is done with the digits and the extension of a size line, with data and with the CRLF after it,
with the trailers and what is in rbuf behind them, and with an rbuf that is too long. -/
structure Handler (σ ω : Type) where
  size : σ → List Char → List Char → Except ω σ
  data : σ → List Char → σ
  ends : σ → σ
  finish : σ → List Char → List Char → ω
  tlrMax : Nat
  long : Left → ω

section
variable {σ π ω : Type} (h : Handler σ ω)

def Handler.turn (s : Reading σ) : Turn (Reading σ) ω :=
  match s.left with
  | .tlrEnd => match takeTrailers s.rbuf with
    | some (tlr,rest) => .done (h.finish s.sink tlr rest)
    | none => if h.tlrMax < s.rbuf.length then .done (h.long .tlrEnd) else .read s
  | .«end» => match takeEnd s.rbuf with
    | some (_,rest) => .more ⟨.start,rest,h.ends s.sink⟩
    | none => if 2 < s.rbuf.length then .done (h.long .«end») else .read s
  | .start => match takeSize s.rbuf with
    | some ((digits,ext),rest) => match h.size s.sink digits ext with
      | .error w => .done w
      | .ok sink => .more ⟨.chunk (hex digits),rest,sink⟩
    | none => if chunkMaxHdr < s.rbuf.length then .done (h.long .start) else .read s
  | .chunk 0 => .more { s with left := .tlrEnd }
  | .chunk n =>
    if s.rbuf = [] then .read s
    else if n ≤ s.rbuf.length then .more ⟨.«end»,s.rbuf.drop n,h.data s.sink (s.rbuf.take n)⟩
    else .more ⟨.chunk (n - s.rbuf.length),[],h.data s.sink s.rbuf⟩

def Reading.feed (s : Reading σ) (bs : List Char) : Reading σ := { s with rbuf := s.rbuf ++ bs }

def Reading.size (s : Reading σ) : Nat := 2 * s.rbuf.length + if s.left = .chunk 0 then 1 else 0

variable {h}

theorem turnShrinks {s s' : Reading σ} (turn : h.turn s = .more s') : s'.size < s.size := by
  unfold Handler.turn at turn
  split at turn
  · split at turn
    · cases turn
    · split at turn <;> cases turn
  · split at turn
    · rename_i rest taken
      cases turn
      simp [Reading.size,endTaken taken]
      omega
    · split at turn <;> cases turn
  · split at turn
    · rename_i digits ext rest taken
      obtain ⟨l,-,-,is⟩ := sizeTaken taken
      split at turn
      · cases turn
      · cases turn
        simp only [Reading.size,is,SizeLine.text,List.length_append,List.length_cons,List.length_nil]
        split <;> omega
    · split at turn <;> cases turn
  · rename_i none
    cases turn
    simp [Reading.size,none]
  · rename_i n some here
    have left : ¬ n = 0 := some
    split at turn
    · cases turn
    · rename_i bytes
      have long := List.length_pos_of_ne_nil bytes
      split at turn <;> cases turn
      · simp only [Reading.size,List.length_drop,here,Left.chunk.injEq,left,if_false]
        simp
        omega
      · rename_i short
        simp only [Reading.size,List.length_nil]
        split <;> omega

variable (h) in
def Handler.machine (resume : π → Reading σ → Reading σ) : Machine (Reading σ) Char π ω where
  turn := h.turn
  feed := Reading.feed
  resume := resume
  size := Reading.size
  shrinks := turnShrinks

structure Handler.Records (h : Handler σ ω) where
  view : σ → List Char
  line : SizeLine → List Char
  close : List Char
  Admits : List Char → SizeLine → Prop
  sized : ∀ {s s'} {l : SizeLine},h.size s l.digits l.ext = .ok s' → Admits (view s) l ∧ view s' = view s ++ line l
  admitted : ∀ {s} {l : SizeLine},Admits (view s) l → ∃ s',h.size s l.digits l.ext = .ok s'
  held : ∀ s bs,view (h.data s bs) = view s ++ bs
  closed : ∀ s,view (h.ends s) = view s ++ close

namespace Handler.Records
variable (r : h.Records)

def chunk (c : Chunk) : List Char := r.line c.line ++ c.data ++ r.close

def passed (b : Body) : List Char := b.chunks.flatMap r.chunk ++ r.line b.last

def Admitted : List Char → List Chunk → SizeLine → Prop
  | v,[],last => r.Admits v last
  | v,c :: cs,last => r.Admits v c.line ∧ Admitted (v ++ r.chunk c) cs last

inductive Before : Left → List Char → List Char → Prop where
  | start : Before .start [] []
  | «end» : Before .«end» ['\r','\n'] r.close
  | chunk (d : List Char) (some : d ≠ []) : Before (.chunk d.length) (d ++ ['\r','\n']) (d ++ r.close)

inductive Expects (ts : List Trailer) (next final : List Char) : Reading σ → List Char → Prop where
  | body {s : Reading σ} {u pre add : List Char} (b : Body) (before : r.Before s.left pre add) (within : b.Within h.tlrMax)
      (same : b.trailers = ts) (admitted : r.Admitted (r.view s.sink ++ add) b.chunks b.last)
      (text : s.rbuf ++ u = pre ++ (b.text ++ next)) (all : r.view s.sink ++ add ++ r.passed b = final) :
      Expects ts next final s u
  | trailers {s : Reading σ} {u : List Char} (here : s.left = .chunk 0 ∨ s.left = .tlrEnd)
      (short : (trailerText ts).length + 1 ≤ h.tlrMax)
      (text : s.rbuf ++ u = trailerText ts ++ ['\r','\n'] ++ next) (all : r.view s.sink = final) : Expects ts next final s u

def Finished (ts : List Trailer) (next final : List Char) (w : ω) (u : List Char) : Prop :=
  ∃ sink rest,w = h.finish sink (trailerText ts) rest ∧ r.view sink = final ∧ rest ++ u = next

variable {r}

theorem lineExpected {s : Reading σ} {u rest : List Char} (here : s.left = .start) (l : SizeLine)
    (digits : l.text.length ≤ chunkMaxHdr + 1) (admits : r.Admits (r.view s.sink) l) (text : s.rbuf ++ u = l.text ++ rest) :
    (∃ left sink,h.turn s = .more ⟨.chunk l.size,left,sink⟩ ∧ r.view sink = r.view s.sink ++ r.line l ∧ left ++ u = rest) ∨
      (h.turn s = .read s ∧ u ≠ []) := by
  obtain ⟨sink,sized⟩ := r.admitted admits
  rcases l.takes.cases text with ⟨left,taken,-,follows⟩ | ⟨none,short,some⟩
  · refine .inl ⟨left,sink,?_,(r.sized sized).2,follows⟩
    rw [Handler.turn,here]
    simp only [taken,sized,SizeLine.size]
  · refine .inr ⟨?_,some⟩
    have low : ¬ chunkMaxHdr < s.rbuf.length := by omega
    rw [Handler.turn,here]
    simp only [none,if_neg low]

theorem startExpected {s : Reading σ} {u next final : List Char} (here : s.left = .start) (b : Body)
    (within : b.Within h.tlrMax) (admitted : r.Admitted (r.view s.sink) b.chunks b.last) (text : s.rbuf ++ u = b.text ++ next)
    (all : r.view s.sink ++ r.passed b = final) :
    (∃ s',h.turn s = .more s' ∧ r.Expects b.trailers next final s' u) ∨ (h.turn s = .read s ∧ u ≠ []) := by
  obtain ⟨chunks,last,zero,trailers⟩ := b
  cases chunks with
  | nil =>
    have text : s.rbuf ++ u = last.text ++ (trailerText trailers ++ ['\r','\n'] ++ next) := by
      simpa [Body.text,Body.tail] using text
    rcases lineExpected here last (within.line _ (by simp [Body.lines])) admitted text with ⟨left,sink,turn,view,follows⟩ | reads
    · rw [zero] at turn
      exact .inl ⟨_,turn,.trailers (.inl rfl) within.trailers follows (by rw [view,← all]; simp [passed])⟩
    · exact .inr reads
  | cons c cs =>
    have text : s.rbuf ++ u = c.line.text ++ (c.data ++ ['\r','\n'] ++ ((Body.mk cs last zero trailers).text ++ next)) := by
      simpa [Body.text,Body.tail,Chunk.text] using text
    rcases lineExpected here c.line (within.line _ (by simp [Body.lines])) admitted.1 text with ⟨left,sink,turn,view,follows⟩ | reads
    · rw [← c.sized] at turn
      have later : (Body.mk cs last zero trailers).Within h.tlrMax :=
        ⟨fun l mem => within.digits l (List.mem_cons_of_mem _ mem),fun l mem => within.line l (List.mem_cons_of_mem _ mem),
          within.trailers⟩
      refine .inl ⟨_,turn,.body ⟨cs,last,zero,trailers⟩ (.chunk c.data c.more) later rfl ?_ follows ?_⟩
      · rw [view]
        simpa [chunk] using admitted.2
      · rw [view,← all]
        simp [passed,chunk]
    · exact .inr reads

theorem turnChunk {s : Reading σ} {n : Nat} (here : s.left = .chunk n) (some : n ≠ 0) :
    h.turn s = if s.rbuf = [] then .read s
      else if n ≤ s.rbuf.length then .more ⟨.«end»,s.rbuf.drop n,h.data s.sink (s.rbuf.take n)⟩
      else .more ⟨.chunk (n - s.rbuf.length),[],h.data s.sink s.rbuf⟩ := by
  obtain ⟨k,rfl⟩ := Nat.exists_eq_succ_of_ne_zero some
  simp only [Handler.turn,here]

theorem dataExpected {s : Reading σ} {u d next final : List Char} (b : Body) (here : s.left = .chunk d.length) (some : d ≠ [])
    (within : b.Within h.tlrMax) (admitted : r.Admitted (r.view s.sink ++ (d ++ r.close)) b.chunks b.last)
    (text : s.rbuf ++ u = d ++ ['\r','\n'] ++ (b.text ++ next)) (all : r.view s.sink ++ (d ++ r.close) ++ r.passed b = final) :
    (∃ s',h.turn s = .more s' ∧ r.Expects b.trailers next final s' u) ∨ (h.turn s = .read s ∧ u ≠ []) := by
  have turn := turnChunk (h := h) here (by simpa using some)
  by_cases empty : s.rbuf = []
  · rw [if_pos empty] at turn
    refine .inr ⟨turn,fun none => ?_⟩
    rw [empty,none] at text
    simp [some] at text
  rw [if_neg empty] at turn
  rw [List.append_assoc] at text
  rcases List.append_eq_append_iff.mp text with ⟨more,is,follows⟩ | ⟨left,is,follows⟩
  · cases more with
    | nil =>
      rw [List.append_nil] at is
      rw [is,if_pos (Nat.le_refl _),List.drop_length,List.take_length,← is] at turn
      refine .inl ⟨_,turn,.body b .«end» within rfl ?_ (by simpa using follows) ?_⟩
      · simpa [r.held] using admitted
      · simpa [r.held] using all
    | cons c more =>
      have longer : ¬ d.length ≤ s.rbuf.length := by simp [is]
      have rest : d.length - s.rbuf.length = (c :: more).length := by simp [is]
      rw [if_neg longer,rest] at turn
      refine .inl ⟨_,turn,.body b (.chunk (c :: more) (by simp)) within rfl ?_ (by simpa using follows) ?_⟩
      · simpa [r.held,is] using admitted
      · simpa [r.held,is] using all
  · have inside : d.length ≤ s.rbuf.length := by simp [is]
    rw [if_pos inside,is,List.drop_left,List.take_left] at turn
    refine .inl ⟨_,turn,.body b .«end» within rfl ?_ (by simpa using follows.symm) ?_⟩
    · simpa [r.held] using admitted
    · simpa [r.held] using all

theorem expectsTurn {ts : List Trailer} {next final u : List Char} {s : Reading σ} (expects : r.Expects ts next final s u) :
    (∃ s',h.turn s = .more s' ∧ r.Expects ts next final s' u) ∨
      (∃ s',h.turn s = .read s' ∧ r.Expects ts next final s' u ∧ u ≠ []) ∨
        ∃ w,h.turn s = .done w ∧ r.Finished ts next final w u := by
  have reads : h.turn s = .read s ∧ u ≠ [] → ∃ s',h.turn s = .read s' ∧ r.Expects ts next final s' u ∧ u ≠ [] :=
    fun ⟨turn,coming⟩ => ⟨s,turn,expects,coming⟩
  cases expects with
  | body b before within same admitted text all =>
    subst same
    obtain ⟨left,rbuf,sink⟩ := s
    cases before with
    | start =>
      exact (startExpected rfl b within (by simpa using admitted) text (by simpa using all)).imp_right fun met => .inl (reads met)
    | chunk d some => exact (dataExpected b rfl some within admitted text all).imp_right fun met => .inl (reads met)
    | «end» =>
      rcases endTakes.cases text with ⟨rest,taken,-,follows⟩ | ⟨none,short,some⟩
      · refine .inl ⟨⟨.start,rest,h.ends sink⟩,by simp only [Handler.turn,taken],.body b .start within rfl ?_ follows ?_⟩
        · simpa [r.closed] using admitted
        · simpa [r.closed] using all
      · have low : ¬ 2 < rbuf.length := Nat.not_lt.mpr (Nat.le_of_lt short)
        exact .inr (.inl (reads ⟨by simp only [Handler.turn,none,if_neg low],some⟩))
  | trailers here short text all =>
    obtain ⟨left,rbuf,sink⟩ := s
    rcases here with rfl | rfl
    · exact .inl ⟨_,rfl,.trailers (.inr rfl) short text all⟩
    · rcases (trailersTakes ts).cases text with ⟨rest,taken,-,follows⟩ | ⟨none,fewer,some⟩
      · exact .inr (.inr ⟨_,by simp only [Handler.turn,taken],sink,rest,rfl,all,follows⟩)
      · have low : ¬ h.tlrMax < rbuf.length := by
          simp only [List.length_append,List.length_cons,List.length_nil] at fewer
          omega
        exact .inr (.inl (reads ⟨by simp only [Handler.turn,none,if_neg low],some⟩))

theorem expectsFed {ts : List Trailer} {next final u bs : List Char} {s : Reading σ} (expects : r.Expects ts next final s (bs ++ u)) :
    r.Expects ts next final (s.feed bs) u := by
  cases expects with
  | body b before within same admitted text all =>
    exact .body b before within same admitted (by simpa [Reading.feed] using text) all
  | trailers here short text all => exact .trailers here short (by simpa [Reading.feed] using text) all

theorem expectsSame {ts : List Trailer} {next final u : List Char} {s s' : Reading σ} (expects : r.Expects ts next final s u)
    (same : s'.left = s.left ∧ s'.rbuf = s.rbuf ∧ r.view s'.sink = r.view s.sink) : r.Expects ts next final s' u := by
  obtain ⟨left,rbuf,view⟩ := same
  cases expects with
  | body b before within same admitted text all =>
    exact .body b (left ▸ before) within same (by rwa [view]) (by rwa [rbuf]) (by rwa [view])
  | trailers here short text all => exact .trailers (left ▸ here) short (by rwa [rbuf]) (by rwa [view])

theorem follows {f : π → Reading σ → Reading σ}
    (resumed : ∀ why s,(f why s).left = s.left ∧ (f why s).rbuf = s.rbuf ∧ r.view (f why s).sink = r.view s.sink)
    (b : Body) (within : b.Within h.tlrMax) {next rbuf : List Char} {sink : σ} {rs : List (Recv Char π)} (live : ∀ x ∈ rs,x.Live)
    (admitted : r.Admitted (r.view sink) b.chunks b.last) (text : rbuf ++ rs.flatMap Recv.bytes = b.text ++ next) :
    ∃ w left,(h.machine f).drive rs ⟨.start,rbuf,sink⟩ = (.done w,left) ∧ left <:+ rs ∧
      r.Finished b.trailers next (r.view sink ++ r.passed b) w (left.flatMap Recv.bytes) := by
  have start : r.Expects b.trailers next (r.view sink ++ r.passed b) ⟨.start,rbuf,sink⟩ (rs.flatMap Recv.bytes) :=
    .body b .start within rfl (by simpa using admitted) text (by simp)
  exact Machine.reaches (r.Expects b.trailers next (r.view sink ++ r.passed b)) expectsTurn expectsFed (fun expects => expectsSame expects (resumed _ _)) live start

theorem admittedSnoc {v : List Char} {cs : List Chunk} {c : Chunk} {l : SizeLine} (admitted : r.Admitted v cs c.line)
    (last : r.Admits (v ++ (cs ++ [c]).flatMap r.chunk) l) : r.Admitted v (cs ++ [c]) l := by
  induction cs generalizing v with
  | nil => exact ⟨admitted,by simpa [Admitted] using last⟩
  | cons d ds ih => exact ⟨admitted.1,ih admitted.2 (by simpa using last)⟩

variable (r) in
inductive Followed (v c : List Char) : Reading σ → Prop where
  | start {s : Reading σ} (cs : List Chunk) (here : s.left = .start) (goes : ∀ l,r.Admits (r.view s.sink) l → r.Admitted v cs l)
      (text : c = cs.flatMap Chunk.text ++ s.rbuf) (view : r.view s.sink = v ++ cs.flatMap r.chunk) : Followed v c s
  | data {s : Reading σ} (cs : List Chunk) (l : SizeLine) (d : List Char) (n : Nat) (here : s.left = .chunk n)
      (sized : d.length + n = l.size) (none : n = 0 → d = []) (admitted : r.Admitted v cs l)
      (text : c = cs.flatMap Chunk.text ++ (l.text ++ (d ++ s.rbuf)))
      (view : r.view s.sink = v ++ cs.flatMap r.chunk ++ (r.line l ++ d)) : Followed v c s
  | close {s : Reading σ} (cs : List Chunk) (k : Chunk) (here : s.left = .«end») (admitted : r.Admitted v cs k.line)
      (text : c = cs.flatMap Chunk.text ++ (k.line.text ++ (k.data ++ s.rbuf)))
      (view : r.view s.sink = v ++ cs.flatMap r.chunk ++ (r.line k.line ++ k.data)) : Followed v c s
  | trailers {s : Reading σ} (cs : List Chunk) (l : SizeLine) (here : s.left = .tlrEnd) (zero : l.size = 0)
      (admitted : r.Admitted v cs l) (text : c = cs.flatMap Chunk.text ++ (l.text ++ s.rbuf))
      (view : r.view s.sink = v ++ cs.flatMap r.chunk ++ r.line l) : Followed v c s

variable (h) in
def limit : Left → Nat
  | .start => chunkMaxHdr
  | .«end» => 2
  | .tlrEnd => h.tlrMax
  | .chunk _ => 0

variable (r) in
inductive Stopped (v c : List Char) : End (Reading σ) ω → Prop where
  | waits {s : Reading σ} (short : s.rbuf.length ≤ limit h s.left) : Stopped v c (.waits s)
  | gone {s : Reading σ} (short : s.rbuf.length ≤ limit h s.left) : Stopped v c (.gone s)
  | long (left : Left) : Stopped v c (.done (h.long left))
  | size {s : σ} {digits ext : List Char} {w : ω} (refused : h.size s digits ext = .error w) : Stopped v c (.done w)
  | finished (b : Body) (sink : σ) (rest : List Char) (admitted : r.Admitted v b.chunks b.last) (text : c = b.text ++ rest)
      (view : r.view sink = v ++ r.passed b) : Stopped v c (.done (h.finish sink (trailerText b.trailers) rest))

theorem followedTurn {v c : List Char} {s : Reading σ} (followed : r.Followed v c s) :
    (∃ s',h.turn s = .more s' ∧ r.Followed v c s') ∨ (h.turn s = .read s ∧ s.rbuf.length ≤ limit h s.left) ∨
      ∃ w,h.turn s = .done w ∧ r.Stopped v c (.done w) := by
  obtain ⟨left,rbuf,sink⟩ := s
  have pending : ∀ k,left = k → (h.turn ⟨left,rbuf,sink⟩ =
      if limit h k < rbuf.length then .done (h.long k) else .read ⟨left,rbuf,sink⟩) →
      (h.turn ⟨left,rbuf,sink⟩ = .read ⟨left,rbuf,sink⟩ ∧ rbuf.length ≤ limit h left) ∨
        ∃ w,h.turn ⟨left,rbuf,sink⟩ = .done w ∧ r.Stopped v c (.done w) := by
    intro k is turn
    by_cases long : limit h k < rbuf.length
    · exact .inr ⟨_,turn.trans (if_pos long),.long k⟩
    · exact .inl ⟨turn.trans (if_neg long),is ▸ Nat.le_of_not_lt long⟩
  cases followed with
  | start cs here goes text view =>
    cases here
    cases taken : takeSize rbuf with
    | none => exact .inr (pending .start rfl (by simp only [Handler.turn,taken]; rfl))
    | some found =>
      obtain ⟨⟨digits,ext⟩,rest⟩ := found
      obtain ⟨l,rfl,rfl,is⟩ := sizeTaken taken
      cases sized : h.size sink l.digits l.ext with
      | error w => exact .inr (.inr ⟨w,by simp only [Handler.turn,taken,sized],.size sized⟩)
      | ok sink' =>
        obtain ⟨admits,grown⟩ := r.sized sized
        refine .inl ⟨⟨.chunk l.size,rest,sink'⟩,by simp only [Handler.turn,taken,sized,SizeLine.size],
          .data cs l [] l.size rfl (Nat.zero_add _) (fun _ => rfl) (goes l admits) (by simpa [is] using text) ?_⟩
        rw [grown,view,List.append_nil]
  | close cs k here admitted text view =>
    cases here
    cases taken : takeEnd rbuf with
    | none => exact .inr (pending .«end» rfl (by simp only [Handler.turn,taken]; rfl))
    | some found =>
      obtain ⟨⟨⟩,rest⟩ := found
      have is := endTaken taken
      have grown : r.view (h.ends sink) = v ++ (cs ++ [k]).flatMap r.chunk := by
        rw [r.closed,view]
        simp [chunk]
      refine .inl ⟨⟨.start,rest,h.ends sink⟩,by simp only [Handler.turn,taken],
        .start (cs ++ [k]) rfl (fun l admits => admittedSnoc admitted (grown ▸ admits)) ?_ grown⟩
      rw [text,is]
      simp [Chunk.text]
  | trailers cs l here zero admitted text view =>
    cases here
    cases taken : takeTrailers rbuf with
    | none => exact .inr (pending .tlrEnd rfl (by simp only [Handler.turn,taken]; rfl))
    | some found =>
      obtain ⟨tlr,rest⟩ := found
      obtain ⟨ts,rfl,is⟩ := trailersTaken taken
      refine .inr (.inr ⟨_,by simp only [Handler.turn,taken],.finished ⟨cs,l,zero,ts⟩ sink rest admitted ?_ ?_⟩)
      · rw [text,is]
        simp [Body.text,Body.tail]
      · rw [view]
        simp [passed]
  | data cs l d n here sized none admitted text view =>
    cases here
    cases n with
    | zero =>
      obtain rfl := none rfl
      refine .inl ⟨_,rfl,.trailers cs l rfl sized.symm admitted (by simpa using text) (by simpa using view)⟩
    | succ n =>
      have turn := turnChunk (h := h) (s := ⟨.chunk (n + 1),rbuf,sink⟩) rfl (Nat.succ_ne_zero n)
      by_cases empty : rbuf = []
      · exact .inr (.inl ⟨turn.trans (if_pos empty),by simp [empty,limit]⟩)
      rw [if_neg empty] at turn
      by_cases inside : n + 1 ≤ rbuf.length
      · rw [if_pos inside] at turn
        have whole : (d ++ rbuf.take (n + 1)).length = l.size := by simp; omega
        have some : d ++ rbuf.take (n + 1) ≠ [] := List.ne_nil_of_length_pos (by omega)
        refine .inl ⟨_,turn,.close cs ⟨l,d ++ rbuf.take (n + 1),whole,some⟩ rfl admitted ?_ ?_⟩
        · simpa using text
        · rw [r.held,view]
          simp
      · rw [if_neg inside] at turn
        refine .inl ⟨_,turn,.data cs l (d ++ rbuf) (n + 1 - rbuf.length) rfl ?_ ?_ admitted ?_ ?_⟩
        · simp
          omega
        · omega
        · simpa using text
        · rw [r.held,view]
          simp

theorem followedSame {v c : List Char} {s s' : Reading σ} (followed : r.Followed v c s)
    (same : s'.left = s.left ∧ s'.rbuf = s.rbuf ∧ r.view s'.sink = r.view s.sink) : r.Followed v c s' := by
  obtain ⟨left,rbuf,view⟩ := same
  cases followed with
  | start cs here goes text kept => exact .start cs (left.trans here) (by rwa [view]) (by rwa [rbuf]) (by rwa [view])
  | data cs l d n here sized none admitted text kept =>
    exact .data cs l d n (left.trans here) sized none admitted (by rwa [rbuf]) (by rwa [view])
  | close cs k here admitted text kept => exact .close cs k (left.trans here) admitted (by rwa [rbuf]) (by rwa [view])
  | trailers cs l here zero admitted text kept =>
    exact .trailers cs l (left.trans here) zero admitted (by rwa [rbuf]) (by rwa [view])

theorem followedFed {v c bs : List Char} {s : Reading σ} (followed : r.Followed v c s) : r.Followed v (c ++ bs) (s.feed bs) := by
  cases followed with
  | start cs here goes text view => exact .start cs here goes (by simp [text,Reading.feed]) view
  | data cs l d n here sized none admitted text view =>
    exact .data cs l d n here sized none admitted (by simp [text,Reading.feed]) view
  | close cs k here admitted text view => exact .close cs k here admitted (by simp [text,Reading.feed]) view
  | trailers cs l here zero admitted text view => exact .trailers cs l here zero admitted (by simp [text,Reading.feed]) view

theorem stops {f : π → Reading σ → Reading σ}
    (resumed : ∀ why s,(f why s).left = s.left ∧ (f why s).rbuf = s.rbuf ∧ r.view (f why s).sink = r.view s.sink)
    (rs : List (Recv Char π)) (rbuf : List Char) (sink : σ) :
    ∃ taken,taken ++ ((h.machine f).drive rs ⟨.start,rbuf,sink⟩).2 = rs ∧
      r.Stopped (r.view sink) (rbuf ++ taken.flatMap Recv.bytes) ((h.machine f).drive rs ⟨.start,rbuf,sink⟩).1 := by
  have start : r.Followed (r.view sink) rbuf ⟨.start,rbuf,sink⟩ := .start [] rfl (fun l admits => admits) rfl (by simp)
  refine Machine.ends (r.Followed (r.view sink)) (fun followed turn => ?_) (fun followed turn => ?_) (fun followed turn => ?_)
    (fun followed turn => ?_) followedFed (fun followed => followedSame followed (resumed _ _)) start
  all_goals
    rcases followedTurn followed with ⟨t,is,met⟩ | ⟨is,short⟩ | ⟨w,is,met⟩
    all_goals cases turn.symm.trans is
  · exact met
  · exact followed
  · exact ⟨.waits short,.gone short⟩
  · exact met

end Handler.Records
end
end PublicInbox.Chunks
