import PublicInbox.WwwStatic
import Mathlib.Data.List.Infix

/-! The bytes of a file on their way out: getline, for any PSGI server, and send_io of DS.pm, for the socket of a client.
A read of a file may be short, but not empty where there are bytes; a write may take any part. -/
namespace PublicInbox.WwwStatic

def slice (data : Bytes) (off len : Nat) : Bytes := (data.drop off).take len

theorem sliceStep {data buf : Bytes} {off len : Nat} (start : buf <+: slice data off len) :
    buf ++ slice data (off + buf.length) (len - buf.length) = slice data off len := by
  have rest : slice data (off + buf.length) (len - buf.length) = (slice data off len).drop buf.length := by
    unfold slice
    rw [List.drop_take,List.drop_drop]
  obtain ⟨more,is⟩ := start
  rw [rest,← is,List.drop_left]

theorem slicePart {data : Bytes} {off n len k : Nat} (small : n ≤ len) : (slice data off n).take k <+: slice data off len := by
  unfold slice
  exact (List.take_prefix _ _).trans (List.take_prefix_take_left small)

theorem sliceNone {data : Bytes} {off : Nat} : slice data off 0 = [] := List.take_zero

theorem sliceLength {data : Bytes} {off len : Nat} (inside : off + len ≤ data.length) : (slice data off len).length = len := by
  unfold slice
  rw [List.length_take,List.length_drop]
  omega

/-! getline -/

inductive Read where
  | bytes (more : Nat)
  | failed
  deriving DecidableEq

structure Getline where
  off : Nat
  len : Nat

inductive Got where
  | done
  | chunk (buf : Bytes) (next : Getline)
  | dies

def sysread (data : Bytes) (off n : Nat) : Read → Option Bytes
  | .bytes more => some ((slice data off n).take (more + 1))
  | .failed => none

def getline (data : Bytes) (self : Getline) (read : Read) : Got :=
  if self.len = 0 then .done
  else
    let n := if self.len < 8192 then self.len else 8192
    match sysread data self.off n read with
    | none | some [] => .dies
    | some (b :: buf) => .chunk (b :: buf) ⟨self.off + (b :: buf).length,self.len - (b :: buf).length⟩

inductive Outcome where
  | done
  | failed
  | again
  | waiting
  deriving DecidableEq

def chunks (data : Bytes) (self : Getline) : List Read → Bytes × Outcome
  | [] => ([],.waiting)
  | read :: reads =>
    match getline data self read with
    | .done => ([],.done)
    | .dies => ([],.failed)
    | .chunk buf next => (buf ++ (chunks data next reads).1,(chunks data next reads).2)

/-! send_io -/

inductive Write where
  | wrote (n : Nat)
  | again
  | failed
  deriving DecidableEq

def writes : Bytes → List Write → Bytes × Outcome
  | _,[] => ([],.waiting)
  | _,.again :: _ => ([],.again)
  | _,.failed :: _ => ([],.failed)
  | buf,.wrote n :: ws =>
    if buf.drop n = [] then (buf,.done) else (buf.take n ++ (writes (buf.drop n) ws).1,(writes (buf.drop n) ws).2)

structure Tmpio where
  off : Nat
  len : Nat

def Tmpio.past (t : Tmpio) (sent : Bytes) : Tmpio := ⟨t.off + sent.length,t.len - sent.length⟩

def sendIo (data : Bytes) (tmpio : Tmpio) (turns : List (Read × List Write)) : Bytes × Tmpio × Outcome :=
  if tmpio.len = 0 then ([],tmpio,.done)
  else
    match turns with
    | [] => ([],tmpio,.waiting)
    | (read,ws) :: turns =>
      match sysread data tmpio.off (if tmpio.len > 65536 then 65536 else tmpio.len) read with
      | none | some [] => ([],tmpio,.failed)
      | some (b :: buf) =>
        let (sent,outcome) := writes (b :: buf) ws
        if outcome = .done then
          let (more,rest) := sendIo data (tmpio.past sent) turns
          (sent ++ more,rest)
        else (sent,tmpio.past sent,outcome)

def flushes (data : Bytes) (tmpio : Tmpio) : List (List (Read × List Write)) → Bytes × Outcome
  | [] => ([],.waiting)
  | turns :: calls =>
    match sendIo data tmpio turns with
    | (sent,rest,.again) => (sent ++ (flushes data rest calls).1,(flushes data rest calls).2)
    | (sent,_,outcome) => (sent,outcome)

/-! What is delivered -/

structure Delivered (data : Bytes) (off len : Nat) (out : Bytes) (outcome : Outcome) (failure : Prop) : Prop where
  start : out <+: slice data off len
  whole : outcome = .done → out = slice data off len
  failed : outcome = .failed → failure

theorem sysreadPart {data buf : Bytes} {off n len : Nat} {read : Read} (small : n ≤ len) (is : sysread data off n read = some buf) :
    buf <+: slice data off len := by
  cases read with
  | failed => cases is
  | bytes more =>
    cases is
    exact slicePart small

theorem sysreadSome {data : Bytes} {off n len : Nat} {read : Read} (inside : off + len ≤ data.length) (small : n ≤ len)
    (positive : 0 < n) : sysread data off n read ≠ some [] := by
  cases read with
  | failed => nofun
  | bytes more =>
    intro is
    have length := congrArg List.length (Option.some.inj is)
    rw [List.length_take,sliceLength (by omega)] at length
    simp at length
    omega

theorem Delivered.after {data buf out : Bytes} {off len : Nat} {outcome : Outcome} {failure failure' : Prop}
    (start : buf <+: slice data off len) (rest : Delivered data (off + buf.length) (len - buf.length) out outcome failure)
    (sooner : failure → failure') : Delivered data off len (buf ++ out) outcome failure' := by
  have parts := sliceStep start
  refine ⟨?_,fun done => ?_,fun failed => sooner (rest.failed failed)⟩
  · rw [← parts]
    exact (List.prefix_append_right_inj buf).mpr rest.start
  · rw [rest.whole done,parts]

theorem leftInside {data buf : Bytes} {off len : Nat} (inside : off + len ≤ data.length) (start : buf <+: slice data off len) :
    off + buf.length + (len - buf.length) ≤ data.length := by
  have short := start.length_le
  rw [sliceLength inside] at short
  omega

inductive GotPart (data : Bytes) (self : Getline) (read : Read) : Got → Prop
  | done (empty : self.len = 0) : GotPart data self read .done
  | dies (failed : read = .failed) : GotPart data self read .dies
  | chunk (buf : Bytes) (start : buf <+: slice data self.off self.len) (some : buf ≠ []) :
      GotPart data self read (.chunk buf ⟨self.off + buf.length,self.len - buf.length⟩)

theorem getlinePart {data : Bytes} {self : Getline} (inside : self.off + self.len ≤ data.length) (read : Read) :
    GotPart data self read (getline data self read) := by
  have small : (if self.len < 8192 then self.len else 8192) ≤ self.len := by split <;> omega
  unfold getline
  split
  · exact .done ‹_›
  · dsimp only
    split
    · rename_i none
      cases read with
      | failed => exact .dies rfl
      | bytes more => cases none
    · rename_i empty
      exact absurd empty (sysreadSome inside small (by split <;> omega))
    · rename_i b buf is
      exact .chunk (b :: buf) (sysreadPart small is) (List.cons_ne_nil b buf)

theorem emptyDelivered {data : Bytes} {off len : Nat} {failure : Prop} (empty : len = 0) :
    Delivered data off len [] .done failure := by
  subst empty
  exact ⟨List.nil_prefix,fun _ => sliceNone.symm,nofun⟩

theorem noneDelivered {data : Bytes} {off len : Nat} {outcome : Outcome} {failure : Prop} (other : outcome ≠ .done)
    (failed : outcome = .failed → failure) : Delivered data off len [] outcome failure :=
  ⟨List.nil_prefix,fun done => absurd done other,failed⟩

theorem chunksDelivered {data : Bytes} {self : Getline} (inside : self.off + self.len ≤ data.length) (reads : List Read) :
    Delivered data self.off self.len (chunks data self reads).1 (chunks data self reads).2 (.failed ∈ reads) := by
  induction reads generalizing self with
  | nil => exact noneDelivered nofun nofun
  | cons read reads ih =>
    have got := getlinePart inside read
    unfold chunks
    generalize getline data self read = result at got
    cases got with
    | done empty => exact emptyDelivered empty
    | dies failed => exact noneDelivered nofun fun _ => failed ▸ List.mem_cons_self
    | chunk buf start _ =>
      dsimp only
      have rest := @ih ⟨self.off + buf.length,self.len - buf.length⟩ (leftInside inside start)
      exact rest.after start (List.mem_cons_of_mem _)

theorem chunksEnd {data : Bytes} {self : Getline} (inside : self.off + self.len ≤ data.length) {reads : List Read}
    (enough : self.len < reads.length) (good : .failed ∉ reads) : (chunks data self reads).2 = .done := by
  induction reads generalizing self with
  | nil => exact absurd enough (Nat.not_lt_zero _)
  | cons read reads ih =>
    have got := getlinePart inside read
    unfold chunks
    generalize getline data self read = result at got
    cases got with
    | done empty => rfl
    | dies failed => exact absurd (failed ▸ List.mem_cons_self) good
    | chunk buf start some =>
      have positive := List.length_pos_iff.mpr some
      have short := start.length_le
      rw [sliceLength inside] at short
      rw [List.length_cons] at enough
      exact ih (leftInside inside start) (by dsimp only; omega) (fun mem => good (List.mem_cons_of_mem _ mem))

theorem writesPart (buf : Bytes) (ws : List Write) : (writes buf ws).1 <+: buf ∧
    ((writes buf ws).2 = .done → (writes buf ws).1 = buf) ∧ ((writes buf ws).2 = .failed → .failed ∈ ws) := by
  induction ws generalizing buf with
  | nil => exact ⟨List.nil_prefix,nofun,nofun⟩
  | cons w ws ih =>
    cases w with
    | again => exact ⟨List.nil_prefix,nofun,nofun⟩
    | failed => exact ⟨List.nil_prefix,nofun,fun _ => List.mem_cons_self⟩
    | wrote n =>
      unfold writes
      split
      · exact ⟨List.prefix_refl _,fun _ => rfl,nofun⟩
      · obtain ⟨start,whole,failed⟩ := ih (buf.drop n)
        have parts : buf.take n ++ buf.drop n = buf := List.take_append_drop n buf
        refine ⟨?_,fun done => ?_,fun is => List.mem_cons_of_mem _ (failed is)⟩
        · conv_rhs => rw [← parts]
          exact (List.prefix_append_right_inj _).mpr start
        · rw [whole done,parts]

def Takes (n : Nat) (ws : List Write) : Prop := .wrote 0 ∉ ws ∧ (n ≤ ws.length ∨ .again ∈ ws)

theorem takesRest {n k : Nat} {ws : List Write} (takes : Takes n (.wrote k :: ws)) : Takes (n - k) ws := by
  obtain ⟨some,enough⟩ := takes
  have positive : k ≠ 0 := fun zero => some (zero ▸ List.mem_cons_self)
  refine ⟨fun mem => some (List.mem_cons_of_mem _ mem),?_⟩
  rcases enough with many | full
  · rw [List.length_cons] at many
    exact .inl (by omega)
  · cases full with
    | tail _ full => exact .inr full

theorem takesFewer {n k : Nat} {ws : List Write} (fewer : k ≤ n) (takes : Takes n ws) : Takes k ws :=
  ⟨takes.1,takes.2.imp_left (Nat.le_trans fewer)⟩

theorem writesEnd {buf : Bytes} {ws : List Write} (some : buf ≠ []) (takes : Takes buf.length ws) : (writes buf ws).2 ≠ .waiting := by
  induction ws generalizing buf with
  | nil =>
    have positive := List.length_pos_iff.mpr some
    rcases takes.2 with many | full
    · exact absurd many (Nat.not_le.mpr positive)
    · cases full
  | cons w ws ih =>
    cases w with
    | again => nofun
    | failed => nofun
    | wrote n =>
      unfold writes
      split
      · nofun
      · refine ih ‹_› ?_
        rw [List.length_drop]
        exact takesRest takes

theorem writesFull (buf : Bytes) (ws : List Write) (full : (writes buf ws).2 = .again) : .again ∈ ws := by
  induction ws generalizing buf with
  | nil => cases full
  | cons w ws ih =>
    cases w with
    | again => exact List.mem_cons_self
    | failed => cases full
    | wrote n =>
      unfold writes at full
      split at full
      · cases full
      · exact List.mem_cons_of_mem _ (ih _ full)

def Fails (turns : List (Read × List Write)) : Prop := ∃ t ∈ turns,t.1 = .failed ∨ .failed ∈ t.2

structure Sent (data : Bytes) (tmpio : Tmpio) (turns : List (Read × List Write)) (sent : Bytes) (rest : Tmpio)
    (outcome : Outcome) : Prop where
  start : sent <+: slice data tmpio.off tmpio.len
  left : rest = tmpio.past sent
  whole : outcome = .done → rest.len = 0
  failed : outcome = .failed → Fails turns

theorem noneSent {data : Bytes} {tmpio : Tmpio} {turns : List (Read × List Write)} {outcome : Outcome}
    (whole : outcome = .done → tmpio.len = 0) (failed : outcome = .failed → Fails turns) :
    Sent data tmpio turns [] tmpio outcome := ⟨List.nil_prefix,rfl,whole,failed⟩

theorem sendIoSent {data : Bytes} {tmpio : Tmpio} (inside : tmpio.off + tmpio.len ≤ data.length)
    (turns : List (Read × List Write)) :
    Sent data tmpio turns (sendIo data tmpio turns).1 (sendIo data tmpio turns).2.1 (sendIo data tmpio turns).2.2 := by
  induction turns generalizing tmpio with
  | nil =>
    unfold sendIo
    split
    · exact noneSent (fun _ => ‹_›) nofun
    · exact noneSent nofun nofun
  | cons turn turns ih =>
    obtain ⟨read,ws⟩ := turn
    have small : (if tmpio.len > 65536 then 65536 else tmpio.len) ≤ tmpio.len := by split <;> omega
    unfold sendIo
    split
    · exact noneSent (fun _ => ‹_›) nofun
    · dsimp only
      split
      · rename_i none
        refine noneSent nofun fun _ => ⟨_,List.mem_cons_self,.inl ?_⟩
        cases read with
        | failed => rfl
        | bytes more => cases none
      · rename_i empty
        exact absurd empty (sysreadSome inside small (by split <;> omega))
      · rename_i b buf is
        have front := sysreadPart small is
        have part := writesPart (b :: buf) ws
        generalize writes (b :: buf) ws = result at part
        obtain ⟨sent,outcome⟩ := result
        obtain ⟨start,whole,failed⟩ := part
        dsimp only at start whole failed ⊢
        split
        · rename_i done
          rw [whole done]
          have rest := @ih (tmpio.past (b :: buf)) (leftInside inside front)
          refine ⟨?_,?_,rest.whole,fun is => ?_⟩
          · rw [← sliceStep front]
            exact (List.prefix_append_right_inj _).mpr rest.start
          · rw [rest.left]
            unfold Tmpio.past
            rw [List.length_append,Nat.add_assoc,Nat.sub_sub]
          · obtain ⟨t,mem,fails⟩ := rest.failed is
            exact ⟨t,List.mem_cons_of_mem _ mem,fails⟩
        · exact ⟨start.trans front,rfl,fun done => absurd done ‹_›,fun is => ⟨_,List.mem_cons_self,.inr (failed is)⟩⟩

def Lasts (len : Nat) (turns : List (Read × List Write)) : Prop := len ≤ turns.length ∧ ∀ t ∈ turns,Takes 65536 t.2

def Writable (turns : List (Read × List Write)) : Prop := ∀ t ∈ turns,.again ∉ t.2

theorem sendIoEnd {data : Bytes} {tmpio : Tmpio} (inside : tmpio.off + tmpio.len ≤ data.length)
    {turns : List (Read × List Write)} (lasts : Lasts tmpio.len turns) :
    (sendIo data tmpio turns).2.2 ≠ .waiting ∧ ((sendIo data tmpio turns).2.2 = .again → ¬Writable turns) := by
  induction turns generalizing tmpio with
  | nil =>
    have empty : tmpio.len = 0 := Nat.le_zero.mp lasts.1
    unfold sendIo
    rw [if_pos empty]
    exact ⟨nofun,nofun⟩
  | cons turn turns ih =>
    obtain ⟨read,ws⟩ := turn
    obtain ⟨many,takes⟩ := lasts
    have small : (if tmpio.len > 65536 then 65536 else tmpio.len) ≤ tmpio.len := by split <;> omega
    unfold sendIo
    split
    · exact ⟨nofun,nofun⟩
    · dsimp only
      split
      · exact ⟨nofun,nofun⟩
      · exact ⟨nofun,nofun⟩
      · rename_i b buf is
        have front := sysreadPart small is
        have short : (b :: buf).length ≤ 65536 := by
          have length := (sysreadPart (Nat.le_refl _) is).length_le
          unfold slice at length
          rw [List.length_take] at length
          split at length <;> omega
        have ended := writesEnd (List.cons_ne_nil b buf) (takesFewer short (takes _ List.mem_cons_self))
        have full := writesFull (b :: buf) ws
        have part := writesPart (b :: buf) ws
        generalize writes (b :: buf) ws = result at ended full part
        obtain ⟨sent,outcome⟩ := result
        dsimp only at ended full part ⊢
        split
        · rename_i done
          rw [part.2.1 done]
          have fewer : Lasts (tmpio.past (b :: buf)).len turns := by
            refine ⟨?_,fun t mem => takes t (List.mem_cons_of_mem _ mem)⟩
            show tmpio.len - (b :: buf).length ≤ turns.length
            rw [List.length_cons] at many ⊢
            omega
          obtain ⟨ended,full⟩ := @ih (tmpio.past (b :: buf)) (leftInside inside front) fewer
          exact ⟨ended,fun again writable => full again fun t mem => writable t (List.mem_cons_of_mem _ mem)⟩
        · exact ⟨ended,fun again writable => writable _ List.mem_cons_self (full again)⟩

theorem flushesDelivered {data : Bytes} {tmpio : Tmpio} (inside : tmpio.off + tmpio.len ≤ data.length)
    (calls : List (List (Read × List Write))) :
    Delivered data tmpio.off tmpio.len (flushes data tmpio calls).1 (flushes data tmpio calls).2 (∃ turns ∈ calls,Fails turns) := by
  induction calls generalizing tmpio with
  | nil => exact noneDelivered nofun nofun
  | cons turns calls ih =>
    have one := sendIoSent inside turns
    unfold flushes
    generalize sendIo data tmpio turns = result at one
    obtain ⟨sent,rest,outcome⟩ := result
    obtain ⟨start,left,whole,failed⟩ := one
    dsimp only at start left whole failed
    subst left
    split
    · rename_i same
      cases same
      have more := @ih (tmpio.past sent) (leftInside inside start)
      exact more.after start fun ⟨turns,mem,fails⟩ => ⟨turns,List.mem_cons_of_mem _ mem,fails⟩
    · rename_i same
      cases same
      refine ⟨start,fun done => ?_,fun is => ⟨turns,List.mem_cons_self,failed is⟩⟩
      have parts := sliceStep start
      have none : tmpio.len - sent.length = 0 := whole done
      rw [none,sliceNone,List.append_nil] at parts
      exact parts

theorem lastsFewer {n k : Nat} {turns : List (Read × List Write)} (fewer : k ≤ n) (lasts : Lasts n turns) : Lasts k turns :=
  ⟨Nat.le_trans fewer lasts.1,lasts.2⟩

theorem flushesEnd {data : Bytes} {tmpio : Tmpio} (inside : tmpio.off + tmpio.len ≤ data.length)
    {calls : List (List (Read × List Write))} (lasts : ∀ turns ∈ calls,Lasts tmpio.len turns)
    (good : ∀ turns ∈ calls,¬Fails turns) (writable : ∃ turns ∈ calls,Writable turns) : (flushes data tmpio calls).2 = .done := by
  induction calls generalizing tmpio with
  | nil =>
    obtain ⟨_,mem,_⟩ := writable
    cases mem
  | cons turns calls ih =>
    have one := sendIoSent inside turns
    obtain ⟨ended,full⟩ := sendIoEnd inside (lasts turns List.mem_cons_self)
    unfold flushes
    generalize sendIo data tmpio turns = result at one ended full
    obtain ⟨sent,rest,outcome⟩ := result
    obtain ⟨start,left,_,failed⟩ := one
    dsimp only at start left failed ended full
    subst left
    cases outcome with
    | done => rfl
    | failed => exact absurd (failed rfl) (good turns List.mem_cons_self)
    | waiting => exact absurd rfl ended
    | again =>
      refine @ih (tmpio.past sent) (leftInside inside start)
        (fun turns mem => lastsFewer (Nat.sub_le _ _) (lasts turns (List.mem_cons_of_mem _ mem)))
        (fun turns mem => good turns (List.mem_cons_of_mem _ mem)) ?_
      obtain ⟨turns',mem,all⟩ := writable
      rcases List.mem_cons.mp mem with same | mem
      · exact absurd (same ▸ all) (full rfl)
      · exact ⟨turns',mem,all⟩

structure Emitted (data : Bytes) (off len : Nat) : Prop where
  chunked (reads : List Read) :
    Delivered data off len (chunks data ⟨off,len⟩ reads).1 (chunks data ⟨off,len⟩ reads).2 (.failed ∈ reads)
  chunkedEnd (reads : List Read) (enough : len < reads.length) (good : .failed ∉ reads) : (chunks data ⟨off,len⟩ reads).2 = .done
  flushed (calls : List (List (Read × List Write))) :
    Delivered data off len (flushes data ⟨off,len⟩ calls).1 (flushes data ⟨off,len⟩ calls).2 (∃ turns ∈ calls,Fails turns)
  flushedEnd (calls : List (List (Read × List Write))) (lasts : ∀ turns ∈ calls,Lasts len turns)
    (good : ∀ turns ∈ calls,¬Fails turns) (writable : ∃ turns ∈ calls,Writable turns) : (flushes data ⟨off,len⟩ calls).2 = .done

theorem emitted {data : Bytes} {off len : Nat} (inside : off + len ≤ data.length) : Emitted data off len where
  chunked := @chunksDelivered data ⟨off,len⟩ inside
  chunkedEnd := @chunksEnd data ⟨off,len⟩ inside
  flushed := @flushesDelivered data ⟨off,len⟩ inside
  flushedEnd := @flushesEnd data ⟨off,len⟩ inside

end PublicInbox.WwwStatic
