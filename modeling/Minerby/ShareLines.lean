/-
The submit lines on the wire.  Whatever the workers and the main thread do, what
is sent of submits is, line for line and in order, the shares that the workers
report; a line is whole unless a `send` of it has failed or there was no
connection.
-/
import Minerby.ProgramSafety
import Minerby.SendLines

namespace Minerby

namespace MinerPool

variable {threads : UInt32} {H : Type} {s s' : State threads H}

/-- The share that an event says a worker has reported. -/
def Event.reported? : Event threads H → Option Attempt
  | .share _ p nonce digest => some ⟨p, nonce, digest⟩
  | _ => none

/-- The shares that have been reported, newest first. -/
def State.reported (s : State threads H) : List Attempt :=
  s.log.filterMap Event.reported?

/-- A step in which no worker returns from `on_share`. -/
structure Unreported (s s' : State threads H) : Prop where
  reported : s'.reported = s.reported
  sharing : ∀ i done digest, (s.workers i).pc = .sharing done digest →
    s'.workers i = s.workers i

theorem Unreported.refl (s : State threads H) : Unreported s s :=
  ⟨rfl, fun _ _ _ _ => rfl⟩

theorem Called.unreported {call : Call} (hcalled : Called s s' call) :
    Unreported s s' := by
  constructor
  · rw [State.reported, hcalled.log]
    rfl
  · intro i done digest hsharing
    rw [hcalled.workers]

theorem Turned.unreported {i : Fin threads.toNat} {label : Label threads H}
    (hturned : Turned s s' i label)
    (hout : label = .worker i →
      ∀ done digest, (s.workers i).pc ≠ .sharing done digest) :
    Unreported s s' := by
  obtain ⟨w, inFlight, event, hturn, -, -, hlog⟩ := hturned.turn
  have hboth : event.toList.filterMap Event.reported? = [] ∧
      ∀ done digest, (s.workers i).pc ≠ .sharing done digest := by
    cases hturn with
    | share done p digest pc work => exact absurd pc (hout rfl done digest)
    | _ => simp_all [List.filterMap_cons, Event.reported?]
  constructor
  · rw [State.reported, hlog, List.filterMap_append, hboth.1]
    rfl
  · intro j done digest hsharing
    apply hturned.others
    rintro rfl
    exact hboth.2 done digest hsharing

/-- What a worker reports when it returns from `on_share`. -/
theorem workerStep_reported {i : Fin threads.toNat} {done : Nat}
    {p : JobPtr} {digest : Hash256}
    (hpc : (s.workers i).pc = .sharing done digest)
    (hwork : (s.workers i).work = some p) (hstep : workerStep s i = some s') :
    s'.reported = ⟨p, (s.workers i).nonce, digest⟩ :: s.reported := by
  simp only [workerStep, hpc, hwork, Option.some.injEq] at hstep
  subst hstep
  rfl

theorem Sound.ctl_unreported (hsound : Sound s) (hstep : ctlStep s = some s') :
    Unreported s s' := by
  constructor
  · rw [State.reported, (ctlStep_frame hstep).1]
    rfl
  · intro i done digest hsharing
    rcases (hsound.ctl_threads hstep).2.2 i with hsame | ⟨hout, -⟩
    · exact hsame
    · rw [hsharing] at hout
      cases hout

end MinerPool

namespace Rig

open MinerPool (Unreported)

variable {threads : UInt32} {setup : Setup} {rig rig' : Rig threads}

theorem step_unreported {label : RigLabel threads}
    (hsound : MinerPool.Sound rig.pool)
    (hout : ∀ i, label = .worker i →
      ∀ done digest, (rig.pool.workers i).pc ≠ .sharing done digest)
    (hstep : rig.step setup label = some rig') :
    Unreported rig.pool rig'.pool := by
  cases step_stepped hstep with
  | onJob idle pc => exact Unreported.refl _
  | clearWork pc called => exact called.unreported
  | stop pc called => exact called.unreported
  | main turn =>
      rcases turn.pool with hsame | hctl | ⟨call, -, called⟩ |
        ⟨rekeyed, job, -, called⟩
      · rw [hsame]
        exact Unreported.refl _
      · exact hsound.ctl_unreported hctl
      · exact called.unreported
      · exact called.unreported
  | worker turned => exact turned.pool.unreported fun _ => hout _ rfl
  | made turned => exact turned.pool.unreported (by rintro ⟨⟩)
  | hashed turned => exact turned.pool.unreported (by rintro ⟨⟩)

end Rig

/-- The share that a call of `submit` is for. -/
def SubmitCall.attempt (call : SubmitCall) : MinerPool.Attempt :=
  ⟨call.work, call.nonce, call.digest⟩

/-- The line that the client makes of it. -/
def SubmitCall.line (text : JsonText) (call : SubmitCall) : List Char :=
  jsonLine text (call.client.submit call.work.job call.nonce call.digest).2

namespace Miner

open MinerPool (Attempt Event Unreported soleWorker)

variable {threads : UInt32} {setup : Setup} {text : JsonText}
  {s s' : Miner threads}

/-- The bytes of what was sent, newest first. -/
def sentBytes (parts : List Sent) : List Char :=
  parts.reverse.flatMap Sent.bytes

theorem sentBytes_cons (sent : Sent) (parts : List Sent) :
    sentBytes (sent :: parts) = sentBytes parts ++ sent.bytes := by
  simp [sentBytes, List.flatMap_append]

/-- What the `send`s of these parts have returned. -/
def taken (parts : List Sent) : List (Option Nat) :=
  parts.map fun sent => some sent.bytes.length

/-- What was sent in these parts is the line of the call as far as `rest`. -/
structure LineOf (text : JsonText) (call : SubmitCall) (parts : List Sent)
    (rest : List Char) : Prop where
  work : ∀ sent ∈ parts, sent.work = call.work
  bytes : sentBytes parts ++ rest = call.line text

/-- What a call that has returned put on the wire: the whole line, each `send`
of it having succeeded; the line as far as the `send` that failed; or nothing,
when there was no connection and `send` was not called. -/
inductive Submitted (text : JsonText) (call : SubmitCall)
    (parts : List Sent) : Prop
  | whole (line : LineOf text call parts []) (sends : call.sends = taken parts)
  | cut (rest : List Char) (line : LineOf text call parts rest)
      (sends : call.sends = none :: taken parts)
  | offline (closed : call.client.connected = false) (sends : call.sends = [])
      (nothing : parts = [])

/-- What is being sent: nothing, or the line of the share that the worker in
`submit` is reporting, each `send` of it having succeeded so far. -/
def Sending (text : JsonText) (s : Miner threads) (current : List Sent)
    (older : List SubmitCall) : Prop :=
  match s.sending with
  | none => current = [] ∧ s.calls = older
  | some (i, rest) => ∃ call, s.calls = call :: older ∧
      call.attempt ∈ (s.rig.pool.workers i).pendingShare ∧
      LineOf text call current rest ∧ call.sends = taken current

/-- What was sent is the lines of the shares reported, and the one that is being
sent. -/
def WritesShares (text : JsonText) (s : Miner threads) : Prop :=
  ∃ current lines older, s.wire = current ++ lines.flatten ∧
    Sending text s current older ∧
    List.Forall₂ (Submitted text) older lines ∧
    older.map SubmitCall.attempt = s.rig.pool.reported

/-- A worker in `on_share` is the one that is sending or waits for it. -/
theorem pendingShare_of_sharing {w : MinerPool.Worker Hasher}
    {attempt : Attempt} (hattempt : attempt ∈ w.pendingShare) :
    ∃ done digest, w.pc = .sharing done digest := by
  unfold MinerPool.Worker.pendingShare at hattempt
  split at hattempt
  · rename_i done digest p hpc hwork
    exact ⟨done, digest, hpc⟩
  · cases hattempt

theorem Quiet.unreported (hsound : MinerPool.Sound s.rig.pool)
    (hquiet : Quiet setup s s') : Unreported s.rig.pool s'.rig.pool := by
  rcases hquiet.rig with hsame | ⟨label, hlabel, hrig⟩
  · rw [hsame]
    exact Unreported.refl _
  · apply Rig.step_unreported hsound _ hrig
    intro i hworker done digest hsharing
    have hnot := hlabel i hworker
    simp [Miner.atShare, hsharing] at hnot

theorem WritesShares.quiet (hwrites : WritesShares text s)
    (hsound : MinerPool.Sound s.rig.pool) (hquiet : Quiet setup s s') :
    WritesShares text s' := by
  obtain ⟨current, lines, older, hwire, hsending, hlines, hreported⟩ := hwrites
  have hpool := hquiet.unreported hsound
  refine ⟨current, lines, older, hquiet.wire.trans hwire, ?_, hlines,
    hreported.trans hpool.reported.symm⟩
  unfold Sending at hsending ⊢
  rw [hquiet.sending, hquiet.calls]
  split
  · rename_i hnone
    rwa [hnone] at hsending
  · rename_i i rest hsome
    rw [hsome] at hsending
    obtain ⟨call, hcalls, hattempt, hline⟩ := hsending
    obtain ⟨done, digest, hpc⟩ := pendingShare_of_sharing hattempt
    rw [hpool.sharing i done digest hpc]
    exact ⟨call, hcalls, hattempt, hline⟩

/-- A worker returns from `on_share`: its line is over. -/
theorem WritesShares.returnShare {current : List Sent}
    {lines : List (List Sent)} {older : List SubmitCall} {call : SubmitCall}
    {i : Fin threads.toNat} {done : Nat} {p : MinerPool.JobPtr}
    {digest : Hash256} (hstep : s.returnShare i = some s')
    (hwire : s.wire = current ++ lines.flatten)
    (hcalls : s.calls = call :: older)
    (hlines : List.Forall₂ (Submitted text) older lines)
    (hreported : older.map SubmitCall.attempt = s.rig.pool.reported)
    (hpc : (s.rig.pool.workers i).pc = .sharing done digest)
    (hwork : (s.rig.pool.workers i).work = some p)
    (hattempt : call.attempt = ⟨p, (s.rig.pool.workers i).nonce, digest⟩)
    (hsubmitted : Submitted text call current) : WritesShares text s' := by
  obtain ⟨rig, hrig, rfl⟩ := Option.map_eq_some_iff.mp hstep
  obtain ⟨pool, hpool, rfl⟩ := Option.map_eq_some_iff.mp hrig
  refine ⟨[], current :: lines, call :: older, hwire, ⟨rfl, hcalls⟩,
    List.Forall₂.cons hsubmitted hlines, ?_⟩
  change _ = pool.reported
  rw [MinerPool.workerStep_reported hpc hwork hpool, List.map_cons, hattempt,
    hreported]

theorem WritesShares.submit {i : Fin threads.toNat}
    (hwrites : WritesShares text s) (hstep : s.submit text i = some s') :
    WritesShares text s' := by
  obtain ⟨current, lines, older, hwire, hsending, hlines, hreported⟩ := hwrites
  unfold Miner.submit at hstep
  simp only at hstep
  split at hstep
  case h_2 => cases hstep
  case h_1 done digest p hfree hpc hwork =>
    have hnone : current = [] ∧ s.calls = older := by
      simpa [Sending, hfree] using hsending
    obtain ⟨rfl, rfl⟩ := hnone
    split at hstep
    · obtain rfl := Option.some.inj hstep
      refine ⟨[], lines, s.calls, hwire, ⟨_, rfl, ?_, ⟨nofun, rfl⟩, rfl⟩, hlines,
        hreported⟩
      simp [MinerPool.Worker.pendingShare, hpc, hwork, SubmitCall.attempt]
    · rename_i hclosed
      have hsock := s.client.submit_sock p.job (s.rig.pool.workers i).nonce
        digest
      refine WritesShares.returnShare hstep hwire rfl hlines hreported hpc hwork
        rfl (.offline ?_ rfl rfl)
      rw [PoolClient.connected, TcpClient.isOpen, hsock] at hclosed
      simpa [PoolClient.connected, TcpClient.isOpen] using hclosed

theorem LineOf.sent {call : SubmitCall} {parts : List Sent} {rest : List Char}
    (hline : LineOf text call parts rest) (conn n : Nat) :
    LineOf text call (⟨conn, call.work, rest.take n⟩ :: parts)
      (rest.drop n) := by
  refine ⟨List.forall_mem_cons.mpr ⟨rfl, hline.work⟩, ?_⟩
  rw [sentBytes_cons, List.append_assoc, List.take_append_drop, hline.bytes]

/-- What a `send` returned does not change the line. -/
theorem LineOf.of_sends {call : SubmitCall} {parts : List Sent}
    {rest : List Char} (hline : LineOf text call parts rest)
    (sends : List (Option Nat)) :
    LineOf text { call with sends := sends } parts rest :=
  ⟨hline.work, hline.bytes⟩

theorem WritesShares.send {i : Fin threads.toNat} {result : SendResult}
    (hwrites : WritesShares text s) (hstep : s.send i result = some s') :
    WritesShares text s' := by
  obtain ⟨current, lines, older, hwire, hsending, hlines, hreported⟩ := hwrites
  unfold Miner.send at hstep
  simp only at hstep
  split at hstep
  case h_2 => cases hstep
  case h_1 j bytes done digest p hsome hpc hwork =>
    split at hstep
    case isFalse => cases hstep
    case isTrue hholder =>
      subst hholder
      simp only [Sending, hsome] at hsending
      obtain ⟨call, hcalls, hattempt, hline, hsends⟩ := hsending
      have hattempt' : call.attempt =
          ⟨p, (s.rig.pool.workers j).nonce, digest⟩ := by
        simpa [MinerPool.Worker.pendingShare, hpc, hwork] using hattempt
      obtain rfl : call.work = p := congrArg Attempt.work hattempt'
      split at hstep
      · rename_i conn n hsock
        have hmore := hline.sent conn n
        have hwire' : (⟨conn, call.work, bytes.take n⟩ : Sent) :: s.wire =
            (⟨conn, call.work, bytes.take n⟩ :: current) ++ lines.flatten :=
          congrArg (List.cons _) hwire
        have hnoted : (s.noteSend (some (bytes.take n).length)).calls =
            { call with sends := some (bytes.take n).length :: call.sends } ::
              older := by
          simp [Miner.noteSend, hcalls]
        have htaken : some (bytes.take n).length :: call.sends =
            taken (⟨conn, call.work, bytes.take n⟩ :: current) :=
          congrArg (List.cons _) hsends
        split at hstep
        · rename_i hwhole
          rw [hwhole] at hmore
          exact WritesShares.returnShare hstep hwire' hnoted hlines hreported
            hpc hwork hattempt' (.whole (hmore.of_sends _) htaken)
        · obtain rfl := Option.some.inj hstep
          exact ⟨_, lines, older, hwire', ⟨_, hnoted, hattempt,
            hmore.of_sends _, htaken⟩, hlines, hreported⟩
      · have hnoted : (s.noteSend none).calls =
            { call with sends := none :: call.sends } :: older := by
          simp [Miner.noteSend, hcalls]
        exact WritesShares.returnShare hstep hwire hnoted hlines hreported hpc
          hwork hattempt'
          (.cut bytes (hline.of_sends _) (congrArg (List.cons _) hsends))

theorem WritesShares.step {label : LoopLabel threads}
    (hwrites : WritesShares text s) (hsound : MinerPool.Sound s.rig.pool)
    (hstep : s.step setup text label = some s') : WritesShares text s' := by
  rcases step_quiet hstep with hquiet | ⟨i, hsubmit⟩ | ⟨i, result, hsend⟩
  · exact hwrites.quiet hsound hquiet
  · exact hwrites.submit hsubmit
  · exact hwrites.send hsend

theorem WritesShares.of_run {user pass : String}
    {labels : List (LoopLabel threads)}
    (hrun : Run (Miner.step setup text) anyLabel (Miner.init setup user pass)
      labels s) : WritesShares text s := by
  induction hrun with
  | nil => exact ⟨[], [], [], rfl, ⟨rfl, rfl⟩, List.Forall₂.nil, rfl⟩
  | snoc label run allowed taken ih =>
      obtain ⟨rigLabels, hrig⟩ := rig_run run
      exact ih.step (Rig.KeyedAlone.of_run hrig).sound taken

/-- In bitcoin mode every share reported is a header of its job with its
nonce. -/
theorem headerShare_of_reported {user pass : String}
    {labels : List (LoopLabel threads)} (hbitcoin : setup.protocol = .stratum)
    (hrun : Run (Miner.step setup text) anyLabel (Miner.init setup user pass)
      labels s) {attempt : Attempt}
    (hattempt : attempt ∈ s.rig.pool.reported) : HeaderShare attempt := by
  obtain ⟨event, hevent, hshare⟩ := List.mem_filterMap.mp hattempt
  cases event with
  | share i p nonce digest =>
      obtain rfl := Option.some.inj hshare
      apply (headerShare_of_run hbitcoin hrun i).2
      apply List.mem_append_right
      exact List.mem_filterMap.mpr ⟨_, hevent, by simp [Event.share?]⟩
  | _ => cases hshare

/-- What reaches the wire as submits in bitcoin mode: in every run of the
program, whatever the server sends and wherever sending fails, the bytes that
were sent of submit lines are, in order, what each call of `submit` that has
returned put there (its line, or the line as far as the `send` that failed, or
nothing without a connection), and the beginning of the line of the call in
progress; the calls are for the shares reported, in order, and each of these
is a header whose double SHA-256 meets the target of its job. -/
theorem submits_are_shares {user pass : String}
    {labels : List (LoopLabel threads)} (hbitcoin : setup.protocol = .stratum)
    (hrun : Run (Miner.step setup text) anyLabel (Miner.init setup user pass)
      labels s) :
    ∃ current lines older, s.wire = current ++ lines.flatten ∧
      List.Forall₂ (Submitted text) older lines ∧
      older.map SubmitCall.attempt = s.rig.pool.reported ∧
      (∀ call ∈ s.calls, HeaderShare call.attempt) ∧
      match s.sending with
      | none => current = [] ∧ s.calls = older
      | some (i, rest) => ∃ call, s.calls = call :: older ∧
          call.attempt ∈ (s.rig.pool.workers i).pendingShare ∧
          LineOf text call current rest ∧ call.sends = taken current := by
  obtain ⟨current, lines, older, hwire, hsending, hlines, hreported⟩ :=
    WritesShares.of_run hrun
  have holder : ∀ call ∈ older, HeaderShare call.attempt := by
    intro call hcall
    apply headerShare_of_reported hbitcoin hrun
    rw [← hreported]
    exact List.mem_map_of_mem hcall
  refine ⟨current, lines, older, hwire, hlines, hreported, ?_, hsending⟩
  unfold Sending at hsending
  split at hsending
  · rw [hsending.2]
    exact holder
  · rename_i i rest hsome
    obtain ⟨call, hcalls, hattempt, -⟩ := hsending
    rw [hcalls]
    refine List.forall_mem_cons.mpr ⟨?_, holder⟩
    apply (headerShare_of_run hbitcoin hrun i).2
    exact List.mem_append_left _ hattempt

/-- A share of which the first `send` takes ten bytes and the second fails. -/
def cutOffLabels : List (LoopLabel 1) :=
  miningLabels ++ [.hashed soleWorker firstDigest, .submit soleWorker,
    .send soleWorker (.took ⟨10, by decide⟩), .send soleWorker .failed]

/-- The ten bytes are the beginning of the line of the share reported, as far as
the `send` that failed. -/
theorem cut_off_is_share :
    ∃ s : Miner 1, Run (Miner.step stratumSetup minerText) anyLabel
        (Miner.init stratumSetup "u" "x") cutOffLabels s ∧
      s.wire.map (fun sent => sent.bytes.length) = [10] ∧
      ∃ call, s.calls = [call] ∧ call.sends = [none, some 10] ∧
        [call.attempt] = s.rig.pool.reported ∧ HeaderShare call.attempt ∧
        Submitted minerText call s.wire := by
  have hreplay : (replay (Miner.step stratumSetup minerText) anyLabel
      (Miner.init stratumSetup "u" "x") cutOffLabels).any (fun s =>
        s.wire.map (fun sent => sent.bytes.length) = [10] ∧
          s.calls.map SubmitCall.sends = [[none, some 10]] ∧
          s.sending.isNone = true) = true := by
    decide +kernel
  obtain ⟨s, hs, hfacts⟩ := (Option.any_eq_true _ _).mp hreplay
  obtain ⟨hlength, hsends, hnone⟩ := of_decide_eq_true hfacts
  have hrun := run_of_replay hs
  obtain ⟨current, lines, older, hwire, hlines, hreported, hheader, hsending⟩ :=
    submits_are_shares rfl hrun
  rw [Option.isNone_iff_eq_none.mp hnone] at hsending
  obtain ⟨rfl, rfl⟩ := hsending
  obtain ⟨call, hcall⟩ : ∃ call, s.calls = [call] := by
    apply List.length_eq_one_iff.mp
    simpa using congrArg List.length hsends
  rw [hcall] at hlines hreported hheader hsends
  obtain ⟨parts, rest, hparts, hrest, rfl⟩ := List.forall₂_cons_left_iff.mp hlines
  obtain rfl := List.forall₂_nil_left_iff.mp hrest
  obtain rfl : s.wire = parts := by simpa using hwire
  exact ⟨s, hrun, hlength, call, hcall, List.singleton_inj.mp hsends, hreported,
    hheader call (List.mem_singleton_self call), hparts⟩

end Miner

end Minerby
