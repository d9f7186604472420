/-
The HTTP endpoint.  One thread accepts a connection, receives once, answers and
closes it; the controlling thread starts and stops the server.  A descriptor is
a number that the operating system gives out, and it may give it out again once
it is closed.
-/
import Mathlib.Data.Finset.Card
import Minerby.Countdown
import Minerby.HttpResponse

namespace Minerby

/-- Where the server's thread is in `run`. -/
inductive ServerPc where
  | unborn
  /-- the test of `running_` at the top of the loop -/
  | head
  /-- `listen_sock_` is about to be read -/
  | load
  /-- inside `accept` -/
  | accepting (sock : Nat)
  /-- `accept` has failed, and `running_` is tested again -/
  | failed
  | receiving (conn : Nat)
  | answering (conn : Nat) (req : List Char)
  | sending (conn : Nat) (req body : List Char)
  | closing (conn : Nat)
  | exited
deriving Repr, DecidableEq

/-- Where the controlling thread is in `stop`. -/
inductive ServerCtl where
  | idle
  | closeListen
  | join
deriving Repr, DecidableEq

/-- One connection as it was served. -/
structure Answer where
  conn : Nat
  request : List Char
  body : List Char
  sent : List Char
deriving Repr, DecidableEq

/-- The server, with the descriptors it has open.  The histories are newest
first: the connections accepted and answered, and the bodies the provider was
asked for. -/
structure HttpServer where
  running : Bool := false
  listenSock : Option Nat := none
  pc : ServerPc := .unborn
  ctl : ServerCtl := .idle
  opened : Finset Nat := ∅
  accepted : List Nat := []
  answered : List Answer := []
  provided : List (List Char) := []

/-- How opening the listening socket goes: there is none, `bind` or `listen`
fails, or it listens. -/
inductive Opening where
  | noSocket
  | refused (sock : Nat)
  | listening (sock : Nat)
deriving Repr, DecidableEq

/-- The calls of the controlling thread and the steps of the two threads.  What
the operating system returns is part of the label: a connection or a failure,
the bytes received (none at the end of the stream or for an error), how many
bytes were taken. -/
inductive ServerLabel where
  | start (outcome : Opening)
  | stop
  | ctl
  | thread
  | accept (conn : Option Nat)
  | recv (bytes : List Char)
  | provide (body : List Char)
  | send (taken : Nat)
deriving Repr, DecidableEq

namespace HttpServer

/-- `start`.  A port that the server listens on already cannot be bound
again. -/
def start (s : HttpServer) : Opening → Option HttpServer
  | .noSocket => some s
  | .refused sock => if sock ∈ s.opened then none else some s
  | .listening sock =>
      if sock ∈ s.opened ∨ s.listenSock.isSome then none
      else some { s with
        listenSock := some sock
        running := true
        pc := .head
        opened := insert sock s.opened }

/-- The entry of `stop`. -/
def stop (s : HttpServer) : HttpServer :=
  if s.running then { s with running := false, ctl := .closeListen } else s

/-- The controlling thread inside `stop`. -/
def ctlStep (s : HttpServer) : Option HttpServer :=
  match s.ctl with
  | .idle => none
  | .closeListen =>
      some { s with
        opened := s.listenSock.elim s.opened s.opened.erase
        listenSock := none
        ctl := .join }
  | .join =>
      if s.pc = .exited then some { s with pc := .unborn, ctl := .idle }
      else none

/-- A step of the server's thread that waits for nothing. -/
def threadStep (s : HttpServer) : Option HttpServer :=
  match s.pc with
  | .head => some { s with pc := if s.running then .load else .exited }
  | .load =>
      match s.listenSock with
      | some sock => some { s with pc := .accepting sock }
      | none => some { s with pc := .failed }
  | .failed => some { s with pc := if s.running then .head else .exited }
  | .closing conn => some { s with pc := .head, opened := s.opened.erase conn }
  | _ => none

/-- `accept` returns.  A descriptor it returns was not in use. -/
def accept (s : HttpServer) (conn : Option Nat) : Option HttpServer :=
  match s.pc, conn with
  | .accepting _, none => some { s with pc := .failed }
  | .accepting _, some conn =>
      if conn ∈ s.opened then none
      else some { s with
        pc := .receiving conn
        opened := insert conn s.opened
        accepted := conn :: s.accepted }
  | _, _ => none

/-- The one `recv`, of at most 2047 bytes. -/
def recv (s : HttpServer) (bytes : List Char) : Option HttpServer :=
  match s.pc with
  | .receiving conn =>
      if bytes.length ≤ 2047 then some { s with pc := .answering conn bytes }
      else none
  | _ => none

/-- The response is made. -/
def provide (s : HttpServer) (body : List Char) : Option HttpServer :=
  match s.pc with
  | .answering conn req =>
      some { s with
        pc := .sending conn req body
        provided :=
          if route req = .metrics then body :: s.provided else s.provided }
  | _ => none

/-- The one `send`, which may take less than the whole response. -/
def send (s : HttpServer) (taken : Nat) : Option HttpServer :=
  match s.pc with
  | .sending conn req body =>
      some { s with
        pc := .closing conn
        answered :=
          ⟨conn, req, body, (respond req body).take taken⟩ :: s.answered }
  | _ => none

def step (s : HttpServer) : ServerLabel → Option HttpServer
  | .start outcome => if s.ctl = .idle then s.start outcome else none
  | .stop => if s.ctl = .idle then some s.stop else none
  | .ctl => s.ctlStep
  | .thread => s.threadStep
  | .accept conn => s.accept conn
  | .recv bytes => s.recv bytes
  | .provide body => s.provide body
  | .send taken => s.send taken

end HttpServer

/-- The connection that the thread has open. -/
def ServerPc.conn? : ServerPc → Option Nat
  | .receiving conn => some conn
  | .answering conn _ => some conn
  | .sending conn _ _ => some conn
  | .closing conn => some conn
  | _ => none

/-- The connection that has not been answered yet. -/
def ServerPc.unanswered? : ServerPc → Option Nat
  | .closing _ => none
  | pc => pc.conn?

/-- The body in the response that is being sent. -/
def ServerPc.body? : ServerPc → Option (List Char)
  | .sending _ req body => if route req = .metrics then some body else none
  | _ => none

/-- The steps of the thread until it has left `run`, once it is told to. -/
def ServerPc.toExit : ServerPc → Nat
  | .load => 7
  | .accepting _ => 6
  | .receiving _ => 5
  | .answering _ _ => 4
  | .sending _ _ _ => 3
  | .closing _ => 2
  | .head => 1
  | .failed => 1
  | .exited => 0
  | .unborn => 0

/-- The connections that the thread may still accept when it is told to
stop. -/
def ServerPc.toAccept : ServerPc → Nat
  | .load => 1
  | .accepting _ => 1
  | _ => 0

/-- The body that the provider was asked for, if it was. -/
def Answer.provided? (a : Answer) : Option (List Char) :=
  if route a.request = .metrics then some a.body else none

namespace HttpServer

variable {s s' : HttpServer} {label : ServerLabel} {labels : List ServerLabel}

/-- What the two threads know of each other. -/
structure Threads (s : HttpServer) : Prop where
  running : s.running = true → s.ctl = .idle ∧ s.listenSock.isSome = true ∧
    s.pc ≠ .unborn ∧ s.pc ≠ .exited
  stopped : s.running = false → s.ctl = .idle →
    s.pc = .unborn ∧ s.listenSock = none
  closing : s.ctl = .closeListen → s.listenSock.isSome = true ∧ s.pc ≠ .unborn
  joining : s.ctl = .join → s.listenSock = none ∧ s.pc ≠ .unborn

/-- The open descriptors are the listening socket and the connection that is
being served, which are not the same. -/
structure Descriptors (s : HttpServer) : Prop where
  opened : ∀ d, d ∈ s.opened ↔ s.listenSock = some d ∨ s.pc.conn? = some d
  distinct : ∀ d, s.listenSock = some d → s.pc.conn? ≠ some d

/-- The histories fit together. -/
structure Served (s : HttpServer) : Prop where
  accepted : s.accepted = s.pc.unanswered?.toList ++ s.answered.map Answer.conn
  provided : s.provided =
    s.pc.body?.toList ++ s.answered.filterMap Answer.provided?
  sent : ∀ a ∈ s.answered, a.sent <+: respond a.request a.body

/-- The turns that a step can be. -/
inductive Turn (s : HttpServer) : HttpServer → Prop
  | same (ctl : s.ctl = .idle) : Turn s s
  | start (sock : Nat) (ctl : s.ctl = .idle) (fresh : sock ∉ s.opened)
      (closed : s.listenSock = none) :
      Turn s { s with
        listenSock := some sock, running := true, pc := .head,
        opened := insert sock s.opened }
  | stop (ctl : s.ctl = .idle) (running : s.running = true) :
      Turn s { s with running := false, ctl := .closeListen }
  | closeListen (ctl : s.ctl = .closeListen) :
      Turn s { s with
        opened := s.listenSock.elim s.opened s.opened.erase,
        listenSock := none, ctl := .join }
  | join (ctl : s.ctl = .join) (pc : s.pc = .exited) :
      Turn s { s with pc := .unborn, ctl := .idle }
  | enter (pc : s.pc = .head) (running : s.running = true) :
      Turn s { s with pc := .load }
  | leave (pc : s.pc = .head ∨ s.pc = .failed) (stopped : s.running = false) :
      Turn s { s with pc := .exited }
  | load (sock : Nat) (pc : s.pc = .load) (listens : s.listenSock = some sock) :
      Turn s { s with pc := .accepting sock }
  | loadClosed (pc : s.pc = .load) (closed : s.listenSock = none) :
      Turn s { s with pc := .failed }
  | retry (pc : s.pc = .failed) (running : s.running = true) :
      Turn s { s with pc := .head }
  | close (conn : Nat) (pc : s.pc = .closing conn) :
      Turn s { s with pc := .head, opened := s.opened.erase conn }
  | acceptFailed (sock : Nat) (pc : s.pc = .accepting sock) :
      Turn s { s with pc := .failed }
  | accept (sock conn : Nat) (pc : s.pc = .accepting sock)
      (fresh : conn ∉ s.opened) :
      Turn s { s with
        pc := .receiving conn, opened := insert conn s.opened,
        accepted := conn :: s.accepted }
  | recv (conn : Nat) (bytes : List Char) (pc : s.pc = .receiving conn) :
      Turn s { s with pc := .answering conn bytes }
  | provide (conn : Nat) (req body : List Char) (pc : s.pc = .answering conn req) :
      Turn s { s with
        pc := .sending conn req body,
        provided :=
          if route req = .metrics then body :: s.provided else s.provided }
  | send (conn : Nat) (req body : List Char) (taken : Nat)
      (pc : s.pc = .sending conn req body) :
      Turn s { s with
        pc := .closing conn,
        answered :=
          ⟨conn, req, body, (respond req body).take taken⟩ :: s.answered }

theorem threadStep_turn (hstep : s.threadStep = some s') : Turn s s' := by
  unfold threadStep at hstep
  split at hstep
  · rename_i hpc
    obtain rfl := Option.some.inj hstep
    split
    · rename_i hrunning
      exact Turn.enter hpc hrunning
    · rename_i hstopped
      exact Turn.leave (Or.inl hpc) (Bool.eq_false_of_not_eq_true hstopped)
  · rename_i hpc
    split at hstep
    · rename_i sock hlistens
      obtain rfl := Option.some.inj hstep
      exact Turn.load sock hpc hlistens
    · rename_i hclosed
      obtain rfl := Option.some.inj hstep
      exact Turn.loadClosed hpc hclosed
  · rename_i hpc
    obtain rfl := Option.some.inj hstep
    split
    · rename_i hrunning
      exact Turn.retry hpc hrunning
    · rename_i hstopped
      exact Turn.leave (Or.inr hpc) (Bool.eq_false_of_not_eq_true hstopped)
  · rename_i conn hpc
    obtain rfl := Option.some.inj hstep
    exact Turn.close conn hpc
  · cases hstep

theorem accept_turn {conn : Option Nat} (hstep : s.accept conn = some s') :
    Turn s s' := by
  unfold accept at hstep
  split at hstep
  · rename_i sock hpc
    obtain rfl := Option.some.inj hstep
    exact Turn.acceptFailed sock hpc
  · rename_i sock conn hpc
    split at hstep
    · cases hstep
    · rename_i hfresh
      obtain rfl := Option.some.inj hstep
      exact Turn.accept sock conn hpc hfresh
  · cases hstep

theorem start_turn {outcome : Opening} (hctl : s.ctl = .idle)
    (hstep : s.start outcome = some s') : Turn s s' := by
  cases outcome with
  | noSocket =>
      obtain rfl := Option.some.inj hstep
      exact Turn.same hctl
  | refused sock =>
      simp only [start] at hstep
      split at hstep
      · cases hstep
      · obtain rfl := Option.some.inj hstep
        exact Turn.same hctl
  | listening sock =>
      simp only [start] at hstep
      split at hstep
      · cases hstep
      · rename_i hfree
        obtain ⟨hfresh, hnone⟩ := not_or.mp hfree
        obtain rfl := Option.some.inj hstep
        exact Turn.start sock hctl hfresh (Option.not_isSome_iff_eq_none.mp hnone)

theorem step_turn (hstep : s.step label = some s') : Turn s s' := by
  cases label with
  | start outcome =>
      simp only [step] at hstep
      split at hstep
      · rename_i hctl
        exact start_turn hctl hstep
      · cases hstep
  | stop =>
      simp only [step] at hstep
      split at hstep
      · rename_i hctl
        obtain rfl := Option.some.inj hstep
        unfold stop
        split
        · rename_i hrunning
          exact Turn.stop hctl hrunning
        · exact Turn.same hctl
      · cases hstep
  | ctl =>
      simp only [step, ctlStep] at hstep
      split at hstep
      · cases hstep
      · rename_i hctl
        obtain rfl := Option.some.inj hstep
        exact Turn.closeListen hctl
      · rename_i hctl
        split at hstep
        · rename_i hpc
          obtain rfl := Option.some.inj hstep
          exact Turn.join hctl hpc
        · cases hstep
  | thread => exact threadStep_turn hstep
  | accept conn => exact accept_turn hstep
  | recv bytes =>
      simp only [step, recv] at hstep
      split at hstep
      · rename_i conn hpc
        split at hstep
        · obtain rfl := Option.some.inj hstep
          exact Turn.recv conn bytes hpc
        · cases hstep
      · cases hstep
  | provide body =>
      simp only [step, provide] at hstep
      split at hstep
      · rename_i conn req hpc
        obtain rfl := Option.some.inj hstep
        exact Turn.provide conn req body hpc
      · cases hstep
  | send taken =>
      simp only [step, send] at hstep
      split at hstep
      · rename_i conn req body hpc
        obtain rfl := Option.some.inj hstep
        exact Turn.send conn req body taken hpc
      · cases hstep

/-- A server that is told to stop neither accepts nor starts while the call
lasts, and a thread it has not yet joined is there. -/
theorem Threads.turn (hthreads : Threads s) (hturn : Turn s s') :
    Threads s' := by
  obtain ⟨hrunning, hstopped, hclosing, hjoining⟩ := hthreads
  cases hturn with
  | same ctl => exact ⟨hrunning, hstopped, hclosing, hjoining⟩
  | start sock ctl fresh closed => constructor <;> simp_all
  | stop ctl running => constructor <;> simp_all
  | closeListen ctl => constructor <;> simp_all
  | join ctl pc => constructor <;> simp_all
  | leave pc stopped =>
      rcases pc with pc | pc <;> constructor <;> simp_all
  | _ => constructor <;> simp_all

/-- No thread is there when the server may be started. -/
theorem Threads.unborn (hthreads : Threads s) (hctl : s.ctl = .idle)
    (hclosed : s.listenSock = none) : s.pc = .unborn := by
  cases hrunning : s.running with
  | true =>
      have hlistens := (hthreads.running hrunning).2.1
      rw [hclosed] at hlistens
      cases hlistens
  | false => exact (hthreads.stopped hrunning hctl).1

theorem Descriptors.turn (hdescriptors : Descriptors s) (hthreads : Threads s)
    (hturn : Turn s s') : Descriptors s' := by
  obtain ⟨hopened, hdistinct⟩ := hdescriptors
  cases hturn with
  | same ctl => exact ⟨hopened, hdistinct⟩
  | start sock ctl fresh closed =>
      have hpc := hthreads.unborn ctl closed
      constructor
      · intro d
        have hd := hopened d
        simp only [hpc, closed, ServerPc.conn?, Finset.mem_insert] at hd ⊢
        grind
      · nofun
  | closeListen ctl =>
      obtain ⟨sock, hsock⟩ :=
        Option.isSome_iff_exists.mp (hthreads.closing ctl).1
      constructor
      · intro d
        have hd := hdistinct d
        simp only [hsock, Option.elim_some, Finset.mem_erase, hopened] at hd ⊢
        grind
      · nofun
  | close conn pc =>
      constructor
      · intro d
        have hd := hdistinct d
        simp only [pc, ServerPc.conn?, Finset.mem_erase, hopened] at hd ⊢
        grind
      · nofun
  | accept sock conn pc fresh =>
      constructor
      · intro d
        have hd := hopened d
        simp only [pc, ServerPc.conn?, Finset.mem_insert] at hd ⊢
        grind
      · intro d hlistens hconn
        obtain rfl := Option.some.inj hconn
        exact fresh ((hopened conn).mpr (Or.inl hlistens))
  | leave pc stopped =>
      rcases pc with pc | pc <;> constructor <;> simp_all [ServerPc.conn?]
  | _ => constructor <;> simp_all [ServerPc.conn?]

theorem Served.turn (hserved : Served s) (hthreads : Threads s)
    (hturn : Turn s s') : Served s' := by
  obtain ⟨haccepted, hprovided, hsent⟩ := hserved
  cases hturn with
  | same ctl => exact ⟨haccepted, hprovided, hsent⟩
  | start sock ctl fresh closed =>
      have hpc := hthreads.unborn ctl closed
      constructor <;>
        simp_all [ServerPc.unanswered?, ServerPc.conn?, ServerPc.body?]
  | leave pc stopped =>
      rcases pc with pc | pc <;> constructor <;>
        simp_all [ServerPc.unanswered?, ServerPc.conn?, ServerPc.body?]
  | provide conn req body pc =>
      constructor
      · simp_all [ServerPc.unanswered?, ServerPc.conn?]
      · by_cases hroute : route req = .metrics <;>
          simp_all [ServerPc.body?]
      · exact hsent
  | send conn req body taken pc =>
      constructor
      · simp_all [ServerPc.unanswered?, ServerPc.conn?]
      · by_cases hroute : route req = .metrics <;>
          simp_all [ServerPc.body?, Answer.provided?]
      · simp_all [List.take_prefix]
  | _ =>
      constructor <;>
        simp_all [ServerPc.unanswered?, ServerPc.conn?, ServerPc.body?]

/-- What is known of the server in every run. -/
structure Sound (s : HttpServer) : Prop where
  threads : Threads s
  descriptors : Descriptors s
  served : Served s

theorem Sound.step (hsound : Sound s) (hstep : s.step label = some s') :
    Sound s' := by
  have hturn := step_turn hstep
  exact ⟨hsound.threads.turn hturn,
    hsound.descriptors.turn hsound.threads hturn,
    hsound.served.turn hsound.threads hturn⟩

theorem Sound.of_run
    (hrun : Run HttpServer.step anyLabel {} labels s) : Sound s := by
  apply hrun.invariant
  · intro state label next hsound _ hstep
    exact hsound.step hstep
  · refine ⟨⟨nofun, fun _ _ => ⟨rfl, rfl⟩, nofun, nofun⟩, ⟨?_, nofun⟩,
      ⟨rfl, rfl, nofun⟩⟩
    intro d
    simp [ServerPc.conn?]

/-- In every run each connection that was accepted is answered once, in the
order in which they were accepted, but for the one that is being served; what
is sent is a part of the response to what was received of it; and the body
provider is called once for each connection that asks for the metrics, and not
otherwise. -/
theorem connections_answered
    (hrun : Run HttpServer.step anyLabel {} labels s) :
    s.accepted = s.pc.unanswered?.toList ++ s.answered.map Answer.conn ∧
      s.provided = s.pc.body?.toList ++ s.answered.filterMap Answer.provided? ∧
      ∀ a ∈ s.answered, a.sent <+: respond a.request a.body := by
  obtain ⟨haccepted, hprovided, hsent⟩ := (Sound.of_run hrun).served
  exact ⟨haccepted, hprovided, hsent⟩

/-- In every run the open descriptors are exactly the listening socket and the
connection that is being served; and when the server is stopped, and no call of
`stop` is in progress, there is neither a descriptor nor a thread that could
call the body provider. -/
theorem descriptors_accounted
    (hrun : Run HttpServer.step anyLabel {} labels s) :
    (∀ d, d ∈ s.opened ↔ s.listenSock = some d ∨ s.pc.conn? = some d) ∧
      s.opened.card ≤ 2 ∧
      (s.running = false → s.ctl = .idle →
        s.opened = ∅ ∧ s.pc = .unborn ∧
          s.accepted = s.answered.map Answer.conn) := by
  obtain ⟨hthreads, hdescriptors, hserved⟩ := Sound.of_run hrun
  have hopened := hdescriptors.opened
  refine ⟨hopened, ?_, fun hstopped hidle => ?_⟩
  · have hsubset : s.opened ⊆
        {s.listenSock.getD 0, s.pc.conn?.getD 0} := by
      intro d hd
      rcases (hopened d).mp hd with h | h <;> simp [h]
    exact (Finset.card_le_card hsubset).trans Finset.card_le_two
  · obtain ⟨hpc, hclosed⟩ := hthreads.stopped hstopped hidle
    have haccepted := hserved.accepted
    rw [hpc] at haccepted
    refine ⟨?_, hpc, haccepted⟩
    apply Finset.eq_empty_of_forall_notMem
    intro d hd
    simpa [hclosed, hpc, ServerPc.conn?] using (hopened d).mp hd

/-- A scrape: the server is started and answers one request. -/
def scrapeLabels : List ServerLabel :=
  [.start (.listening 3), .thread, .thread, .accept (some 4),
    .recv "GET /metrics HTTP/1.1".toList, .provide "hashes 1".toList,
    .send 2000, .thread]

theorem scrape_answered :
    ∃ s, Run HttpServer.step anyLabel {} scrapeLabels s ∧ s.accepted = [4] ∧
      s.accepted = s.pc.unanswered?.toList ++ s.answered.map Answer.conn := by
  have hreplay : (replay HttpServer.step anyLabel {} scrapeLabels).any
      (fun s => s.accepted = [4]) = true := by
    decide +kernel
  obtain ⟨s, hs, haccepted⟩ := (Option.any_eq_true _ _).mp hreplay
  have hrun := run_of_replay hs
  exact ⟨s, hrun, of_decide_eq_true haccepted, (connections_answered hrun).1⟩

/-- The server is stopped after the scrape, while it waits in `accept`. -/
def stoppedLabels : List ServerLabel :=
  scrapeLabels ++ [.thread, .thread, .stop, .ctl, .accept none, .thread, .ctl]

theorem stopped_without_descriptors :
    ∃ s, Run HttpServer.step anyLabel {} stoppedLabels s ∧
      s.accepted = [4] ∧ s.opened = ∅ := by
  have hreplay : (replay HttpServer.step anyLabel {} stoppedLabels).any
      (fun s => decide (s.running = false ∧ s.ctl = .idle ∧
        s.accepted = [4])) = true := by
    decide +kernel
  obtain ⟨s, hs, hends⟩ := (Option.any_eq_true _ _).mp hreplay
  obtain ⟨hstopped, hidle, haccepted⟩ := of_decide_eq_true hends
  have hrun := run_of_replay hs
  have hclean := (descriptors_accounted hrun).2.2 hstopped hidle
  exact ⟨s, hrun, haccepted, hclean.1⟩

/-- The steps of both threads until `stop` has returned. -/
def toReturn (s : HttpServer) : Nat :=
  s.pc.toExit + match s.ctl with
    | .closeListen => 2
    | .join => 1
    | .idle => 0

/-- `stop` is in progress. -/
structure Stopping (s : HttpServer) : Prop where
  sound : Sound s
  stopped : s.running = false

theorem Sound.stopping (hsound : Sound s) (hbusy : s.ctl ≠ .idle) :
    Stopping s := by
  refine ⟨hsound, ?_⟩
  cases hrunning : s.running with
  | true => exact absurd (hsound.threads.running hrunning).1 hbusy
  | false => rfl

/-- While `stop` is in progress each step brings the thread nearer to its exit,
or is one of the controlling thread. -/
theorem Stopping.turn_lt (hstopping : Stopping s) (hbusy : s.ctl ≠ .idle)
    (hturn : Turn s s') : s'.running = false ∧ s'.toReturn < s.toReturn := by
  have hstopped := hstopping.stopped
  cases hturn with
  | leave pc stopped => rcases pc with pc | pc <;> simp_all [toReturn, ServerPc.toExit]
  | _ => simp_all [toReturn, ServerPc.toExit]

theorem Stopping.step (hstopping : Stopping s) (hbusy : s.ctl ≠ .idle)
    (hstep : s.step label = some s') :
    Stopping s' ∧ s'.toReturn < s.toReturn := by
  obtain ⟨hstopped, hlt⟩ := hstopping.turn_lt hbusy (step_turn hstep)
  exact ⟨⟨hstopping.sound.step hstep, hstopped⟩, hlt⟩

/-- Some step is possible until `stop` has returned. -/
theorem Stopping.goes_on (hstopping : Stopping s) (hbusy : s.ctl ≠ .idle) :
    ∃ label next, s.step label = some next := by
  cases hctl : s.ctl with
  | idle => exact absurd hctl hbusy
  | closeListen => exact ⟨.ctl, by simp [HttpServer.step, ctlStep, hctl]⟩
  | join =>
      have hborn := (hstopping.sound.threads.joining hctl).2
      cases hpc : s.pc with
      | unborn => exact absurd hpc hborn
      | exited => exact ⟨.ctl, by simp [HttpServer.step, ctlStep, hctl, hpc]⟩
      | accepting sock =>
          exact ⟨.accept none, by simp [HttpServer.step, accept, hpc]⟩
      | receiving conn => exact ⟨.recv [], by simp [HttpServer.step, recv, hpc]⟩
      | answering conn req =>
          exact ⟨.provide [], by simp [HttpServer.step, provide, hpc]⟩
      | sending conn req body =>
          exact ⟨.send 0, by simp [HttpServer.step, send, hpc]⟩
      | load =>
          refine ⟨.thread, ?_⟩
          cases hlisten : s.listenSock <;>
            simp [HttpServer.step, threadStep, hpc, hlisten]
      | _ => exact ⟨.thread, by simp [HttpServer.step, threadStep, hpc]⟩

theorem toReturn_le (s : HttpServer) : s.toReturn ≤ 9 := by
  have hpc : s.pc.toExit ≤ 7 := by cases s.pc <;> simp [ServerPc.toExit]
  unfold toReturn
  split <;> omega

theorem Stopping.accepts (hstopping : Stopping s) (hturn : Turn s s') :
    ∃ new, s'.accepted = new ++ s.accepted ∧
      s'.pc.toAccept + new.countP (fun _ => true) ≤
        s.pc.toAccept := by
  have hstopped := hstopping.stopped
  cases hturn with
  | accept sock conn pc fresh =>
      exact ⟨[conn], rfl, by simp [pc, ServerPc.toAccept]⟩
  | _ =>
      refine ⟨[], rfl, ?_⟩
      simp_all [ServerPc.toAccept]

/-- `stop` returns as far as `accept`, `recv` and `send` do: once it is entered,
every way to go on takes at most nine steps of the two threads until it has
returned, is never stuck before, and accepts at most one connection more. -/
theorem server_stop_returns (hrun : Run HttpServer.step anyLabel {} labels s)
    (hbusy : s.ctl ≠ .idle) :
    ReturnsWithin HttpServer.step (fun state => state.ctl ≠ .idle) 9 s ∧
      ∀ more last, Run HttpServer.step (fun state _ => state.ctl ≠ .idle) s
        more last → last.accepted.length ≤ s.accepted.length + 1 := by
  have hstopping := (Sound.of_run hrun).stopping hbusy
  constructor
  · apply ReturnsWithin.mono _ s.toReturn_le
    exact returnsWithin_of_measure hstopping
      (fun state label next hinv hbusy hstep => hinv.step hbusy hstep)
      (fun state hinv hbusy => hinv.goes_on hbusy)
  · intro more last hmore
    have hlogged := hmore.logged_le accepted (fun _ => true)
      (fun state => state.pc.toAccept) hstopping
      fun state label next hinv hbusy hstep =>
        ⟨(hinv.step hbusy hstep).1, hinv.accepts (step_turn hstep)⟩
    obtain ⟨-, new, hnew, hle⟩ := hlogged
    rw [List.countP_true] at hle
    have hpc : s.pc.toAccept ≤ 1 := by cases s.pc <;> simp [ServerPc.toAccept]
    rw [hnew, List.length_append]
    omega

/-- `stop` is entered while a request is being received. -/
def stoppingLabels : List ServerLabel :=
  [.start (.listening 3), .thread, .thread, .accept (some 4), .stop]

theorem stopping_returns :
    ∃ s, Run HttpServer.step anyLabel {} stoppingLabels s ∧
      s.pc = .receiving 4 ∧
      ReturnsWithin HttpServer.step (fun state => state.ctl ≠ .idle) 9 s := by
  have hreplay : (replay HttpServer.step anyLabel {} stoppingLabels).any
      (fun s => decide (s.pc = .receiving 4 ∧ s.ctl ≠ .idle)) = true := by
    decide +kernel
  obtain ⟨s, hs, hends⟩ := (Option.any_eq_true _ _).mp hreplay
  obtain ⟨hpc, hbusy⟩ := of_decide_eq_true hends
  have hrun := run_of_replay hs
  exact ⟨s, hrun, hpc, (server_stop_returns hrun hbusy).1⟩

end HttpServer

end Minerby
