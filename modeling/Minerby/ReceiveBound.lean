/-
How much a connection can buffer.  The runaway line guard makes `read_line`
return, but it neither clears `rx_` nor closes the socket, and a caller takes
the return for a timeout and calls again.
-/
import Minerby.StepSystem
import Minerby.PoolClient

namespace Minerby

namespace TcpClient

/-- The guard plus one packet. -/
def rxLimit : Nat := maxLine + 4096

/-- The call reads on where the guard has already stopped an earlier one, and
its first packet is larger than what the limit leaves. -/
def Overfills (conn : TcpClient) : List RecvResult → Prop
  | .data packet :: _ => conn.isOpen = true ∧ '\n' ∉ conn.rx ∧
      maxLine < conn.rx.length ∧ rxLimit - conn.rx.length < packet.bytes.length
  | _ => False

instance (conn : TcpClient) : (script : List RecvResult) →
    Decidable (conn.Overfills script)
  | .data _ :: _ => inferInstanceAs (Decidable (_ ∧ _ ∧ _ ∧ _))
  | .eof :: _ => .isFalse id
  | .failed :: _ => .isFalse id
  | [] => .isFalse id

/-- Bytes are only added when the buffer holds no complete line. -/
theorem readLoop_length_le_of_mem {rx : List Char} (hline : '\n' ∈ rx)
    (script : List RecvResult) :
    (readLoop script rx).2.1.length ≤ rx.length := by
  unfold readLoop
  simp only [hline, ↓reduceIte, List.length_drop]
  omega

/-- Without a packet there is nothing to add. -/
theorem readLoop_length_eq {rx : List Char} (hline : '\n' ∉ rx)
    {script : List RecvResult}
    (hdata : ∀ packet rest, script ≠ .data packet :: rest) :
    (readLoop script rx).2.1 = rx := by
  unfold readLoop
  rw [if_neg hline]
  split
  · rfl
  · rfl
  · rfl
  · exact absurd rfl (hdata _ _)

/-- A loop that starts below the guard stops within one packet of it. -/
theorem readLoop_length_le (script : List RecvResult) (rx : List Char)
    (hrx : rx.length ≤ maxLine) :
    (readLoop script rx).2.1.length ≤ rxLimit := by
  have hlimit : maxLine ≤ rxLimit := Nat.le_add_right _ _
  induction script generalizing rx with
  | nil =>
      by_cases hline : '\n' ∈ rx
      · exact ((readLoop_length_le_of_mem hline _).trans hrx).trans hlimit
      · rw [readLoop_length_eq hline (by simp)]
        exact hrx.trans hlimit
  | cons result rest ih =>
      by_cases hline : '\n' ∈ rx
      · exact ((readLoop_length_le_of_mem hline _).trans hrx).trans hlimit
      · cases result with
        | eof =>
            rw [readLoop_length_eq hline (by simp)]
            exact hrx.trans hlimit
        | failed =>
            rw [readLoop_length_eq hline (by simp)]
            exact hrx.trans hlimit
        | data packet =>
            unfold readLoop
            rw [if_neg hline]
            simp only
            split
            · rw [List.length_append]
              exact Nat.add_le_add hrx packet.length_le
            · rename_i hguard
              exact ih _ (Nat.le_of_not_lt hguard)

/-- Past the guard one packet is taken and the loop returns without a line. -/
theorem readLoop_past_guard {rx : List Char} (hline : '\n' ∉ rx)
    (hguard : maxLine < rx.length) (packet : Packet) (rest : List RecvResult) :
    readLoop (.data packet :: rest) rx = (none, rx ++ packet.bytes, rest) := by
  have hpast : maxLine < (rx ++ packet.bytes).length := by
    rw [List.length_append]
    omega
  rw [readLoop, if_neg hline]
  simp only [hpast, ↓reduceIte]

/-- A loop keeps the buffer within the limit unless it reads on past the guard
and takes too large a packet. -/
theorem readLoop_within_iff {conn : TcpClient} (hopen : conn.isOpen = true)
    (script : List RecvResult) (hrx : conn.rx.length ≤ rxLimit) :
    (readLoop script conn.rx).2.1.length ≤ rxLimit ↔
      ¬ conn.Overfills script := by
  by_cases hline : '\n' ∈ conn.rx
  · have hle := readLoop_length_le_of_mem hline script
    refine iff_of_true (hle.trans hrx) ?_
    unfold Overfills
    split
    · exact fun hover => hover.2.1 hline
    · exact id
  · match script with
    | .data packet :: rest =>
        by_cases hguard : maxLine < conn.rx.length
        · rw [readLoop_past_guard hline hguard]
          simp only [Overfills, hopen, hline, hguard, not_false_iff, true_and,
            List.length_append]
          omega
        · have hle := readLoop_length_le (.data packet :: rest) conn.rx
            (Nat.le_of_not_lt hguard)
          exact iff_of_true hle fun hover => hguard hover.2.2.1
    | .eof :: rest =>
        rw [readLoop_length_eq hline (by simp)]
        exact iff_of_true hrx id
    | .failed :: rest =>
        rw [readLoop_length_eq hline (by simp)]
        exact iff_of_true hrx id
    | [] =>
        rw [readLoop_length_eq hline (by simp)]
        exact iff_of_true hrx id

theorem readLine_within_iff (conn : TcpClient) (script : List RecvResult)
    (hrx : conn.rx.length ≤ rxLimit) :
    (conn.readLine script).2.1.rx.length ≤ rxLimit ↔
      ¬ conn.Overfills script := by
  unfold readLine
  split
  · rename_i hopen
    exact readLoop_within_iff hopen script hrx
  · rename_i hclosed
    refine iff_of_true hrx ?_
    unfold Overfills
    split
    · exact fun hover => hclosed hover.1
    · exact id

/-- A call that overfills the buffer reads no line. -/
theorem Overfills.no_line {conn : TcpClient} {script : List RecvResult}
    (hover : conn.Overfills script) : (conn.readLine script).1 = none := by
  unfold Overfills at hover
  split at hover
  · obtain ⟨hopen, hline, hguard, -⟩ := hover
    simp only [readLine, hopen, ↓reduceIte, readLoop_past_guard hline hguard,
      Option.map_none]
  · exact hover.elim

end TcpClient

/-- The calls that receive on a connection. -/
inductive ReceiveCall where
  | readLine (script : List RecvResult)
  | poll (due : Bool) (script : List RecvResult)

def ReceiveCall.script : ReceiveCall → List RecvResult
  | .readLine script => script
  | .poll _ script => script

namespace PoolClient

/-- The client with the connection that a call on `tcp_` leaves. -/
def withConn (c : PoolClient) (conn : TcpClient) : PoolClient :=
  match c with
  | .stratum c => .stratum { c with conn := conn }
  | .monero c => .monero { c with conn := conn }

theorem withConn_conn (c : PoolClient) (conn : TcpClient) :
    (c.withConn conn).conn = conn := by
  cases c <;> rfl

/-- A receiving call.  A poll that throws ends the run: nothing catches the
exception. -/
def receiveStep (text : JsonText) (c : PoolClient) :
    ReceiveCall → Option PoolClient
  | .readLine script => some (c.withConn (c.conn.readLine script).2.1)
  | .poll due script =>
      match c.poll text due script with
      | .error _ => none
      | .ok (_, c, _, _) => some c

/-- No call reads on past the guard with too large a packet. -/
def NoOverfill (c : PoolClient) (call : ReceiveCall) : Prop :=
  ¬ c.conn.Overfills call.script

instance (c : PoolClient) (call : ReceiveCall) :
    Decidable (c.NoOverfill call) :=
  inferInstanceAs (Decidable (¬ _))

/-- A call leaves the buffer as `read_line` does, or empty where a message made
the client close the connection. -/
theorem receiveStep_conn {text : JsonText} {c c' : PoolClient}
    {call : ReceiveCall} (hstep : c.receiveStep text call = some c') :
    c'.conn = (c.conn.readLine call.script).2.1 ∨
      c'.conn.rx = [] ∧ (c.conn.readLine call.script).1 ≠ none := by
  cases call with
  | readLine script =>
      obtain rfl := Option.some.inj hstep
      exact Or.inl (c.withConn_conn _)
  | poll due script =>
      simp only [receiveStep] at hstep
      split at hstep
      · cases hstep
      · rename_i hpoll
        obtain rfl := Option.some.inj hstep
        rcases poll_conn hpoll with hconn | ⟨hconn, -, hmsg⟩
        · exact Or.inl hconn
        · refine Or.inr ⟨by rw [hconn]; rfl, ?_⟩
          intro hnone
          change (c.conn.readLine script).1 = none at hnone
          simp [JsonText.incoming, hnone] at hmsg

/-- A step within the limit stays there exactly when it does not overfill. -/
theorem receiveStep_within_iff {text : JsonText} {c c' : PoolClient}
    {call : ReceiveCall} (hrx : c.conn.rx.length ≤ TcpClient.rxLimit)
    (hstep : c.receiveStep text call = some c') :
    c'.conn.rx.length ≤ TcpClient.rxLimit ↔ c.NoOverfill call := by
  rcases receiveStep_conn hstep with hconn | ⟨hempty, hline⟩
  · rw [hconn]
    exact c.conn.readLine_within_iff call.script hrx
  · refine iff_of_true ?_ fun hover => hline hover.no_line
    rw [hempty]
    exact Nat.zero_le _

/-- From the moment a connection is opened, and over every sequence of calls,
the buffer stays within the limit exactly when no call reads on past the guard
with too large a packet. -/
theorem buffer_within_limit_iff (text : JsonText) (c : PoolClient)
    (opened : Option Nat) (firstSends secondSends : List SendResult)
    (calls : List ReceiveCall) (last : PoolClient)
    (hrun : Run (receiveStep text) anyLabel
      (c.connectStart text opened firstSends secondSends).2 calls last) :
    (∀ before state, before <+: calls →
      Run (receiveStep text) anyLabel
        (c.connectStart text opened firstSends secondSends).2 before state →
      state.conn.rx.length ≤ TcpClient.rxLimit) ↔
    Run (receiveStep text) NoOverfill
      (c.connectStart text opened firstSends secondSends).2 calls last := by
  apply Run.always_iff hrun
  · rw [connectStart_conn]
    exact Nat.zero_le _
  · intro state call next hstate hstep
    exact receiveStep_within_iff hstate hstep

/-- Two packets of an endless line, far below the guard. -/
theorem short_line_within_limit :
    let c : MoneroClient := { user := "u", pass := "x" }
    let text : JsonText := .ofMessages [c.loginMessage 1]
    let start := ((PoolClient.monero c).connectStart text (some 7)
      [.all] []).2
    let packet : Packet := ⟨['a', 'b'], by simp, by simp⟩
    let calls : List ReceiveCall :=
      [.poll false [.data packet], .readLine [.data packet]]
    ∃ last, Run (receiveStep text) anyLabel start calls last ∧
      ∀ before state, before <+: calls →
        Run (receiveStep text) anyLabel start before state →
        state.conn.rx.length ≤ TcpClient.rxLimit := by
  intro c text start packet calls
  have hreplay : (replay (receiveStep text) NoOverfill start calls).isSome =
      true := by decide +kernel
  have hreplay' : (replay (receiveStep text) anyLabel start calls).isSome =
      true := by decide +kernel
  obtain ⟨last, hlast⟩ := Option.isSome_iff_exists.mp hreplay
  obtain ⟨last', hlast'⟩ := Option.isSome_iff_exists.mp hreplay'
  have hrun := run_of_replay hlast
  have hrun' := run_of_replay hlast'
  obtain rfl := hrun.unique hrun'
  exact ⟨last', hrun', (buffer_within_limit_iff text _ _ _ _ calls last'
    hrun').mpr hrun⟩

/-- One more packet of an endless line: the poll returns as for a timeout, and
the buffer is longer, whether or not the guard has fired. -/
theorem receiveStep_endless (text : JsonText) {c : PoolClient} {packet : Packet}
    (hopen : c.conn.isOpen = true) (hline : '\n' ∉ c.conn.rx ++ packet.bytes) :
    ∃ c', c.receiveStep text (.poll false [.data packet]) = some c' ∧
      c'.conn = { c.conn with rx := c.conn.rx ++ packet.bytes } := by
  have hrx : '\n' ∉ c.conn.rx := fun hmem => hline (List.mem_append_left _ hmem)
  have hread : c.conn.readLine [.data packet] =
      (none, { c.conn with rx := c.conn.rx ++ packet.bytes }, []) := by
    simp only [TcpClient.readLine, hopen, ↓reduceIte, TcpClient.readLoop, hrx,
      hline]
    split <;> rfl
  have hincoming : text.incoming c.conn [.data packet] = none := by
    rw [JsonText.incoming, hread]
  refine ⟨c.receive false [.data packet], ?_, ?_⟩
  · simp only [receiveStep, poll_eq, hincoming]
  · rw [receive_conn, hread]

/-- Polls of an endless line buffer all of it. -/
theorem endless_run (text : JsonText) {c : PoolClient} {packet : Packet}
    (hopen : c.conn.isOpen = true) (hline : '\n' ∉ c.conn.rx)
    (hpacket : '\n' ∉ packet.bytes) (n : Nat) :
    ∃ last, Run (receiveStep text) anyLabel c
        (List.replicate n (.poll false [.data packet])) last ∧
      last.conn.isOpen = true ∧ '\n' ∉ last.conn.rx ∧
      last.conn.rx.length = c.conn.rx.length + packet.bytes.length * n := by
  induction n with
  | zero => exact ⟨c, Run.nil, hopen, hline, rfl⟩
  | succ n ih =>
      obtain ⟨mid, hrun, hmid, hfree, hlength⟩ := ih
      have hlonger : '\n' ∉ mid.conn.rx ++ packet.bytes := by
        rw [List.mem_append]
        exact not_or.mpr ⟨hfree, hpacket⟩
      obtain ⟨last, hstep, hconn⟩ := receiveStep_endless text hmid hlonger
      refine ⟨last, ?_, ?_, ?_, ?_⟩
      · rw [List.replicate_succ']
        exact Run.snoc _ hrun trivial hstep
      · rw [hconn]
        exact hmid
      · rw [hconn]
        exact hlonger
      · rw [hconn, List.length_append, hlength, Nat.mul_succ, Nat.add_assoc]

/-- A full packet with no newline in it. -/
def fullPacket : Packet where
  bytes := List.replicate 4096 'a'
  nonempty := fun hnil => absurd (congrArg List.length hnil) (by
    rw [List.length_replicate]
    exact Nat.succ_ne_zero _)
  length_le := by rw [List.length_replicate]

/-- After 258 polls of a line that never ends the buffer is past the limit. -/
theorem endless_line_past_limit :
    let c : StratumV1Client := { user := "u", pass := "x" }
    let text : JsonText :=
      .ofMessages [StratumV1Client.subscribeMessage 1, c.authorizeMessage 2]
    let start := ((PoolClient.stratum c).connectStart text (some 7)
      [.all] [.all]).2
    let calls := List.replicate 258 (ReceiveCall.poll false [.data fullPacket])
    ∃ last, Run (receiveStep text) anyLabel start calls last ∧
      TcpClient.rxLimit < last.conn.rx.length := by
  intro c text start calls
  have hconn : start.conn = { sock := some 7 } := connectStart_conn _ _ _ _ _
  have hopen : start.conn.isOpen = true := by
    rw [hconn]
    rfl
  have hpacket : '\n' ∉ fullPacket.bytes := fun hmem =>
    absurd (List.eq_of_mem_replicate hmem) (by decide)
  obtain ⟨last, hrun, -, -, hlength⟩ := endless_run text hopen
    (by rw [hconn]; exact List.not_mem_nil) hpacket 258
  refine ⟨last, hrun, ?_⟩
  rw [hlength, hconn, fullPacket, List.length_replicate]
  decide

end PoolClient

end Minerby
