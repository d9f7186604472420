/-
What `poll` reports when the peer has closed the connection.  `read_line`
folds end of stream into the same false as a timeout and leaves the socket
open, and both clients then answer with `is_open`.
-/
import Minerby.MoneroClient

namespace Minerby

/-- The receive results of a `poll` during which the peer's end of stream is
seen: some packets, then `recv` returning 0. -/
def eofScript (packets : List Packet) (rest : List RecvResult) :
    List RecvResult :=
  packets.map RecvResult.data ++ RecvResult.eof :: rest

/-- The connection is open and neither the buffer nor what still arrives
before the end of the stream completes a line. -/
structure AtEndOfStream (conn : TcpClient) (packets : List Packet) : Prop where
  isOpen : conn.isOpen = true
  no_line : '\n' ∉ conn.rx ++ packets.flatMap Packet.bytes

namespace TcpClient

theorem readLoop_eofScript (packets : List Packet) (rest : List RecvResult)
    (rx : List Char) (hline : '\n' ∉ rx ++ packets.flatMap Packet.bytes) :
    (readLoop (eofScript packets rest) rx).1 = none := by
  induction packets generalizing rx with
  | nil =>
      have hrx : '\n' ∉ rx := by simpa using hline
      simp [eofScript, readLoop, hrx]
  | cons packet packets ih =>
      have hrx : '\n' ∉ rx := fun hmem => hline (List.mem_append_left _ hmem)
      rw [List.flatMap_cons, ← List.append_assoc] at hline
      rw [eofScript, List.map_cons, List.cons_append, readLoop, if_neg hrx]
      by_cases hguard : maxLine < (rx ++ packet.bytes).length
      · simp only [hguard, ↓reduceIte]
      · simp only [hguard, ↓reduceIte]
        exact ih _ hline

/-- At the end of the stream `read_line` returns false and keeps the socket. -/
theorem readLine_eofScript (conn : TcpClient) (packets : List Packet)
    (rest : List RecvResult) (heof : AtEndOfStream conn packets) :
    ∃ rx unused, conn.readLine (eofScript packets rest) =
      (none, { conn with rx := rx }, unused) := by
  have hnone := readLoop_eofScript packets rest conn.rx heof.no_line
  refine ⟨(readLoop (eofScript packets rest) conn.rx).2.1,
    (readLoop (eofScript packets rest) conn.rx).2.2, ?_⟩
  simp [readLine, heof.isOpen, hnone]

end TcpClient

theorem StratumV1Client.poll_eofScript (text : JsonText) (c : StratumV1Client)
    (packets : List Packet) (rest : List RecvResult)
    (heof : AtEndOfStream c.conn packets) :
    ∃ rx unused, c.poll text (eofScript packets rest) =
      .ok (true, { c with conn := { c.conn with rx := rx } }, none, unused) := by
  obtain ⟨rx, unused, hread⟩ := c.conn.readLine_eofScript packets rest heof
  refine ⟨rx, unused, ?_⟩
  rw [StratumV1Client.poll, hread]
  have hopen : TcpClient.isOpen { c.conn with rx := rx } = true := heof.isOpen
  simp only [hopen]

theorem MoneroClient.poll_eofScript (text : JsonText) (c : MoneroClient)
    (due : Bool) (packets : List Packet) (rest : List RecvResult)
    (heof : AtEndOfStream c.conn packets) :
    ∃ rx unused, c.poll text due (eofScript packets rest) =
      .ok (true, { c.maybeKeepalive due with conn := { c.conn with rx := rx } },
        none, unused) := by
  obtain ⟨rx, unused, hread⟩ := c.conn.readLine_eofScript packets rest heof
  refine ⟨rx, unused, ?_⟩
  simp only [MoneroClient.poll, MoneroClient.maybeKeepalive_conn, hread]
  have hopen : TcpClient.isOpen { c.conn with rx := rx } = true := heof.isOpen
  simp only [hopen]

/-- Neither client ever notices a dropped connection: whatever the state and
whatever was received before, a `poll` that sees the end of the stream returns
true, invokes nothing and leaves the client connected. -/
theorem poll_true_at_end_of_stream (text : JsonText) (packets : List Packet)
    (rest : List RecvResult) :
    (∀ c : StratumV1Client, AtEndOfStream c.conn packets →
      ∃ c' unused, c.poll text (eofScript packets rest) =
        .ok (true, c', none, unused) ∧ c'.connected = true) ∧
    (∀ (c : MoneroClient) (due : Bool), AtEndOfStream c.conn packets →
      ∃ c' unused, c.poll text due (eofScript packets rest) =
        .ok (true, c', none, unused) ∧ c'.connected = true) := by
  constructor
  · intro c heof
    obtain ⟨rx, unused, hpoll⟩ := c.poll_eofScript text packets rest heof
    exact ⟨_, unused, hpoll, heof.isOpen⟩
  · intro c due heof
    obtain ⟨rx, unused, hpoll⟩ := c.poll_eofScript text due packets rest heof
    exact ⟨_, unused, hpoll, heof.isOpen⟩

/-- A subscribed Stratum client on connection 7. -/
def subscribedClient : StratumV1Client :=
  { user := "u", pass := "x", conn := { sock := some 7 }, nextId := 3,
    subscribeId := 1, authorizeId := 2, extranonce1 := "01" }

def subscribedText : JsonText :=
  .ofMessages [StratumV1Client.subscribeMessage 1,
    subscribedClient.authorizeMessage 2]

/-- Half a line arrives and the peer closes the connection. -/
theorem half_line_then_eof :
    let packet : Packet := ⟨['\x7b'], by simp, by simp⟩
    AtEndOfStream subscribedClient.conn [packet] ∧
      ∃ c' unused, subscribedClient.poll subscribedText
          (eofScript [packet] []) = .ok (true, c', none, unused) ∧
        c'.connected = true := by
  intro packet
  have heof : AtEndOfStream subscribedClient.conn [packet] :=
    ⟨rfl, by decide⟩
  exact ⟨heof, (poll_true_at_end_of_stream subscribedText [packet] []).1
    subscribedClient heof⟩

/-- The peer closes the connection: the `recv` that returns 0 is taken for a
quiet second, and connection 7 stays the client's connection. -/
theorem poll_misses_eof :
    AtEndOfStream subscribedClient.conn [] ∧
      ∃ c' unused, subscribedClient.poll subscribedText (eofScript [] []) =
        .ok (true, c', none, unused) ∧ c'.conn.sock = some 7 :=
  ⟨⟨rfl, by decide⟩, _, _, rfl, rfl⟩

end Minerby
