/-
The line-oriented TCP client.  What the peer and the network do is given as a
script: one result for each `recv` or `send` the client makes.
-/
import Mathlib

namespace Minerby

/-- The bytes of one successful `recv` into a 4096-byte buffer. -/
structure Packet where
  bytes : List Char
  nonempty : bytes ≠ []
  length_le : bytes.length ≤ 4096

/-- What one `recv` returns: data, end of stream (0), or a timeout or error
(negative). -/
inductive RecvResult where
  | data (packet : Packet)
  | eof
  | failed

/-- One `recv` that returns a line of at most 4095 characters. -/
def RecvResult.line (text : List Char) : RecvResult :=
  .data ⟨(text ++ ['\n']).take 4096, by simp, by simp⟩

/-- What one `send` returns: how many bytes it took, or a failure. -/
inductive SendResult where
  | took (n : ℕ+)
  | failed

/-- One `send` that takes a whole line of at most 4096 bytes. -/
def SendResult.all : SendResult := .took 4096

/-- The socket (`none` is the invalid handle) and the bytes received but not
yet returned.  Every connection that is ever opened has its own handle. -/
structure TcpClient where
  sock : Option Nat := none
  rx : List Char := []
deriving Repr, DecidableEq

namespace TcpClient

def isOpen (c : TcpClient) : Bool := c.sock.isSome

def close (_ : TcpClient) : TcpClient := { sock := none, rx := [] }

/-- `connect`, where `opened` is the socket that resolution and connection
gave, if any.  An old connection is closed first. -/
def connect (c : TcpClient) (opened : Option Nat) : Bool × TcpClient :=
  (opened.isSome, { c.close with sock := opened })

/-- The loop of `send_all`: success, and the bytes the socket took.  A script
that is used up stands for a failed `send`. -/
def sendLoop : List Char → List SendResult → Bool × List Char
  | [], _ => (true, [])
  | _ :: _, [] => (false, [])
  | _ :: _, .failed :: _ => (false, [])
  | b :: rest, .took n :: script =>
      let (ok, more) := sendLoop ((b :: rest).drop n) script
      (ok, (b :: rest).take n ++ more)

def sendAll (c : TcpClient) (data : List Char) (script : List SendResult) :
    Bool × List Char :=
  if c.isOpen then sendLoop data script else (false, [])

/-- `if (!out.empty() && out.back() == '\r') out.pop_back()` -/
def stripCR (line : List Char) : List Char :=
  if line.getLast? = some '\r' then line.dropLast else line

/-- The runaway line guard. -/
def maxLine : Nat := 2 ^ 20

/-- The loop of `read_line`: the line if there is one, the new `rx_`, and the
part of the script not used.  A script that is used up stands for a receive
timeout. -/
def readLoop : List RecvResult → List Char →
    Option (List Char) × List Char × List RecvResult
  | script, rx =>
      if '\n' ∈ rx then
        let line := rx.takeWhile (· ≠ '\n')
        (some (stripCR line), rx.drop (line.length + 1), script)
      else
        match script with
        | [] => (none, rx, [])
        | .eof :: rest => (none, rx, rest)
        | .failed :: rest => (none, rx, rest)
        | .data packet :: rest =>
            if maxLine < (rx ++ packet.bytes).length then
              (none, rx ++ packet.bytes, rest)
            else readLoop rest (rx ++ packet.bytes)

/-- `read_line`: `none` is a returned false. -/
def readLine (c : TcpClient) (script : List RecvResult) :
    Option String × TcpClient × List RecvResult :=
  if c.isOpen then
    let (line, rx, rest) := readLoop script c.rx
    (line.map String.ofList, { c with rx := rx }, rest)
  else (none, c, script)

end TcpClient

end Minerby
