/-
How the TCP client opens a connection, and the sockets it holds.  `connect`
tries the addresses of the pool one after another; the calls that open and close
a socket are recorded, and are checked against the descriptors of the process.
-/
import Mathlib.Data.Finset.Insert
import Mathlib.Data.Finset.Erase
import Minerby.StepSystem
import Minerby.TcpClient

namespace Minerby

/-- How it goes with one address: there is no socket, or `connect` fails on it,
or it connects. -/
inductive Dial where
  | noSocket
  | refused (sock : Nat)
  | connected (sock : Nat)
deriving Repr, DecidableEq

/-- The socket that is used for the address, if there is one. -/
def Dial.sock? : Dial → Option Nat
  | .noSocket => none
  | .refused sock => some sock
  | .connected sock => some sock

/-- A call that opens or closes a socket. -/
inductive SocketCall where
  | opened (sock : Nat)
  | closed (sock : Nat)
deriving Repr, DecidableEq

/-- The loop over the addresses: the socket it ends with, and its calls in
order. -/
def dialLoop : List Dial → Option Nat × List SocketCall
  | [] => (none, [])
  | .noSocket :: rest => dialLoop rest
  | .refused sock :: rest =>
      ((dialLoop rest).1, .opened sock :: .closed sock :: (dialLoop rest).2)
  | .connected sock :: _ => (some sock, [.opened sock])

/-- The descriptors that are open after a list of calls.  There is no result
when a socket is opened under a number in use, or one is closed that is not
open. -/
def openAfter (descriptors : Finset Nat) : List SocketCall → Option (Finset Nat)
  | [] => some descriptors
  | .opened sock :: rest =>
      if sock ∈ descriptors then none
      else openAfter (insert sock descriptors) rest
  | .closed sock :: rest =>
      if sock ∈ descriptors then openAfter (descriptors.erase sock) rest
      else none

/-- The client with the calls it has made, oldest first. -/
structure Dialer where
  client : TcpClient := {}
  calls : List SocketCall := []

/-- The operations of the client.  `connect` is given what `getaddrinfo` finds,
if it finds anything, and how it goes with each address. -/
inductive DialLabel where
  | connect (addresses : Option (List Dial))
  | close
  | send (data : List Char) (script : List SendResult)
  | read (script : List RecvResult)

namespace Dialer

/-- `close`, with its call. -/
def close (d : Dialer) : Dialer where
  client := d.client.close
  calls := d.calls ++ (d.client.sock.map SocketCall.closed).toList

/-- `connect`: the old connection is closed in any case. -/
def connect (d : Dialer) (addresses : Option (List Dial)) : Bool × Dialer :=
  let dialled := dialLoop (addresses.getD [])
  let connected := d.client.connect dialled.1
  (connected.1, ⟨connected.2, d.close.calls ++ dialled.2⟩)

def step (d : Dialer) : DialLabel → Option Dialer
  | .connect addresses => some (d.connect addresses).2
  | .close => some d.close
  | .send _ _ => some d
  | .read script => some { d with client := (d.client.readLine script).2.1 }

/-- The operating system gives out no number that another part of the process
has open. -/
def Fresh (others : Finset Nat) (_ : Dialer) : DialLabel → Prop
  | .connect addresses =>
      ∀ dial ∈ addresses.getD [], ∀ sock, dial.sock? = some sock →
        sock ∉ others
  | _ => True

end Dialer

theorem openAfter_append {descriptors middle : Finset Nat}
    {calls : List SocketCall}
    (hcalls : openAfter descriptors calls = some middle)
    (more : List SocketCall) :
    openAfter descriptors (calls ++ more) = openAfter middle more := by
  induction calls generalizing descriptors with
  | nil =>
      obtain rfl := Option.some.inj hcalls
      rfl
  | cons call calls ih =>
      cases call with
      | opened sock =>
          simp only [openAfter, List.cons_append] at hcalls ⊢
          split
          · rename_i hopen
            simp [hopen] at hcalls
          · rename_i hfresh
            rw [if_neg hfresh] at hcalls
            exact ih hcalls
      | closed sock =>
          simp only [openAfter, List.cons_append] at hcalls ⊢
          split
          · rename_i hopen
            rw [if_pos hopen] at hcalls
            exact ih hcalls
          · rename_i hclosed
            simp [hclosed] at hcalls

/-- The loop uses the first address that connects. -/
theorem dialLoop_eq_some {dials : List Dial} {sock : Nat} :
    (dialLoop dials).1 = some sock ↔ ∃ before after,
      dials = before ++ .connected sock :: after ∧
        ∀ dial ∈ before, ∀ other, dial ≠ .connected other := by
  induction dials with
  | nil => simp [dialLoop]
  | cons dial dials ih =>
      have hskip : ∀ {first : Dial}, (∀ other, first ≠ .connected other) →
          ((∃ before after, dials = before ++ .connected sock :: after ∧
            ∀ dial ∈ before, ∀ other, dial ≠ .connected other) ↔
          ∃ before after, first :: dials = before ++ .connected sock :: after ∧
            ∀ dial ∈ before, ∀ other, dial ≠ .connected other) := by
        intro first hfirst
        constructor
        · rintro ⟨before, after, rfl, hbefore⟩
          exact ⟨first :: before, after, rfl,
            List.forall_mem_cons.mpr ⟨hfirst, hbefore⟩⟩
        · rintro ⟨before, after, heq, hbefore⟩
          cases before with
          | nil => exact absurd (List.cons.inj heq).1 (hfirst sock)
          | cons head before =>
              obtain ⟨rfl, rfl⟩ := List.cons.inj heq
              exact ⟨before, after, rfl, (List.forall_mem_cons.mp hbefore).2⟩
      cases dial with
      | noSocket => exact ih.trans (hskip nofun)
      | refused other => exact ih.trans (hskip nofun)
      | connected other =>
          constructor
          · intro hsock
            obtain rfl := Option.some.inj hsock
            exact ⟨[], dials, rfl, nofun⟩
          · rintro ⟨before, after, heq, hbefore⟩
            cases before with
            | nil =>
                obtain ⟨hhead, -⟩ := List.cons.inj heq
                obtain rfl := Dial.connected.inj hhead
                rfl
            | cons head before =>
                obtain ⟨rfl, -⟩ := List.cons.inj heq
                exact absurd rfl (hbefore _ List.mem_cons_self other)

/-- Of the sockets that the loop opens only the one it ends with stays open. -/
theorem openAfter_dialLoop {others : Finset Nat} {dials : List Dial}
    (hfresh : ∀ dial ∈ dials, ∀ sock, dial.sock? = some sock →
      sock ∉ others) :
    openAfter others (dialLoop dials).2 =
      some ((dialLoop dials).1.elim others (insert · others)) := by
  induction dials with
  | nil => rfl
  | cons dial dials ih =>
      obtain ⟨hfirst, hrest⟩ := List.forall_mem_cons.mp hfresh
      cases dial with
      | noSocket => exact ih hrest
      | refused sock =>
          have hsock := hfirst sock rfl
          simp only [dialLoop, openAfter, hsock, ↓reduceIte,
            Finset.mem_insert_self, Finset.erase_insert hsock]
          exact ih hrest
      | connected sock =>
          have hsock := hfirst sock rfl
          simp [dialLoop, openAfter, hsock]

namespace Dialer

/-- The open descriptors are those of the others and the client's socket. -/
structure Accounted (others : Finset Nat) (d : Dialer) : Prop where
  opened : openAfter others d.calls =
    some (d.client.sock.elim others (insert · others))
  distinct : ∀ sock, d.client.sock = some sock → sock ∉ others

theorem Accounted.close {others : Finset Nat} {d : Dialer}
    (haccounted : Accounted others d) :
    openAfter others d.close.calls = some others := by
  have happend := openAfter_append haccounted.opened
    (d.client.sock.map SocketCall.closed).toList
  have hdistinct := haccounted.distinct
  change openAfter others (d.calls ++ _) = some others
  rw [happend]
  cases hsock : d.client.sock with
  | none => rfl
  | some sock => simp [openAfter, Finset.erase_insert (hdistinct sock hsock)]

theorem Accounted.step {others : Finset Nat} {d d' : Dialer}
    {label : DialLabel} (haccounted : Accounted others d)
    (hok : Fresh others d label) (hstep : d.step label = some d') :
    Accounted others d' := by
  have hclose := haccounted.close
  cases label with
  | connect addresses =>
      obtain rfl := Option.some.inj hstep
      constructor
      · have hcalls := openAfter_append hclose (dialLoop (addresses.getD [])).2
        exact hcalls.trans (openAfter_dialLoop hok)
      · intro sock hsock
        obtain ⟨before, after, hdials, -⟩ := dialLoop_eq_some.mp hsock
        apply hok (.connected sock) _ sock rfl
        rw [hdials]
        exact List.mem_append_right before List.mem_cons_self
  | close =>
      obtain rfl := Option.some.inj hstep
      exact ⟨hclose, nofun⟩
  | send data script =>
      obtain rfl := Option.some.inj hstep
      exact haccounted
  | read script =>
      obtain rfl := Option.some.inj hstep
      have hsock : (d.client.readLine script).2.1.sock = d.client.sock := by
        unfold TcpClient.readLine
        split <;> rfl
      refine ⟨?_, ?_⟩
      · rw [hsock]
        exact haccounted.opened
      · rw [hsock]
        exact haccounted.distinct

/-- The client leaks no socket and closes none twice: in every run the
descriptors that are open are those of the rest of the process and the client's
socket, if it has one; and `connect` ends with the first address that
connects. -/
theorem sockets_accounted {others : Finset Nat} {labels : List DialLabel}
    {d : Dialer} (hrun : Run Dialer.step (Fresh others) {} labels d) :
    openAfter others d.calls =
        some (d.client.sock.elim others (insert · others)) ∧
      ∀ addresses sock, (d.connect addresses).2.client.sock = some sock ↔
        ∃ before after,
          addresses.getD [] = before ++ .connected sock :: after ∧
            ∀ dial ∈ before, ∀ other, dial ≠ .connected other := by
  have haccounted : Accounted others d := by
    apply hrun.invariant
    · intro state label next hinv hok hstep
      exact hinv.step hok hstep
    · exact ⟨rfl, nofun⟩
  exact ⟨haccounted.opened, fun _ _ => dialLoop_eq_some⟩

/-- Descriptor 3 belongs to another part of the process.  The first address
refuses, the second connects, and the connection is opened again. -/
def redialLabels : List DialLabel :=
  [.connect (some [.noSocket, .refused 4, .connected 5]), .read [.failed],
    .connect (some [.connected 4])]

theorem redialled_accounted :
    ∃ d, Run Dialer.step (Fresh {3}) {} redialLabels d ∧
      d.client.sock = some 4 ∧ openAfter {3} d.calls = some {4, 3} := by
  have hrun : Run Dialer.step (Fresh {3}) {} redialLabels _ :=
    .cons _ (by simp [Fresh, Dial.sock?]) rfl
      (.cons _ trivial rfl (.cons _ (by simp [Fresh, Dial.sock?]) rfl .nil))
  exact ⟨_, hrun, rfl, (sockets_accounted hrun).1⟩

end Dialer

end Minerby
