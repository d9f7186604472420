/-
The size of the extranonce2.  `parse_subscribe` checks the range in what it
returns, but has written the size through its output parameter by then, also
when it rejects the result.
-/
import Minerby.StratumSession

namespace Minerby

/-- What `parse_subscribe` does to the size it is given. -/
inductive SizeWrite where
  | keep
  | store (size : Int)
  /-- The conversion has no meaning, and what is stored is not known. -/
  | unknown
deriving Repr, DecidableEq

namespace SizeWrite

/-- The size after the write, where it is known. -/
def apply (old : Int) : SizeWrite → Option Int
  | keep => some old
  | store size => some size
  | unknown => none

/-- Nothing is written, or a size in range. -/
def InRange : SizeWrite → Prop
  | keep => True
  | store size => 1 ≤ size ∧ size ≤ 8
  | unknown => False

instance (write : SizeWrite) : Decidable write.InRange :=
  match write with
  | keep => .isTrue trivial
  | store size => inferInstanceAs (Decidable (1 ≤ size ∧ size ≤ 8))
  | unknown => .isFalse id

end SizeWrite

/-- What a subscribe result does to the size: the third item is converted when
the second one is a string. -/
def subscribeSize (result : Json) : SizeWrite :=
  match result with
  | .arr (_ :: .str _ :: third :: _) =>
      match third.getInt with
      | .ok size => .store size
      | .error (.thrown _) => .keep
      | .error (.undefined _) => .unknown
  | _ => .keep

theorem parseSubscribe_size (result : Json) (extranonce1 : String)
    (size : Int) :
    (parseSubscribe result extranonce1 size).toOption.map
        (fun written => written.2.2) = (subscribeSize result).apply size := by
  cases result with
  | arr items =>
      match items with
      | [] => rfl
      | [_] => rfl
      | [_, _] => simp [parseSubscribe, subscribeSize, Except.toOption,
          SizeWrite.apply]
      | _ :: second :: third :: rest =>
          have hlong : ¬ rest.length + 1 + 1 + 1 < 3 := by omega
          cases second with
          | str xn1 =>
              simp only [parseSubscribe, subscribeSize, List.length_cons,
                List.getD_cons_succ, List.getD_cons_zero, Json.getString,
                if_neg hlong]
              rcases third.getInt with (_ | _) | _ <;> rfl
          | _ =>
              simp only [parseSubscribe, subscribeSize, List.length_cons,
                List.getD_cons_succ, List.getD_cons_zero, Json.getString,
                if_neg hlong]
              rfl
  | _ => rfl

namespace StratumV1Client

/-- What handling a message does to the size. -/
def sizeWrite (c : StratumV1Client) (msg : Json) : SizeWrite :=
  match received msg with
  | .ok (.response id) =>
      if id = c.subscribeId then
        subscribeSize ((msg.find? "result").getD .null)
      else .keep
  | _ => .keep

theorem handleMessage_size {text : JsonText} {c c' : StratumV1Client}
    {msg : Json} {callback : Option Callback}
    (hok : handleMessage text c msg = .ok (c', callback)) :
    (c.sizeWrite msg).apply c.extranonce2Size = some c'.extranonce2Size := by
  rw [handleMessage_eq] at hok
  obtain ⟨received, hreceived, hok⟩ := bind_eq_ok.mp hok
  unfold sizeWrite
  rw [hreceived]
  cases received with
  | setDifficulty difficulty =>
      rcases (rebuildJob_eq_ok hok).1 with rfl | rfl <;> rfl
  | notify job =>
      rcases (rebuildJob_eq_ok hok).1 with rfl | rfl <;> rfl
  | reconnect =>
      obtain ⟨rfl, rfl⟩ := Prod.mk.inj (Except.ok.inj hok)
      rfl
  | response id =>
      by_cases hsubscribe : id = c.subscribeId
      · subst hsubscribe
        obtain ⟨accepted, xn1, size, hparse, rfl, -⟩ :=
          handleResponse_subscribe hok
        have hwritten := parseSubscribe_size
          ((msg.find? "result").getD .null) c.extranonce1 c.extranonce2Size
        rw [hparse] at hwritten
        simp only [↓reduceIte]
        exact hwritten.symm
      · obtain ⟨callback', hother, -⟩ := handleResponse_other text msg hsubscribe
        obtain ⟨rfl, -⟩ := Prod.mk.inj (Except.ok.inj (hother.symm.trans hok))
        simp only [hsubscribe, ↓reduceIte]
        rfl
  | nothing =>
      obtain ⟨rfl, rfl⟩ := Prod.mk.inj (Except.ok.inj hok)
      rfl

/-- What a poll does to the size. -/
def pollSizeWrite (text : JsonText) (c : StratumV1Client)
    (script : List RecvResult) : SizeWrite :=
  match text.incoming c.conn script with
  | none => .keep
  | some msg => c.sizeWrite msg

/-- A poll that returns has written a known size or none. -/
theorem poll_size {text : JsonText} {c c' : StratumV1Client}
    {script rest : List RecvResult} {flag : Bool} {callback : Option Callback}
    (hok : c.poll text script = .ok (flag, c', callback, rest)) :
    (c.pollSizeWrite text script).apply c.extranonce2Size =
      some c'.extranonce2Size := by
  rw [poll_eq] at hok
  unfold pollSizeWrite
  cases hmsg : text.incoming c.conn script with
  | none =>
      simp only [hmsg, Except.ok.injEq, Prod.mk.injEq] at hok
      obtain ⟨-, rfl, -, -⟩ := hok
      rfl
  | some msg =>
      simp only [hmsg] at hok
      obtain ⟨⟨c₁, callback₁⟩, hhandled, hok⟩ := bind_eq_ok.mp hok
      simp only [Except.ok.injEq, Prod.mk.injEq] at hok
      obtain ⟨-, rfl, -, -⟩ := hok
      have hsize := handleMessage_size hhandled
      exact hsize

/-- The size is in range, and the call of `encode_extranonce2` that
`rebuild_job` makes returns that many bytes of hex, for every counter, with
shifts of less than 64 bits. -/
structure SizeUsable (c : StratumV1Client) : Prop where
  pos : 1 ≤ c.extranonce2Size
  le : c.extranonce2Size ≤ 8
  encodes : ∀ counter, ∃ bytes : List UInt8,
    encodeExtranonce2 counter c.extranonce2Size = .ok (toHex bytes) ∧
      (bytes.length : Int) = c.extranonce2Size
  shifts : ∀ i < c.extranonce2Size.toNat,
    8 * (c.extranonce2Size.toNat - 1 - i) < 64

/-- A size in range is usable. -/
theorem sizeUsable_iff {c : StratumV1Client} :
    c.SizeUsable ↔ 1 ≤ c.extranonce2Size ∧ c.extranonce2Size ≤ 8 := by
  constructor
  · exact fun h => ⟨h.pos, h.le⟩
  · rintro ⟨hpos, hle⟩
    refine ⟨hpos, hle, fun counter => ?_, fun i hi => by omega⟩
    unfold encodeExtranonce2
    rw [if_neg (by omega), if_neg (by omega)]
    refine ⟨_, rfl, ?_⟩
    rw [List.length_map, List.length_range]
    omega

/-- The session, or nothing once a size with an unknown value has been
stored. -/
def Session.stepKnown (text : JsonText) :
    Option Session → SessionLabel → Option (Option Session)
  | none, _ => some none
  | some s, .poll script =>
      if s.client.pollSizeWrite text script = .unknown then some none
      else (s.step text (.poll script)).map some
  | some s, label => (s.step text label).map some

/-- What a poll does to the size leaves one in range. -/
def WritesInRange (text : JsonText) : Option Session → SessionLabel → Prop
  | some s, .poll script => (s.client.pollSizeWrite text script).InRange
  | _, _ => True

instance (text : JsonText) (state : Option Session) (label : SessionLabel) :
    Decidable (WritesInRange text state label) :=
  match state, label with
  | some s, .poll script =>
      inferInstanceAs (Decidable (s.client.pollSizeWrite text script).InRange)
  | none, .poll _ => .isTrue trivial
  | some _, .connect _ _ _ => .isTrue trivial
  | none, .connect _ _ _ => .isTrue trivial
  | some _, .disconnect => .isTrue trivial
  | none, .disconnect => .isTrue trivial
  | some _, .submit _ _ => .isTrue trivial
  | none, .submit _ _ => .isTrue trivial

/-- The size is known and usable. -/
def KnownUsable (state : Option Session) : Prop :=
  ∃ s, state = some s ∧ s.client.SizeUsable

theorem connectStart_size (text : JsonText) (c : StratumV1Client)
    (opened : Option Nat) (subscribeSends authorizeSends : List SendResult) :
    (c.connectStart text opened subscribeSends authorizeSends).2.extranonce2Size =
      c.extranonce2Size := by
  cases opened with
  | none => rfl
  | some handle =>
      simp only [connectStart, TcpClient.connect, Option.isSome_some]
      split <;> rfl

@[simp]
theorem Session.client_deliver (s : Session) (callback : Option Callback) :
    (s.deliver callback).client = s.client := by
  unfold Session.deliver
  split <;> rfl

/-- A step keeps the size usable exactly when what it writes is in range. -/
theorem Session.stepKnown_usable {text : JsonText} {state next : Option Session}
    {label : SessionLabel} (husable : KnownUsable state)
    (hstep : Session.stepKnown text state label = some next) :
    KnownUsable next ↔ WritesInRange text state label := by
  obtain ⟨s, rfl, husable⟩ := husable
  have hold := sizeUsable_iff.mp husable
  have hkept : ∀ s' : Session,
      s'.client.extranonce2Size = s.client.extranonce2Size →
        KnownUsable (some s') := by
    intro s' hsize
    exact ⟨s', rfl, sizeUsable_iff.mpr (by rwa [hsize])⟩
  cases label with
  | connect opened subscribeSends authorizeSends =>
      obtain rfl := Option.some.inj hstep
      exact iff_of_true (hkept _ (connectStart_size text _ _ _ _)) trivial
  | disconnect =>
      obtain rfl := Option.some.inj hstep
      exact iff_of_true (hkept _ rfl) trivial
  | submit job nonce =>
      obtain rfl := Option.some.inj hstep
      exact iff_of_true (hkept _ rfl) trivial
  | poll script =>
      simp only [Session.stepKnown] at hstep
      split at hstep
      · rename_i hunknown
        obtain rfl := Option.some.inj hstep
        simp only [WritesInRange, hunknown, SizeWrite.InRange, iff_false]
        rintro ⟨_, ⟨⟩, -⟩
      · obtain ⟨s', hs', rfl⟩ := Option.map_eq_some_iff.mp hstep
        simp only [Session.step] at hs'
        split at hs'
        · cases hs'
        · rename_i flag client callback rest hpoll
          obtain rfl := Option.some.inj hs'
          have hsize := poll_size hpoll
          simp only [KnownUsable, Option.some.injEq, exists_eq_left',
            sizeUsable_iff, Session.client_deliver, WritesInRange]
          cases hwrite : s.client.pollSizeWrite text script with
          | keep =>
              rw [hwrite] at hsize
              rw [← Option.some.inj hsize]
              exact iff_of_true hold trivial
          | store size =>
              rw [hwrite] at hsize
              rw [← Option.some.inj hsize]
              rfl
          | unknown =>
              rw [hwrite] at hsize
              cases hsize

/-- In every run of the client the extranonce2 size is known and usable in
every state exactly when every size that a response to the subscribe request
writes is in range. -/
theorem size_usable_iff_writesInRange (text : JsonText) (user pass : String)
    {labels : List SessionLabel} {state : Option Session}
    (hrun : Run (Session.stepKnown text) anyLabel
      (some { client := { user := user, pass := pass } }) labels state) :
    (∀ before reached, before <+: labels →
      Run (Session.stepKnown text) anyLabel
        (some { client := { user := user, pass := pass } }) before reached →
          KnownUsable reached) ↔
      Run (Session.stepKnown text) (WritesInRange text)
        (some { client := { user := user, pass := pass } }) labels state := by
  refine hrun.always_iff ?_ ?_
  · exact ⟨_, rfl, sizeUsable_iff.mpr ⟨by simp, by simp⟩⟩
  · intro reached label next husable hstep
    exact Session.stepKnown_usable husable hstep

/-- A subscribe result with a size that no 64-bit value has. -/
def oversizedReply : Json :=
  .obj [("error", .null), ("id", .int 1),
    ("result", .arr [.arr [], .str "01", .int 100])]

/-- A subscribe result with a size that `int` has no value for. -/
def floatReply : Json :=
  .obj [("error", .null), ("id", .int 1),
    ("result", .arr [.arr [], .str "01", .float 4294967300])]

def sizeText : JsonText := .ofMessages [subscribeReply, oversizedReply]

/-- The subscribe request is answered with the given result. -/
def answeredLabels (reply : Json) : List SessionLabel :=
  [.connect (some 1) [.all] [.all], .poll [.line reply.render]]

/-- A float that would be 4 modulo the width of `int` is no size in range. -/
example : subscribeSize ((floatReply.find? "result").getD .null) =
    .unknown := by
  decide +kernel

/-- A result in range, and the size is usable in every state. -/
theorem subscribed_size_usable :
    ∃ state, Run (Session.stepKnown sizeText) anyLabel
        (some { client := { user := "u", pass := "x" } })
        (answeredLabels subscribeReply) state ∧
      Run (Session.stepKnown sizeText) (WritesInRange sizeText)
        (some { client := { user := "u", pass := "x" } })
        (answeredLabels subscribeReply) state ∧
      ∀ before reached, before <+: answeredLabels subscribeReply →
        Run (Session.stepKnown sizeText) anyLabel
          (some { client := { user := "u", pass := "x" } }) before reached →
            KnownUsable reached := by
  have hany : (replay (Session.stepKnown sizeText) anyLabel
      (some { client := { user := "u", pass := "x" } })
      (answeredLabels subscribeReply)).isSome = true := by
    decide +kernel
  have hguarded : (replay (Session.stepKnown sizeText) (WritesInRange sizeText)
      (some { client := { user := "u", pass := "x" } })
      (answeredLabels subscribeReply)).isSome = true := by
    decide +kernel
  obtain ⟨state, hs⟩ := Option.isSome_iff_exists.mp hany
  obtain ⟨state', hs'⟩ := Option.isSome_iff_exists.mp hguarded
  have hrun := run_of_replay hs
  have hrange := run_of_replay hs'
  obtain rfl := hrun.unique hrange
  exact ⟨state', hrun, hrange,
    (size_usable_iff_writesInRange sizeText "u" "x" hrun).mpr hrange⟩

/-- A result that `parse_subscribe` rejects for its size has written it. -/
theorem oversized_reply_written :
    parseSubscribe ((oversizedReply.find? "result").getD .null) "" 4 =
        .ok (false, "01", 100) ∧
      ∃ s, Run (Session.step sizeText) anyLabel
          { client := { user := "u", pass := "x" } }
          (answeredLabels oversizedReply) s ∧
        s.client.extranonce2Size = 100 ∧ ¬ s.client.SizeUsable := by
  have hreplay : (replay (Session.step sizeText) anyLabel
      { client := { user := "u", pass := "x" } }
      (answeredLabels oversizedReply)).any
        (fun s => s.client.extranonce2Size = 100) = true := by
    decide +kernel
  obtain ⟨s, hs, hsize⟩ := (Option.any_eq_true _ _).mp hreplay
  have hwritten := of_decide_eq_true hsize
  refine ⟨rfl, s, run_of_replay hs, hwritten, fun husable => ?_⟩
  have hle := husable.le
  rw [hwritten] at hle
  omega

end StratumV1Client

end Minerby
