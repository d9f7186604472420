/-
The responses of the HTTP endpoint.  They are put together as text, and each is
framed so that a reader gets the body back whatever it holds; which one it is
depends on the first bytes of the request alone.
-/
import Minerby.HttpMessage

namespace Minerby

/-- `http_response` -/
def httpResponse (code : Nat) (status contentType : String)
    (body : List Char) : List Char :=
  "HTTP/1.1 ".toList ++ Nat.toDigits 10 code ++ " ".toList ++ status.toList ++
    "\r\n".toList ++
  "Content-Type: ".toList ++ contentType.toList ++ "\r\n".toList ++
  "Content-Length: ".toList ++ Nat.toDigits 10 body.length ++ "\r\n".toList ++
  "Connection: close\r\n\r\n".toList ++ body

/-- What the first bytes of a request ask for. -/
inductive Route where
  | metrics
  | healthz
  | notFound
deriving Repr, DecidableEq

/-- `req.rfind("GET /metrics", 0) == 0`, and so on. -/
def route (req : List Char) : Route :=
  if "GET /metrics".toList.isPrefixOf req then .metrics
  else if "GET /healthz".toList.isPrefixOf req then .healthz
  else .notFound

/-- The response, where `body` is what the body provider returns when it is
called. -/
def respond (req body : List Char) : List Char :=
  match route req with
  | .metrics => httpResponse 200 "OK" "text/plain; version=0.0.4" body
  | .healthz => httpResponse 200 "OK" "text/plain" "ok".toList
  | .notFound => httpResponse 404 "Not Found" "text/plain" "not found\n".toList

/-- A message of this server. -/
def plainMessage (status contentType : String) (body : List Char) :
    HttpMessage where
  startLine := "HTTP/1.1 ".toList ++ status.toList
  fields := [⟨"Content-Type".toList, contentType.toList⟩,
    ⟨"Content-Length".toList, Nat.toDigits 10 body.length⟩,
    ⟨"Connection".toList, "close".toList⟩]
  body := body

/-- The text that a request must start with. -/
def Route.start : Route → List Char
  | .metrics => "GET /metrics".toList
  | .healthz => "GET /healthz".toList
  | .notFound => []

/-- What the response says. -/
def Route.message (body : List Char) : Route → HttpMessage
  | .metrics => plainMessage "200 OK" "text/plain; version=0.0.4" body
  | .healthz => plainMessage "200 OK" "text/plain" "ok".toList
  | .notFound =>
      plainMessage "404 Not Found" "text/plain" "not found\n".toList

theorem readDecimal_toDigits (n : Nat) : readDecimal (Nat.toDigits 10 n) = n :=
  Nat.ofDigitChars_ten_toDigits

theorem cr_notMem_toDigits (n : Nat) : '\r' ∉ Nat.toDigits 10 n := by
  intro hcr
  have hdigit := Nat.isDigit_of_mem_toDigits (by decide) (by decide) hcr
  cases hdigit

theorem bodyLength_plain (contentType connection length : List Char) :
    bodyLength [⟨"Content-Type".toList, contentType⟩,
      ⟨"Content-Length".toList, length⟩, ⟨"Connection".toList, connection⟩] =
      some (readDecimal length) := by
  rw [bodyLength, List.find?_cons_of_neg (by simp),
    List.find?_cons_of_pos (by simp)]
  rfl

/-- A message of this server is clean when its status and its type are. -/
theorem plainMessage_clean {status contentType : String} {body : List Char}
    (hstatus : '\r' ∉ status.toList) (htype : '\r' ∉ contentType.toList) :
    (plainMessage status contentType body).Clean := by
  have hcontentType : Field.Clean ⟨"Content-Type".toList, contentType.toList⟩ :=
    ⟨by simp, by simp, htype⟩
  have hcontentLength : Field.Clean
      ⟨"Content-Length".toList, Nat.toDigits 10 body.length⟩ :=
    ⟨by simp, by simp, cr_notMem_toDigits _⟩
  have hconnection : Field.Clean ⟨"Connection".toList, "close".toList⟩ :=
    ⟨by simp, by simp, by simp⟩
  constructor
  · change '\r' ∉ "HTTP/1.1 ".toList ++ status.toList
    simp [hstatus]
  · change ∀ f ∈ [_, _, _], Field.Clean f
    simp only [List.forall_mem_cons, List.not_mem_nil, false_implies,
      implies_true, and_true]
    exact ⟨hcontentType, hcontentLength, hconnection⟩
  · have hlength := bodyLength_plain contentType.toList "close".toList
      (Nat.toDigits 10 body.length)
    rw [readDecimal_toDigits] at hlength
    exact hlength

theorem httpResponse_eq_write (code : Nat) (status contentType : String)
    (body : List Char) {line : String}
    (hline : line.toList =
      Nat.toDigits 10 code ++ " ".toList ++ status.toList) :
    httpResponse code status contentType body =
      (plainMessage line contentType body).write := by
  have htype : "Content-Type: ".toList = "Content-Type".toList ++ [':', ' '] := by
    rfl
  have hlength : "Content-Length: ".toList =
      "Content-Length".toList ++ [':', ' '] := by
    rfl
  have hclose : "Connection: close\r\n\r\n".toList =
      "Connection".toList ++ [':', ' '] ++ "close".toList ++ crlf ++ crlf := by
    rfl
  have hend : "\r\n".toList = crlf := by
    rfl
  have hwrite : (plainMessage line contentType body).write =
      "HTTP/1.1 ".toList ++ line.toList ++ crlf ++
        ([(⟨"Content-Type".toList, contentType.toList⟩ : Field),
          ⟨"Content-Length".toList, Nat.toDigits 10 body.length⟩,
          ⟨"Connection".toList, "close".toList⟩].flatMap
            fun f => f.write ++ crlf) ++ crlf ++ body := by
    rfl
  have hresponse : httpResponse code status contentType body =
      "HTTP/1.1 ".toList ++ Nat.toDigits 10 code ++ " ".toList ++
        status.toList ++ "\r\n".toList ++ "Content-Type: ".toList ++
        contentType.toList ++ "\r\n".toList ++ "Content-Length: ".toList ++
        Nat.toDigits 10 body.length ++ "\r\n".toList ++
        "Connection: close\r\n\r\n".toList ++ body := by
    rfl
  rw [hwrite, hresponse, htype, hlength, hclose, hend, hline]
  simp only [Field.write, List.flatMap_cons, List.flatMap_nil,
    List.append_assoc, List.append_nil]

theorem respond_eq_write (req body : List Char) :
    respond req body = ((route req).message body).write := by
  unfold respond
  cases route req with
  | metrics => exact httpResponse_eq_write _ _ _ _ (by rfl)
  | healthz => exact httpResponse_eq_write _ _ _ _ (by rfl)
  | notFound => exact httpResponse_eq_write _ _ _ _ (by rfl)

theorem message_clean (kind : Route) (body : List Char) :
    (kind.message body).Clean := by
  cases kind <;> exact plainMessage_clean (by simp) (by simp)

theorem start_length (kind : Route) (hfound : kind ≠ .notFound) :
    kind.start.length = 12 := by
  cases kind with
  | metrics => rfl
  | healthz => rfl
  | notFound => exact absurd rfl hfound

/-- A path is answered exactly when the request starts with it. -/
theorem route_eq_iff {kind : Route} (hfound : kind ≠ .notFound)
    (req : List Char) : route req = kind ↔ kind.start <+: req := by
  have hdisjoint : ¬ (Route.metrics.start <+: req ∧
      Route.healthz.start <+: req) := by
    rintro ⟨hmetrics, hhealthz⟩
    have hlength : Route.metrics.start.length = Route.healthz.start.length :=
      (start_length .metrics nofun).trans (start_length .healthz nofun).symm
    have hsame := List.prefix_of_prefix_length_le hmetrics hhealthz
      (Nat.le_of_eq hlength)
    have hne : "GET /metrics".toList ≠ "GET /healthz".toList := by simp
    exact hne (hsame.eq_of_length hlength)
  have hroute : route req = if Route.metrics.start.isPrefixOf req then .metrics
      else if Route.healthz.start.isPrefixOf req then .healthz
      else .notFound := by
    rfl
  simp only [hroute, List.isPrefixOf_iff_prefix]
  cases kind with
  | metrics =>
      split
      · rename_i hmetrics
        exact iff_of_true rfl hmetrics
      · rename_i hmetrics
        apply iff_of_false _ hmetrics
        split <;> nofun
  | healthz =>
      split
      · rename_i hmetrics
        exact iff_of_false nofun fun hhealthz => hdisjoint ⟨hmetrics, hhealthz⟩
      · split
        · rename_i hhealthz
          exact iff_of_true rfl hhealthz
        · rename_i hhealthz
          exact iff_of_false nofun hhealthz
  | notFound => exact absurd rfl hfound

/-- One `recv` may return less than the request.  The answer is then the answer
to the whole request exactly when the path that is asked for has arrived: else
it is a 404. -/
theorem route_of_prefix_iff {piece req : List Char} (hpiece : piece <+: req) :
    (route piece = route req ↔ (route req).start.length ≤ piece.length) ∧
      (route piece = route req ∨ route piece = .notFound) := by
  have hlonger : route piece ≠ .notFound → route req = route piece := by
    intro hfound
    have hstart := (route_eq_iff hfound piece).mp rfl
    exact (route_eq_iff hfound req).mpr (hstart.trans hpiece)
  by_cases hreq : route req = .notFound
  · have hsame : route piece = route req := by
      by_contra hne
      have hfound : route piece ≠ .notFound := fun h => hne (h.trans hreq.symm)
      exact hne (hlonger hfound).symm
    refine ⟨iff_of_true hsame ?_, Or.inl hsame⟩
    rw [hreq]
    exact Nat.zero_le _
  · have hstart := (route_eq_iff hreq req).mp rfl
    have hexact : route piece = route req ↔
        (route req).start.length ≤ piece.length := by
      rw [route_eq_iff hreq piece]
      constructor
      · intro harrived
        exact harrived.length_le
      · intro hle
        exact List.prefix_of_prefix_length_le hstart hpiece hle
    refine ⟨hexact, ?_⟩
    by_cases hpath : route piece = .notFound
    · exact Or.inr hpath
    · exact Or.inl (hlonger hpath).symm

/-- Half of the path arrives. -/
theorem half_path_not_found :
    ¬ route "GET /met".toList = route "GET /metrics HTTP/1.1".toList := by
  have hpiece : "GET /met".toList <+: "GET /metrics HTTP/1.1".toList := by
    decide +kernel
  have hshort : ¬ (route "GET /metrics HTTP/1.1".toList).start.length ≤
      "GET /met".toList.length := by
    decide +kernel
  exact fun hsame => hshort ((route_of_prefix_iff hpiece).1.mp hsame)

/-- Every response is read back: its status, its type and its body, whatever the
provider returned, line ends and empty lines included, and whatever comes
behind it. -/
theorem respond_framed (req body rest : List Char) :
    HttpMessage.read (respond req body ++ rest) =
      some ((route req).message body, rest) := by
  rw [respond_eq_write]
  exact HttpMessage.read_write (message_clean _ body) rest

end Minerby
