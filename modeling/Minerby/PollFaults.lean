/-
Which messages `poll` survives.  Only the parser runs inside a `try`; every
later access to the message is a place where the call may fail.
-/
import Minerby.PoolClient

namespace Minerby

namespace Json

/-- The method of a message, empty when there is none. -/
def method (msg : Json) : String :=
  match msg.find? "method" with
  | some (.str name) => name
  | _ => ""

end Json

namespace StratumV1Client

section

variable (text : JsonText) {c : StratumV1Client} {msg : Json}

end

end StratumV1Client

namespace MoneroClient

open StratumV1Client (errorText)

section

variable (text : JsonText) {c : MoneroClient} {msg : Json}

end

end MoneroClient

namespace PoolClient

end PoolClient

end Minerby
