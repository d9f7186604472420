/-
The configuration of the miner: what the file may say, the checks, and the
options of the command line that replace parts of it.
-/
import Minerby.Json
import Minerby.Numeral

namespace Minerby

structure RandomXConfig where
  mode : String := "light"
  /-- 0 is the hardware concurrency. -/
  initThreads : Int := 0
  largePages : Bool := false
  secure : Bool := false
deriving Repr, DecidableEq

structure Config where
  protocol : String := "bitcoin"
  engine : String := "sha256d"
  poolHost : String := ""
  poolPort : UInt16 := 0
  user : String := ""
  pass : String := "x"
  /-- 0 is the hardware concurrency. -/
  threads : Int := 0
  /-- 0 is disabled. -/
  metricsPort : UInt16 := 0
  cpuPriority : String := "low"
  statsFile : String := ""
  randomx : RandomXConfig := {}
  netDifficulty : ℚ := 0
  blockReward : ℚ := 3 / 5
  coinPriceUsd : ℚ := 0
deriving DecidableEq

/-- `get<uint16_t>()` -/
def Json.getUInt16 : Json → Except Fault UInt16
  | .int n => .ok (UInt16.ofInt n)
  | .float x => (convertFloat 0 65535 x).map UInt16.ofInt
  | .bool b => .ok (if b then 1 else 0)
  | _ => .error (.thrown "type_error.302: type must be number")

/-- `get<bool>()` -/
def Json.getBool : Json → Except Fault Bool
  | .bool b => .ok b
  | _ => .error (.thrown "type_error.302: type must be boolean")

def RandomXConfig.ofJson (r : Json) : Except Fault RandomXConfig := do
  let c : RandomXConfig := {}
  let mode ← r.value Json.getString c.mode "mode"
  let initThreads ← r.value Json.getInt c.initThreads "init_threads"
  let largePages ← r.value Json.getBool c.largePages "large_pages"
  let secure ← r.value Json.getBool c.secure "secure"
  return { mode, initThreads, largePages, secure }

namespace Config

/-- The checks of the engine against the protocol.  `withRandomx` is the build
option `MINERBY_WITH_RANDOMX`. -/
def validateEngine (withRandomx : Bool) (c : Config) : Except Fault Unit :=
  if c.protocol = "bitcoin" then
    if c.engine ≠ "sha256d" then
      .error (.thrown "config: protocol 'bitcoin' requires engine 'sha256d'")
    else .ok ()
  else if c.protocol = "monero" then
    if c.engine ≠ "randomx" then
      .error (.thrown "config: protocol 'monero' requires engine 'randomx'")
    else if !withRandomx then
      .error (.thrown
        "config: this build was compiled without RandomX (MINERBY_WITH_RANDOMX=OFF)")
    else if c.randomx.mode ≠ "light" ∧ c.randomx.mode ≠ "fast" then
      .error (.thrown "config: randomx.mode must be 'light' or 'fast'")
    else .ok ()
  else .error (.thrown "config: protocol must be 'bitcoin' or 'monero'")

def validate (withRandomx : Bool) (c : Config) : Except Fault Unit :=
  if c.poolHost = "" then .error (.thrown "config: pool_host is required")
  else if c.poolPort = 0 then .error (.thrown "config: pool_port is required")
  else if c.user = "" then .error (.thrown "config: user is required")
  else if c.threads < 0 then .error (.thrown "config: threads must be >= 0")
  else if c.cpuPriority ≠ "low" ∧ c.cpuPriority ≠ "normal" then
    .error (.thrown "config: cpu_priority must be 'low' or 'normal'")
  else c.validateEngine withRandomx

/-- The members read by `from_file`. -/
def ofJson (j : Json) : Except Fault Config := do
  let c : Config := {}
  let protocol ← j.value Json.getString c.protocol "protocol"
  let engine ← j.value Json.getString c.engine "engine"
  let poolHost ← j.value Json.getString c.poolHost "pool_host"
  let poolPort ← j.value Json.getUInt16 c.poolPort "pool_port"
  let user ← j.value Json.getString c.user "user"
  let pass ← j.value Json.getString c.pass "pass"
  let threads ← j.value Json.getInt c.threads "threads"
  let metricsPort ← j.value Json.getUInt16 c.metricsPort "metrics_port"
  let cpuPriority ← j.value Json.getString c.cpuPriority "cpu_priority"
  let statsFile ← j.value Json.getString c.statsFile "stats_file"
  let netDifficulty ← j.value Json.getDouble c.netDifficulty "net_difficulty"
  let blockReward ← j.value Json.getDouble c.blockReward "block_reward"
  let coinPriceUsd ← j.value Json.getDouble c.coinPriceUsd "coin_price_usd"
  let randomx ← match j.find? "randomx" with
    | some (.obj members) => RandomXConfig.ofJson (.obj members)
    | _ => .ok c.randomx
  return { protocol, engine, poolHost, poolPort, user, pass, threads,
           metricsPort, cpuPriority, statsFile, randomx, netDifficulty,
           blockReward, coinPriceUsd }

/-- `from_file`.  The contents are `none` when the file cannot be opened;
`parse` is `in >> j` with the text of its exception. -/
def fromFile (withRandomx : Bool) (parse : List Char → Except String Json)
    (path : String) (contents : Option (List Char)) : Except Fault Config :=
  match contents with
  | none => .error (.thrown ("config: cannot open " ++ path))
  | some text =>
      match parse text with
      | .error what => .error (.thrown ("config: parse error: " ++ what))
      | .ok j => do
          let c ← ofJson j
          c.validate withRandomx
          return c

end Config

/-- `std::stoi`: the number must fit an `int`. -/
def stoi (s : String) : Except Fault Int :=
  match strtol s.toList with
  | none => .error (.thrown "stoi")
  | some n =>
      if n < -2 ^ 31 ∨ 2 ^ 31 ≤ n then .error (.thrown "stoi") else .ok n

/-- The options of `run` that replace parts of the configuration, with the
values that stand for an option not given. -/
structure Overrides where
  pool : String := ""
  user : String := ""
  threads : Int := -1
  metrics : Int := -1
deriving Repr, DecidableEq

namespace Config

/-- The block of `main` for `--pool`. -/
def overridePool (c : Config) (pool : String) : Except Fault Config :=
  if pool = "" then .ok c
  else
    match rfind ':' pool.toList with
    | none => .error (.thrown "--pool needs host:port")
    | some colon => do
        let port ← stoi (String.ofList (pool.toList.drop (colon + 1)))
        return { c with
          poolHost := String.ofList (pool.toList.take colon)
          poolPort := UInt16.ofInt port }

/-- The other three options. -/
def overrideRest (c : Config) (ov : Overrides) : Config :=
  let c := if ov.user ≠ "" then { c with user := ov.user } else c
  let c := if 0 ≤ ov.threads then { c with threads := ov.threads } else c
  if 0 ≤ ov.metrics then { c with metricsPort := UInt16.ofInt ov.metrics } else c

/-- What `main` does between reading the file and running: the options, then
the checks again. -/
def override (c : Config) (withRandomx : Bool) (ov : Overrides) :
    Except Fault Config := do
  let c ← c.overridePool ov.pool
  let c := c.overrideRest ov
  c.validate withRandomx
  return c

/-- `validate` passes exactly when every check does. -/
theorem validate_eq_ok {withRandomx : Bool} {c : Config} :
    c.validate withRandomx = .ok () ↔
      c.poolHost ≠ "" ∧ c.poolPort ≠ 0 ∧ c.user ≠ "" ∧ 0 ≤ c.threads ∧
        (c.cpuPriority = "low" ∨ c.cpuPriority = "normal") ∧
        c.validateEngine withRandomx = .ok () := by
  unfold validate
  split
  · simp_all
  · split
    · simp_all
    · split
      · simp_all
      · split
        · simp only [reduceCtorEq, false_iff]
          rintro ⟨-, -, -, hthreads, -⟩
          omega
        · split
          · simp_all
          · rename_i hhost hport huser hthreads hcpu
            refine ⟨fun hengine => ⟨hhost, hport, huser, not_lt.mp hthreads, ?_,
              hengine⟩, fun hall => hall.2.2.2.2.2⟩
            by_contra hneither
            exact hcpu (not_or.mp hneither)

/-- A configuration read from a file has passed the checks. -/
theorem validate_of_fromFile {withRandomx : Bool}
    {parse : List Char → Except String Json} {path : String}
    {contents : Option (List Char)} {c : Config}
    (hread : fromFile withRandomx parse path contents = .ok c) :
    c.validate withRandomx = .ok () := by
  unfold fromFile at hread
  split at hread
  · cases hread
  · split at hread
    · cases hread
    · rename_i j _
      cases hc : ofJson j with
      | error fault =>
          rw [hc] at hread
          cases hread
      | ok c' =>
          rw [hc] at hread
          cases hvalid : c'.validate withRandomx with
          | error fault =>
              simp only [bind, Except.bind, hvalid] at hread
              cases hread
          | ok _ =>
              simp only [bind, Except.bind, hvalid] at hread
              obtain rfl := Except.ok.inj hread
              exact hvalid

end Config

end Minerby
