/-
The `--pool` option, which is meant to take `host:port`.  The port is what
`stoi` makes of the text behind the last colon, cut to 16 bits.
-/
import Minerby.Config

namespace Minerby

/-- `s` is `host`, a colon and `port`, and the colon is the last one. -/
def SplitsAtColon (s host port : String) : Prop :=
  s.toList = host.toList ++ ':' :: port.toList ∧ ':' ∉ port.toList

/-- One or more decimal digits and nothing else. -/
def IsNumeral (port : String) : Prop :=
  port ≠ "" ∧ ∀ c ∈ port.toList, c.isDigit = true

/-- `s` is `host:port` with a host that is not empty and a port number written
in decimal. -/
def IsHostPort (s host : String) (port : Nat) : Prop :=
  host ≠ "" ∧ ∃ p, SplitsAtColon s host p ∧ IsNumeral p ∧
    numeralValue p.toList = port ∧ 1 ≤ port ∧ port ≤ 65535

/-- The text behind the last colon is not the decimal numeral of a 16-bit
number, and yet `stoi` reads a number from it that is not 0 modulo `2 ^ 16`:
there are blanks or a sign before the digits, or other text behind them, or the
number is too large. -/
def Misread (s : String) : Prop :=
  ∃ host p n, SplitsAtColon s host p ∧ host ≠ "" ∧ stoi p = .ok n ∧
    ¬ (65536 : Int) ∣ n ∧ ¬ (IsNumeral p ∧ n ≤ 65535)

theorem SplitsAtColon.unique {s host host' port port' : String}
    (hsplit : SplitsAtColon s host port)
    (hsplit' : SplitsAtColon s host' port') : host = host' ∧ port = port' := by
  have hfind := rfind_eq_some.mpr
    ⟨host.toList, port.toList, hsplit.1, hsplit.2, rfl⟩
  have hfind' := rfind_eq_some.mpr
    ⟨host'.toList, port'.toList, hsplit'.1, hsplit'.2, rfl⟩
  have hlength := Option.some.inj (hfind.symm.trans hfind')
  obtain ⟨hhost, hport⟩ :=
    List.append_inj (hsplit.1.symm.trans hsplit'.1) hlength
  exact ⟨String.toList_injective hhost,
    String.toList_injective (List.cons.inj hport).2⟩

/-- `stoi` of a numeral is the number. -/
theorem stoi_numeral {p : String} {n : Int} (hnumeral : IsNumeral p) :
    stoi p = .ok n ↔ n = numeralValue p.toList ∧ n < 2 ^ 31 := by
  have hne : p.toList ≠ [] := fun hnil => hnumeral.1 (String.toList_injective hnil)
  rw [stoi, strtol_numeral hne hnumeral.2]
  simp only
  split
  · rename_i hrange
    simp only [reduceCtorEq, false_iff]
    omega
  · rename_i hrange
    rw [Except.ok.injEq]
    omega

namespace Config

/-- A text that is not empty replaces the pool when it has a colon and `stoi`
reads a number behind it. -/
theorem overridePool_eq_ok {c c' : Config} {pool : String} (hne : pool ≠ "") :
    c.overridePool pool = .ok c' ↔
      ∃ host p n, SplitsAtColon pool host p ∧ stoi p = .ok n ∧
        c' = { c with poolHost := host, poolPort := UInt16.ofInt n } := by
  rw [overridePool, if_neg hne]
  cases hfind : rfind ':' pool.toList with
  | none =>
      simp only [reduceCtorEq, false_iff]
      rintro ⟨host, p, n, hsplit, -⟩
      refine rfind_eq_none.mp hfind ?_
      rw [hsplit.1]
      simp
  | some colon =>
      obtain ⟨before, after, heq, hafter, rfl⟩ := rfind_eq_some.mp hfind
      have hsplit : SplitsAtColon pool (String.ofList before)
          (String.ofList after) := by
        refine ⟨?_, ?_⟩
        · simpa using heq
        · simpa using hafter
      have htake : pool.toList.take before.length = before := by
        rw [heq, List.take_left]
      have hdrop : pool.toList.drop (before.length + 1) = after := by
        rw [heq, List.drop_append]
        simp
      simp only [htake, hdrop]
      constructor
      · intro hok
        cases hstoi : stoi (String.ofList after) with
        | error fault =>
            rw [hstoi] at hok
            cases hok
        | ok n =>
            rw [hstoi] at hok
            exact ⟨_, _, n, hsplit, hstoi, (Except.ok.inj hok).symm⟩
      · rintro ⟨host, p, n, hsplit', hstoi, rfl⟩
        obtain ⟨rfl, rfl⟩ := hsplit.unique hsplit'
        rw [hstoi]
        rfl

theorem overrideRest_pool (c : Config) (ov : Overrides) :
    (c.overrideRest ov).poolHost = c.poolHost ∧
      (c.overrideRest ov).poolPort = c.poolPort := by
  unfold overrideRest
  constructor
  · split_ifs <;> rfl
  · split_ifs <;> rfl

/-- The other options cannot make a check fail, or one that fails pass for the
pool. -/
theorem validate_overrideRest {withRandomx : Bool} {c : Config}
    (hvalid : c.validate withRandomx = .ok ()) (ov : Overrides)
    (host : String) (port : UInt16) :
    (({ c with poolHost := host, poolPort := port } : Config).overrideRest
        ov).validate withRandomx = .ok () ↔ host ≠ "" ∧ port ≠ 0 := by
  obtain ⟨-, -, huser, hthreads, hcpu, hengine⟩ := validate_eq_ok.mp hvalid
  rw [validate_eq_ok]
  obtain ⟨hhost, hport⟩ := overrideRest_pool
    { c with poolHost := host, poolPort := port } ov
  rw [hhost, hport]
  refine ⟨fun hall => ⟨hall.1, hall.2.1⟩, fun hpool =>
    ⟨hpool.1, hpool.2, ?_, ?_, ?_, ?_⟩⟩
  · unfold overrideRest
    split_ifs <;> assumption
  · unfold overrideRest
    split_ifs <;> assumption
  · unfold overrideRest
    split_ifs <;> exact hcpu
  · unfold overrideRest
    split_ifs <;> exact hengine

theorem override_eq_ok {withRandomx : Bool} {c c' : Config} {ov : Overrides}
    (hvalid : c.validate withRandomx = .ok ()) (hne : ov.pool ≠ "") :
    c.override withRandomx ov = .ok c' ↔
      ∃ host p n, SplitsAtColon ov.pool host p ∧ stoi p = .ok n ∧
        host ≠ "" ∧ UInt16.ofInt n ≠ 0 ∧
        c' = ({ c with poolHost := host
                       poolPort := UInt16.ofInt n } : Config).overrideRest ov := by
  constructor
  · intro hok
    unfold override at hok
    cases hpool : c.overridePool ov.pool with
    | error fault =>
        rw [hpool] at hok
        cases hok
    | ok c₁ =>
        obtain ⟨host, p, n, hsplit, hstoi, rfl⟩ := (overridePool_eq_ok hne).mp hpool
        simp only [hpool, bind, Except.bind] at hok
        split at hok
        · cases hok
        · rename_i hchecked
          obtain ⟨hhost, hport⟩ :=
            (validate_overrideRest hvalid ov host _).mp hchecked
          exact ⟨host, p, n, hsplit, hstoi, hhost, hport,
            (Except.ok.inj hok).symm⟩
  · rintro ⟨host, p, n, hsplit, hstoi, hhost, hport, rfl⟩
    have hpool : c.overridePool ov.pool = .ok _ :=
      (overridePool_eq_ok hne).mpr ⟨host, p, n, hsplit, hstoi, rfl⟩
    have hchecked := (validate_overrideRest hvalid ov host _).mpr ⟨hhost, hport⟩
    simp only [override, hpool, bind, Except.bind, hchecked]
    rfl

/-- An empty text is taken for an option that is not given. -/
theorem override_empty {withRandomx : Bool} {c : Config} {ov : Overrides}
    (hvalid : c.validate withRandomx = .ok ()) (hempty : ov.pool = "") :
    c.override withRandomx ov = .ok (c.overrideRest ov) := by
  obtain ⟨hhost, hport, -⟩ := validate_eq_ok.mp hvalid
  have hchecked := (validate_overrideRest hvalid ov c.poolHost c.poolPort).mpr
    ⟨hhost, hport⟩
  simp only [override, overridePool, hempty, ↓reduceIte, bind, Except.bind,
    hchecked]
  rfl

end Config

/-- The conversion to 16 bits is the remainder. -/
theorem toNat_ofInt16 (n : Int) :
    ((UInt16.ofInt n).toNat : Int) = n % 65536 := by
  change (((n % 65536).toNat % 65536 : Nat) : Int) = n % 65536
  omega

theorem ofInt_eq_zero {n : Int} : UInt16.ofInt n = 0 ↔ (65536 : Int) ∣ n := by
  have hrem := toNat_ofInt16 n
  rw [← UInt16.toNat_inj]
  change (UInt16.ofInt n).toNat = 0 ↔ _
  omega

/-- The option accepts exactly `host:port`, and takes both parts as they are
written. -/
structure PoolOptionExact (withRandomx : Bool) (c : Config) (ov : Overrides) :
    Prop where
  accepted : ∀ c', c.override withRandomx ov = .ok c' →
    IsHostPort ov.pool c'.poolHost c'.poolPort.toNat
  taken : ∀ host port, IsHostPort ov.pool host port →
    ∃ c', c.override withRandomx ov = .ok c' ∧ c'.poolHost = host ∧
      c'.poolPort.toNat = port

/-- No text that is empty is `host:port`. -/
theorem IsHostPort.ne_empty {s host : String} {port : Nat}
    (hhostPort : IsHostPort s host port) : s ≠ "" := by
  rintro rfl
  obtain ⟨-, p, ⟨hsplit, -⟩, -⟩ := hhostPort
  simp at hsplit

/-- What `host:port` stands for is taken. -/
theorem taken_of_isHostPort {withRandomx : Bool} {c : Config}
    {ov : Overrides} (hvalid : c.validate withRandomx = .ok ())
    {host : String} {port : Nat} (hhostPort : IsHostPort ov.pool host port) :
    ∃ c', c.override withRandomx ov = .ok c' ∧ c'.poolHost = host ∧
      c'.poolPort.toNat = port := by
  have hne := hhostPort.ne_empty
  obtain ⟨hhost, p, hsplit, hnumeral, hvalue, hpos, hle⟩ := hhostPort
  have hstoi : stoi p = .ok (port : Int) := by
    rw [stoi_numeral hnumeral, hvalue]
    omega
  have hport : UInt16.ofInt port ≠ 0 := by
    rw [Ne, ofInt_eq_zero]
    omega
  refine ⟨_, (Config.override_eq_ok hvalid hne).mpr
    ⟨host, p, port, hsplit, hstoi, hhost, hport, rfl⟩, ?_, ?_⟩
  · rw [(Config.overrideRest_pool _ ov).1]
  · rw [(Config.overrideRest_pool _ ov).2]
    have hrem := toNat_ofInt16 port
    simp only
    omega

/-- What is accepted without being misread is `host:port`, taken as it is. -/
theorem isHostPort_of_override {withRandomx : Bool} {c c' : Config}
    {ov : Overrides} (hvalid : c.validate withRandomx = .ok ())
    (hne : ov.pool ≠ "") (hread : ¬ Misread ov.pool)
    (hok : c.override withRandomx ov = .ok c') :
    IsHostPort ov.pool c'.poolHost c'.poolPort.toNat := by
  obtain ⟨host, p, n, hsplit, hstoi, hhost, hport, rfl⟩ :=
    (Config.override_eq_ok hvalid hne).mp hok
  have hdvd : ¬ (65536 : Int) ∣ n := mt ofInt_eq_zero.mpr hport
  have hplain : IsNumeral p ∧ n ≤ 65535 := by
    by_contra hodd
    exact hread ⟨host, p, n, hsplit, hhost, hstoi, hdvd, hodd⟩
  obtain ⟨hnumeral, hle⟩ := hplain
  have hn := ((stoi_numeral hnumeral).mp hstoi).1
  have hrem := toNat_ofInt16 n
  rw [(Config.overrideRest_pool _ ov).1, (Config.overrideRest_pool _ ov).2]
  refine ⟨hhost, p, hsplit, hnumeral, ?_, ?_, ?_⟩
  · simp only
    omega
  · simp only
    omega
  · simp only
    omega

/-- A misread text is accepted, and is not `host:port`. -/
theorem PoolOptionExact.not_misread {withRandomx : Bool} {c : Config}
    {ov : Overrides} (hvalid : c.validate withRandomx = .ok ())
    (hne : ov.pool ≠ "") (hexact : PoolOptionExact withRandomx c ov) :
    ¬ Misread ov.pool := by
  rintro ⟨host, p, n, hsplit, hhost, hstoi, hdvd, hplain⟩
  have hok := (Config.override_eq_ok hvalid hne).mpr
    ⟨host, p, n, hsplit, hstoi, hhost, mt ofInt_eq_zero.mp hdvd, rfl⟩
  obtain ⟨-, p', hsplit', hnumeral, hvalue, -, hle⟩ := hexact.accepted _ hok
  obtain ⟨-, rfl⟩ := hsplit.unique hsplit'
  have hn := ((stoi_numeral hnumeral).mp hstoi).1
  exact hplain ⟨hnumeral, by omega⟩

/-- Over a configuration that has passed the checks, `--pool` accepts exactly
`host:port` when its text is not empty and not misread. -/
theorem pool_option_exact_iff (withRandomx : Bool) (c : Config)
    (ov : Overrides) (hvalid : c.validate withRandomx = .ok ()) :
    PoolOptionExact withRandomx c ov ↔ ov.pool ≠ "" ∧ ¬ Misread ov.pool := by
  constructor
  · intro hexact
    have hne : ov.pool ≠ "" := by
      intro hempty
      have hok := Config.override_empty hvalid hempty
      exact (hexact.accepted _ hok).ne_empty hempty
    exact ⟨hne, hexact.not_misread hvalid hne⟩
  · rintro ⟨hne, hread⟩
    constructor
    · intro c' hok
      exact isHostPort_of_override hvalid hne hread hok
    · intro host port hhostPort
      exact taken_of_isHostPort hvalid hhostPort

/-- A configuration that passes the checks. -/
def exampleConfig : Config :=
  { poolHost := "pool.example.org", poolPort := 3334, user := "YOUR_ADDRESS" }

/-- An ordinary `host:port`. -/
theorem example_pool_exact :
    exampleConfig.validate false = .ok () ∧
      PoolOptionExact false exampleConfig
        { pool := "pool.example.com:3333" } := by
  have hvalid : exampleConfig.validate false = .ok () := by
    decide +kernel
  have hsplit : SplitsAtColon "pool.example.com:3333" "pool.example.com"
      "3333" := by
    refine ⟨?_, ?_⟩ <;> decide +kernel
  have hdigits : "3333".toList.all Char.isDigit = true := by
    decide +kernel
  have hnumeral : IsNumeral "3333" :=
    ⟨by decide +kernel, List.all_eq_true.mp hdigits⟩
  refine ⟨hvalid, (pool_option_exact_iff false exampleConfig _ hvalid).mpr
    ⟨by decide +kernel, ?_⟩⟩
  rintro ⟨host, p, n, hsplit', -, hstoi, -, hplain⟩
  obtain ⟨-, rfl⟩ := hsplit.unique hsplit'
  refine hplain ⟨hnumeral, ?_⟩
  rw [((stoi_numeral hnumeral).mp hstoi).1]
  decide +kernel

/-- A port that is too large is cut to 16 bits: 68869 becomes 3333. -/
theorem large_port_accepted :
    exampleConfig.validate false = .ok () ∧
      (exampleConfig.override false
        { pool := "pool.example.com:68869" }).toOption.map
          (fun c => (c.poolHost, c.poolPort)) =
        some ("pool.example.com", 3333) ∧
      ¬ PoolOptionExact false exampleConfig
        { pool := "pool.example.com:68869" } := by
  have htaken : (exampleConfig.override false
      { pool := "pool.example.com:68869" }).toOption.map
        (fun c => (c.poolHost, c.poolPort)) =
      some ("pool.example.com", 3333) := by
    decide +kernel
  refine ⟨by decide +kernel, htaken, fun hexact => ?_⟩
  obtain ⟨c', hok, hpool⟩ := Option.map_eq_some_iff.mp htaken
  have hport : c'.poolPort = 3333 := (Prod.mk.inj hpool).2
  cases hoverride : exampleConfig.override false
      { pool := "pool.example.com:68869" } with
  | error fault =>
      rw [hoverride] at hok
      cases hok
  | ok c =>
      rw [hoverride] at hok
      obtain rfl := Option.some.inj hok
      obtain ⟨-, p, hsplit, -, hvalue, -⟩ := hexact.accepted _ hoverride
      have hsplit' : SplitsAtColon "pool.example.com:68869" "pool.example.com"
          "68869" := by
        refine ⟨?_, ?_⟩ <;> decide +kernel
      obtain ⟨-, rfl⟩ := hsplit'.unique hsplit
      rw [hport] at hvalue
      revert hvalue
      decide +kernel

end Minerby
