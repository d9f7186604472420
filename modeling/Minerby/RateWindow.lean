/-
The rolling hashrate.  `snapshot` closes a window that opened at the previous
snapshot and blends the rate over it into the estimate.  The main loop takes a
snapshot for its status line, after it has updated the total, and so does every
request for the metrics page, without updating it.
-/
import Minerby.Purge
import Minerby.SubmitAccounting
import Mathlib.Tactic.FieldSimp
import Mathlib.Tactic.Linarith

namespace Minerby

/-- All members of `Metrics`, at clock readings in seconds. -/
structure RateMetrics extends Metrics where
  hashes : UInt64 := 0
  difficulty : ℚ := 0
  start : ℚ
  last : ℚ
  lastHashes : UInt64 := 0
  hrEma : ℚ := 0
deriving DecidableEq

/-- `Metrics::Snapshot` -/
structure Snapshot where
  hashrate : ℚ
  hashes : UInt64
  accepted : UInt64
  rejected : UInt64
  difficulty : ℚ
  uptime : ℚ
deriving DecidableEq

/-- The new estimate from the old one and the rate over the window. -/
def blend (ema inst : ℚ) : ℚ :=
  if ema = 0 then inst else 3 / 5 * ema + 2 / 5 * inst

namespace RateMetrics

/-- Constructed at the clock reading `now`. -/
def init (now : ℚ) : RateMetrics := { start := now, last := now }

def setTotalHashes (m : RateMetrics) (n : UInt64) : RateMetrics :=
  { m with hashes := n }

def setDifficulty (m : RateMetrics) (d : ℚ) : RateMetrics :=
  { m with difficulty := d }

/-- The callback on a submit result. -/
def onSubmitResult (m : RateMetrics) (ok : Bool) : RateMetrics :=
  { m with toMetrics := m.toMetrics.onSubmitResult ok }

/-- What `snapshot` does to the window at the clock reading `now`.  The
difference of the totals is a 64-bit one. -/
def advance (m : RateMetrics) (now : ℚ) : RateMetrics :=
  let dt := now - m.last
  if 0 < dt then
    { m with
      hrEma := blend m.hrEma ((m.hashes - m.lastHashes).toNat / dt)
      last := now
      lastHashes := m.hashes }
  else m

def snapshot (m : RateMetrics) (now : ℚ) : Snapshot × RateMetrics :=
  let m := m.advance now
  ({ hashrate := m.hrEma
     hashes := m.hashes
     accepted := m.accepted
     rejected := m.rejected
     difficulty := m.difficulty
     uptime := now - m.start }, m)

/-- `prometheus()`.  `format` is the output of a double to a stream. -/
def prometheus (format : ℚ → String) (m : RateMetrics) (now : ℚ) :
    String × RateMetrics :=
  let (s, m) := m.snapshot now
  (String.join
    ["# HELP minerby_hashrate Current hashrate in hashes per second\n",
      "# TYPE minerby_hashrate gauge\n",
      "minerby_hashrate ", format s.hashrate, "\n",
      "# HELP minerby_hashes_total Cumulative hashes computed\n",
      "# TYPE minerby_hashes_total counter\n",
      "minerby_hashes_total ", toString s.hashes, "\n",
      "# HELP minerby_shares_accepted_total Accepted shares\n",
      "# TYPE minerby_shares_accepted_total counter\n",
      "minerby_shares_accepted_total ", toString s.accepted, "\n",
      "# HELP minerby_shares_rejected_total Rejected shares\n",
      "# TYPE minerby_shares_rejected_total counter\n",
      "minerby_shares_rejected_total ", toString s.rejected, "\n",
      "# HELP minerby_difficulty Current share difficulty\n",
      "# TYPE minerby_difficulty gauge\n",
      "minerby_difficulty ", format s.difficulty, "\n",
      "# HELP minerby_uptime_seconds Process uptime\n",
      "# TYPE minerby_uptime_seconds gauge\n",
      "minerby_uptime_seconds ", format s.uptime, "\n"], m)

end RateMetrics

/-- The calls on the metrics: those of the main loop, and `scrape`, the call of
`prometheus` by the HTTP server. -/
inductive MetricsCall where
  | setTotalHashes (n : UInt64)
  | setDifficulty (d : ℚ)
  | submitResult (ok : Bool)
  | status
  | scrape
deriving DecidableEq

def MetricsCall.isScrape : MetricsCall → Bool
  | .scrape => true
  | _ => false

/-- A call and the clock reading at it. -/
structure TimedCall where
  time : ℚ
  call : MetricsCall
deriving DecidableEq

def TimedCall.isScrape (c : TimedCall) : Bool := c.call.isScrape

/-- The clock does not go back. -/
def InOrder (calls : List TimedCall) : Prop :=
  calls.Pairwise fun earlier later => earlier.time ≤ later.time

namespace RateMetrics

/-- One call.  A scrape makes the page and leaves what `prometheus` leaves. -/
def handle (format : ℚ → String) (m : RateMetrics) (c : TimedCall) :
    RateMetrics :=
  match c.call with
  | .setTotalHashes n => m.setTotalHashes n
  | .setDifficulty d => m.setDifficulty d
  | .submitResult ok => m.onSubmitResult ok
  | .status => (m.snapshot c.time).2
  | .scrape => (m.prometheus format c.time).2

/-- The hashrate of the status line. -/
def statusRate (m : RateMetrics) (c : TimedCall) : Option ℚ :=
  match c.call with
  | .status => some (m.snapshot c.time).1.hashrate
  | _ => none

/-- The hashrates of all status lines. -/
def statusRates (format : ℚ → String) (m : RateMetrics)
    (calls : List TimedCall) : List ℚ :=
  outputs (handle format) statusRate m calls

/-- The status lines show what they would without the scrapes. -/
def Undisturbed (format : ℚ → String) (m : RateMetrics)
    (calls : List TimedCall) : Prop :=
  statusRates format m (purge TimedCall.isScrape calls) =
    statusRates format m calls

/-- Every scrape is made at the clock reading at which the window opened. -/
def ScrapesAtOpening (format : ℚ → String) : RateMetrics → List TimedCall → Prop
  | _, [] => True
  | m, c :: rest =>
      (c.isScrape = true → c.time ≤ m.last) ∧
        ScrapesAtOpening format (m.handle format c) rest

theorem advance_of_lt {m : RateMetrics} {now : ℚ} (hlt : m.last < now) :
    m.advance now = { m with
      hrEma := blend m.hrEma
        ((m.hashes - m.lastHashes).toNat / (now - m.last))
      last := now
      lastHashes := m.hashes } :=
  if_pos (sub_pos.mpr hlt)

/-- The window moves on exactly when time has passed. -/
theorem advance_eq_self {m : RateMetrics} {now : ℚ} :
    m.advance now = m ↔ now ≤ m.last := by
  constructor
  · intro hsame
    by_contra hle
    have hlt := not_le.mp hle
    rw [advance_of_lt hlt] at hsame
    exact hlt.ne' (congrArg RateMetrics.last hsame)
  · intro hle
    exact if_neg (not_lt.mpr (sub_nonpos.mpr hle))

theorem handle_scrape (format : ℚ → String) (m : RateMetrics) {c : TimedCall}
    (hscrape : c.isScrape = true) : m.handle format c = m.advance c.time := by
  obtain ⟨time, call⟩ := c
  cases call with
  | scrape => rfl
  | _ => cases hscrape

theorem statusRate_scrape (m : RateMetrics) (c : TimedCall)
    (hscrape : c.isScrape = true) : m.statusRate c = none := by
  obtain ⟨time, call⟩ := c
  cases call with
  | scrape => rfl
  | _ => cases hscrape

theorem scrapesAtOpening_iff (format : ℚ → String) (m : RateMetrics)
    (calls : List TimedCall) :
    ScrapesAtOpening format m calls ↔
      HiddenIdle (handle format) TimedCall.isScrape m calls := by
  induction calls generalizing m with
  | nil => exact Iff.rfl
  | cons c rest ih =>
      rw [ScrapesAtOpening, HiddenIdle, ih]
      refine and_congr_left fun _ => forall_congr' fun hscrape => ?_
      rw [handle_scrape format m hscrape]
      exact advance_eq_self.symm

/-- What a change of the rate over the window weighs in the estimate. -/
def blendWeight (ema : ℚ) : ℚ := if ema = 0 then 1 else 2 / 5

theorem blend_sub (ema inst inst' : ℚ) :
    blend ema inst - blend ema inst' = blendWeight ema * (inst - inst') := by
  unfold blend blendWeight
  split
  · exact (one_mul _).symm
  · ring

theorem blendWeight_cases (ema : ℚ) :
    blendWeight ema = 1 ∨ blendWeight ema = 2 / 5 :=
  ite_eq_or_eq _ _ _

/-- One more hash either adds 1 to the difference of two totals or wraps it to
0. -/
theorem toNat_succ_sub (total seen : UInt64) :
    (total + 1 - seen).toNat = (total - seen).toNat + 1 ∨
      (total - seen).toNat = 2 ^ 64 - 1 ∧ (total + 1 - seen).toNat = 0 := by
  have hsucc : total + 1 - seen = total - seen + 1 := by
    rw [UInt64.sub_eq_add_neg, UInt64.sub_eq_add_neg, UInt64.add_assoc,
      UInt64.add_comm 1, UInt64.add_assoc]
  have hlt := (total - seen).toNat_lt
  rw [hsucc, UInt64.toNat_add]
  change ((total - seen).toNat + 1) % 2 ^ 64 = _ ∨ _ ∧ (_ + 1) % 2 ^ 64 = 0
  omega

/-- The estimate after an update and a snapshot that closes a window of some
length. -/
theorem hrEma_update (m : RateMetrics) (now : ℚ) (n : UInt64)
    (hlt : m.last < now) :
    ((m.setTotalHashes n).advance now).hrEma =
      blend m.hrEma ((n - m.lastHashes).toNat / (now - m.last)) := by
  rw [advance_of_lt (show (m.setTotalHashes n).last < now from hlt)]
  rfl

/-- The rates of a status line as long after a scrape at `now` as that was
after the opening of the window, with and without the scrape. -/
theorem hrEma_after_scrape {m : RateMetrics} {now : ℚ} (hlt : m.last < now)
    (n : UInt64) :
    (((m.advance now).setTotalHashes n).advance
        (now + (now - m.last))).hrEma =
        blend (m.advance now).hrEma ((n - m.hashes).toNat / (now - m.last)) ∧
      ((m.setTotalHashes n).advance (now + (now - m.last))).hrEma =
        blend m.hrEma ((n - m.lastHashes).toNat / (2 * (now - m.last))) := by
  have hlast : (m.advance now).last = now := by rw [advance_of_lt hlt]
  have hseen : (m.advance now).lastHashes = m.hashes := by
    rw [advance_of_lt hlt]
  constructor
  · rw [hrEma_update _ _ n (by rw [hlast]; linarith), hlast, hseen,
      add_sub_cancel_left]
  · rw [hrEma_update _ _ n (by linarith)]
    congr 2
    ring

/-- When a scrape at `now` has moved the window, a status line as much later
again shows another rate than without it, if not with an unchanged total then
with one more hash. -/
theorem scrape_told {m : RateMetrics} {now : ℚ} (hlt : m.last < now) :
    ∃ n, (((m.advance now).setTotalHashes n).advance
        (now + (now - m.last))).hrEma ≠
      ((m.setTotalHashes n).advance (now + (now - m.last))).hrEma := by
  by_contra hsame
  simp only [not_exists, not_not] at hsame
  have hpos : 0 < now - m.last := sub_pos.mpr hlt
  have hrate : ∀ n : UInt64,
      blend (m.advance now).hrEma ((n - m.hashes).toNat / (now - m.last)) =
        blend m.hrEma ((n - m.lastHashes).toNat / (2 * (now - m.last))) := by
    intro n
    obtain ⟨hwith, hwithout⟩ := hrEma_after_scrape hlt n
    rw [← hwith, ← hwithout]
    exact hsame n
  -- how the two rates respond to one more hash
  have hwith := blend_sub (m.advance now).hrEma
    ((m.hashes + 1 - m.hashes).toNat / (now - m.last))
    ((m.hashes - m.hashes).toNat / (now - m.last))
  have hwithout := blend_sub m.hrEma
    ((m.hashes + 1 - m.lastHashes).toNat / (2 * (now - m.last)))
    ((m.hashes - m.lastHashes).toNat / (2 * (now - m.last)))
  rw [hrate, hrate, hwithout] at hwith
  have hone : (m.hashes + 1 - m.hashes).toNat = 1 := by
    rw [UInt64.add_comm, UInt64.add_sub_cancel]
    rfl
  have hzero : (m.hashes - m.hashes).toNat = 0 := by
    rw [UInt64.sub_self]
    rfl
  rw [hone, hzero, Nat.cast_one, Nat.cast_zero] at hwith
  have hbalance : blendWeight m.hrEma *
      ((m.hashes + 1 - m.lastHashes).toNat -
        (m.hashes - m.lastHashes).toNat) =
      2 * blendWeight (m.advance now).hrEma := by
    field_simp at hwith
    linarith
  rcases toNat_succ_sub m.hashes m.lastHashes with hsucc | ⟨hfull, hwrapped⟩
  · rw [hsucc] at hbalance
    push_cast at hbalance
    rcases blendWeight_cases m.hrEma with hw | hw <;>
      rcases blendWeight_cases (m.advance now).hrEma with hw' | hw' <;>
      rw [hw, hw'] at hbalance <;> linarith
  · rw [hfull, hwrapped] at hbalance
    rcases blendWeight_cases m.hrEma with hw | hw <;>
      rcases blendWeight_cases (m.advance now).hrEma with hw' | hw' <;>
      rw [hw, hw'] at hbalance <;> norm_num at hbalance

/-- The calls of the main loop that tell: the total is updated and a status
line is printed. -/
def statusLine (now : ℚ) (n : UInt64) : List TimedCall :=
  [⟨now, .setTotalHashes n⟩, ⟨now, .status⟩]

theorem inOrder_statusLine {before : List TimedCall} {c : TimedCall} {now : ℚ}
    (horder : InOrder (before ++ [c])) (hle : c.time ≤ now) (n : UInt64) :
    InOrder (before ++ [c] ++ statusLine now n) := by
  have hbefore : ∀ earlier ∈ before ++ [c], earlier.time ≤ c.time := by
    intro earlier hearlier
    rcases List.mem_append.mp hearlier with hmem | hmem
    · exact (List.pairwise_append.mp horder).2.2 earlier hmem c
        (List.mem_singleton_self c)
    · rw [List.mem_singleton.mp hmem]
  have hnow : ∀ later ∈ statusLine now n, later.time = now := by
    simp [statusLine]
  refine List.pairwise_append.mpr ⟨horder, ?_, fun earlier hearlier later hlater => ?_⟩
  · simp [statusLine]
  · rw [hnow later hlater]
    exact (hbefore earlier hearlier).trans hle

/-- Scrapes leave every status line as it would be without them, now and
however the main loop goes on, exactly when each of them is made at the clock
reading at which the window opened. -/
theorem scrapes_undisturbing_iff (format : ℚ → String) (m : RateMetrics)
    (calls : List TimedCall) (horder : InOrder calls) :
    (∀ before more, before <+: calls →
      (∀ later ∈ more, later.isScrape = false) → InOrder (before ++ more) →
      Undisturbed format m (before ++ more)) ↔
      ScrapesAtOpening format m calls := by
  rw [scrapesAtOpening_iff]
  refine purge_unnoticed_iff statusRate_scrape ?_
  intro before c hbefore hscrape hmoved
  rw [handle_scrape format _ hscrape, Ne, advance_eq_self, not_le] at hmoved
  obtain ⟨n, hn⟩ := scrape_told hmoved
  have hlater := inOrder_statusLine (horder.sublist hbefore.sublist)
    (show c.time ≤ c.time + (c.time - (before.foldl (handle format) m).last) by
      linarith) n
  refine ⟨_, ?_, hlater, ?_⟩
  · simp [statusLine, TimedCall.isScrape, MetricsCall.isScrape]
  · rw [handle_scrape format _ hscrape]
    exact fun heq => hn (List.cons.inj heq).1

/-- How a stream prints a whole number of at most six digits. -/
def exampleFormat (x : ℚ) : String := toString x.num

/-- A scrape at the same clock reading as the status line before it. -/
def scrapeAtOpening : List TimedCall :=
  statusLine 5 1000 ++ [⟨5, .scrape⟩]

theorem scrapeAtOpening_undisturbed :
    InOrder scrapeAtOpening ∧
      ScrapesAtOpening exampleFormat (init 0) scrapeAtOpening ∧
      Undisturbed exampleFormat (init 0)
        (scrapeAtOpening ++ statusLine 10 2000) := by
  have horder : InOrder scrapeAtOpening := by
    simp [InOrder, scrapeAtOpening, statusLine]
  have hopening : ScrapesAtOpening exampleFormat (init 0) scrapeAtOpening := by
    refine ⟨by decide, by decide, fun _ => ?_, trivial⟩
    decide +kernel
  refine ⟨horder, hopening,
    (scrapes_undisturbing_iff exampleFormat (init 0) scrapeAtOpening
      horder).mpr hopening scrapeAtOpening (statusLine 10 2000)
        (List.prefix_refl _) ?_ ?_⟩
  · simp [statusLine, TimedCall.isScrape, MetricsCall.isScrape]
  · exact inOrder_statusLine horder (by norm_num) 2000

/-- At a steady 200 hashes per second, a scrape two seconds after a status line
makes the next one show more. -/
theorem scrape_disturbs :
    InOrder (statusLine 5 1000 ++ [⟨7, .scrape⟩] ++ statusLine 10 2000) ∧
      statusRates exampleFormat (init 0)
        (statusLine 5 1000 ++ statusLine 10 2000) = [200, 200] ∧
      statusRates exampleFormat (init 0)
        (statusLine 5 1000 ++ [⟨7, .scrape⟩] ++ statusLine 10 2000) =
          [200, 616 / 3] ∧
      ¬ Undisturbed exampleFormat (init 0)
        (statusLine 5 1000 ++ [⟨7, .scrape⟩] ++ statusLine 10 2000) := by
  have hwith : statusRates exampleFormat (init 0)
      (statusLine 5 1000 ++ [⟨7, .scrape⟩] ++ statusLine 10 2000) =
        [200, 616 / 3] := by
    decide +kernel
  have hwithout : statusRates exampleFormat (init 0)
      (statusLine 5 1000 ++ statusLine 10 2000) = [200, 200] := by
    decide +kernel
  refine ⟨by norm_num [InOrder, statusLine], hwithout, hwith, fun hsame => ?_⟩
  have hrates : [(200 : ℚ), 200] = [200, 616 / 3] :=
    hwithout.symm.trans (hsame.trans hwith)
  norm_num at hrates

end RateMetrics

end Minerby
