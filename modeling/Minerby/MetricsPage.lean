/-
The metrics page from end to end: what a scraper that asks the HTTP server for
it reads in the answer is what the metrics are.
-/
import Minerby.Exposition
import Minerby.HttpResponse
import Minerby.RateWindow

namespace Minerby

/-- A metric whose parts are given as strings. -/
def exposed (name help kind value : String) : Exposed :=
  ⟨name.toList, help.toList, kind.toList, value.toList⟩

/-- The metrics of a snapshot. -/
def Snapshot.metrics (format : ℚ → String) (s : Snapshot) : List Exposed :=
  [exposed "minerby_hashrate" "Current hashrate in hashes per second" "gauge"
      (format s.hashrate),
    exposed "minerby_hashes_total" "Cumulative hashes computed" "counter"
      (toString s.hashes),
    exposed "minerby_shares_accepted_total" "Accepted shares" "counter"
      (toString s.accepted),
    exposed "minerby_shares_rejected_total" "Rejected shares" "counter"
      (toString s.rejected),
    exposed "minerby_difficulty" "Current share difficulty" "gauge"
      (format s.difficulty),
    exposed "minerby_uptime_seconds" "Process uptime" "gauge"
      (format s.uptime)]

/-- The five strings that `prometheus` writes for a metric, before others. -/
theorem page_cons {name help kind value helpLine kindLine start : String}
    {rest : List String} {metrics : List Exposed}
    (hhelp : helpLine.toList =
      helpMark ++ name.toList ++ ' ' :: help.toList ++ ['\n'])
    (hkind : kindLine.toList =
      typeMark ++ name.toList ++ ' ' :: kind.toList ++ ['\n'])
    (hstart : start.toList = name.toList ++ [' '])
    (hrest : rest.flatMap String.toList = metrics.flatMap Exposed.write) :
    (helpLine :: kindLine :: start :: value :: "\n" :: rest).flatMap
        String.toList =
      (exposed name help kind value :: metrics).flatMap Exposed.write := by
  have hend : "\n".toList = ['\n'] := by rfl
  simp only [List.flatMap_cons, List.flatMap_nil, Exposed.write, Exposed.lines,
    exposed, hhelp, hkind, hstart, hend, hrest, List.append_assoc,
    List.cons_append, List.nil_append]

theorem prometheus_eq_write (format : ℚ → String) (m : RateMetrics) (now : ℚ) :
    (m.prometheus format now).1.toList =
      ((m.snapshot now).1.metrics format).flatMap Exposed.write := by
  refine String.toList_join.trans ?_
  apply page_cons (by rfl) (by rfl) (by rfl)
  apply page_cons (by rfl) (by rfl) (by rfl)
  apply page_cons (by rfl) (by rfl) (by rfl)
  apply page_cons (by rfl) (by rfl) (by rfl)
  apply page_cons (by rfl) (by rfl) (by rfl)
  apply page_cons (by rfl) (by rfl) (by rfl)
  rfl

theorem exposed_clean {name help kind value : String}
    (hword : ' ' ∉ name.toList)
    (hstart : name.toList ≠ [] ∧ name.toList.head? ≠ some '#')
    (hlines : '\n' ∉ name.toList ∧ '\n' ∉ help.toList ∧ '\n' ∉ kind.toList)
    (hvalue : '\n' ∉ value.toList) : (exposed name help kind value).Clean := by
  obtain ⟨hname, hhelp, hkind⟩ := hlines
  refine ⟨hword, hstart, ?_⟩
  simp only [Exposed.lines, List.forall_mem_cons, List.not_mem_nil,
    false_implies, implies_true, and_true]
  exact ⟨by simp [helpMark, exposed, hname, hhelp],
    by simp [typeMark, exposed, hname, hkind], by simp [exposed, hname, hvalue]⟩

theorem toList_toString (n : UInt64) :
    (toString n).toList = Nat.toDigits 10 n.toNat := by
  change (String.ofList (Nat.toDigits 10 n.toNat)).toList = _
  simp

theorem newline_notMem_toDigits (n : Nat) : '\n' ∉ Nat.toDigits 10 n := by
  intro hnewline
  have hdigit := Nat.isDigit_of_mem_toDigits (by decide) (by decide) hnewline
  cases hdigit

theorem newline_notMem_toString (n : UInt64) : '\n' ∉ (toString n).toList := by
  rw [toList_toString]
  exact newline_notMem_toDigits _

theorem metrics_clean {format : ℚ → String} {s : Snapshot}
    (hformat : ∀ x, '\n' ∉ (format x).toList) :
    ∀ m ∈ s.metrics format, m.Clean := by
  simp only [Snapshot.metrics, List.forall_mem_cons, List.not_mem_nil,
    false_implies, implies_true, and_true]
  refine ⟨?_, ?_, ?_, ?_, ?_, ?_⟩
  · exact exposed_clean (by simp) (by simp) (by simp) (hformat _)
  · exact exposed_clean (by simp) (by simp) (by simp)
      (newline_notMem_toString _)
  · exact exposed_clean (by simp) (by simp) (by simp)
      (newline_notMem_toString _)
  · exact exposed_clean (by simp) (by simp) (by simp)
      (newline_notMem_toString _)
  · exact exposed_clean (by simp) (by simp) (by simp) (hformat _)
  · exact exposed_clean (by simp) (by simp) (by simp) (hformat _)

/-- The number that a page gives for a counter. -/
def counterOf (page : List Sample) (name : String) : Option Nat :=
  (page.find? fun s => s.name = name.toList).map fun s => readDecimal s.value

theorem readDecimal_toString (n : UInt64) :
    readDecimal (toString n).toList = n.toNat := by
  rw [toList_toString, readDecimal_toDigits]

/-- A snapshot shows the counters as they are. -/
theorem snapshot_counters (m : RateMetrics) (now : ℚ) :
    (m.snapshot now).1.hashes = m.hashes ∧
      (m.snapshot now).1.accepted = m.accepted ∧
      (m.snapshot now).1.rejected = m.rejected := by
  have hadvance : (m.advance now).hashes = m.hashes ∧
      (m.advance now).accepted = m.accepted ∧
      (m.advance now).rejected = m.rejected := by
    unfold RateMetrics.advance
    simp only
    split <;> exact ⟨rfl, rfl, rfl⟩
  exact hadvance

/-- The counters on the page of a snapshot. -/
theorem counterOf_metrics (format : ℚ → String) (s : Snapshot) :
    counterOf ((s.metrics format).map Exposed.sample) "minerby_hashes_total" =
        some s.hashes.toNat ∧
      counterOf ((s.metrics format).map Exposed.sample)
        "minerby_shares_accepted_total" = some s.accepted.toNat ∧
      counterOf ((s.metrics format).map Exposed.sample)
        "minerby_shares_rejected_total" = some s.rejected.toNat := by
  rw [← readDecimal_toString s.hashes, ← readDecimal_toString s.accepted,
    ← readDecimal_toString s.rejected]
  simp only [counterOf, Snapshot.metrics, exposed, Exposed.sample,
    List.map_cons, List.map_nil]
  refine ⟨?_, ?_, ?_⟩ <;> rfl

/-- A scrape tells the truth.  Whatever a request for the metrics page goes on
with, and whatever follows the answer on the connection, a reader of the answer
gets a page whose samples are, in order, the six metrics of the snapshot taken
for it, each with its type and its value; and the three counters on it are those
that the program keeps. -/
theorem scrape_reads_metrics {format : ℚ → String}
    (hformat : ∀ x, '\n' ∉ (format x).toList) (m : RateMetrics) (now : ℚ)
    {req : List Char} (hreq : "GET /metrics".toList <+: req)
    (rest : List Char) :
    ∃ message, HttpMessage.read
        (respond req (m.prometheus format now).1.toList ++ rest) =
          some (message, rest) ∧
      readPage message.body =
        ((m.snapshot now).1.metrics format).map Exposed.sample ∧
      counterOf (readPage message.body) "minerby_hashes_total" =
        some m.hashes.toNat ∧
      counterOf (readPage message.body) "minerby_shares_accepted_total" =
        some m.accepted.toNat ∧
      counterOf (readPage message.body) "minerby_shares_rejected_total" =
        some m.rejected.toNat := by
  have hroute : route req = .metrics :=
    (@route_eq_iff .metrics (by rintro ⟨⟩) req).mpr hreq
  have hread := HttpMessage.read_write (message_clean (route req)
    (m.prometheus format now).1.toList) rest
  rw [← respond_eq_write, hroute] at hread
  have hpage : readPage (m.prometheus format now).1.toList =
      ((m.snapshot now).1.metrics format).map Exposed.sample := by
    rw [prometheus_eq_write]
    exact readPage_write (metrics_clean hformat)
  obtain ⟨hhashes, haccepted, hrejected⟩ := snapshot_counters m now
  have hcounters := counterOf_metrics format (m.snapshot now).1
  rw [← hpage, hhashes, haccepted, hrejected] at hcounters
  have hbody : ∀ body, (Route.metrics.message body).body = body := fun _ => rfl
  refine ⟨_, hread, ?_⟩
  rw [hbody]
  exact ⟨hpage, hcounters⟩

/-- Whole numbers are printed without a newline. -/
theorem newline_notMem_exampleFormat (x : ℚ) :
    '\n' ∉ (RateMetrics.exampleFormat x).toList := by
  unfold RateMetrics.exampleFormat
  cases x.num with
  | ofNat n =>
      change '\n' ∉ (String.ofList (Nat.toDigits 10 n)).toList
      simp [newline_notMem_toDigits]
  | negSucc n =>
      change '\n' ∉ ("-" ++ String.ofList (Nat.toDigits 10 (n + 1))).toList
      simp [newline_notMem_toDigits]

/-- Seven hashes have been counted when the page is asked for. -/
theorem seven_hashes_read :
    ∃ message, HttpMessage.read
        (respond "GET /metrics HTTP/1.1".toList
          (((RateMetrics.init 0).setTotalHashes 7).prometheus
            RateMetrics.exampleFormat 1).1.toList ++ []) =
          some (message, []) ∧
      counterOf (readPage message.body) "minerby_hashes_total" = some 7 := by
  have hreq : "GET /metrics".toList <+: "GET /metrics HTTP/1.1".toList := by
    decide +kernel
  obtain ⟨message, hread, -, hhashes, -, -⟩ :=
    scrape_reads_metrics newline_notMem_exampleFormat
    ((RateMetrics.init 0).setTotalHashes 7) 1 hreq []
  exact ⟨message, hread, hhashes⟩

end Minerby
