/-
The statistics over many sessions.  `persist` adds the session's counters to
the base that was loaded when the session started, not to what the file holds
by then, so that persisting again does not count anything twice.
-/
import Minerby.StatsStore

namespace Minerby

namespace StatsStore

/-- What a session counts. -/
structure Counters where
  accepted : UInt64 := 0
  rejected : UInt64 := 0
  hashes : UInt64 := 0
deriving Repr, DecidableEq

/-- No counter goes down. -/
def Counters.Le (before after : Counters) : Prop :=
  before.accepted ≤ after.accepted ∧ before.rejected ≤ after.rejected ∧
    before.hashes ≤ after.hashes

instance (before after : Counters) : Decidable (before.Le after) :=
  inferInstanceAs (Decidable (_ ∧ _))

/-- The statistics that `persist` saves. -/
def persist (text : StatsText) (base : LifetimeStats) (counters : Counters)
    (elapsed : ℚ) : LifetimeStats :=
  { accepted := base.accepted + counters.accepted
    rejected := base.rejected + counters.rejected
    hashes := base.hashes + counters.hashes
    uptime := text.addDouble base.uptime elapsed
    sessions := base.sessions + 1 }

/-- A run of the program: the base it loaded, its counters, and whether it has
persisted yet. -/
structure Session where
  base : LifetimeStats
  counters : Counters := {}
  persisted : Bool := false
deriving Repr, DecidableEq

/-- The file over many runs of the program.  `lasts` are the counters at the
last `persist` of each session that has persisted, newest first; `launched`
counts the sessions and `saved` records what was saved. -/
structure History where
  disk : Disk
  session : Option Session := none
  launched : Nat := 0
  lasts : List Counters := []
  saved : List LifetimeStats := []

/-- A session starts, counts, persists, and ends; it may end by being killed.
How the operations of a save turn out is part of the label. -/
inductive HistoryLabel where
  | launch
  | count (counters : Counters)
  | persist (elapsed : ℚ) (operations : List SaveLabel)
  | finish

namespace History

def step (text : StatsText) (h : History) :
    HistoryLabel → Option History
  | .launch =>
      match h.session with
      | none =>
          some { h with
            session := some { base := load text h.disk.path }
            launched := h.launched + 1 }
      | some _ => none
  | .count counters =>
      match h.session with
      | none => none
      | some session =>
          if session.counters.Le counters then
            some { h with session := some { session with counters := counters } }
          else none
  | .persist elapsed operations =>
      match h.session with
      | none => none
      | some session =>
          let stats := StatsStore.persist text session.base session.counters
            elapsed
          match replay (saveStep text stats) anyLabel ⟨h.disk, .opening⟩
              operations with
          | some ⟨disk, .returned⟩ =>
              some { h with
                disk := disk
                session := some { session with persisted := true }
                lasts := session.counters ::
                  (if session.persisted then h.lasts.tail else h.lasts)
                saved := stats :: h.saved }
          | _ => none
  | .finish =>
      match h.session with
      | none => none
      | some _ => some { h with session := none }

end History

/-- Every session persists at least once, and every save succeeds. -/
def Orderly (text : StatsText) (h : History) : HistoryLabel → Prop
  | .finish => ∀ session ∈ h.session, session.persisted = true
  | .persist elapsed operations =>
      .renamed true ∈ operations ∧ ∀ session ∈ h.session,
        (contents text (persist text session.base session.counters
          elapsed)).length ≤ written operations
  | _ => True

instance (text : StatsText) (h : History) (label : HistoryLabel) :
    Decidable (Orderly text h label) :=
  match label with
  | .finish => inferInstanceAs (Decidable (∀ session ∈ h.session,
      session.persisted = true))
  | .persist elapsed operations =>
      inferInstanceAs (Decidable (.renamed true ∈ operations ∧
        ∀ session ∈ h.session, (contents text (persist text session.base
          session.counters elapsed)).length ≤ written operations))
  | .launch => .isTrue trivial
  | .count _ => .isTrue trivial

/-- The statistics are those at first plus the sums over the sessions, modulo
`2 ^ 64`. -/
structure Totals (first : LifetimeStats) (lasts : List Counters)
    (stats : LifetimeStats) : Prop where
  accepted : stats.accepted.toNat = (first.accepted.toNat +
    (lasts.map fun c => c.accepted.toNat).sum) % 2 ^ 64
  rejected : stats.rejected.toNat = (first.rejected.toNat +
    (lasts.map fun c => c.rejected.toNat).sum) % 2 ^ 64
  hashes : stats.hashes.toNat = (first.hashes.toNat +
    (lasts.map fun c => c.hashes.toNat).sum) % 2 ^ 64
  sessions : stats.sessions.toNat =
    (first.sessions.toNat + lasts.length) % 2 ^ 64

theorem Totals.first (stats : LifetimeStats) : Totals stats [] stats := by
  have haccepted := stats.accepted.toNat_lt
  have hrejected := stats.rejected.toNat_lt
  have hhashes := stats.hashes.toNat_lt
  have hsessions := stats.sessions.toNat_lt
  constructor <;> simp only [List.map_nil, List.sum_nil, List.length_nil] <;>
    omega

/-- Persisting adds one session to the base. -/
theorem Totals.persist {first base : LifetimeStats} {lasts : List Counters}
    (htotals : Totals first lasts base) (text : StatsText)
    (counters : Counters) (elapsed : ℚ) :
    Totals first (counters :: lasts)
      (StatsStore.persist text base counters elapsed) := by
  obtain ⟨haccepted, hrejected, hhashes, hsessions⟩ := htotals
  have hone : (1 : UInt64).toNat = 1 := rfl
  constructor <;>
    simp only [StatsStore.persist, UInt64.toNat_add, List.map_cons,
      List.sum_cons, List.length_cons, haccepted, hrejected, hhashes,
      hsessions, hone] <;>
    omega

/-- A save that renames a file with the whole text in it. -/
theorem path_of_whole_save {text : StatsText} {s : LifetimeStats} {disk : Disk}
    {operations : List SaveLabel} {saving : Saving}
    (hrun : Run (saveStep text s) anyLabel ⟨disk, .opening⟩ operations saving)
    (hrenamed : .renamed true ∈ operations)
    (hwhole : (contents text s).length ≤ written operations) :
    saving.disk.path = some (contents text s) := by
  cases saved_of_run hrun with
  | renamed n m removed =>
      simp only [written] at hwhole
      change some ((contents text s).take (n + m)) = _
      rw [List.take_of_length_le (by omega)]
  | _ => simp at hrenamed

/-- A session that has not persisted yet. -/
def History.pending (h : History) : Nat :=
  match h.session with
  | some session => if session.persisted then 0 else 1
  | none => 0

/-- The sessions that the base of the current one includes. -/
def History.earlier (h : History) (session : Session) : List Counters :=
  if session.persisted then h.lasts.tail else h.lasts

/-- The file has the totals of all sessions so far, and the base of the current
session those of the earlier ones. -/
structure Kept (text : StatsText) (first : LifetimeStats) (h : History) :
    Prop where
  stored : Totals first h.lasts (load text h.disk.path)
  base : ∀ session, h.session = some session →
    Totals first (h.earlier session) session.base
  nonempty : ∀ session, h.session = some session →
    session.persisted = true → h.lasts ≠ []
  launched : h.launched = h.lasts.length + h.pending

/-- Everything a step of the history can do. -/
inductive HistoryTurn (text : StatsText) (h : History) :
    HistoryLabel → History → Prop
  | launch (idle : h.session = none) :
      HistoryTurn text h .launch { h with
        session := some { base := load text h.disk.path }
        launched := h.launched + 1 }
  | count {session : Session} {counters : Counters}
      (current : h.session = some session) :
      HistoryTurn text h (.count counters) { h with
        session := some { session with counters := counters } }
  | persist {session : Session} {elapsed : ℚ} {operations : List SaveLabel}
      {disk : Disk} (current : h.session = some session)
      (save : Run (saveStep text (persist text session.base session.counters
        elapsed)) anyLabel ⟨h.disk, .opening⟩ operations ⟨disk, .returned⟩) :
      HistoryTurn text h (.persist elapsed operations) { h with
        disk := disk
        session := some { session with persisted := true }
        lasts := session.counters :: h.earlier session
        saved := persist text session.base session.counters elapsed ::
          h.saved }
  | finish {session : Session} (current : h.session = some session) :
      HistoryTurn text h .finish { h with session := none }

theorem historyTurn_of_step {text : StatsText} {h h' : History}
    {label : HistoryLabel} (hstep : History.step text h label = some h') :
    HistoryTurn text h label h' := by
  cases label with
  | launch =>
      simp only [History.step] at hstep
      split at hstep
      · rename_i hidle
        obtain rfl := Option.some.inj hstep
        exact .launch hidle
      · cases hstep
  | count counters =>
      simp only [History.step] at hstep
      split at hstep
      · cases hstep
      · rename_i session hcurrent
        split at hstep
        · obtain rfl := Option.some.inj hstep
          exact .count hcurrent
        · cases hstep
  | persist elapsed operations =>
      simp only [History.step] at hstep
      split at hstep
      · cases hstep
      · rename_i session hcurrent
        split at hstep
        · rename_i disk hreplay
          obtain rfl := Option.some.inj hstep
          exact .persist hcurrent (run_of_replay hreplay)
        · cases hstep
  | finish =>
      simp only [History.step] at hstep
      split at hstep
      · cases hstep
      · rename_i session hcurrent
        obtain rfl := Option.some.inj hstep
        exact .finish hcurrent

/-- What is saved is never forgotten. -/
theorem HistoryTurn.saved {text : StatsText} {h h' : History}
    {label : HistoryLabel} (hturn : HistoryTurn text h label h')
    {stats : LifetimeStats} (hmem : stats ∈ h.saved) : stats ∈ h'.saved := by
  cases hturn with
  | persist current save => exact List.mem_cons_of_mem _ hmem
  | _ => exact hmem

theorem Kept.step {text : StatsText} {first : LifetimeStats} {h h' : History}
    {label : HistoryLabel} (hkept : Kept text first h)
    (hok : Orderly text h label) (hturn : HistoryTurn text h label h')
    (hround : ∀ stats ∈ h'.saved, RoundTrips text stats) :
    Kept text first h' := by
  have hlaunched := hkept.launched
  cases hturn with
  | launch idle =>
      refine ⟨hkept.stored, ?_, ?_, ?_⟩
      · rintro session ⟨⟩
        exact hkept.stored
      · rintro session ⟨⟩ ⟨⟩
      · simp only [History.pending, idle] at hlaunched ⊢
        simpa using hlaunched
  | count current =>
      rename_i session counters
      refine ⟨hkept.stored, ?_, ?_, ?_⟩
      · rintro other ⟨⟩
        exact hkept.base session current
      · rintro other ⟨⟩ hpersisted
        exact hkept.nonempty session current hpersisted
      · simpa only [History.pending, current] using hlaunched
  | persist current save =>
      rename_i session elapsed operations disk
      have hbase := hkept.base session current
      obtain ⟨hrenamed, hwhole⟩ := hok
      have hpath := path_of_whole_save save hrenamed (hwhole session current)
      refine ⟨?_, ?_, ?_, ?_⟩
      · change Totals first _ (load text disk.path)
        rw [hpath, load_contents (hround _ List.mem_cons_self)]
        exact hbase.persist text session.counters elapsed
      · rintro other ⟨⟩
        exact hbase
      · rintro other ⟨⟩ -
        exact List.cons_ne_nil _ _
      · simp only [History.pending, current] at hlaunched ⊢
        cases hpersisted : session.persisted with
        | true =>
            have hpos := List.length_pos_iff.mpr
              (hkept.nonempty session current hpersisted)
            simp only [hpersisted, ↓reduceIte, History.earlier, List.length_cons,
              List.length_tail] at hlaunched ⊢
            omega
        | false =>
            simp only [hpersisted, Bool.false_eq_true, ↓reduceIte,
              History.earlier, List.length_cons] at hlaunched ⊢
            omega
  | finish current =>
      rename_i session
      refine ⟨hkept.stored, by rintro _ ⟨⟩, by rintro _ ⟨⟩, ?_⟩
      have hpersisted := hok session current
      simpa [History.pending, current, hpersisted] using hlaunched

theorem Kept.run {text : StatsText} {start : Disk}
    {labels : List HistoryLabel} {h : History}
    (hrun : Run (History.step text) (Orderly text) { disk := start } labels h)
    (hround : ∀ stats ∈ h.saved, RoundTrips text stats) :
    Kept text (load text start.path) h := by
  induction hrun with
  | nil => exact ⟨Totals.first _, by rintro _ ⟨⟩, by rintro _ ⟨⟩, rfl⟩
  | snoc label run allowed taken ih =>
      have hturn := historyTurn_of_step taken
      exact (ih fun stats hmem => hround stats (hturn.saved hmem)).step allowed
        hturn hround

/-- In every run of sessions on one file that each persist at least once, with
saves that succeed and statistics that the library reads back: once the current
session has persisted, the file holds the sums over all sessions of the
counters at their last `persist`, and the number of sessions, on top of what it
held at first; a file that does not exist yet holds zeros. -/
theorem stored_totals (text : StatsText) {start : Disk}
    {labels : List HistoryLabel} {h : History}
    (hrun : Run (History.step text) (Orderly text) { disk := start } labels h)
    (hround : ∀ stats ∈ h.saved, RoundTrips text stats)
    (hpersisted : ∀ session, h.session = some session →
      session.persisted = true) :
    h.lasts.length = h.launched ∧
      Totals (load text start.path) h.lasts (load text h.disk.path) ∧
      (start.path = none → Totals {} h.lasts (load text h.disk.path)) := by
  have hkept := Kept.run hrun hround
  have hpending : h.pending = 0 := by
    unfold History.pending
    split
    · rename_i session hcurrent
      rw [hpersisted session hcurrent]
      rfl
    · rfl
  refine ⟨?_, hkept.stored, fun hnone => ?_⟩
  · have hlaunched := hkept.launched
    omega
  · have hstored := hkept.stored
    rw [hnone] at hstored
    exact hstored

/-- Two sessions on a new file; the second persists twice. -/
def twoSessionLabels : List HistoryLabel :=
  [.launch, .count { accepted := 3, hashes := 160 },
    .persist 0 (wholeSave oneSession), .finish,
    .launch, .count { accepted := 2, hashes := 160 },
    .persist 0 (wholeSave twoSessions), .persist 0 (wholeSave twoSessions)]

/-- The second session's shares are counted once, on top of the first's. -/
theorem two_sessions_stored_totals :
    ∃ h, Run (History.step sessionsText) (Orderly sessionsText) { disk := {} }
        twoSessionLabels h ∧
      h.launched = 2 ∧ (load sessionsText h.disk.path).accepted = 5 ∧
      h.lasts.length = h.launched ∧
      Totals {} h.lasts (load sessionsText h.disk.path) := by
  have hreplay : (replay (History.step sessionsText) (Orderly sessionsText)
      { disk := {} } twoSessionLabels).any (fun h =>
        h.launched = 2 ∧ h.saved = [twoSessions, twoSessions, oneSession] ∧
        h.session.map Session.persisted = some true ∧
        h.disk.path = some (contents sessionsText twoSessions)) = true := by
    decide +kernel
  obtain ⟨h, hh, hfacts⟩ := (Option.any_eq_true _ _).mp hreplay
  obtain ⟨hlaunched, hsaved, hsession, hpath⟩ := of_decide_eq_true hfacts
  have hrun := run_of_replay hh
  have hround : ∀ stats ∈ h.saved, RoundTrips sessionsText stats := by
    rw [hsaved]
    simp [oneSession_readable.whole, twoSessions_readable.whole]
  obtain ⟨hlength, -, htotals⟩ := stored_totals sessionsText hrun hround
    (fun session hcurrent => by simpa [hcurrent] using hsession)
  refine ⟨h, hrun, hlaunched, ?_, hlength, htotals rfl⟩
  rw [hpath, load_contents twoSessions_readable.whole]
  rfl

end StatsStore

end Minerby
