/-
What a notify that gives no work does to the held job.  `parse_notify` assigns
`job_` only on success, but its success is not `build_work`'s: a notify whose
params parse and whose hex does not decode has already replaced the job.
-/
import Minerby.Extranonce2

namespace Minerby

/-- Whether work can be built does not depend on the extranonce2 value or the
difficulty. -/
theorem wellFormedWork_xn2 {j : StratumJob} {xn1 xn2 xn2' : String}
    (hxn2 : IsHex xn2') (hwork : WellFormedWork j xn1 xn2) :
    WellFormedWork j xn1 xn2' := by
  obtain ⟨hcoinb1, hcoinb2, hxn1, -, hrest⟩ := hwork
  exact ⟨hcoinb1, hcoinb2, hxn1, hxn2, hrest⟩

theorem exists_of_toOption_any {ε α : Type} {x : Except ε α} {p : α → Bool}
    (hany : x.toOption.any p = true) : ∃ a, x = .ok a ∧ p a = true := by
  cases x with
  | error fault => cases hany
  | ok a => exact ⟨a, rfl, hany⟩

/-- Whether a counter value can be written depends on the size only, and what
is written is hex. -/
theorem encodeExtranonce2_other {value : UInt64} {size : Int} {xn2 : String}
    (hxn2 : encodeExtranonce2 value size = .ok xn2) (value' : UInt64) :
    ∃ xn2', encodeExtranonce2 value' size = .ok xn2' ∧ IsHex xn2' := by
  unfold encodeExtranonce2 at hxn2 ⊢
  split at hxn2
  · cases hxn2
  · split at hxn2
    · cases hxn2
    · rename_i hneg hbig
      rw [if_neg hneg, if_neg hbig]
      exact ⟨_, rfl, _, isHexOf_of_fromHex (fromHex_toHex _)⟩

namespace StratumV1Client

/-- The held job gives work with the current extranonce fields, for some
counter value and difficulty. -/
def HoldsGoodJob (c : StratumV1Client) : Prop :=
  c.haveJob = true ∧ ∃ counter xn2 difficulty mj,
    encodeExtranonce2 counter c.extranonce2Size = .ok xn2 ∧
    buildWork c.job c.extranonce1 xn2 difficulty {} = (true, mj)

/-- Then it gives work for every counter value and difficulty, and a rebuild
delivers it. -/
theorem HoldsGoodJob.delivers {c : StratumV1Client} (hgood : c.HoldsGoodJob) :
    ∃ next xn2 mj, c.rebuildJob = .ok (next, some (.onJob mj [])) ∧
      encodeExtranonce2 c.xn2Counter c.extranonce2Size = .ok xn2 ∧
      buildWork c.job c.extranonce1 xn2 c.difficulty {} = (true, mj) := by
  obtain ⟨hhave, counter, xn2, difficulty, mj, hxn2, hbuilt⟩ := hgood
  obtain ⟨xn2', hxn2', hhex⟩ := encodeExtranonce2_other hxn2 c.xn2Counter
  have hwork : WellFormedWork c.job c.extranonce1 xn2 := by
    apply (buildWork_fst_iff _ _ _ difficulty {}).mp
    rw [hbuilt]
  have hfst := (buildWork_fst_iff _ _ _ c.difficulty {}).mpr
    (wellFormedWork_xn2 hhex hwork)
  obtain ⟨mj', hpair⟩ : ∃ mj',
      buildWork c.job c.extranonce1 xn2' c.difficulty {} = (true, mj') :=
    ⟨_, Prod.ext hfst rfl⟩
  refine ⟨{ c with xn2Counter := c.xn2Counter + 1 }, xn2', mj', ?_, hxn2',
    hpair⟩
  simp only [StratumV1Client.rebuildJob, hhave, ↓reduceIte, hxn2', bind,
    Except.bind, hpair]
  rfl

/-- One more message. -/
def messageStep (text : JsonText) (c : StratumV1Client) (msg : Json) :
    Option StratumV1Client :=
  match handleMessage text c msg with
  | .ok (c, _) => some c
  | .error _ => none

/-- The message brings no other work: it is neither a notify that parses nor
the reply to subscribe. -/
def BringsNoWork (c : StratumV1Client) (msg : Json) : Prop :=
  match received msg with
  | .ok (.notify _) => False
  | .ok (.response id) => id ≠ c.subscribeId
  | _ => True

/-- The fields that work is built from, the counter and the difficulty
apart. -/
structure SameFields (c c' : StratumV1Client) : Prop where
  job : c'.job = c.job
  haveJob : c'.haveJob = c.haveJob
  extranonce1 : c'.extranonce1 = c.extranonce1
  extranonce2Size : c'.extranonce2Size = c.extranonce2Size

theorem SameFields.trans {c₁ c₂ c₃ : StratumV1Client}
    (h : SameFields c₁ c₂) (h' : SameFields c₂ c₃) : SameFields c₁ c₃ :=
  ⟨h'.job.trans h.job, h'.haveJob.trans h.haveJob,
    h'.extranonce1.trans h.extranonce1,
    h'.extranonce2Size.trans h.extranonce2Size⟩

theorem sameFields_of_rebuildJob {c c' : StratumV1Client}
    {callback : Option Callback} (hok : c.rebuildJob = .ok (c', callback)) :
    SameFields c c' := by
  rcases (rebuildJob_eq_ok hok).1 with rfl | rfl <;> exact ⟨rfl, rfl, rfl, rfl⟩

theorem sameFields_of_handleMessage {text : JsonText} {c c' : StratumV1Client}
    {msg : Json} {callback : Option Callback} (hno : c.BringsNoWork msg)
    (hok : handleMessage text c msg = .ok (c', callback)) :
    SameFields c c' := by
  rw [handleMessage_eq] at hok
  obtain ⟨received, hreceived, hok⟩ := bind_eq_ok.mp hok
  unfold BringsNoWork at hno
  rw [hreceived] at hno
  cases received with
  | setDifficulty difficulty =>
      have hsame := sameFields_of_rebuildJob hok
      exact ⟨hsame.job, hsame.haveJob, hsame.extranonce1,
        hsame.extranonce2Size⟩
  | notify job => exact hno.elim
  | reconnect =>
      obtain ⟨rfl, -⟩ := Prod.mk.inj (Except.ok.inj hok)
      exact ⟨rfl, rfl, rfl, rfl⟩
  | response id =>
      obtain ⟨callback', hother, -⟩ := handleResponse_other text msg hno
      obtain ⟨rfl, -⟩ := Prod.mk.inj (Except.ok.inj (hother.symm.trans hok))
      exact ⟨rfl, rfl, rfl, rfl⟩
  | nothing =>
      obtain ⟨rfl, -⟩ := Prod.mk.inj (Except.ok.inj hok)
      exact ⟨rfl, rfl, rfl, rfl⟩

theorem sameFields_of_run {text : JsonText} {c c' : StratumV1Client}
    {msgs : List Json}
    (hrun : Run (messageStep text) BringsNoWork c msgs c') :
    SameFields c c' := by
  apply hrun.invariant _ ⟨rfl, rfl, rfl, rfl⟩
  intro mid msg next hsame hno hstep
  unfold messageStep at hstep
  split at hstep
  · rename_i hok
    obtain rfl := Option.some.inj hstep
    exact hsame.trans (sameFields_of_handleMessage hno hok)
  · cases hstep

/-- The held job is still the one of `c`, so that if it was good the next
`mining.set_difficulty` delivers it again with the new difficulty, whatever
messages come before it that bring no other work. -/
structure JobKept (text : JsonText) (c c' : StratumV1Client) : Prop where
  job : c'.job = c.job
  haveJob : c'.haveJob = c.haveJob
  redelivers : c.HoldsGoodJob → ∀ msgs later,
    Run (messageStep text) BringsNoWork c' msgs later →
    ∀ msg difficulty, received msg = .ok (.setDifficulty difficulty) →
      ∃ next xn2 mj, handleMessage text later msg =
          .ok (next, some (.onJob mj [])) ∧
        encodeExtranonce2 later.xn2Counter c.extranonce2Size = .ok xn2 ∧
        buildWork c.job c.extranonce1 xn2 difficulty {} = (true, mj)

theorem SameFields.jobKept {text : JsonText} {c c' : StratumV1Client}
    (hsame : SameFields c c') : JobKept text c c' := by
  refine ⟨hsame.job, hsame.haveJob, ?_⟩
  intro hgood msgs later hrun msg difficulty hreceived
  obtain ⟨hhave, counter, xn2, difficulty', mj, hxn2, hbuilt⟩ := hgood
  have hlater := hsame.trans (sameFields_of_run hrun)
  have hgood' : HoldsGoodJob { later with difficulty := difficulty } := by
    refine ⟨hlater.haveJob.trans hhave, counter, xn2, difficulty', mj, ?_, ?_⟩
    · rw [← hxn2, ← hlater.extranonce2Size]
    · rw [← hbuilt, ← hlater.job, ← hlater.extranonce1]
  obtain ⟨next, xn2', mj', hrebuilt, hxn2', hbuilt'⟩ := hgood'.delivers
  refine ⟨next, xn2', mj', ?_, ?_, ?_⟩
  · rw [handleMessage_eq, hreceived]
    exact hrebuilt
  · rw [← hxn2', ← hlater.extranonce2Size]
  · rw [← hbuilt', ← hlater.job, ← hlater.extranonce1]

/-- A notify that invokes nothing keeps the held job exactly when its params do
not parse, or parse to the job that is held already. -/
theorem notify_keeps_job_iff (text : JsonText) {c c' : StratumV1Client}
    {msg : Json} (hhave : c.haveJob = true)
    (hnotify : msg.value Json.getString "" "method" = .ok "mining.notify")
    (hquiet : handleMessage text c msg = .ok (c', none)) :
    JobKept text c c' ↔
      ∀ job, parseNotify ((msg.find? "params").getD (.arr [])) = some job →
        job = c.job := by
  rw [handleMessage_eq] at hquiet
  cases hparse : parseNotify ((msg.find? "params").getD (.arr [])) with
  | none =>
      have hreceived : received msg = .ok .nothing := by
        simp only [received, hnotify, bind, Except.bind, String.reduceEq,
          ↓reduceIte, hparse]
        rfl
      rw [hreceived] at hquiet
      obtain ⟨rfl, -⟩ := Prod.mk.inj (Except.ok.inj hquiet)
      have hsame : SameFields c c := ⟨rfl, rfl, rfl, rfl⟩
      refine iff_of_true hsame.jobKept ?_
      intro job hjob
      cases hjob
  | some job =>
      have hreceived : received msg = .ok (.notify job) := by
        simp only [received, hnotify, bind, Except.bind, String.reduceEq,
          ↓reduceIte, hparse]
        rfl
      rw [hreceived] at hquiet
      have hrebuilt : rebuildJob { c with job := job, haveJob := true } =
          .ok (c', none) := hquiet
      have hsame := sameFields_of_rebuildJob hrebuilt
      simp only [Option.some.injEq]
      constructor
      · rintro hkept _ rfl
        exact hsame.job.symm.trans hkept.job
      · intro heq
        obtain rfl := heq job rfl
        apply SameFields.jobKept
        exact ⟨hsame.job, hsame.haveJob.trans hhave.symm, hsame.extranonce1,
          hsame.extranonce2Size⟩

def newDifficulty : Json :=
  .obj [("id", .null), ("method", .str "mining.set_difficulty"),
    ("params", .arr [.int 2])]

/-- A job that a rebuild passes on is good. -/
theorem holdsGoodJob_of_rebuildJob {c c' : StratumV1Client} {mj : MiningJob}
    {seed : List UInt8} (hok : c.rebuildJob = .ok (c', some (.onJob mj seed))) :
    c.HoldsGoodJob := by
  obtain ⟨-, hnone | ⟨xn2, built, hhave, hxn2, hbuilt, -⟩⟩ :=
    rebuildJob_eq_ok hok
  · cases hnone
  · exact ⟨hhave, _, xn2, _, built, hxn2, hbuilt⟩

/-- A notify without params after a delivered job: the held job stays, and the
next difficulty delivers it again. -/
theorem malformed_notify_keeps_job :
    let msg : Json := .obj [("id", .null), ("method", .str "mining.notify"),
      ("params", .arr [])]
    ∃ s, Run (Session.step sessionText) anyLabel
        { client := { user := "u", pass := "x" } } firstSession s ∧
      s.client.HoldsGoodJob ∧
      handleMessage sessionText s.client msg = .ok (s.client, none) ∧
      JobKept sessionText s.client s.client ∧
      ∃ next mj, handleMessage sessionText s.client newDifficulty =
        .ok (next, some (.onJob mj [])) := by
  intro msg
  have hreplay : (replay (Session.step sessionText) anyLabel
      { client := { user := "u", pass := "x" } } firstSession).any
        (fun s => (s.client.rebuildJob).toOption.any fun rebuilt =>
          rebuilt.2.any Callback.isJob) = true := by
    decide +kernel
  obtain ⟨s, hs, hfacts⟩ := (Option.any_eq_true _ _).mp hreplay
  obtain ⟨⟨c', callback⟩, hrebuilt, hjob⟩ := exists_of_toOption_any hfacts
  obtain ⟨mj, seed, rfl⟩ := Callback.any_isJob_iff.mp hjob
  have hgood := holdsGoodJob_of_rebuildJob hrebuilt
  have hquiet : handleMessage sessionText s.client msg =
      .ok (s.client, none) := rfl
  have hkept : JobKept sessionText s.client s.client :=
    (notify_keeps_job_iff sessionText hgood.1 rfl hquiet).mpr nofun
  obtain ⟨next, xn2, again, hnext, -⟩ :=
    hkept.redelivers hgood [] s.client .nil newDifficulty 2 rfl
  exact ⟨s, run_of_replay hs, hgood, hquiet, hkept, next, again, hnext⟩

/-- A notify whose params parse and whose coinbase is not hex. -/
def badHexNotify : Json :=
  .obj [("id", .null), ("method", .str "mining.notify"),
    ("params", .arr [.str "2", .str "", .str "zz", .str "", .arr [], .str "",
      .str "", .str "", .bool true])]

/-- After a delivered job such a notify invokes nothing and replaces the job,
and the next difficulty delivers nothing. -/
theorem bad_hex_notify_loses_job :
    ∃ s c' c'', Run (Session.step sessionText) anyLabel
        { client := { user := "u", pass := "x" } } firstSession s ∧
      s.client.haveJob = true ∧ s.deliveries.length = 1 ∧
      handleMessage sessionText s.client badHexNotify = .ok (c', none) ∧
      handleMessage sessionText c' newDifficulty = .ok (c'', none) ∧
      ¬ JobKept sessionText s.client c' := by
  have hreplay : (replay (Session.step sessionText) anyLabel
      { client := { user := "u", pass := "x" } } firstSession).any
        (fun s => decide (s.client.haveJob = true ∧ s.deliveries.length = 1) &&
          (handleMessage sessionText s.client badHexNotify).toOption.any
            (fun bad => decide (bad.2 = none ∧ bad.1.job ≠ s.client.job) &&
              (handleMessage sessionText bad.1 newDifficulty).toOption.any
                (fun next => decide (next.2 = none)))) = true := by
    decide +kernel
  obtain ⟨s, hs, hfacts⟩ := (Option.any_eq_true _ _).mp hreplay
  obtain ⟨hstart, hfacts⟩ := Bool.and_eq_true_iff.mp hfacts
  obtain ⟨⟨c', callback'⟩, hbad, hfacts⟩ := exists_of_toOption_any hfacts
  obtain ⟨hlost, hfacts⟩ := Bool.and_eq_true_iff.mp hfacts
  obtain ⟨⟨c'', callback''⟩, hnext, hquiet⟩ := exists_of_toOption_any hfacts
  obtain ⟨hhave, hdelivered⟩ := of_decide_eq_true hstart
  obtain ⟨hnone, hjob⟩ := of_decide_eq_true hlost
  obtain rfl : callback' = none := hnone
  obtain rfl : callback'' = none := of_decide_eq_true hquiet
  exact ⟨s, c', c'', run_of_replay hs, hhave, hdelivered, hbad, hnext,
    fun hkept => hjob hkept.job⟩

end StratumV1Client

end Minerby
