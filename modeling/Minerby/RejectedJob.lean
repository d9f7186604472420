/-
What a Monero job message leaves behind.  `apply_job` decodes the members one
after another and assigns `difficulty_` before the last two of them, so a job
that is rejected there has already changed the client.
-/
import Minerby.PollFaults

namespace Minerby

namespace MoneroClient

/-- What a job that is taken does, and what a job that is not must not do: the
callback gets what the members describe, and the difficulty is that of the
target. -/
structure AllOrNothing (c : MoneroClient) (j : Json) (taken : Bool)
    (c' : MoneroClient) (callback : Option Callback) : Prop where
  accepted : taken = true ↔
    ∃ mj seed, callback = some (.onJob mj seed) ∧ Describes j mj ∧
      SeedOf j seed ∧ c'.difficulty = targetToDifficulty mj.target
  rejected : taken = false → c' = c ∧ callback = none

/-- The seed is a string that is not hex, or the height is not a number. -/
def LateMemberBad (j : Json) : Prop :=
  (∃ hex, j.find? "seed_hash" = some (.str hex) ∧
    ∀ seed, fromHex hex ≠ .ok seed) ∨
  ∃ member, j.find? "height" = some member ∧ member.isArithmetic = false

/-- The job is rejected for one of the two members that are read after the
assignment, and its target has another difficulty than the last one. -/
def RejectedLate (c : MoneroClient) (j : Json) : Prop :=
  ∃ mj, Describes j mj ∧ LateMemberBad j ∧
    targetToDifficulty mj.target ≠ c.difficulty

theorem seedOf_none_iff {j : Json} :
    (∀ seed, ¬ SeedOf j seed) ↔
      ∃ hex, j.find? "seed_hash" = some (.str hex) ∧
        ∀ seed, fromHex hex ≠ .ok seed := by
  constructor
  · intro hbad
    by_contra hnone
    push Not at hnone
    by_cases hstring : ∃ hex, j.find? "seed_hash" = some (.str hex)
    · obtain ⟨hex, hfind⟩ := hstring
      obtain ⟨seed, hseed⟩ := hnone hex hfind
      refine hbad seed ⟨?_, fun hother => absurd hfind (hother hex)⟩
      intro hex' hfind'
      obtain rfl := Json.str.inj (Option.some.inj (hfind.symm.trans hfind'))
      exact hseed
    · refine hbad [] ⟨?_, fun _ => rfl⟩
      intro hex hfind
      exact absurd ⟨hex, hfind⟩ hstring
  · rintro ⟨hex, hfind, hbad⟩ seed ⟨hseed, -⟩
    exact hbad seed (hseed hex hfind)

/-- No seed is returned exactly when a late member is bad. -/
theorem readSeed_fails_iff {j : Json} {mj : MiningJob} (h : Describes j mj)
    (hdefined : HeightDefined j) :
    (∀ seed, readSeed j ≠ .ok seed) ↔ LateMemberBad j := by
  simp only [ne_eq, readSeed_eq_ok h.isObject, LateMemberBad,
    ← seedOf_none_iff]
  constructor
  · intro hfails
    by_cases hseed : ∃ seed, SeedOf j seed
    · obtain ⟨seed, hseed⟩ := hseed
      right
      by_contra hnone
      push Not at hnone
      refine hfails seed ⟨hseed, fun member hfind => ⟨?_, ?_⟩⟩
      · exact Bool.not_eq_false _ |>.mp (hnone member hfind)
      · exact hdefined mj seed member h hseed hfind
    · exact Or.inl (not_exists.mp hseed)
  · rintro (hnone | ⟨member, hfind, hbad⟩) seed ⟨hseed, hreads⟩
    · exact hnone seed hseed
    · exact Bool.false_ne_true (hbad.symm.trans (hreads member hfind).1)

/-- `apply_job` returns, a rejected job changes nothing and an accepted one is
what the members describe, exactly when the conversion of the height has a
meaning and the job is not rejected after the assignment. -/
theorem applyJob_allOrNothing_iff (c : MoneroClient) (j : Json) :
    (∃ taken c' callback, c.applyJob j = .ok (taken, c', callback) ∧
      AllOrNothing c j taken c' callback) ↔
      HeightDefined j ∧ ¬ RejectedLate c j := by
  constructor
  · rintro ⟨taken, c', callback, hok, hall⟩
    have hdefined : HeightDefined j := applyJob_returns.mp ⟨_, hok⟩
    refine ⟨hdefined, ?_⟩
    rintro ⟨mj, hmj, hbad, hdiff⟩
    have hfails := (readSeed_fails_iff hmj hdefined).mpr hbad
    rcases applyJob_eq_ok hok with ⟨hnone, -⟩ | ⟨mj', hmj', rfl, hrest⟩
    · exact hnone mj hmj
    · obtain rfl := hmj.unique hmj'
      rcases hrest with ⟨rfl, -, -⟩ | ⟨seed, hseed, -⟩
      · exact hdiff (congrArg difficulty (hall.rejected rfl).1)
      · exact hfails seed hseed
  · rintro ⟨hdefined, hlate⟩
    obtain ⟨⟨taken, c', callback⟩, hok⟩ :=
      applyJob_returns (c := c).mpr hdefined
    refine ⟨taken, c', callback, hok, ?_⟩
    rcases applyJob_eq_ok hok with
      ⟨-, rfl, rfl, rfl⟩ | ⟨mj, hmj, rfl, ⟨rfl, rfl, hfails⟩ |
        ⟨seed, hseed, rfl, rfl⟩⟩
    · refine ⟨iff_of_false Bool.false_ne_true ?_, fun _ => ⟨rfl, rfl⟩⟩
      rintro ⟨_, _, ⟨⟩, -⟩
    · have hbad := (readSeed_fails_iff hmj hdefined).mp hfails
      have hsame : targetToDifficulty mj.target = c.difficulty := by
        by_contra hdiff
        exact hlate ⟨mj, hmj, hbad, hdiff⟩
      refine ⟨iff_of_false Bool.false_ne_true ?_, fun _ => ⟨?_, rfl⟩⟩
      · rintro ⟨_, _, ⟨⟩, -⟩
      · rw [hsame]
    · have hgood := (readSeed_eq_ok hmj.isObject).mp hseed
      refine ⟨iff_of_true rfl ⟨mj, seed, rfl, hmj, hgood.1, rfl⟩, ?_⟩
      rintro ⟨⟩

/-- Two targets one unit apart, with the same difficulty as a `double`: a
rejected job with the one after a job with the other changes nothing. -/
example : (moneroTargetFromHex "feffffffffffffff").toOption.map
      targetToDifficulty =
    (moneroTargetFromHex "ffffffffffffffff").toOption.map
      targetToDifficulty := by
  decide +kernel

/-- A first job whose seed is not hex: `apply_job` returns false, and the
difficulty is that of the rejected job. -/
theorem bad_seed_leaves_difficulty :
    let c := (connectStart (.ofMessages []) { user := "u", pass := "x" }
      (some 7) [.all]).2
    let j : Json := .obj [("blob", .str (toHex (List.replicate 43 0))),
      ("target", .str "ffffffff"), ("job_id", .str "1"),
      ("seed_hash", .str "zz")]
    (∃ c' callback, c.applyJob j = .ok (false, c', callback) ∧
      c'.difficulty ≠ c.difficulty) ∧
      ¬ ∃ taken c' callback, c.applyJob j = .ok (taken, c', callback) ∧
        AllOrNothing c j taken c' callback := by
  intro c j
  have heval : (c.applyJob j).toOption.any (fun r => r.1 = false ∧
      r.2.1.difficulty ≠ c.difficulty) = true := by
    decide +kernel
  obtain ⟨r, hr, hfacts⟩ := (Option.any_eq_true _ _).mp heval
  obtain ⟨hfalse, hdiff⟩ := of_decide_eq_true hfacts
  obtain ⟨taken, c', callback⟩ := r
  obtain rfl : taken = false := hfalse
  have happly : c.applyJob j = .ok (false, c', callback) := by
    cases hresult : c.applyJob j <;> simp [hresult, Except.toOption] at hr
    rw [hr]
  refine ⟨⟨c', callback, happly, hdiff⟩, ?_⟩
  rintro ⟨taken, c'', callback', hok, hall⟩
  obtain ⟨rfl, hrest⟩ := Prod.mk.inj (Except.ok.inj (happly.symm.trans hok))
  obtain ⟨rfl, rfl⟩ := Prod.mk.inj hrest
  exact hdiff (congrArg difficulty (hall.rejected rfl).1)

end MoneroClient

end Minerby
