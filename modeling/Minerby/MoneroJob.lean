/-
What the members of a Monero job object say, and what `apply_job` makes of
them.
-/
import Minerby.MoneroClient

namespace Minerby

theorem mapError_eq_ok {ε ε' α : Type} {f : ε → ε'} {x : Except ε α} {a : α} :
    x.mapError f = .ok a ↔ x = .ok a := by
  cases x <;> simp [Except.mapError]

/-- A computation returns when each part does. -/
theorem bind_returns {ε α β : Type} {x : Except ε α} {f : α → Except ε β} :
    (∃ b, (x >>= f) = .ok b) ↔ ∃ a, x = .ok a ∧ ∃ b, f a = .ok b := by
  simp only [bind_eq_ok]
  exact ⟨fun ⟨b, a, ha, hb⟩ => ⟨a, ha, b, hb⟩,
    fun ⟨a, ha, b, hb⟩ => ⟨b, a, ha, hb⟩⟩

/-- A computation is defined when each part that is reached is. -/
theorem defined_bind_iff {α β : Type} {x : Except Fault α}
    {f : α → Except Fault β} :
    Defined (x >>= f) ↔ Defined x ∧ ∀ a, x = .ok a → Defined (f a) := by
  constructor
  · intro h
    cases x with
    | error fault =>
        refine ⟨?_, by rintro _ ⟨⟩⟩
        rintro what ⟨⟩
        exact h what rfl
    | ok a =>
        refine ⟨fun what => by rintro ⟨⟩, ?_⟩
        rintro _ ⟨⟩
        exact h
  · rintro ⟨hx, hf⟩
    exact hx.bind hf

namespace MoneroClient

/-- The job that the members of a job object describe, once they decode. -/
structure Describes (j : Json) (mj : MiningJob) : Prop where
  blob : ∃ hex, j.find? "blob" = some (.str hex) ∧ fromHex hex = .ok mj.blob
  blob_length : 43 ≤ mj.blob.length
  target : ∃ hex, j.find? "target" = some (.str hex) ∧
    moneroTargetFromHex hex = .ok mj.target
  jobId : j.find? "job_id" = some (.str mj.jobId)
  rest : mj = ⟨mj.blob, 39, mj.target, mj.jobId, 0, "", ""⟩

/-- The seed that goes with a job: empty unless `seed_hash` is a string. -/
def SeedOf (j : Json) (seed : List UInt8) : Prop :=
  (∀ hex, j.find? "seed_hash" = some (.str hex) → fromHex hex = .ok seed) ∧
    ((∀ hex, j.find? "seed_hash" ≠ some (.str hex)) → seed = [])

/-- The height, where there is one, converts to an `int`. -/
def HeightReads (j : Json) : Prop :=
  ∀ member, j.find? "height" = some member →
    member.isArithmetic = true ∧ member.fitsInt = true

/-- The height of a job whose other members decode is not a float outside
`int`.  Of any other job the height is not read. -/
def HeightDefined (j : Json) : Prop :=
  ∀ mj seed member, Describes j mj → SeedOf j seed →
    j.find? "height" = some member → member.fitsInt = true

theorem readJob_eq_some {j : Json} {mj : MiningJob} :
    readJob j = .ok (some mj) ↔ Describes j mj := by
  unfold readJob
  simp only [bind_eq_ok, Json.at?_eq_ok, Json.getString_eq_ok, mapError_eq_ok]
  constructor
  · rintro ⟨_, hblob, hex, rfl, blob, hhex, hok⟩
    split at hok
    · cases hok
    · rename_i hlong
      simp only [bind_eq_ok, Json.at?_eq_ok, Json.getString_eq_ok,
        mapError_eq_ok] at hok
      obtain ⟨_, htarget, targetHex, rfl, target, htargetHex, _, hjob, jobId,
        rfl, hmj⟩ := hok
      obtain rfl := Option.some.inj (Except.ok.inj hmj)
      exact ⟨⟨hex, hblob, hhex⟩, Nat.le_of_not_lt hlong,
        ⟨targetHex, htarget, htargetHex⟩, hjob, rfl⟩
  · rintro ⟨⟨hex, hblob, hhex⟩, hlong, ⟨targetHex, htarget, htargetHex⟩, hjob,
      hrest⟩
    refine ⟨_, hblob, hex, rfl, mj.blob, hhex, ?_⟩
    rw [if_neg (Nat.not_lt.mpr hlong)]
    simp only [bind_eq_ok, Json.at?_eq_ok, Json.getString_eq_ok,
      mapError_eq_ok]
    refine ⟨_, htarget, targetHex, rfl, mj.target, htargetHex, _, hjob,
      mj.jobId, rfl, ?_⟩
    exact congrArg (fun job => Except.ok (some job)) hrest.symm

/-- Every failure of the first members is an exception. -/
theorem readJob_defined (j : Json) : Defined (readJob j) := by
  unfold readJob
  refine (Json.at?_defined j _).bind fun blob _ => ?_
  refine (Json.getString_defined blob).bind fun blobText _ => ?_
  refine (mapError_defined _).bind fun bytes _ => ?_
  split
  · exact fun what => by rintro ⟨⟩
  · refine (Json.at?_defined j _).bind fun target _ => ?_
    refine (Json.getString_defined target).bind fun targetText _ => ?_
    refine (mapError_defined _).bind fun bits _ => ?_
    refine (Json.at?_defined j _).bind fun jobId _ => ?_
    refine (Json.getString_defined jobId).bind fun jobText _ => ?_
    exact fun what => by rintro ⟨⟩

/-- What a job object describes is unique. -/
theorem Describes.unique {j : Json} {mj mj' : MiningJob} (h : Describes j mj)
    (h' : Describes j mj') : mj' = mj := by
  have hread := (readJob_eq_some.mpr h).symm.trans (readJob_eq_some.mpr h')
  exact (Option.some.inj (Except.ok.inj hread)).symm

theorem Describes.isObject {j : Json} {mj : MiningJob} (h : Describes j mj) :
    j.isObject = true := by
  have hjob := h.jobId
  cases j <;> first | rfl | cases hjob

/-- The seed as `apply_job` reads it, before the height. -/
def readSeedHash (j : Json) : Except Fault (List UInt8) :=
  match j.find? "seed_hash" with
  | some (.str s) => (fromHex s).mapError Fault.thrown
  | _ => .ok []

theorem readSeed_eq (j : Json) :
    readSeed j = readSeedHash j >>= fun seed =>
      j.value Json.getInt 0 "height" >>= fun _ => .ok seed := by
  unfold readSeed readSeedHash
  rcases j.find? "seed_hash" with _ | member
  · rfl
  · cases member <;> rfl

theorem readSeedHash_eq_ok {j : Json} {seed : List UInt8} :
    readSeedHash j = .ok seed ↔ SeedOf j seed := by
  unfold readSeedHash SeedOf
  split
  · rename_i hex hseed
    simp only [mapError_eq_ok, hseed, Option.some.injEq, Json.str.injEq]
    exact ⟨fun h => ⟨by rintro _ rfl; exact h,
      fun hother => absurd rfl (hother hex)⟩, fun h => h.1 hex rfl⟩
  · rename_i hother
    simp only [Except.ok.injEq]
    exact ⟨fun h => ⟨fun hex hfind => absurd hfind (hother hex),
      fun _ => h.symm⟩, fun h => (h.2 hother).symm⟩

theorem readSeedHash_defined (j : Json) : Defined (readSeedHash j) := by
  unfold readSeedHash
  split
  · exact mapError_defined _
  · exact fun what => by rintro ⟨⟩

theorem value_height_returns {j : Json} (hobject : j.isObject = true) :
    (∃ height, j.value Json.getInt 0 "height" = .ok height) ↔
      HeightReads j := by
  cases j with
  | obj members =>
      unfold Json.value HeightReads
      cases hfind : (Json.obj members).find? "height" with
      | none => simp [hfind]
      | some member => simp [hfind, Json.getInt_returns]
  | _ => cases hobject

theorem value_height_defined (j : Json) :
    Defined (j.value Json.getInt 0 "height") ↔
      ∀ member, j.find? "height" = some member → member.fitsInt = true := by
  cases j with
  | obj members =>
      unfold Json.value Defined
      cases hfind : (Json.obj members).find? "height" with
      | none => simp [hfind]
      | some member =>
          have hundefined := Json.getInt_undefined (j := member)
          simp only [hfind, Option.some.injEq, forall_eq']
          rw [← Bool.not_eq_false, ← hundefined, not_exists]
  | _ => simp [Json.value, Json.find?, Defined]

theorem readSeed_eq_ok {j : Json} {seed : List UInt8}
    (hobject : j.isObject = true) :
    readSeed j = .ok seed ↔ SeedOf j seed ∧ HeightReads j := by
  rw [readSeed_eq, ← value_height_returns hobject]
  simp only [bind_eq_ok, Except.ok.injEq, readSeedHash_eq_ok]
  constructor
  · rintro ⟨seed', hseed, height, hheight, rfl⟩
    exact ⟨hseed, height, hheight⟩
  · rintro ⟨hseed, height, hheight⟩
    exact ⟨seed, hseed, height, hheight, rfl⟩

/-- The height is the only member whose conversion may have no meaning. -/
theorem readSeed_defined {j : Json} :
    Defined (readSeed j) ↔ ∀ seed member, SeedOf j seed →
      j.find? "height" = some member → member.fitsInt = true := by
  have hheight : ∀ seed : List UInt8,
      Defined (j.value Json.getInt 0 "height" >>= fun _ =>
        (.ok seed : Except Fault (List UInt8))) ↔
        ∀ member, j.find? "height" = some member → member.fitsInt = true := by
    intro seed
    rw [defined_bind_iff, ← value_height_defined]
    exact and_iff_left fun _ _ what => by rintro ⟨⟩
  rw [readSeed_eq, defined_bind_iff]
  simp only [readSeedHash_defined, true_and, readSeedHash_eq_ok, hheight]
  exact ⟨fun h seed member hseed => h seed hseed member,
    fun h seed hseed member => h seed member hseed⟩

/-- A job that is rejected for its first members changes nothing. -/
theorem applyJob_undescribed (c : MoneroClient) {j : Json}
    (hnone : ∀ mj, ¬ Describes j mj) :
    c.applyJob j = .ok (false, c, none) := by
  have hread : caught (readJob j) = .ok none ∨
      caught (readJob j) = .ok (some none) := by
    obtain ⟨r, hr⟩ := caught_returns.mpr (readJob_defined j)
    rcases r with _ | _ | mj
    · exact Or.inl hr
    · exact Or.inr hr
    · exact absurd (readJob_eq_some.mp (caught_eq_some.mp hr)) (hnone mj)
  unfold applyJob
  rcases hread with hread | hread <;> rw [hread] <;> rfl

/-- What `apply_job` does once the first members have decoded. -/
theorem applyJob_described (c : MoneroClient) {j : Json} {mj : MiningJob}
    (h : Describes j mj) :
    c.applyJob j = caught (readSeed j) >>= fun seed => .ok
      (seed.isSome, { c with difficulty := targetToDifficulty mj.target },
        seed.map fun seed => .onJob mj seed) := by
  unfold applyJob
  rw [caught_eq_some.mpr (readJob_eq_some.mpr h)]
  rcases caught (readSeed j) with _ | _ | seed <;> rfl

/-- `apply_job` fails only for a height whose conversion has no meaning. -/
theorem applyJob_returns {c : MoneroClient} {j : Json} :
    (∃ r, c.applyJob j = .ok r) ↔ HeightDefined j := by
  by_cases hdescribed : ∃ mj, Describes j mj
  · obtain ⟨mj, hmj⟩ := hdescribed
    rw [applyJob_described c hmj, bind_returns]
    have hseed : (∃ r, caught (readSeed j) = .ok r) ↔ HeightDefined j := by
      rw [caught_returns, readSeed_defined]
      exact ⟨fun h _ seed member _ => h seed member,
        fun h seed member => h mj seed member hmj⟩
    rw [← hseed]
    exact exists_congr fun r => and_iff_left ⟨_, rfl⟩
  · refine iff_of_true ⟨_, applyJob_undescribed c (not_exists.mp hdescribed)⟩ ?_
    intro mj seed member hmj
    exact absurd ⟨mj, hmj⟩ hdescribed

/-- What `apply_job` does where it returns. -/
theorem applyJob_eq_ok {c c' : MoneroClient} {j : Json} {taken : Bool}
    {callback : Option Callback}
    (hok : c.applyJob j = .ok (taken, c', callback)) :
    (∀ mj, ¬ Describes j mj) ∧ taken = false ∧ c' = c ∧ callback = none ∨
      ∃ mj, Describes j mj ∧
        c' = { c with difficulty := targetToDifficulty mj.target } ∧
        (taken = false ∧ callback = none ∧ (∀ seed, readSeed j ≠ .ok seed) ∨
          ∃ seed, readSeed j = .ok seed ∧ taken = true ∧
            callback = some (.onJob mj seed)) := by
  by_cases hdescribed : ∃ mj, Describes j mj
  · obtain ⟨mj, hmj⟩ := hdescribed
    right
    rw [applyJob_described c hmj] at hok
    obtain ⟨result, hseed, hok⟩ := bind_eq_ok.mp hok
    obtain ⟨rfl, hrest⟩ := Prod.mk.inj (Except.ok.inj hok)
    obtain ⟨rfl, rfl⟩ := Prod.mk.inj hrest
    refine ⟨mj, hmj, rfl, ?_⟩
    cases result with
    | none =>
        obtain ⟨what, hthrown⟩ := caught_eq_none.mp hseed
        refine Or.inl ⟨rfl, rfl, fun seed hread => ?_⟩
        cases hthrown.symm.trans hread
    | some seed => exact Or.inr ⟨seed, caught_eq_some.mp hseed, rfl, rfl⟩
  · left
    have hnothing := applyJob_undescribed c (not_exists.mp hdescribed)
    obtain ⟨rfl, hrest⟩ := Prod.mk.inj (Except.ok.inj (hok.symm.trans hnothing))
    obtain ⟨rfl, rfl⟩ := Prod.mk.inj hrest
    exact ⟨not_exists.mp hdescribed, rfl, rfl, rfl⟩

end MoneroClient

end Minerby
