/-
Accounting of share results.  Each client remembers the id of its latest
submit only, so the response to an earlier one is dropped, and a second
response to the latest one is counted again.
-/
import Minerby.PoolClient
import Minerby.StepSystem

namespace Minerby

/-- The share counters. -/
structure Metrics where
  accepted : UInt64 := 0
  rejected : UInt64 := 0
deriving Repr, DecidableEq

namespace Metrics

def shareAccepted (m : Metrics) : Metrics := { m with accepted := m.accepted + 1 }

def shareRejected (m : Metrics) : Metrics := { m with rejected := m.rejected + 1 }

/-- The `on_submit_result` callback of `cmd_run`. -/
def onSubmitResult (m : Metrics) (ok : Bool) : Metrics :=
  if ok then m.shareAccepted else m.shareRejected

end Metrics

/-- The id of a JSON-RPC response: a message with an integer id and no
method. -/
def responseId? (msg : Json) : Option Int :=
  match msg.find? "method", msg.find? "id" with
  | none, some (.int n) => some n
  | _, _ => none

/-- A client with its counters and its history: the ids of the submits issued,
the submits answered so far with the verdict of the first response to each
(`none` where reading the verdict throws), and the `on_submit_result` calls,
all newest first. -/
structure Accounting where
  client : PoolClient
  metrics : Metrics := {}
  issued : List Int := []
  answered : List (Int × Option (Bool × String)) := []
  results : List (Bool × String) := []
  crashed : Bool := false

/-- The calls made on the client. -/
inductive ClientLabel where
  | connect (opened : Option Nat) (firstSends secondSends : List SendResult)
  | disconnect
  | poll (due : Bool) (script : List RecvResult)
  | submit (job : MiningJob) (nonce : UInt32) (digest : Hash256)

namespace Accounting

def answeredIds (s : Accounting) : List Int := s.answered.map Prod.fst

/-- Note a message handled: the first response to an issued submit answers
it. -/
def note (text : JsonText) (s : Accounting) (msg : Json) : Accounting :=
  match responseId? msg with
  | none => s
  | some n =>
      if n ∈ s.issued ∧ n ∉ s.answeredIds then
        { s with
          answered := (n, (s.client.verdict text msg).toOption) :: s.answered }
      else s

/-- Record the callback of a poll, with its effect on the counters. -/
def record (s : Accounting) (callback : Option Callback) : Accounting :=
  match callback.bind Callback.result? with
  | none => s
  | some result =>
      { s with
        results := result :: s.results
        metrics := s.metrics.onSubmitResult result.1 }

/-- A poll that fails ends the program, with its message noted. -/
def step (text : JsonText) (s : Accounting) (label : ClientLabel) :
    Option Accounting :=
  if s.crashed then none
  else
    match label with
    | .connect opened firstSends secondSends =>
        some { s with client :=
          (s.client.connectStart text opened firstSends secondSends).2 }
    | .disconnect => some { s with client := s.client.disconnect }
    | .submit job nonce digest =>
        let client := (s.client.submit job nonce digest).1
        some { s with
          client := client
          issued := client.lastSubmitId :: s.issued }
    | .poll due script =>
        let noted := match text.incoming s.client.conn script with
          | none => s
          | some msg => s.note text msg
        match s.client.poll text due script with
        | .error _ => some { noted with crashed := true }
        | .ok (_, client, callback, _) =>
            some ({ noted with client := client }.record callback)

end Accounting

/-- A message the client accounts for rightly.  A response to an unanswered
submit comes while that submit is the latest and has a readable verdict, and a
message that the client takes for the response to its latest submit is one, the
first. -/
def AnswersLatest (text : JsonText) (s : Accounting) (msg : Json) : Prop :=
  (match responseId? msg with
    | none => True
    | some n => n ∈ s.issued → n ∉ s.answeredIds →
        n = s.client.lastSubmitId ∧
          (s.client.verdict text msg).toOption.isSome = true) ∧
  (s.client.TakesForResult msg →
    responseId? msg = some s.client.lastSubmitId ∧
      s.client.lastSubmitId ∈ s.issued ∧
      s.client.lastSubmitId ∉ s.answeredIds)

/-- The steps that keep the accounts: messages are accounted for rightly, and
the `int` ids have not run out. -/
def KeepsAccounts (text : JsonText) (s : Accounting) (label : ClientLabel) :
    Prop :=
  s.client.nextId + 2 < 2 ^ 31 ∧
    match label with
    | .poll _ script =>
        match text.incoming s.client.conn script with
        | none => True
        | some msg => AnswersLatest text s msg
    | _ => True

instance (text : JsonText) (s : Accounting) (msg : Json) :
    Decidable (AnswersLatest text s msg) := by
  unfold AnswersLatest
  split <;> infer_instance

instance (text : JsonText) (s : Accounting) (label : ClientLabel) :
    Decidable (KeepsAccounts text s label) := by
  unfold KeepsAccounts
  split
  · split <;> infer_instance
  · infer_instance

/-- The invariant.  Ids are handed out in increasing order, so a submit's id is
not another submit's nor one of the handshake. -/
structure Accounted (s : Accounting) : Prop where
  positive : 1 ≤ s.client.nextId
  bounded : s.client.nextId < 2 ^ 31
  issued_lt : ∀ n ∈ s.issued, 1 ≤ n ∧ n < s.client.nextId
  handshake_lt : ∀ n ∈ s.client.handshakeIds, n < s.client.nextId
  handshake : ∀ n ∈ s.issued, n ∉ s.client.handshakeIds
  length_lt : (s.issued.length : Int) < s.client.nextId
  nodup : s.answeredIds.Nodup
  subset : ∀ n ∈ s.answeredIds, n ∈ s.issued
  results : s.results.map some = s.answered.map Prod.snd
  accepted : s.metrics.accepted =
    UInt64.ofNat (s.results.countP fun result => result.1)
  rejected : s.metrics.rejected =
    UInt64.ofNat (s.results.countP fun result => !result.1)

/-- A response with an id in range is dispatched by that id. -/
theorem dispatchId_of_responseId {msg : Json} {n : Int}
    (hid : responseId? msg = some n) (hlow : 0 ≤ n) (hhigh : n < 2 ^ 31)
    (c : PoolClient) : c.dispatchId msg = some n := by
  unfold responseId? at hid
  split at hid
  · rename_i m hmethod hint
    obtain rfl := Option.some.inj hid
    have hrange : Json.toInt32 m = m := Int.bmod_eq_of_le (by omega) (by omega)
    cases msg with
    | obj members =>
        have hvalue : (Json.obj members).value Json.getString "" "method" =
            .ok "" := by
          simp only [Json.value, hmethod]
        cases c with
        | stratum c =>
            simp only [PoolClient.dispatchId, StratumV1Client.received, hvalue,
              hint, Json.getInt, hrange]
            rfl
        | monero c =>
            simp only [PoolClient.dispatchId, MoneroClient.received, hvalue,
              hint, Json.getInt, hrange]
            rfl
    | _ => cases hint
  · cases hid

theorem succId_eq (id : Int) (hlow : 0 ≤ id) (hhigh : id + 1 < 2 ^ 31) :
    StratumV1Client.succId id = id + 1 :=
  Int.bmod_eq_of_le (by omega) (by omega)

/-- Opening a connection takes ids from the counter on, for the handshake. -/
theorem connectStart_ids (text : JsonText) (c : PoolClient)
    (opened : Option Nat) (firstSends secondSends : List SendResult)
    (hlow : 1 ≤ c.nextId) (hhigh : c.nextId + 2 < 2 ^ 31) :
    let c' := (c.connectStart text opened firstSends secondSends).2
    c.nextId ≤ c'.nextId ∧ c'.nextId ≤ c.nextId + 2 ∧
      (∀ n ∈ c'.handshakeIds, n ∈ c.handshakeIds ∨ c.nextId ≤ n) ∧
      ((∀ n ∈ c.handshakeIds, n < c.nextId) →
        ∀ n ∈ c'.handshakeIds, n < c'.nextId) := by
  cases c with
  | stratum c =>
      change 1 ≤ c.nextId at hlow
      change c.nextId + 2 < 2 ^ 31 at hhigh
      have hsucc := succId_eq c.nextId (by omega) (by omega)
      have hsucc' := succId_eq (c.nextId + 1) (by omega) (by omega)
      simp only [PoolClient.connectStart, Prod.map_snd,
        StratumV1Client.connectStart]
      split
      · exact ⟨Int.le_refl _, Int.le_add_of_nonneg_right (by decide),
          fun n hn => Or.inl hn, fun h => h⟩
      · split
        · simp only [PoolClient.nextId, PoolClient.handshakeIds, hsucc, hsucc',
            List.mem_cons, List.not_mem_nil, or_false, forall_eq_or_imp,
            forall_eq]
          omega
        · simp only [PoolClient.nextId, PoolClient.handshakeIds, hsucc,
            List.mem_cons, List.not_mem_nil, or_false, forall_eq_or_imp,
            forall_eq, true_or, or_true, and_true]
          omega
  | monero c =>
      change 1 ≤ c.nextId at hlow
      change c.nextId + 2 < 2 ^ 31 at hhigh
      have hsucc := succId_eq c.nextId (by omega) (by omega)
      simp only [PoolClient.connectStart, Prod.map_snd,
        MoneroClient.connectStart]
      split
      · exact ⟨Int.le_refl _, Int.le_add_of_nonneg_right (by decide),
          fun n hn => Or.inl hn, fun h => h⟩
      · simp only [PoolClient.nextId, PoolClient.handshakeIds, hsucc,
          List.mem_singleton, forall_eq]
        omega

theorem Accounted.connect {s : Accounting} (haccounted : Accounted s)
    (text : JsonText) (opened : Option Nat)
    (firstSends secondSends : List SendResult)
    (hroom : s.client.nextId + 2 < 2 ^ 31) :
    Accounted { s with client :=
      (s.client.connectStart text opened firstSends secondSends).2 } := by
  obtain ⟨hle, hle', hids, hlt⟩ := connectStart_ids text s.client opened
    firstSends secondSends haccounted.positive hroom
  refine { haccounted with
    positive := le_trans haccounted.positive hle
    bounded := lt_of_le_of_lt hle' hroom
    issued_lt := fun n hn => ?_
    handshake_lt := hlt haccounted.handshake_lt
    handshake := fun n hn hmem => ?_
    length_lt := lt_of_lt_of_le haccounted.length_lt hle }
  · obtain ⟨hlow, hhigh⟩ := haccounted.issued_lt n hn
    exact ⟨hlow, lt_of_lt_of_le hhigh hle⟩
  · rcases hids n hmem with hold | hnew
    · exact haccounted.handshake n hn hold
    · exact absurd (haccounted.issued_lt n hn).2 (not_lt.mpr hnew)

/-- A submit takes the next id. -/
theorem submit_ids (c : PoolClient) (job : MiningJob) (nonce : UInt32)
    (digest : Hash256) (hlow : 1 ≤ c.nextId) (hhigh : c.nextId + 2 < 2 ^ 31) :
    (c.submit job nonce digest).1.lastSubmitId = c.nextId ∧
      (c.submit job nonce digest).1.nextId = c.nextId + 1 ∧
      (c.submit job nonce digest).1.handshakeIds = c.handshakeIds := by
  cases c with
  | stratum c =>
      change 1 ≤ c.nextId at hlow
      change c.nextId + 2 < 2 ^ 31 at hhigh
      exact ⟨rfl, succId_eq _ (by omega) (by omega), rfl⟩
  | monero c =>
      change 1 ≤ c.nextId at hlow
      change c.nextId + 2 < 2 ^ 31 at hhigh
      exact ⟨rfl, succId_eq _ (by omega) (by omega), rfl⟩

theorem Accounted.submit {s : Accounting} (haccounted : Accounted s)
    (job : MiningJob) (nonce : UInt32) (digest : Hash256)
    (hroom : s.client.nextId + 2 < 2 ^ 31) :
    Accounted { s with
      client := (s.client.submit job nonce digest).1
      issued := (s.client.submit job nonce digest).1.lastSubmitId ::
        s.issued } := by
  obtain ⟨hlast, hnext, hhandshake⟩ := submit_ids s.client job nonce digest
    haccounted.positive hroom
  have hpositive := haccounted.positive
  have hlength := haccounted.length_lt
  refine { haccounted with
    positive := ?_
    bounded := ?_
    issued_lt := ?_
    handshake_lt := ?_
    handshake := ?_
    length_lt := ?_
    subset := fun n hn => List.mem_cons_of_mem _ (haccounted.subset n hn) }
  · simp only [hnext]
    omega
  · simp only [hnext]
    omega
  · simp only [hlast, hnext, List.mem_cons, forall_eq_or_imp]
    refine ⟨by omega, fun n hn => ?_⟩
    obtain ⟨hlow, hhigh⟩ := haccounted.issued_lt n hn
    omega
  · simp only [hhandshake, hnext]
    intro n hn
    have hlt := haccounted.handshake_lt n hn
    omega
  · simp only [hlast, hhandshake, List.mem_cons, forall_eq_or_imp]
    refine ⟨fun hmem => ?_, haccounted.handshake⟩
    exact absurd (haccounted.handshake_lt _ hmem) (lt_irrefl _)
  · simp only [hnext, List.length_cons, Nat.cast_add, Nat.cast_one]
    omega

/-- A poll may take one more id. -/
theorem Accounted.of_idsKept {s : Accounting} {c : PoolClient}
    (haccounted : Accounted s) (hkept : PoolClient.IdsKept s.client c)
    (hroom : s.client.nextId + 2 < 2 ^ 31) :
    Accounted { s with client := c } := by
  have hpositive := haccounted.positive
  have hle : s.client.nextId ≤ c.nextId ∧ c.nextId < 2 ^ 31 := by
    rcases hkept.nextId with hsame | hsucc
    · rw [hsame]
      exact ⟨le_refl _, haccounted.bounded⟩
    · rw [hsucc, succId_eq _ (by omega) (by omega)]
      omega
  obtain ⟨hle, hbounded⟩ := hle
  refine { haccounted with
    positive := le_trans hpositive hle
    bounded := hbounded
    issued_lt := fun n hn => ?_
    handshake_lt := fun n hn => ?_
    handshake := fun n hn => ?_
    length_lt := lt_of_lt_of_le haccounted.length_lt hle }
  · obtain ⟨hlow, hhigh⟩ := haccounted.issued_lt n hn
    exact ⟨hlow, lt_of_lt_of_le hhigh hle⟩
  · simp only [hkept.handshakeIds] at hn
    exact lt_of_lt_of_le (haccounted.handshake_lt n hn) hle
  · simp only [hkept.handshakeIds]
    exact haccounted.handshake n hn

theorem Accounted.disconnect {s : Accounting} (haccounted : Accounted s)
    (hroom : s.client.nextId + 2 < 2 ^ 31) :
    Accounted { s with client := s.client.disconnect } := by
  refine haccounted.of_idsKept ?_ hroom
  cases s.client with
  | stratum c => exact ⟨Or.inl rfl, rfl, rfl⟩
  | monero c => exact ⟨Or.inl rfl, rfl, rfl⟩

/-- A submit is answered and its verdict counted. -/
theorem Accounted.count {s : Accounting} (haccounted : Accounted s) {n : Int}
    (hissued : n ∈ s.issued) (hfresh : n ∉ s.answeredIds)
    (verdict : Bool × String) :
    Accounted { s with
      answered := (n, some verdict) :: s.answered
      results := verdict :: s.results
      metrics := s.metrics.onSubmitResult verdict.1 } := by
  refine { haccounted with
    nodup := List.nodup_cons.mpr ⟨hfresh, haccounted.nodup⟩
    subset := fun m hm => ?_
    results := congrArg (List.cons _) haccounted.results
    accepted := ?_
    rejected := ?_ }
  · rcases List.mem_cons.mp hm with rfl | hm
    · exact hissued
    · exact haccounted.subset m hm
  · rw [List.countP_cons]
    cases hverdict : verdict.1 with
    | false =>
        simpa [Metrics.onSubmitResult, Metrics.shareRejected] using
          haccounted.accepted
    | true =>
        simp only [Metrics.onSubmitResult, Metrics.shareAccepted, ↓reduceIte,
          haccounted.accepted]
        rw [UInt64.ofNat_add]
        rfl
  · rw [List.countP_cons]
    cases hverdict : verdict.1 with
    | true =>
        simpa [Metrics.onSubmitResult, Metrics.shareAccepted] using
          haccounted.rejected
    | false =>
        simp only [Metrics.onSubmitResult, Metrics.shareRejected, Bool.not_false,
          ↓reduceIte, haccounted.rejected, Bool.false_eq_true]
        rw [UInt64.ofNat_add]
        rfl

/-- Under the guard a message changes the accounts in step: it answers a submit
exactly when the client takes it for a result, with a readable verdict. -/
theorem Accounted.note_cases {text : JsonText} {s : Accounting} {msg : Json}
    (haccounted : Accounted s) (hroom : s.client.nextId + 2 < 2 ^ 31)
    (hok : AnswersLatest text s msg) :
    (¬ s.client.TakesForResult msg ∧ s.note text msg = s) ∨
      (s.client.TakesForResult msg ∧ ∃ n verdict, n ∈ s.issued ∧
        n ∉ s.answeredIds ∧ s.client.verdict text msg = .ok verdict ∧
        s.note text msg =
          { s with answered := (n, some verdict) :: s.answered }) := by
  obtain ⟨hlatest, hright⟩ := hok
  by_cases htakes : s.client.TakesForResult msg
  · obtain ⟨hid, hissued, hfresh⟩ := hright htakes
    simp only [hid] at hlatest
    obtain ⟨-, hreadable⟩ := hlatest hissued hfresh
    cases hverdict : s.client.verdict text msg with
    | error fault =>
        rw [hverdict] at hreadable
        cases hreadable
    | ok verdict =>
        refine Or.inr ⟨htakes, _, verdict, hissued, hfresh, rfl, ?_⟩
        simp only [Accounting.note, hid, hissued, hfresh, not_false_iff,
          and_self, ↓reduceIte, hverdict]
        rfl
  · refine Or.inl ⟨htakes, ?_⟩
    unfold Accounting.note
    split
    · rfl
    · rename_i n hid
      simp only [hid] at hlatest
      split
      · rename_i hopen
        obtain ⟨rfl, -⟩ := hlatest hopen.1 hopen.2
        obtain ⟨hlow, hhigh⟩ := haccounted.issued_lt _ hopen.1
        refine absurd ⟨?_, haccounted.handshake _ hopen.1⟩ htakes
        exact dispatchId_of_responseId hid (by omega) (by omega) _
      · rfl

theorem Accounted.poll {text : JsonText} {s s' : Accounting} {due : Bool}
    {script : List RecvResult} (haccounted : Accounted s)
    (hok : KeepsAccounts text s (.poll due script))
    (hcrashed : ¬ s.crashed = true)
    (hstep : s.step text (.poll due script) = some s') : Accounted s' := by
  obtain ⟨hroom, hmessage⟩ := hok
  rw [Accounting.step, if_neg hcrashed] at hstep
  simp only at hstep
  have hother : (∀ msg, text.incoming s.client.conn script = some msg →
      ¬ s.client.TakesForResult msg) →
      (match s.client.poll text due script with
        | .error _ => some { s with crashed := true }
        | .ok (_, client, callback, _) =>
            some ({ s with client := client }.record callback)) = some s' →
      Accounted s' := by
    intro htakes hstep
    split at hstep
    · obtain rfl := Option.some.inj hstep
      exact { haccounted with }
    · rename_i flag client callback rest hpoll
      obtain ⟨hkept, hnone⟩ := PoolClient.poll_no_result hpoll htakes
      obtain rfl := Option.some.inj hstep
      simp only [Accounting.record, hnone]
      exact haccounted.of_idsKept hkept hroom
  cases hmsg : text.incoming s.client.conn script with
  | none =>
      simp only [hmsg] at hstep
      exact hother (fun msg h => by rw [hmsg] at h; cases h) hstep
  | some msg =>
      simp only [hmsg] at hstep hmessage
      rcases haccounted.note_cases hroom hmessage with ⟨htakes, hnote⟩ |
        ⟨htakes, n, verdict, hissued, hfresh, hverdict, hnote⟩
      · rw [hnote] at hstep
        refine hother (fun msg' h => ?_) hstep
        obtain rfl := Option.some.inj (hmsg.symm.trans h)
        exact htakes
      · obtain ⟨c', rest, hkept, hpoll⟩ :=
          PoolClient.poll_takes due hmsg htakes
        rw [hverdict] at hpoll
        simp only [hpoll, hnote] at hstep
        obtain rfl := Option.some.inj hstep
        exact (haccounted.of_idsKept hkept hroom).count hissued hfresh verdict

theorem Accounted.step {text : JsonText} {s s' : Accounting}
    {label : ClientLabel} (haccounted : Accounted s)
    (hok : KeepsAccounts text s label) (hstep : s.step text label = some s') :
    Accounted s' := by
  by_cases hcrashed : s.crashed = true
  · simp [Accounting.step, hcrashed] at hstep
  · cases label with
    | connect opened firstSends secondSends =>
        rw [Accounting.step, if_neg hcrashed] at hstep
        obtain rfl := Option.some.inj hstep
        exact haccounted.connect text opened firstSends secondSends hok.1
    | disconnect =>
        rw [Accounting.step, if_neg hcrashed] at hstep
        obtain rfl := Option.some.inj hstep
        exact haccounted.disconnect hok.1
    | submit job nonce digest =>
        rw [Accounting.step, if_neg hcrashed] at hstep
        obtain rfl := Option.some.inj hstep
        exact haccounted.submit job nonce digest hok.1
    | poll due script => exact haccounted.poll hok hcrashed hstep

/-- The program before any call. -/
def Accounting.start (protocol : Protocol) (user pass : String) : Accounting :=
  { client := .make protocol user pass }

theorem Accounted.start (protocol : Protocol) (user pass : String) :
    Accounted (Accounting.start protocol user pass) := by
  cases protocol <;>
    constructor <;>
    simp [Accounting.start, PoolClient.make, PoolClient.nextId,
      PoolClient.handshakeIds, Accounting.answeredIds]

/-- The submits answered are issued ones, so there are fewer than ids. -/
theorem Accounted.answered_lt {s : Accounting} (haccounted : Accounted s) :
    (s.answered.length : Int) < s.client.nextId := by
  have hsubperm := haccounted.nodup.subperm haccounted.subset
  have hle : s.answered.length ≤ s.issued.length := by
    simpa [Accounting.answeredIds] using hsubperm.length_le
  have hlt := haccounted.length_lt
  omega

/-- The two counters add up to the number of results. -/
theorem Accounted.total {s : Accounting} (haccounted : Accounted s) :
    s.metrics.accepted.toNat + s.metrics.rejected.toNat =
      s.answered.length := by
  have hlength : s.results.length = s.answered.length := by
    simpa using congrArg List.length haccounted.results
  have hanswered := haccounted.answered_lt
  have hbounded := haccounted.bounded
  have hsplit := List.length_eq_countP_add_countP (l := s.results)
    (fun result => result.1)
  have hnot : s.results.countP (fun result => decide (¬ result.1 = true)) =
      s.results.countP fun result => !result.1 := by
    congr 1
    funext result
    cases result.1 <;> rfl
  rw [hnot] at hsplit
  rw [haccounted.accepted, haccounted.rejected, UInt64.toNat_ofNat',
    UInt64.toNat_ofNat', Nat.mod_eq_of_lt (by omega),
    Nat.mod_eq_of_lt (by omega)]
  omega

/-- Share results are accounted exactly once, for either client, in a run whose
steps keep the accounts: the `on_submit_result` calls are the verdicts of the
submits answered, in the order of the answers, no submit is answered twice, and
the counters add up to the submits answered. -/
theorem results_eq_answered (text : JsonText) (protocol : Protocol)
    (user pass : String) {labels : List ClientLabel} {s : Accounting}
    (hrun : Run (Accounting.step text) (KeepsAccounts text)
      (Accounting.start protocol user pass) labels s) :
    s.results.map some = s.answered.map Prod.snd ∧ s.answeredIds.Nodup ∧
      (∀ n ∈ s.answeredIds, n ∈ s.issued) ∧
      s.metrics.accepted.toNat + s.metrics.rejected.toNat =
        s.answered.length := by
  have haccounted : Accounted s :=
    hrun.invariant (fun _ _ _ hinv hok hstep => Accounted.step hinv hok hstep)
      (Accounted.start protocol user pass)
  exact ⟨haccounted.results, haccounted.nodup, haccounted.subset,
    haccounted.total⟩

/-- The pool accepts the submit with the given id. -/
def acceptedReply (id : Int) : Json :=
  .obj [("error", .null), ("id", .int id), ("result", .bool true)]

def replyText : JsonText := .ofMessages [acceptedReply 3, acceptedReply 4]

/-- Connect, submit one share and handle the response to it. -/
def oneSubmit : List ClientLabel :=
  [.connect (some 1) [.all] [.all],
    .submit {} 0 (Hash256.fill 0), .poll false [.line (acceptedReply 3).render]]

/-- Two submits are outstanding when the response to the first arrives. -/
def twoSubmits : List ClientLabel :=
  [.connect (some 1) [.all] [.all],
    .submit {} 0 (Hash256.fill 0), .submit {} 1 (Hash256.fill 0),
    .poll false [.line (acceptedReply 3).render]]

/-- A single submit is a run of the kind above, and is counted. -/
theorem oneSubmit_results_eq_answered :
    ∃ s, Run (Accounting.step replyText) (KeepsAccounts replyText)
        (Accounting.start .stratum "u" "x") oneSubmit s ∧
      s.answeredIds = [3] ∧ s.results.map some = s.answered.map Prod.snd ∧
      s.metrics.accepted.toNat + s.metrics.rejected.toNat =
        s.answered.length := by
  have hreplay : (replay (Accounting.step replyText) (KeepsAccounts replyText)
      (Accounting.start .stratum "u" "x") oneSubmit).any
        (fun s => s.answeredIds = [3]) = true := by
    decide +kernel
  obtain ⟨s, hs, hids⟩ := (Option.any_eq_true _ _).mp hreplay
  have hrun := run_of_replay hs
  obtain ⟨hresults, -, -, htotal⟩ :=
    results_eq_answered replyText .stratum "u" "x" hrun
  exact ⟨s, hrun, of_decide_eq_true hids, hresults, htotal⟩

/-- With two submits outstanding the response to the first is dropped: it is
answered, and there is no result. -/
theorem twoSubmits_result_lost :
    ∃ s, Run (Accounting.step replyText) anyLabel
        (Accounting.start .stratum "u" "x") twoSubmits s ∧
      s.answeredIds = [3] ∧ s.results = [] ∧
      s.results.map some ≠ s.answered.map Prod.snd := by
  have hreplay : (replay (Accounting.step replyText) anyLabel
      (Accounting.start .stratum "u" "x") twoSubmits).any
        (fun s => s.answeredIds = [3] ∧ s.results = []) = true := by
    decide +kernel
  obtain ⟨s, hs, hlost⟩ := (Option.any_eq_true _ _).mp hreplay
  obtain ⟨hids, hnil⟩ := of_decide_eq_true hlost
  refine ⟨s, run_of_replay hs, hids, hnil, fun heq => ?_⟩
  have hlength := congrArg List.length heq
  have hone := congrArg List.length hids
  simp only [hnil, Accounting.answeredIds, List.length_map, List.length_nil,
    List.length_singleton] at hlength hone
  omega

end Minerby
