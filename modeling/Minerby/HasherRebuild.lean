/-
Replacing the hashers.  A worker compares `hasher_gen_` with the generation it
read after it built its hasher, not before, and `pause` waits neither for a
worker that is building one nor for one that is past the comparison.
-/
import Minerby.PauseBarrier

namespace Minerby

namespace MinerPool

variable {threads : UInt32} {H : Type}

/-- Building a hasher, or about to read the generation after building one. -/
def Pc.building : Pc → Bool
  | .making _ => true
  | .loadHasherGen _ => true
  | _ => false

/-- Past the comparison of the generations and not yet past the second test of
`paused_`. -/
def Pc.pastCheck : Pc → Bool
  | .loadWorkGen => true
  | .pickup _ => true
  | .enter => true
  | .recheck => true
  | _ => false

/-- In the loop, with a hasher and a generation for it. -/
def Pc.inLoop : Pc → Bool
  | .unborn => false
  | .boot => false
  | .making _ => false
  | .loadHasherGen _ => false
  | .exited => false
  | _ => true

/-- Worker `i` is in a construction that began after the events `since`. -/
def BeganSince (since : List (Event threads H)) (s : State threads H)
    (i : Fin threads.toNat) : Prop :=
  ∃ between older, s.log = between ++ .makeBegin i :: older ∧
    .makeBegin i ∉ between ∧ since <:+ older

/-- The hasher of worker `i` is the last one it made, and its construction
began after the events `since`. -/
def BuiltSince (since : List (Event threads H)) (s : State threads H)
    (i : Fin threads.toNat) : Prop :=
  ∃ hasher newer between older, (s.workers i).hasher = some hasher ∧
    s.log = newer ++ .made i hasher :: (between ++ .makeBegin i :: older) ∧
    (∀ other, .made i other ∉ newer) ∧ .makeBegin i ∉ between ∧
    since <:+ older

/-- The new generation is not one that a worker in its loop still holds from
before; this fails only when the 64-bit counter comes round. -/
def State.FreshHasherGen (s : State threads H) : Prop :=
  ∀ i, (s.workers i).pc.inLoop = true →
    (s.workers i).localHasherGen ≠ s.hasherGen + 1

instance (s : State threads H) : Decidable s.FreshHasherGen :=
  inferInstanceAs (Decidable (∀ _, _ → _ ≠ _))

/-- The steps of any run, where `hasher_gen_` does not come round. -/
def KeepsHasherGen (s : State threads H) : Label threads H → Prop
  | .call .rebuildHashers => s.FreshHasherGen
  | _ => True

instance (s : State threads H) (label : Label threads H) :
    Decidable (KeepsHasherGen s label) :=
  match label with
  | .call .rebuildHashers => inferInstanceAs (Decidable s.FreshHasherGen)
  | .call .start => .isTrue trivial
  | .call .stop => .isTrue trivial
  | .call (.setWork _) => .isTrue trivial
  | .call .clearWork => .isTrue trivial
  | .call .pause => .isTrue trivial
  | .call .resume => .isTrue trivial
  | .ctl => .isTrue trivial
  | .worker _ => .isTrue trivial
  | .made _ _ => .isTrue trivial
  | .hashed _ _ => .isTrue trivial

/-- The steps between the last `rebuild_hashers` of a pause and `resume`. -/
def LastRebuild (s : State threads H) : Label threads H → Prop
  | .call .rebuildHashers => False
  | label => NotResumed s label

/-- `pause(); rebuild_hashers(); resume()`, with whatever the workers do
meanwhile.  Other calls may stand in between. -/
structure RebuildCycle (threads : UInt32) (H : Type) where
  pausing : State threads H
  paused : State threads H
  calling : State threads H
  called : State threads H
  resuming : State threads H
  resumed : State threads H
  returns : PauseReturns pausing paused
  stays : ∃ labels, Run step NotResumed paused labels calling
  rebuilds : step calling (.call .rebuildHashers) = some called
  waits : ∃ labels, Run step LastRebuild called labels resuming
  resumes : step resuming (.call .resume) = some resumed

/-- Every worker takes notice of the rebuild: when `rebuild_hashers` is called
none is building a hasher and `hasher_gen_` does not come round, and when
`resume` is called none that is past its check holds an old generation. -/
structure RebuildCycle.Noticed (cycle : RebuildCycle threads H) : Prop where
  not_building : ∀ i, (cycle.calling.workers i).pc.building = false
  fresh : cycle.calling.FreshHasherGen
  checked : ∀ i, (cycle.resuming.workers i).pc.pastCheck = true →
    (cycle.resuming.workers i).localHasherGen = cycle.resuming.hasherGen

/-- What is known of worker `i` after a rebuild: a construction it is in began
later, and so did the one of its hasher if it holds the current generation. -/
structure Tracked (since : List (Event threads H)) (s : State threads H)
    (i : Fin threads.toNat) : Prop where
  making : ∀ build, (s.workers i).pc = .making build → BeganSince since s i
  loading : ∀ build, (s.workers i).pc = .loadHasherGen build →
    BuiltSince since s i
  current : (s.workers i).pc.inLoop = true →
    (s.workers i).localHasherGen = s.hasherGen → BuiltSince since s i

/-- After a rebuild. -/
structure Followed (since : List (Event threads H)) (s : State threads H) :
    Prop where
  suffix : since <:+ s.log
  tracked : ∀ i, Tracked since s i

/-- After the pause of a rebuild, when no worker uses an old hasher. -/
structure Renewed (since : List (Event threads H)) (s : State threads H) :
    Prop extends Followed since s where
  used : ∀ i, (s.workers i).pc.usesHasher = true → BuiltSince since s i

section Log

variable {since : List (Event threads H)} {s s' : State threads H}
  {i : Fin threads.toNat}

/-- Events that build no hasher for worker `i`. -/
def NoBuild (i : Fin threads.toNat) (events : List (Event threads H)) : Prop :=
  .makeBegin i ∉ events ∧ ∀ hasher, .made i hasher ∉ events

theorem BeganSince.extend {events : List (Event threads H)}
    (hbegan : BeganSince since s i) (hlog : s'.log = events ++ s.log)
    (hnone : NoBuild i events) : BeganSince since s' i := by
  obtain ⟨between, older, hold, hbetween, hsince⟩ := hbegan
  refine ⟨events ++ between, older, ?_, ?_, hsince⟩
  · rw [hlog, hold, List.append_assoc]
  · rw [List.mem_append, not_or]
    exact ⟨hnone.1, hbetween⟩

theorem BuiltSince.extend {events : List (Event threads H)}
    (hbuilt : BuiltSince since s i) (hlog : s'.log = events ++ s.log)
    (hnone : NoBuild i events)
    (hhasher : (s'.workers i).hasher = (s.workers i).hasher) :
    BuiltSince since s' i := by
  obtain ⟨hasher, newer, between, older, hsome, hold, hnewer, hbetween,
    hsince⟩ := hbuilt
  refine ⟨hasher, events ++ newer, between, older, hhasher.trans hsome, ?_, ?_,
    hbetween, hsince⟩
  · rw [hlog, hold, List.append_assoc]
  · intro other
    rw [List.mem_append, not_or]
    exact ⟨hnone.2 other, hnewer other⟩

/-- The construction that a worker is in becomes its hasher's. -/
theorem BeganSince.made {hasher : H} (hbegan : BeganSince since s i)
    (hlog : s'.log = .made i hasher :: s.log)
    (hhasher : (s'.workers i).hasher = some hasher) :
    BuiltSince since s' i := by
  obtain ⟨between, older, hold, hbetween, hsince⟩ := hbegan
  refine ⟨hasher, [], between, older, hhasher, ?_, by simp, hbetween, hsince⟩
  rw [hlog, hold]
  rfl

/-- A construction that begins after all that is logged. -/
theorem BeganSince.begin (hlog : s'.log = .makeBegin i :: s.log)
    (hsince : since <:+ s.log) : BeganSince since s' i :=
  ⟨[], s.log, hlog, by simp, hsince⟩

end Log

/-- What a turn does about the worker's hasher: it begins to build one, has
built it, reads the generation for it, or leaves both alone. -/
inductive HasherMove (s : State threads H) (i : Fin threads.toNat)
    (w : Worker H) : List (Event threads H) → Prop
  | begins (build : Build) (pc : w.pc = .making build) :
      HasherMove s i w [.makeBegin i]
  | makes (build : Build) (hasher : H) (old : (s.workers i).pc = .making build)
      (pc : w.pc = .loadHasherGen build) (made : w.hasher = some hasher) :
      HasherMove s i w [.made i hasher]
  | loads (build : Build) (old : (s.workers i).pc = .loadHasherGen build)
      (pc : w.pc.inLoop = true) (same : w.hasher = (s.workers i).hasher) :
      HasherMove s i w []
  | keeps {events : List (Event threads H)}
      (old : (s.workers i).pc.inLoop = true) (pc : w.pc.building = false)
      (same : w.hasher = (s.workers i).hasher)
      (gen : w.localHasherGen = (s.workers i).localHasherGen)
      (used : w.pc.usesHasher = true → (s.workers i).pc.usesHasher = true ∨
        (s.workers i).localHasherGen = s.hasherGen)
      (noBuild : NoBuild i events) :
      HasherMove s i w events

theorem noBuild_nil (i : Fin threads.toNat) :
    NoBuild i ([] : List (Event threads H)) := by
  simp [NoBuild]

/-- A turn that changes the program counter and nothing about the hasher. -/
theorem HasherMove.of_pc {s : State threads H} {i : Fin threads.toNat}
    {pc : Pc} {w : Worker H} {events : List (Event threads H)}
    (old : (s.workers i).pc = pc) (loop : pc.inLoop = true)
    (building : w.pc.building = false)
    (same : w.hasher = (s.workers i).hasher)
    (gen : w.localHasherGen = (s.workers i).localHasherGen)
    (used : w.pc.usesHasher = true → pc.usesHasher = true)
    (noBuild : NoBuild i events) : HasherMove s i w events := by
  subst old
  exact .keeps loop building same gen (fun h => Or.inl (used h)) noBuild

theorem Turn.hasherMove {s : State threads H} {i : Fin threads.toNat}
    {label : Label threads H} {w : Worker H} {inFlight : UInt32}
    {event : Option (Event threads H)}
    (hturn : Turn s i label w inFlight event) :
    HasherMove s i w event.toList := by
  have hnil := noBuild_nil (H := H) i
  cases hturn with
  | boot pc => exact .begins .boot rfl
  | made build hasher pc => exact .makes build hasher pc rfl rfl
  | booted pc => exact .loads .boot pc rfl rfl
  | rebuilt pc => exact .loads .rebuild pc rfl rfl
  | rebuild pc stale => exact .begins .rebuild rfl
  | keepHasher pc same =>
      exact .keeps (by rw [pc]; rfl) rfl rfl rfl (fun _ => Or.inr same.symm) hnil
  | keepWork pc same =>
      refine .of_pc pc rfl ?_ rfl rfl (fun _ => rfl) hnil
      exact (s.workers i).test_afterCheck Pc.building rfl rfl
  | pickup gen pc =>
      refine .of_pc pc rfl ?_ ?_ ?_ (fun _ => rfl) hnil
      · exact ((s.workers i).take i gen s.work).test_afterCheck Pc.building rfl
          rfl
      · cases s.work <;> rfl
      · cases s.work <;> rfl
  | next done pc =>
      refine .of_pc pc rfl ?_ rfl rfl (fun _ => rfl) hnil
      exact (s.workers i).test_advance threads done Pc.building rfl rfl
  | share done p digest pc work =>
      refine .of_pc pc rfl ?_ rfl rfl (fun _ => rfl) (by simp [NoBuild])
      exact (s.workers i).test_advance threads done Pc.building rfl rfl
  | loop pc running => exact .of_pc pc rfl rfl rfl rfl (by rintro ⟨⟩) hnil
  | exit pc running => exact .of_pc pc rfl rfl rfl rfl (by rintro ⟨⟩) hnil
  | rest pc paused => exact .of_pc pc rfl rfl rfl rfl (by rintro ⟨⟩) hnil
  | proceed pc paused => exact .of_pc pc rfl rfl rfl rfl (by rintro ⟨⟩) hnil
  | seeGen pc stale => exact .of_pc pc rfl rfl rfl rfl (fun _ => rfl) hnil
  | enter pc => exact .of_pc pc rfl rfl rfl rfl (fun _ => rfl) hnil
  | turnBack pc paused => exact .of_pc pc rfl rfl rfl rfl (fun _ => rfl) hnil
  | goOn pc paused => exact .of_pc pc rfl rfl rfl rfl (fun _ => rfl) hnil
  | abort pc => exact .of_pc pc rfl rfl rfl rfl (by rintro ⟨⟩) hnil
  | hash done p pc work =>
      exact .of_pc pc rfl rfl rfl rfl (fun _ => rfl) (by simp [NoBuild])
  | found done p digest pc work meets =>
      exact .of_pc pc rfl rfl rfl rfl (fun _ => rfl) (by simp [NoBuild])
  | missed done p digest pc work meets =>
      exact .of_pc pc rfl rfl rfl rfl (fun _ => rfl) (by simp [NoBuild])
  | leave done pc => exact .of_pc pc rfl rfl rfl rfl (by rintro ⟨⟩) hnil
  | account done pc => exact .of_pc pc rfl rfl rfl rfl (by rintro ⟨⟩) hnil

/-- The events of a worker's turn build nothing for another worker. -/
theorem Turn.noBuild_of_ne {s : State threads H} {i j : Fin threads.toNat}
    {label : Label threads H} {w : Worker H} {inFlight : UInt32}
    {event : Option (Event threads H)}
    (hturn : Turn s i label w inFlight event) (hne : j ≠ i) :
    NoBuild j event.toList := by
  cases hturn <;> simp [NoBuild, hne]

section Steps

variable {since : List (Event threads H)} {s s' : State threads H}
  {i : Fin threads.toNat}

/-- A worker that is left alone, with events that are not its own. -/
theorem Tracked.of_same {events : List (Event threads H)}
    (htracked : Tracked since s i) (hworker : s'.workers i = s.workers i)
    (hgen : s'.hasherGen = s.hasherGen) (hlog : s'.log = events ++ s.log)
    (hnone : NoBuild i events) : Tracked since s' i := by
  have hhasher : (s'.workers i).hasher = (s.workers i).hasher := by rw [hworker]
  constructor
  · rw [hworker]
    intro build hpc
    exact (htracked.making build hpc).extend hlog hnone
  · rw [hworker]
    intro build hpc
    exact (htracked.loading build hpc).extend hlog hnone hhasher
  · rw [hworker, hgen]
    intro hpc hcurrent
    exact (htracked.current hpc hcurrent).extend hlog hnone hhasher

theorem pc_not_making {pc : Pc} (hbuilding : pc.building = false)
    (build : Build) : pc ≠ .making build ∧ pc ≠ .loadHasherGen build := by
  constructor <;> rintro rfl <;> cases hbuilding

theorem building_of_inLoop {pc : Pc} (hloop : pc.inLoop = true) :
    pc.building = false := by
  cases pc <;> first | rfl | cases hloop

theorem usesHasher_inLoop {pc : Pc} (huses : pc.usesHasher = true) :
    pc.inLoop = true := by
  cases pc <;> first | rfl | cases huses

/-- The worker that takes a turn stays tracked; if it comes to use its hasher
it either used it before or that hasher is new. -/
theorem Tracked.turned {label : Label threads H}
    (htracked : Tracked since s i) (hsuffix : since <:+ s.log)
    (hturned : Turned s s' i label) :
    Tracked since s' i ∧ ((s'.workers i).pc.usesHasher = true →
      ((s.workers i).pc.usesHasher = true → BuiltSince since s i) →
        BuiltSince since s' i) := by
  obtain ⟨w, inFlight, event, hturn, hw, -, hlog⟩ := hturned.turn
  have hmove := hturn.hasherMove
  generalize event.toList = events at hmove hlog
  cases hmove with
  | begins build pc =>
      have hbegan : BeganSince since s' i := .begin hlog hsuffix
      rw [← hw] at pc
      refine ⟨⟨fun _ _ => hbegan, fun _ hpc => ?_, fun hpc => ?_⟩, fun hpc => ?_⟩
      · rw [pc] at hpc
        cases hpc
      · rw [pc] at hpc
        cases hpc
      · rw [pc] at hpc
        cases hpc
  | makes build hasher old pc made =>
      have hbuilt : BuiltSince since s' i :=
        (htracked.making build old).made hlog (by rw [hw, made])
      rw [← hw] at pc
      refine ⟨⟨fun _ hpc => ?_, fun _ _ => hbuilt, fun _ _ => hbuilt⟩,
        fun _ _ => hbuilt⟩
      rw [pc] at hpc
      cases hpc
  | loads build old pc same =>
      have hbuilt : BuiltSince since s' i :=
        (htracked.loading build old).extend hlog (noBuild_nil i) (by rw [hw, same])
      rw [← hw] at pc
      refine ⟨⟨fun build' hpc => ?_, fun _ _ => hbuilt, fun _ _ => hbuilt⟩,
        fun _ _ => hbuilt⟩
      exact absurd hpc (pc_not_making (building_of_inLoop pc) build').1
  | keeps old pc same gen used noBuild =>
      have hextend : BuiltSince since s i → BuiltSince since s' i :=
        fun h => h.extend hlog noBuild (by rw [hw, same])
      rw [← hw] at pc used
      refine ⟨⟨fun build hpc => ?_, fun build hpc => ?_, fun _ hcurrent => ?_⟩,
        fun huses hold => ?_⟩
      · exact absurd hpc (pc_not_making pc build).1
      · exact absurd hpc (pc_not_making pc build).2
      · rw [hw, gen, hturned.hasherGen] at hcurrent
        exact hextend (htracked.current old hcurrent)
      · rcases used huses with hused | hcurrent
        · exact hextend (hold hused)
        · exact hextend (htracked.current old hcurrent)

/-- A worker without a hasher, before its first construction or after its
last. -/
theorem Tracked.of_outside (hloop : (s.workers i).pc.inLoop = false)
    (hbuilding : (s.workers i).pc.building = false) : Tracked since s i := by
  refine ⟨fun build hpc => ?_, fun build hpc => ?_, fun hpc => ?_⟩
  · exact absurd hpc (pc_not_making hbuilding build).1
  · exact absurd hpc (pc_not_making hbuilding build).2
  · rw [hloop] at hpc
    cases hpc

/-- Under a new generation no worker holds the current one. -/
theorem Tracked.regen (htracked : Tracked since s i)
    (hfresh : s.FreshHasherGen) (hworker : s'.workers i = s.workers i)
    (hgen : s'.hasherGen = s.hasherGen + 1)
    (hlog : s'.log = .called .rebuildHashers :: s.log) : Tracked since s' i := by
  have hnone : NoBuild i ([.called .rebuildHashers] : List (Event threads H)) := by
    simp [NoBuild]
  refine ⟨fun build hpc => ?_, fun build hpc => ?_, fun hpc hcurrent => ?_⟩
  · rw [hworker] at hpc
    exact (htracked.making build hpc).extend hlog hnone
  · have hhasher : (s'.workers i).hasher = (s.workers i).hasher := by
      rw [hworker]
    rw [hworker] at hpc
    exact (htracked.loading build hpc).extend hlog hnone hhasher
  · rw [hworker] at hpc hcurrent
    rw [hgen] at hcurrent
    exact absurd hcurrent (hfresh i hpc)

theorem Followed.step {label : Label threads H} (hfollowed : Followed since s)
    (hok : KeepsHasherGen s label) (hstep : MinerPool.step s label = some s') :
    Followed since s' := by
  cases step_acted hstep with
  | turn i hturned =>
      obtain ⟨w, inFlight, event, hturn, -, -, hlog⟩ := hturned.turn
      refine ⟨?_, fun j => ?_⟩
      · rw [hlog]
        exact hfollowed.suffix.trans (List.suffix_append _ _)
      · by_cases hj : j = i
        · subst hj
          exact ((hfollowed.tracked j).turned hfollowed.suffix hturned).1
        · exact (hfollowed.tracked j).of_same (hturned.others j hj)
            hturned.hasherGen hlog (hturn.noBuild_of_ne hj)
  | call call hcalled =>
      have hlog : s'.log = [.called call] ++ s.log := hcalled.log
      refine ⟨?_, fun j => ?_⟩
      · rw [hlog]
        exact hfollowed.suffix.trans (List.suffix_append _ _)
      · have hworker := congrFun hcalled.workers j
        by_cases hcall : call = .rebuildHashers
        · subst hcall
          exact (hfollowed.tracked j).regen hok hworker
            (by rw [hcalled.hasherGen, if_pos rfl]) hlog
        · exact (hfollowed.tracked j).of_same hworker
            (by rw [hcalled.hasherGen, if_neg hcall]) hlog (by simp [NoBuild])
  | ctl taken =>
      obtain ⟨hlog, -, -, hgen, -, hworkers⟩ := ctlStep_frame taken
      have hnil : s'.log = [] ++ s.log := hlog
      refine ⟨?_, fun j => ?_⟩
      · rw [hlog]
        exact hfollowed.suffix
      · rcases hworkers j with hsame | hboot | ⟨-, hjoined⟩
        · exact (hfollowed.tracked j).of_same hsame hgen hnil (noBuild_nil j)
        · exact .of_outside (by rw [hboot]; rfl) (by rw [hboot]; rfl)
        · exact .of_outside (by rw [hjoined]; rfl) (by rw [hjoined]; rfl)

theorem Renewed.step {label : Label threads H} (hrenewed : Renewed since s)
    (hok : KeepsHasherGen s label) (hstep : MinerPool.step s label = some s') :
    Renewed since s' := by
  refine ⟨hrenewed.toFollowed.step hok hstep, fun j huses => ?_⟩
  cases step_acted hstep with
  | turn i hturned =>
      obtain ⟨w, inFlight, event, hturn, -, -, hlog⟩ := hturned.turn
      by_cases hj : j = i
      · subst hj
        exact ((hrenewed.tracked j).turned hrenewed.suffix hturned).2 huses
          (hrenewed.used j)
      · have hsame := hturned.others j hj
        rw [hsame] at huses
        exact (hrenewed.used j huses).extend hlog (hturn.noBuild_of_ne hj)
          (by rw [hsame])
  | call call hcalled =>
      have hlog : s'.log = [.called call] ++ s.log := hcalled.log
      rw [hcalled.workers] at huses
      exact (hrenewed.used j huses).extend hlog (by simp [NoBuild])
        (by rw [hcalled.workers])
  | ctl taken =>
      obtain ⟨hlog, -, -, -, -, hworkers⟩ := ctlStep_frame taken
      have hnil : s'.log = [] ++ s.log := hlog
      rcases hworkers j with hsame | hboot | ⟨-, hjoined⟩
      · rw [hsame] at huses
        exact (hrenewed.used j huses).extend hnil (noBuild_nil j)
          (by rw [hsame])
      · rw [hboot] at huses
        cases huses
      · rw [hjoined] at huses
        cases huses

end Steps

/-- Right after the call every worker is tracked. -/
theorem RebuildCycle.Noticed.followed {cycle : RebuildCycle threads H}
    (hnoticed : cycle.Noticed) : Followed cycle.called.log cycle.called := by
  have hcalled : Called cycle.calling cycle.called .rebuildHashers :=
    callStep_called cycle.rebuilds
  refine ⟨List.suffix_refl _, fun i => ?_⟩
  have hbuilding := hnoticed.not_building i
  rw [← hcalled.workers] at hbuilding
  refine ⟨fun build hpc => ?_, fun build hpc => ?_, fun hpc hcurrent => ?_⟩
  · exact absurd hpc (pc_not_making hbuilding build).1
  · exact absurd hpc (pc_not_making hbuilding build).2
  · rw [hcalled.workers] at hpc hcurrent
    rw [hcalled.hasherGen, if_pos rfl] at hcurrent
    exact absurd hcurrent (hnoticed.fresh i hpc)

theorem LastRebuild.notResumed {s : State threads H} {label : Label threads H}
    (hok : LastRebuild s label) : NotResumed s label ∧ KeepsHasherGen s label := by
  unfold LastRebuild at hok
  split at hok
  · cases hok
  · rename_i hrebuild
    refine ⟨hok, ?_⟩
    unfold KeepsHasherGen
    split
    · exact absurd rfl hrebuild
    · trivial

/-- The pause lasts to the call of `resume`. -/
theorem RebuildCycle.quiet (cycle : RebuildCycle threads H)
    (hpaused : Quiet cycle.paused) : Quiet cycle.resuming := by
  obtain ⟨stays, hstays⟩ := cycle.stays
  obtain ⟨waits, hwaits⟩ := cycle.waits
  have hcalling := (hpaused.run hstays).1
  have hok : NotResumed cycle.calling (.call .rebuildHashers) := trivial
  have hcalled := hcalling.step hok cycle.rebuilds
  exact hwaits.invariant
    (fun _ _ _ hinv hok hstep => Quiet.step hinv hok.notResumed.1 hstep) hcalled

theorem usesHasher_cases {pc : Pc} (huses : pc.usesHasher = true) :
    pc.pastCheck = true ∨ pc.inChunk = true := by
  cases pc <;> first | exact Or.inl rfl | exact Or.inr rfl | cases huses

/-- When `resume` is called in a cycle that every worker notices, no worker is
left that would use an old hasher. -/
theorem RebuildCycle.Noticed.renewed {cycle : RebuildCycle threads H}
    (hnoticed : cycle.Noticed) (hpaused : Quiet cycle.paused) :
    Renewed cycle.called.log cycle.resuming := by
  obtain ⟨waits, hwaits⟩ := cycle.waits
  have hfollowed : Followed cycle.called.log cycle.resuming :=
    hwaits.invariant
      (fun _ _ _ hinv hok hstep => Followed.step hinv hok.notResumed.2 hstep)
      hnoticed.followed
  refine ⟨hfollowed, fun i huses => ?_⟩
  rcases usesHasher_cases huses with hpast | hchunk
  · exact (hfollowed.tracked i).current (usesHasher_inLoop huses)
      (hnoticed.checked i hpast)
  · have hout := (cycle.quiet hpaused).outside i
    rw [hchunk] at hout
    cases hout

/-- In every run in which each worker notices the rebuild, every hash that
begins after `pause(); rebuild_hashers(); resume()` uses a hasher whose
construction began after the call of `rebuild_hashers`. -/
theorem hash_uses_rebuilt_hasher (cycle : RebuildCycle threads H)
    {before after : List (Label threads H)} {s s' : State threads H}
    {i : Fin threads.toNat} {p : JobPtr} {nonce : UInt32}
    (hbefore : Run step anyLabel (init threads H) before cycle.pausing)
    (hnoticed : cycle.Noticed)
    (hafter : Run step KeepsHasherGen cycle.resumed after s)
    (hstep : step s (.worker i) = some s')
    (hbegins : s'.log = .hashBegin i p nonce :: s.log) :
    BuiltSince cycle.called.log s i := by
  have hsound : Sound cycle.pausing :=
    hbefore.invariant (fun _ _ _ hinv _ hstep => Sound.step hinv hstep)
      Sound.init
  have hinside : PausedInside cycle.pausing :=
    hbefore.invariant (fun _ _ _ hinv _ hstep => PausedInside.step hinv hstep)
      (by simp [PausedInside, init])
  have hrenewed := hnoticed.renewed (cycle.returns.quiet hsound hinside)
  have hok : KeepsHasherGen cycle.resuming (.call .resume) := trivial
  have hresumed := hrenewed.step hok cycle.resumes
  have hlast : Renewed cycle.called.log s :=
    hafter.invariant (fun _ _ _ hinv hok hstep => Renewed.step hinv hok hstep)
      hresumed
  refine hlast.used i ?_
  obtain ⟨w, inFlight, event, hturn, -, -, hlog⟩ :=
    (workerStep_turned hstep).turn
  rw [hlog] at hbegins
  cases hturn with
  | hash done q hpc hwork =>
      rw [hpc]
      rfl
  | _ => simp at hbegins

/-- The worker has its first hasher when `pause` is called. -/
def settledLabels : List (Label 1 Nat) :=
  [.call (.setWork bareJob), .ctl, .call .start, .ctl, .ctl,
    .worker soleWorker, .made soleWorker 0, .worker soleWorker, .call .pause,
    .ctl]

/-- It notices the new generation, builds a second one and starts a chunk. -/
def renewedLabels : List (Label 1 Nat) :=
  [.worker soleWorker, .worker soleWorker, .worker soleWorker,
    .made soleWorker 1, .worker soleWorker, .worker soleWorker,
    .worker soleWorker, .worker soleWorker, .worker soleWorker]

/-- The worker is building its first hasher when `pause` is called. -/
def bootingLabels : List (Label 1 Nat) :=
  [.call (.setWork bareJob), .ctl, .call .start, .ctl, .ctl,
    .worker soleWorker, .call .pause, .ctl]

/-- It reads the generation only after that, and starts a chunk. -/
def overtakenLabels : List (Label 1 Nat) :=
  [.made soleWorker 0, .worker soleWorker, .worker soleWorker,
    .worker soleWorker, .worker soleWorker, .worker soleWorker,
    .worker soleWorker, .worker soleWorker, .worker soleWorker]

/-- The cycle in which no thread but the controlling one takes a step, from a
state in which `pause` is about to return. -/
def RebuildCycle.immediate (pausing : State threads H)
    (hctl : pausing.ctl = .draining) (hzero : pausing.inFlight = 0) :
    RebuildCycle threads H :=
  let paused : State threads H := { pausing with ctl := .idle }
  let called : State threads H := { paused.emit (.called .rebuildHashers) with
    hasherGen := paused.hasherGen + 1 }
  { pausing := pausing
    paused := paused
    calling := paused
    called := called
    resuming := called
    resumed := { called.emit (.called .resume) with paused := false }
    returns := ⟨Or.inr hctl, by simp [ctlStep, hctl, hzero, paused], rfl⟩
    stays := ⟨[], Run.nil⟩
    rebuilds := rfl
    waits := ⟨[], Run.nil⟩
    resumes := rfl }

/-- What the runs below hash first. -/
def firstPtr : JobPtr := ⟨1, { bareJob with generation := 1 }⟩

/-- A cycle that every worker notices: the hash after it uses the hasher built
after it. -/
theorem settled_hash_uses_rebuilt_hasher :
    ∃ (cycle : RebuildCycle 1 Nat) (s s' : State 1 Nat),
      Run step anyLabel (init 1 Nat) settledLabels cycle.pausing ∧
        cycle.Noticed ∧
        Run step KeepsHasherGen cycle.resumed renewedLabels s ∧
        step s (.worker soleWorker) = some s' ∧
        s'.log = .hashBegin soleWorker firstPtr 0 :: s.log ∧
        BuiltSince cycle.called.log s soleWorker := by
  let pausing := (replay step anyLabel (init 1 Nat) settledLabels).get rfl
  have hbefore : Run step anyLabel (init 1 Nat) settledLabels pausing :=
    run_of_replay rfl
  let cycle := RebuildCycle.immediate pausing rfl rfl
  have hnoticed : cycle.Noticed :=
    ⟨by decide +kernel, by decide +kernel, by decide +kernel⟩
  let s := (replay step KeepsHasherGen cycle.resumed renewedLabels).get rfl
  have hafter : Run step KeepsHasherGen cycle.resumed renewedLabels s :=
    run_of_replay rfl
  have hany : (step s (.worker soleWorker)).any (fun s' =>
      s'.log = .hashBegin soleWorker firstPtr 0 :: s.log) = true := by
    decide +kernel
  obtain ⟨s', hstep, hbegins⟩ := (Option.any_eq_true _ _).mp hany
  have hlog := of_decide_eq_true hbegins
  exact ⟨cycle, s, s', hbefore, hnoticed, hafter, hstep, hlog,
    hash_uses_rebuilt_hasher cycle hbefore hnoticed hafter hstep hlog⟩

/-- A rebuild during the construction at thread start is missed: the hash after
the cycle uses a hasher whose construction began before it. -/
theorem booting_hash_uses_old_hasher :
    ∃ (cycle : RebuildCycle 1 Nat) (s s' : State 1 Nat),
      Run step anyLabel (init 1 Nat) bootingLabels cycle.pausing ∧
        Run step anyLabel cycle.resumed overtakenLabels s ∧
        step s (.worker soleWorker) = some s' ∧
        s'.log = .hashBegin soleWorker firstPtr 0 :: s.log ∧
        ¬ BuiltSince cycle.called.log s soleWorker := by
  let pausing := (replay step anyLabel (init 1 Nat) bootingLabels).get rfl
  let cycle := RebuildCycle.immediate pausing rfl rfl
  let s := (replay step anyLabel cycle.resumed overtakenLabels).get rfl
  have hany : (step s (.worker soleWorker)).any (fun s' =>
      s'.log = .hashBegin soleWorker firstPtr 0 :: s.log) = true := by
    decide +kernel
  obtain ⟨s', hstep, hbegins⟩ := (Option.any_eq_true _ _).mp hany
  refine ⟨cycle, s, s', run_of_replay rfl, run_of_replay rfl, hstep,
    of_decide_eq_true hbegins, ?_⟩
  -- the only construction in the whole log is older than the call
  rintro ⟨hasher, newer, between, older, -, hlog, -, -, hsuffix⟩
  have htotal : s.log.count (.makeBegin soleWorker) = 1 := by decide +kernel
  have hearlier : cycle.called.log.count (.makeBegin soleWorker) = 1 := by
    decide +kernel
  have hcount := hsuffix.sublist.count_le (.makeBegin soleWorker)
  rw [hlog] at htotal
  simp only [List.count_append, List.count_cons, beq_self_eq_true, ↓reduceIte]
    at htotal
  omega

end MinerPool

end Minerby
