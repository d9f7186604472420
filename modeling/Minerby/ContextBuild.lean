/-
What the RandomX context owns: the cache, and in fast mode the dataset, which
is made from the cache by threads that share its items.  The mining side only
sees which seed the context has and whether it is being re-keyed; here the
memory behind that is followed, from the constructor on.
-/
import Minerby.DatasetInit
import Minerby.ParallelFill
import Minerby.Projection
import Minerby.Rig

namespace Minerby

/-- `randomx_flags`. -/
abbrev RandomXFlags := BitVec 32

namespace RandomXFlags

/-- A bit is set. -/
def has (flags bit : RandomXFlags) : Bool := flags &&& bit != 0

/-- Clear a bit. -/
def without (flags bit : RandomXFlags) : RandomXFlags := flags &&& ~~~bit

theorem has_or {flags other bit : RandomXFlags}
    (hother : other &&& bit = 0#32) :
    (flags ||| other).has bit = flags.has bit := by
  rw [has, has, BitVec.and_or_distrib_right, hother, BitVec.or_zero]

theorem has_without {flags other bit : RandomXFlags}
    (hother : other &&& bit = 0#32) :
    (flags.without other).has bit = flags.has bit := by
  have hkept : ~~~other &&& bit = bit := by
    calc ~~~other &&& bit
        = ~~~other &&& bit ||| (other &&& bit) := by rw [hother, BitVec.or_zero]
      _ = (~~~other ||| other) &&& bit := BitVec.and_or_distrib_right.symm
      _ = bit := by rw [BitVec.not_or_self, BitVec.allOnes_and]
  rw [has, has, without, BitVec.and_assoc, hkept]

theorem without_has (flags bit : RandomXFlags) :
    (flags.without bit).has bit = false := by
  have hnone : ~~~bit &&& bit = 0#32 := BitVec.not_and_self bit
  rw [has, without, BitVec.and_assoc, hnone, BitVec.and_zero]
  rfl

theorem or_has (flags : RandomXFlags) {bit : RandomXFlags}
    (hbit : bit ≠ 0#32) : (flags ||| bit).has bit = true := by
  have hand : (flags ||| bit) &&& bit = bit := by
    rw [BitVec.and_or_distrib_right, BitVec.and_self]
    ext i hi
    simp
  rw [has, hand]
  simpa using hbit

end RandomXFlags

/-- What the RandomX library brings: the flags that the context sets and clears,
and what its calls compute. -/
structure RandomXApi (w : Nat) (Cache Item : Type) where
  largePages : RandomXFlags
  fullMem : RandomXFlags
  secure : RandomXFlags
  initCache : List UInt8 → Cache
  datasetItemCount : BitVec w
  initItem : Cache → Nat → Item
  /-- the hash, from the cache -/
  light : Cache → List UInt8 → Hash256
  /-- the hash, from the dataset -/
  full : (Nat → Option Item) → List UInt8 → Hash256

/-- The flag that chooses the mode is one of its own. -/
structure RandomXApi.OwnFlag {w : Nat} {Cache Item : Type}
    (api : RandomXApi w Cache Item) : Prop where
  fullMem : api.fullMem ≠ 0#32
  largePages : api.largePages &&& api.fullMem = 0#32
  secure : api.secure &&& api.fullMem = 0#32

/-- The two modes of the library give the same hashes. -/
def RandomXApi.ModesAgree {w : Nat} {Cache Item : Type}
    (api : RandomXApi w Cache Item) : Prop :=
  ∀ cache dataset input,
    (∀ item < api.datasetItemCount.toNat,
      dataset item = some (api.initItem cache item)) →
    api.full dataset input = api.light cache input

/-- What the machine answers: the number of its threads, the flags of its
processor, and which allocations succeed. -/
structure RandomXMachine where
  hardwareConcurrency : UInt32
  getFlags : RandomXFlags
  allocCache : RandomXFlags → Bool
  allocDataset : RandomXFlags → Bool
  createVm : RandomXFlags → Bool

/-- `RandomXContext::Options`. -/
structure RandomXOptions where
  fastMode : Bool := false
  initThreads : UInt32 := 0
  largePages : Bool := false
  secureJit : Bool := false
deriving Repr, DecidableEq

/-- Where the caller of `ensure_seed`, who holds the lock, is. -/
inductive SeedPc where
  | idle
  /-- in `randomx_init_cache` -/
  | caching (seed : List UInt8)
  /-- in `build_dataset_parallel` -/
  | building (seed : List UInt8)
deriving Repr, DecidableEq

/-- The context with what it owns.  `hasDataset` says whether there is a
dataset; the cache there always is.  `epoch` counts the re-keyings begun. -/
structure RandomXMemory (Cache Item : Type) where
  flags : RandomXFlags
  fast : Bool
  initThreads : UInt32
  hasDataset : Bool
  cache : Cache
  dataset : Fill Nat Item := {}
  seed : List UInt8 := []
  seeded : Bool := false
  pc : SeedPc := .idle
  epoch : Nat := 0

inductive SeedLabel where
  | ensureSeed (seed : List UInt8)
  /-- `randomx_init_cache` returns -/
  | initCache
  /-- the next thread is created -/
  | emplaceThread
  /-- thread `i` writes its next item -/
  | initItem (i : Nat)
  /-- the last thread has been joined -/
  | joined
deriving Repr, DecidableEq

variable {w : Nat} {Cache Item : Type}

namespace RandomXContext

/-- What the mining side takes `ensure_seed` to do: a context, with the seed it
is being re-keyed for. -/
inductive SeedCall where
  | ensureSeed (seed : List UInt8)
  | keyed
deriving Repr, DecidableEq

def seedStep : RandomXContext × Option (List UInt8) → SeedCall →
    Option (RandomXContext × Option (List UInt8))
  | (ctx, none), .ensureSeed seed =>
      if ctx.has seed then some (ctx, none)
      else some (ctx.beginKeying, some seed)
  | (ctx, some seed), .keyed => some (ctx.endKeying seed, none)
  | _, _ => none

end RandomXContext

namespace RandomXMemory

/-- The flags the constructor asks for. -/
def wantedFlags (api : RandomXApi w Cache Item) (machine : RandomXMachine)
    (opt : RandomXOptions) : RandomXFlags :=
  let flags := machine.getFlags
  let flags := if opt.largePages then flags ||| api.largePages else flags
  let flags := if opt.secureJit then flags ||| api.secure else flags
  if opt.fastMode then flags ||| api.fullMem else flags

/-- The flags with which the cache is allocated, if it is. -/
def cacheFlags (api : RandomXApi w Cache Item) (machine : RandomXMachine)
    (opt : RandomXOptions) : Option RandomXFlags :=
  let flags := wantedFlags api machine opt
  if machine.allocCache flags then some flags
  else if opt.largePages then
    let flags := flags.without api.largePages
    if machine.allocCache flags then some flags else none
  else none

/-- `init_threads_`. -/
def threadsFor (machine : RandomXMachine) (opt : RandomXOptions) : UInt32 :=
  if opt.initThreads ≠ 0 then opt.initThreads
  else max 1 machine.hardwareConcurrency

/-- The constructor; `cache` is what the allocated memory happens to hold. -/
def make (api : RandomXApi w Cache Item) (machine : RandomXMachine)
    (opt : RandomXOptions) (cache : Cache) :
    Except String (RandomXMemory Cache Item) :=
  match cacheFlags api machine opt with
  | none => .error "randomx: failed to allocate the 256 MB cache"
  | some flags =>
      if opt.fastMode then
        if machine.allocDataset flags then
          .ok { flags := flags, fast := true, hasDataset := true, cache := cache
                initThreads := threadsFor machine opt }
        else
          .ok { flags := flags.without api.fullMem, fast := false
                hasDataset := false, cache := cache
                initThreads := threadsFor machine opt }
      else
        .ok { flags := flags, fast := false, hasDataset := false, cache := cache
              initThreads := threadsFor machine opt }

/-- What the mining side knows of the context. -/
def context (mem : RandomXMemory Cache Item) : RandomXContext where
  seed := mem.seed
  seeded := mem.seeded
  epoch := mem.epoch
  keying := decide (mem.pc ≠ .idle)

/-- The context as the mining side sees it, with the seed of the call that is
in progress. -/
def view (mem : RandomXMemory Cache Item) :
    RandomXContext × Option (List UInt8) :=
  (mem.context, match mem.pc with
    | .idle => none
    | .caching seed => some seed
    | .building seed => some seed)

/-- The end of `ensure_seed`. -/
def finish (mem : RandomXMemory Cache Item) (seed : List UInt8) :
    RandomXMemory Cache Item :=
  { mem with seed := seed, seeded := true, pc := .idle }

/-- What the threads of `build_dataset_parallel` are given. -/
def parts (api : RandomXApi w Cache Item) (mem : RandomXMemory Cache Item) :
    List (List Nat) :=
  (RandomXContext.buildDatasetParallel api.datasetItemCount
    mem.initThreads).map ItemRange.items

def step (api : RandomXApi w Cache Item) (mem : RandomXMemory Cache Item) :
    SeedLabel → Option (RandomXMemory Cache Item)
  | .ensureSeed seed =>
      match mem.pc with
      | .idle =>
          if mem.seeded ∧ seed = mem.seed then some mem
          else some { mem with pc := .caching seed, epoch := mem.epoch + 1 }
      | _ => none
  | .initCache =>
      match mem.pc with
      | .caching seed =>
          let mem := { mem with cache := api.initCache seed }
          if mem.fast then
            some { mem with
              pc := .building seed
              dataset :=
                { mem.dataset with toStart := mem.parts api, running := [] } }
          else some (mem.finish seed)
      | _ => none
  | .emplaceThread =>
      match mem.pc with
      | .building _ => mem.dataset.start.map fun dataset =>
          { mem with dataset := dataset }
      | _ => none
  | .initItem i =>
      match mem.pc with
      | .building _ => (mem.dataset.write (api.initItem mem.cache) i).map
          fun dataset => { mem with dataset := dataset }
      | _ => none
  | .joined =>
      match mem.pc with
      | .building seed =>
          if mem.dataset.joined then some (mem.finish seed) else none
      | _ => none

end RandomXMemory

/-- A virtual machine: its flags, and whether it was given a cache and a
dataset. -/
structure RandomXVm where
  flags : RandomXFlags
  cache : Bool
  dataset : Bool
deriving Repr, DecidableEq

namespace RandomXHasher

/-- The constructor. -/
def make (machine : RandomXMachine) (ctx : RandomXMemory Cache Item) :
    Except String RandomXVm :=
  if ctx.seeded = false then
    .error "randomx: context must be seeded before creating a VM"
  else if machine.createVm ctx.flags then
    .ok ⟨ctx.flags, !ctx.fast, ctx.fast && ctx.hasDataset⟩
  else
    .error ("randomx: randomx_create_vm failed " ++
      "(unsupported flags or allocation)")

/-- `hash`, with the memory of the context as it is.  The flags say whether the
cache or the dataset is read; there is no result where that is missing. -/
def hash (api : RandomXApi w Cache Item) (vm : RandomXVm)
    (ctx : RandomXMemory Cache Item) (input : List UInt8) : Option Hash256 :=
  if vm.flags.has api.fullMem then
    if vm.dataset then some (api.full ctx.dataset.table input) else none
  else if vm.cache then some (api.light ctx.cache input)
  else none

end RandomXHasher

namespace RandomXMemory

/-- The flags, the mode and the dataset fit together: it is the fast mode that
has a dataset, and its machines that read it. -/
structure Fits (api : RandomXApi w Cache Item)
    (mem : RandomXMemory Cache Item) : Prop where
  dataset : mem.hasDataset = mem.fast
  fullMem : mem.flags.has api.fullMem = mem.fast

theorem wantedFlags_fullMem {api : RandomXApi w Cache Item}
    {machine : RandomXMachine} (hown : api.OwnFlag) (opt : RandomXOptions)
    (hmachine : machine.getFlags.has api.fullMem = false) :
    (wantedFlags api machine opt).has api.fullMem = opt.fastMode := by
  obtain ⟨fastMode, initThreads, largePages, secureJit⟩ := opt
  cases fastMode with
  | true => exact RandomXFlags.or_has _ hown.fullMem
  | false =>
      cases largePages <;> cases secureJit <;>
        simp [wantedFlags, RandomXFlags.has_or hown.largePages,
          RandomXFlags.has_or hown.secure, hmachine]

theorem cacheFlags_fullMem {api : RandomXApi w Cache Item}
    {machine : RandomXMachine} {opt : RandomXOptions} {flags : RandomXFlags}
    (hown : api.OwnFlag) (hmachine : machine.getFlags.has api.fullMem = false)
    (hflags : cacheFlags api machine opt = some flags) :
    flags.has api.fullMem = opt.fastMode := by
  have hwanted := wantedFlags_fullMem hown opt hmachine
  simp only [cacheFlags] at hflags
  split at hflags
  · obtain rfl := Option.some.inj hflags
    exact hwanted
  · split at hflags
    · split at hflags
      · obtain rfl := Option.some.inj hflags
        rw [RandomXFlags.has_without hown.largePages, hwanted]
      · cases hflags
    · cases hflags

/-- However the allocations go, what the constructor makes fits. -/
theorem make_fits {api : RandomXApi w Cache Item} {machine : RandomXMachine}
    {opt : RandomXOptions} {cache : Cache} {mem : RandomXMemory Cache Item}
    (hown : api.OwnFlag) (hmachine : machine.getFlags.has api.fullMem = false)
    (hmake : make api machine opt cache = .ok mem) : Fits api mem := by
  unfold make at hmake
  split at hmake
  · cases hmake
  · rename_i flags hflags
    have hfull := cacheFlags_fullMem hown hmachine hflags
    split at hmake
    · rename_i hfast
      split at hmake
      · obtain rfl := Except.ok.inj hmake
        exact ⟨rfl, hfull.trans hfast⟩
      · obtain rfl := Except.ok.inj hmake
        exact ⟨rfl, RandomXFlags.without_has flags api.fullMem⟩
    · rename_i hslow
      obtain rfl := Except.ok.inj hmake
      exact ⟨rfl, hfull.trans (Bool.eq_false_iff.mpr hslow)⟩

/-- Everything a step can do. -/
inductive SeedTurn (api : RandomXApi w Cache Item)
    (mem : RandomXMemory Cache Item) : RandomXMemory Cache Item → Prop
  | same (seed : List UInt8) (idle : mem.pc = .idle)
      (has : mem.context.has seed = true) : SeedTurn api mem mem
  | begin {seed : List UInt8} (idle : mem.pc = .idle)
      (changed : mem.context.has seed = false) :
      SeedTurn api mem { mem with pc := .caching seed, epoch := mem.epoch + 1 }
  | light {seed : List UInt8} (pc : mem.pc = .caching seed)
      (slow : mem.fast = false) :
      SeedTurn api mem ({ mem with cache := api.initCache seed }.finish seed)
  | cached {seed : List UInt8} (pc : mem.pc = .caching seed)
      (fast : mem.fast = true) :
      SeedTurn api mem { mem with
        cache := api.initCache seed
        pc := .building seed
        dataset :=
          { mem.dataset with toStart := mem.parts api, running := [] } }
  | started {seed : List UInt8} {dataset : Fill Nat Item}
      (pc : mem.pc = .building seed)
      (start : mem.dataset.start = some dataset) :
      SeedTurn api mem { mem with dataset := dataset }
  | wrote {seed : List UInt8} {i : Nat} {dataset : Fill Nat Item}
      (pc : mem.pc = .building seed)
      (write : mem.dataset.write (api.initItem mem.cache) i = some dataset) :
      SeedTurn api mem { mem with dataset := dataset }
  | joined {seed : List UInt8} (pc : mem.pc = .building seed)
      (done : mem.dataset.joined = true) : SeedTurn api mem (mem.finish seed)

theorem step_turn {api : RandomXApi w Cache Item}
    {mem mem' : RandomXMemory Cache Item} {label : SeedLabel}
    (hstep : step api mem label = some mem') : SeedTurn api mem mem' := by
  cases label with
  | ensureSeed seed =>
      cases hpc : mem.pc with
      | idle =>
          simp only [step, hpc] at hstep
          split at hstep
          · rename_i hsame
            obtain rfl := Option.some.inj hstep
            exact .same seed hpc (by simp [context, RandomXContext.has, hsame])
          · rename_i hchanged
            obtain rfl := Option.some.inj hstep
            have hhas : mem.context.has seed = false := by
              simpa [context, RandomXContext.has] using hchanged
            exact .begin hpc hhas
      | caching other => simp [step, hpc] at hstep
      | building other => simp [step, hpc] at hstep
  | initCache =>
      cases hpc : mem.pc with
      | idle => simp [step, hpc] at hstep
      | caching seed =>
          simp only [step, hpc] at hstep
          split at hstep
          · rename_i hfast
            obtain rfl := Option.some.inj hstep
            exact .cached hpc hfast
          · rename_i hslow
            obtain rfl := Option.some.inj hstep
            exact .light hpc (Bool.eq_false_iff.mpr hslow)
      | building seed => simp [step, hpc] at hstep
  | emplaceThread =>
      cases hpc : mem.pc with
      | idle => simp [step, hpc] at hstep
      | caching seed => simp [step, hpc] at hstep
      | building seed =>
          simp only [step, hpc] at hstep
          obtain ⟨dataset, hstart, rfl⟩ := Option.map_eq_some_iff.mp hstep
          rw [← hpc]
          exact .started hpc hstart
  | initItem i =>
      cases hpc : mem.pc with
      | idle => simp [step, hpc] at hstep
      | caching seed => simp [step, hpc] at hstep
      | building seed =>
          simp only [step, hpc] at hstep
          obtain ⟨dataset, hwrite, rfl⟩ := Option.map_eq_some_iff.mp hstep
          rw [← hpc]
          exact .wrote hpc hwrite
  | joined =>
      cases hpc : mem.pc with
      | idle => simp [step, hpc] at hstep
      | caching seed => simp [step, hpc] at hstep
      | building seed =>
          simp only [step, hpc] at hstep
          split at hstep
          · rename_i hdone
            obtain rfl := Option.some.inj hstep
            exact .joined hpc hdone
          · cases hstep

/-- Every item of the dataset is that of the cache. -/
def Complete (api : RandomXApi w Cache Item) (mem : RandomXMemory Cache Item) :
    Prop :=
  ∀ item < api.datasetItemCount.toNat,
    mem.dataset.table item = some (api.initItem mem.cache item)

/-- Between two calls of `ensure_seed` the memory is that of the seed; while
the dataset is built its threads have distinct items, all within it.  Outside
it nothing is ever written. -/
structure Keyed (api : RandomXApi w Cache Item)
    (mem : RandomXMemory Cache Item) : Prop where
  fits : Fits api mem
  cache : mem.pc = .idle → mem.seeded = true →
    mem.cache = api.initCache mem.seed
  complete : mem.pc = .idle → mem.seeded = true → mem.fast = true →
    Complete api mem
  building : ∀ seed, mem.pc = .building seed →
    mem.cache = api.initCache seed ∧
      Fill.Filling (api.initItem mem.cache)
        (List.range api.datasetItemCount.toNat) (fun _ => none) mem.dataset
  outside : ∀ item, api.datasetItemCount.toNat ≤ item →
    mem.dataset.table item = none

/-- The threads' parts are the items of the dataset. -/
theorem flatten_parts (api : RandomXApi w Cache Item) (hw : 32 ≤ w)
    (mem : RandomXMemory Cache Item) :
    (mem.parts api).flatten = List.range api.datasetItemCount.toNat := by
  rw [parts, ← List.flatMap_def]
  exact RandomXContext.items_buildDatasetParallel hw _ _

variable {api : RandomXApi w Cache Item} {mem mem' : RandomXMemory Cache Item}

/-- While the dataset is built. -/
theorem Keyed.dataset {seed : List UInt8} {dataset : Fill Nat Item}
    (hkeyed : Keyed api mem) (hpc : mem.pc = .building seed)
    (hfilling : Fill.Filling (api.initItem mem.cache)
      (List.range api.datasetItemCount.toNat) (fun _ => none) dataset) :
    Keyed api { mem with dataset := dataset } where
  fits := ⟨hkeyed.fits.dataset, hkeyed.fits.fullMem⟩
  cache hidle := by
    rw [show mem.pc = .idle from hidle] at hpc
    cases hpc
  complete hidle := by
    rw [show mem.pc = .idle from hidle] at hpc
    cases hpc
  building other hother := ⟨(hkeyed.building other hother).1, hfilling⟩
  outside item hitem := by
    apply hfilling.frame item
    rw [List.mem_range]
    exact Nat.not_lt.mpr hitem

theorem Keyed.turn (hw : 32 ≤ w) (hkeyed : Keyed api mem)
    (hturn : SeedTurn api mem mem') : Keyed api mem' := by
  cases hturn with
  | same seed idle has => exact hkeyed
  | begin idle changed =>
      exact ⟨⟨hkeyed.fits.dataset, hkeyed.fits.fullMem⟩, by rintro ⟨⟩,
        by rintro ⟨⟩, by rintro _ ⟨⟩, hkeyed.outside⟩
  | light pc slow =>
      refine ⟨⟨hkeyed.fits.dataset, hkeyed.fits.fullMem⟩, fun _ _ => rfl, ?_,
        by rintro _ ⟨⟩, hkeyed.outside⟩
      intro _ _ hfast
      exact absurd (slow.symm.trans hfast) Bool.false_ne_true
  | @cached seed pc fast =>
      have hfilling : Fill.Filling (api.initItem (api.initCache seed))
          (List.range api.datasetItemCount.toNat) (fun _ => none)
          { mem.dataset with toStart := mem.parts api, running := [] } := by
        apply Fill.Filling.begin (flatten_parts api hw mem) List.nodup_range
        intro item hitem
        exact hkeyed.outside item
          (Nat.not_lt.mp (mt List.mem_range.mpr hitem))
      refine ⟨⟨hkeyed.fits.dataset, hkeyed.fits.fullMem⟩, by rintro ⟨⟩,
        by rintro ⟨⟩, ?_, hkeyed.outside⟩
      rintro other hother
      obtain rfl := SeedPc.building.inj hother
      exact ⟨rfl, hfilling⟩
  | started pc start =>
      exact hkeyed.dataset pc ((hkeyed.building _ pc).2.start start)
  | wrote pc write =>
      exact hkeyed.dataset pc ((hkeyed.building _ pc).2.write write)
  | joined pc done =>
      obtain ⟨hcache, hfilling⟩ := hkeyed.building _ pc
      refine ⟨⟨hkeyed.fits.dataset, hkeyed.fits.fullMem⟩, fun _ _ => hcache, ?_,
        by rintro _ ⟨⟩, hkeyed.outside⟩
      intro _ _ _ item hitem
      exact hfilling.complete done item (List.mem_range.mpr hitem)

theorem make_keyed {api : RandomXApi w Cache Item} {machine : RandomXMachine}
    {opt : RandomXOptions} {cache : Cache} (hown : api.OwnFlag)
    (hmachine : machine.getFlags.has api.fullMem = false)
    (hmake : make api machine opt cache = .ok mem) :
    Keyed api mem ∧ mem.context = {} := by
  have hfits := make_fits hown hmachine hmake
  unfold make at hmake
  split at hmake
  · cases hmake
  · split at hmake
    · split at hmake
      · obtain rfl := Except.ok.inj hmake
        exact ⟨⟨hfits, by rintro _ ⟨⟩, by rintro _ ⟨⟩, by rintro _ ⟨⟩,
          fun _ _ => rfl⟩, rfl⟩
      · obtain rfl := Except.ok.inj hmake
        exact ⟨⟨hfits, by rintro _ ⟨⟩, by rintro _ ⟨⟩, by rintro _ ⟨⟩,
          fun _ _ => rfl⟩, rfl⟩
    · obtain rfl := Except.ok.inj hmake
      exact ⟨⟨hfits, by rintro _ ⟨⟩, by rintro _ ⟨⟩, by rintro _ ⟨⟩,
        fun _ _ => rfl⟩, rfl⟩

/-- A step of the memory is a step of what the mining side sees, or none. -/
theorem turn_stutters (hturn : SeedTurn api mem mem') :
    Stutters RandomXContext.seedStep anyLabel mem.view mem'.view := by
  cases hturn with
  | same seed idle has => exact .inl rfl
  | @begin seed idle changed =>
      refine .inr ⟨.ensureSeed seed, trivial, ?_⟩
      simp only [view, idle, RandomXContext.seedStep, changed]
      simp [context, RandomXContext.beginKeying]
  | light pc slow =>
      refine .inr ⟨.keyed, trivial, ?_⟩
      simp [view, pc, RandomXContext.seedStep, finish, context,
        RandomXContext.endKeying]
  | cached pc fast =>
      apply Or.inl
      simp [view, context, pc]
  | started pc start => exact .inl rfl
  | wrote pc write => exact .inl rfl
  | joined pc done =>
      refine .inr ⟨.keyed, trivial, ?_⟩
      simp [view, pc, RandomXContext.seedStep, finish, context,
        RandomXContext.endKeying]

/-- Unless a re-keying has begun, the memory is as it was. -/
theorem unchanged_or_rekeyed {labels : List SeedLabel}
    (hrun : Run (step api) anyLabel mem labels mem') (hidle : mem.pc = .idle) :
    mem' = mem ∨ mem.epoch < mem'.epoch := by
  induction hrun with
  | nil => exact .inl rfl
  | snoc label run allowed taken ih =>
      rcases ih with hsame | hlater
      · subst hsame
        cases step_turn taken with
        | same seed idle has => exact .inl rfl
        | begin idle changed => exact .inr (Nat.lt_succ_self _)
        | light pc slow => simp [hidle] at pc
        | cached pc fast => simp [hidle] at pc
        | started pc start => simp [hidle] at pc
        | wrote pc write => simp [hidle] at pc
        | joined pc done => simp [hidle] at pc
      · apply Or.inr
        cases step_turn taken with
        | same seed idle has => exact hlater
        | begin idle changed => exact hlater.trans (Nat.lt_succ_self _)
        | light pc slow => exact hlater
        | cached pc fast => exact hlater
        | started pc start => exact hlater
        | wrote pc write => exact hlater
        | joined pc done => exact hlater

/-- What a machine made between two calls of `ensure_seed` computes. -/
theorem Keyed.hash {machine : RandomXMachine} {vm : RandomXVm}
    (hkeyed : Keyed api mem) (hagree : api.ModesAgree)
    (hidle : mem.pc = .idle) (hmake : RandomXHasher.make machine mem = .ok vm)
    (input : List UInt8) :
    RandomXHasher.hash api vm mem input =
      some (api.light (api.initCache mem.seed) input) := by
  unfold RandomXHasher.make at hmake
  split at hmake
  · cases hmake
  · rename_i hunseeded
    have hseeded : mem.seeded = true := by simpa using hunseeded
    have hcache := hkeyed.cache hidle hseeded
    split at hmake
    · obtain rfl := Except.ok.inj hmake
      unfold RandomXHasher.hash
      simp only [hkeyed.fits.fullMem, hkeyed.fits.dataset]
      cases hfast : mem.fast with
      | true =>
          have hcomplete := hkeyed.complete hidle hseeded hfast
          have hfull := hagree mem.cache mem.dataset.table input hcomplete
          simp [hfull, hcache]
      | false => simp [hcache]
    · cases hmake

/-- However the context is constructed, and in every order in which the threads
that build the dataset run: the mining side sees the context go through its own
steps; nothing is written outside the dataset; and a machine made between two
calls of `ensure_seed` computes, until the next re-keying begins, the hash of
the context's seed, whether it reads the cache or the dataset. -/
theorem machines_compute_seed (hw : 32 ≤ w) (hagree : api.ModesAgree)
    (hown : api.OwnFlag) {machine : RandomXMachine}
    (hmachine : machine.getFlags.has api.fullMem = false)
    {opt : RandomXOptions} {cache : Cache}
    {made mid last : RandomXMemory Cache Item}
    (hmake : make api machine opt cache = .ok made)
    {labels labels' : List SeedLabel}
    (hrun : Run (step api) anyLabel made labels mid)
    (hlater : Run (step api) anyLabel mid labels' last) :
    (∃ calls, Run RandomXContext.seedStep anyLabel ({}, none) calls mid.view) ∧
      (∀ item, api.datasetItemCount.toNat ≤ item →
        mid.dataset.table item = none) ∧
      ∀ vm, RandomXHasher.make machine mid = .ok vm → mid.pc = .idle →
        last.epoch = mid.epoch → ∀ input,
          RandomXHasher.hash api vm last input =
            some (api.light (api.initCache last.seed) input) := by
  obtain ⟨hmade, hcontext⟩ := make_keyed hown hmachine hmake
  have hidle : made.pc = .idle := by
    have hkeying := congrArg RandomXContext.keying hcontext
    simpa [context] using hkeying
  have hproject := hrun.project view (Keyed api) hmade
    fun mem label next hkeyed _ htaken =>
      ⟨hkeyed.turn hw (step_turn htaken), turn_stutters (step_turn htaken)⟩
  obtain ⟨hkeyed, calls, hcalls⟩ := hproject
  refine ⟨⟨calls, ?_⟩, hkeyed.outside, ?_⟩
  · have hview : made.view = ({}, none) := by simp [view, hcontext, hidle]
    rwa [hview] at hcalls
  · intro vm hvm hmid hepoch input
    rcases unchanged_or_rekeyed hlater hmid with hsame | hrekeyed
    · rw [hsame]
      exact hkeyed.hash hagree hmid hvm input
    · omega

/-- A library whose items hold the cache they come from. -/
def sampleApi : RandomXApi 64 (List UInt8) (List UInt8 × Nat) where
  largePages := 1
  fullMem := 4
  secure := 16
  initCache seed := seed
  datasetItemCount := 5
  initItem cache item := (cache, item)
  light cache input := Hash256.ofDigest (sha256d (cache ++ input))
  full dataset input :=
    match dataset 0 with
    | some (cache, _) => Hash256.ofDigest (sha256d (cache ++ input))
    | none => Hash256.fill 0

/-- A machine with two threads and no large pages. -/
def sampleMachine : RandomXMachine where
  hardwareConcurrency := 2
  getFlags := 0
  allocCache flags := !flags.has sampleApi.largePages
  allocDataset _ := true
  createVm _ := true

/-- The dataset is built by two threads, the first of which begins before the
second has been created. -/
def buildLabels : List SeedLabel :=
  [.ensureSeed [1], .initCache, .emplaceThread, .initItem 0, .emplaceThread,
    .initItem 1, .initItem 1, .initItem 0, .initItem 1, .joined]

/-- In fast mode, without the large pages asked for: the machine computes the
hash of the seed from the dataset. -/
theorem fast_machine_computes_seed :
    ∃ mem : RandomXMemory (List UInt8) (List UInt8 × Nat), mem.fast = true ∧
      ∀ input, RandomXHasher.hash sampleApi ⟨sampleApi.fullMem, false, true⟩
          mem input =
        some (Hash256.ofDigest (sha256d (mem.seed ++ input))) := by
  have hagree : sampleApi.ModesAgree := by
    intro cache dataset input hitems
    have hfirst := hitems 0 (by decide)
    simp [sampleApi] at hfirst ⊢
    simp [hfirst]
  obtain ⟨made, hmade⟩ : ∃ made : RandomXMemory (List UInt8) (List UInt8 × Nat),
      make sampleApi sampleMachine { fastMode := true, largePages := true }
        [] = .ok made := ⟨_, rfl⟩
  have hreplay : (replay (step sampleApi) anyLabel made buildLabels).any
      (fun mem => mem.fast = true ∧ mem.pc = .idle ∧
        (RandomXHasher.make sampleMachine mem).toOption =
          some ⟨sampleApi.fullMem, false, true⟩) = true := by
    obtain rfl := Except.ok.inj hmade
    decide +kernel
  obtain ⟨mem, hmem, hfacts⟩ := (Option.any_eq_true _ _).mp hreplay
  obtain ⟨hfast, hidle, hvm⟩ := of_decide_eq_true hfacts
  have hok : RandomXHasher.make sampleMachine mem =
      .ok ⟨sampleApi.fullMem, false, true⟩ := by
    cases hmake : RandomXHasher.make sampleMachine mem with
    | ok vm =>
        rw [hmake] at hvm
        exact congrArg Except.ok (Option.some.inj hvm)
    | error what =>
        rw [hmake] at hvm
        cases hvm
  have hown : sampleApi.OwnFlag := ⟨by decide, by decide, by decide⟩
  have hall := machines_compute_seed (by decide) hagree hown (by decide) hmade
    (run_of_replay hmem) Run.nil
  exact ⟨mem, hfast, hall.2.2 _ hok hidle rfl⟩

end RandomXMemory

namespace Rig

variable {threads : UInt32} {setup : Setup} {rig rig' : Rig threads}

/-- The context of the mining side, with the seed it is being re-keyed for. -/
def seedView (rig : Rig threads) : RandomXContext × Option (List UInt8) :=
  (rig.ctx, match rig.pc with
    | .keying _ _ seed => some seed
    | _ => none)

/-- A step outside `ensure_seed` leaves it alone. -/
theorem seedView_stutters (hctx : rig'.ctx = rig.ctx)
    (hpc : ∀ wasRunning job seed, rig.pc ≠ .keying wasRunning job seed)
    (hpc' : ∀ wasRunning job seed, rig'.pc ≠ .keying wasRunning job seed) :
    Stutters RandomXContext.seedStep anyLabel rig.seedView rig'.seedView := by
  apply Or.inl
  unfold seedView
  rw [hctx]
  congr 1
  cases h : rig.pc with
  | keying wasRunning job seed => exact absurd h (hpc wasRunning job seed)
  | _ =>
      cases h' : rig'.pc with
      | keying wasRunning job seed => exact absurd h' (hpc' wasRunning job seed)
      | _ => rfl

theorem keyed_seedView (rig : Rig threads) (wasRunning : Bool)
    (job : MiningJob) (seed : List UInt8) :
    (rig.keyed wasRunning job seed).seedView = (rig.ctx, none) := by
  cases wasRunning <;> rfl

theorem mainTurn_stutters (hturn : MainTurn rig rig') :
    Stutters RandomXContext.seedStep anyLabel rig.seedView rig'.seedView := by
  cases hturn with
  | ctl busy step => exact .inl rfl
  | wasRunning idle pc running =>
      exact seedView_stutters rfl (by simp [pc]) (by simp)
  | wasStopped idle pc running =>
      exact seedView_stutters rfl (by simp [pc]) (by simp)
  | pause pc called => exact seedView_stutters rfl (by simp [pc]) (by simp)
  | @sameSeed wasRunning job seed idle pc same =>
      apply Or.inl
      rw [keyed_seedView]
      simp [seedView, pc]
  | @beginKeying wasRunning job seed idle pc changed =>
      refine .inr ⟨.ensureSeed seed, trivial, ?_⟩
      simp [seedView, pc, RandomXContext.seedStep, changed]
  | @endKeying wasRunning job seed idle pc =>
      refine .inr ⟨.keyed, trivial, ?_⟩
      rw [keyed_seedView]
      simp [seedView, pc, RandomXContext.seedStep]
  | rebuild pc called => exact seedView_stutters rfl (by simp [pc]) (by simp)
  | resume pc called => exact seedView_stutters rfl (by simp [pc]) (by simp)
  | running idle pc running =>
      exact seedView_stutters rfl (by simp [pc]) (by simp)
  | stopped idle pc running =>
      exact seedView_stutters rfl (by simp [pc]) (by simp)
  | start pc called => exact seedView_stutters rfl (by simp [pc]) (by simp)
  | setWork pc called => exact seedView_stutters rfl (by simp [pc]) (by simp)
  | installed idle pc => exact seedView_stutters rfl (by simp [pc]) (by simp)

theorem turned_seedView {i : Fin threads.toNat}
    {label : MinerPool.Label threads Hasher}
    (hturned : Turned setup rig rig' i label) :
    rig'.seedView = rig.seedView := by
  rw [seedView, seedView, hturned.ctx, hturned.pc]

theorem step_stutters {label : RigLabel threads}
    (hstep : rig.step setup label = some rig') :
    Stutters RandomXContext.seedStep anyLabel rig.seedView rig'.seedView := by
  cases step_stepped hstep with
  | onJob idle pc =>
      refine seedView_stutters rfl (by simp [pc]) ?_
      intro wasRunning job seed
      simp only
      split <;> simp
  | clearWork pc called => exact seedView_stutters rfl (by simp [pc]) (by simp)
  | stop pc called => exact seedView_stutters rfl (by simp [pc]) (by simp)
  | main turn => exact mainTurn_stutters turn
  | worker turned => exact .inl (turned_seedView turned)
  | made turned => exact .inl (turned_seedView turned)
  | hashed turned => exact .inl (turned_seedView turned)

/-- The mining side takes the context through the same steps as the memory
does. -/
theorem context_run {labels : List (RigLabel threads)}
    (hrun : Run (Rig.step setup) anyLabel {} labels rig) :
    ∃ calls, Run RandomXContext.seedStep anyLabel ({}, none) calls
      rig.seedView := by
  have hproject := hrun.project seedView (fun _ => True) trivial
    fun rig label next _ _ htaken => ⟨trivial, step_stutters htaken⟩
  exact hproject.2

/-- A machine made between two calls of `ensure_seed` computes what the mining
side takes it to compute. -/
theorem computes_of_machine {api : RandomXApi w Cache Item}
    {mid last : RandomXMemory Cache Item}
    (hrandomx : setup.randomx = fun seed => api.light (api.initCache seed))
    (hkeyed : RandomXMemory.Keyed api mid) (hagree : api.ModesAgree)
    (hidle : mid.pc = .idle) {machine : RandomXMachine} {vm : RandomXVm}
    (hvm : RandomXHasher.make machine mid = .ok vm) {labels : List SeedLabel}
    (hlater : Run (RandomXMemory.step api) anyLabel mid labels last)
    (hctx : rig.ctx = last.context) {input : List UInt8} {digest : Hash256}
    (hhash : RandomXHasher.hash api vm last input = some digest) :
    Computes setup rig (.randomx (some mid.epoch)) input digest := by
  intro hepoch
  rcases RandomXMemory.unchanged_or_rekeyed hlater hidle with hsame | hrekeyed
  · subst hsame
    rw [hkeyed.hash hagree hidle hvm input] at hhash
    rw [← Option.some.inj hhash, hrandomx, hctx]
    rfl
  · rw [hctx] at hepoch
    exact absurd (Option.some.inj hepoch) hrekeyed.ne

end Rig

end Minerby
