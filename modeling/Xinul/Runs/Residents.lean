import Xinul.Lib.Run
import Xinul.Runs.Housing

/-!
# The processes in memory along a run

Every process has a memory of its own, behind whatever the kernel does with its frames;
and the kernel gets back what it gave.
-/

namespace Xinul

open Bytes Prog Machine

variable {R : Ram} {board : Board} {space : Ptr → Space} {lost free fs : List Nat} {s t : Residents} {p q : Ptr} {f : Nat}
  {mem : Memory}

/-! ## The views -/

/-- The memory of a process as its program sees it. -/
abbrev View := Nat → Option UInt8

/-- What the program of a process sees, if it lives. -/
def Residents.view (s : Residents) (p : Ptr) : Option View :=
  if p ∈ s.live then (s.memory.procs p).map fun m => userLoad s.memory.pool.mem m.pageTableLevel2 else none

/-- The bytes of its pages. -/
def Space.bytes (x : Space) (mem : Memory) : View := fun a => (x.frameAt a).map fun f => mem (f + a % frameSize)

theorem Residents.view_dead (hp : p ∉ s.live) : s.view p = none := if_neg hp

theorem Housed.view (h : Housed R board space lost free s) (hp : p ∈ s.live) :
    s.view p = some ((space p).bytes s.memory.pool.mem) := by
  unfold Residents.view
  rw [if_pos hp, h.record p hp, Option.map_some]
  congr 1
  funext a
  exact (h.mapped p hp).userLoad h.kernel (h.mem_frames hp)

/-- The bytes of a process that was not written to. -/
theorem Space.bytes_kept {x : Space} {mem mem' : Memory} (hmem : OnlyFrames fs mem mem')
    (hfs : ∀ f ∈ fs, ∀ g ∈ x.pages, ApartFrames g f) : x.bytes mem' = x.bytes mem := by
  funext a
  unfold bytes
  cases hf : x.frameAt a with
  | none => rfl
  | some g =>
    rw [Option.map_some, Option.map_some,
      hmem.byte (fun f hf' => hfs f hf' g (Space.frameAt_mem hf)) (Nat.mod_lt a (by decide))]

/-- One byte of a page of the program changes one address. -/
theorem Space.bytes_update {x : Space} {a : Nat} (hnd : x.pages.Nodup) (happart : ∀ f ∈ x.pages, ∀ g ∈ x.pages, f ≠ g → ApartFrames f g)
    (hf : x.frameAt a = some f) (byte : UInt8) :
    x.bytes (Function.update mem (f + a % frameSize) byte) = Function.update (x.bytes mem) a (some byte) := by
  funext a'
  have hlt := Nat.mod_lt a (show 0 < frameSize by decide)
  have hlt' := Nat.mod_lt a' (show 0 < frameSize by decide)
  by_cases he : a' = a
  · subst he
    rw [Function.update_self, bytes, hf, Option.map_some, Function.update_self]
  rw [Function.update_of_ne he, bytes, bytes]
  cases hf' : x.frameAt a' with
  | none => rfl
  | some f' =>
    rw [Option.map_some, Option.map_some, Function.update_of_ne]
    intro hsame
    by_cases hne : f' = f
    · subst hne
      exact he (x.frameAt_inj hnd hf' hf (by omega))
    · have := happart f' (Space.frameAt_mem hf') f (Space.frameAt_mem hf) hne
      unfold ApartFrames at this
      omega

/-! ## What the memory is for -/

/-- The pages of a process with `n` pages of code and stack. -/
def InPages (n a : Nat) : Prop :=
  userStart ≤ a ∧ a < userStart + frameSize * n ∨ heapStart ≤ a ∧ a < heapStart + frameSize

/-- What the memory is for: every process has a memory of its own, which exists as long as
the process does, and which only its own stores change. -/
inductive ViewStep (R : Ram) : (Ptr → Option View) → MemoryEvent R → (Ptr → Option View) → Prop where
  | start {v : Ptr → Option View} {p : Ptr} {app : App R.toRegion} {size : Nat} {env : NodesEnv} {contextOk : Bool} {w : View}
      (fresh : v p = none) (pages : ∀ a, w a ≠ none ↔ InPages (pagesOf app.codeSize + pagesOf size) a) :
      ViewStep R v (.start p app size env contextOk) (Function.update v p (some w))
  | refuse {v : Ptr → Option View} {p : Ptr} {app : App R.toRegion} {size : Nat} {env : NodesEnv} {contextOk : Bool}
      (fresh : v p = none) : ViewStep R v (.start p app size env contextOk) v
  | free {v : Ptr → Option View} {p : Ptr} {user : Strings} {env : Nat → ReleaseEnv} (live : v p ≠ none) :
      ViewStep R v (.free p user env) (Function.update v p none)
  | store {v : Ptr → Option View} {p : Ptr} {w : View} {address : Nat} {byte : UInt8} (live : v p = some w)
      (mapped : w address ≠ none) :
      ViewStep R v (.store p address byte) (Function.update v p (some (Function.update w address (some byte))))
  | trap {v : Ptr → Option View} {p : Ptr} {mem : Memory} (live : v p ≠ none) : ViewStep R v (.trap p mem) v

/-- The view of a process that is there before as after, when what was written is not its own. -/
theorem Housed.view_kept {space' : Ptr → Space} {lost' free' : List Nat} (h : Housed R board space lost free s)
    (h' : Housed R board space' lost' free' t) (hlive : q ∈ t.live ↔ q ∈ s.live) (hspace : space' q = space q)
    (hmem : OnlyFrames fs s.memory.pool.mem t.memory.pool.mem) (hfs : q ∈ s.live → ∀ f ∈ fs, f ∈ free ∨
      f ∈ s.memory.kernelBasePageTable :: (lost ++ housing space s.live) ∧ f ∉ (space q).pages) : t.view q = s.view q := by
  by_cases hq : q ∈ s.live
  · rw [h'.view (hlive.2 hq), h.view hq, hspace]
    congr 1
    refine Space.bytes_kept hmem fun f hf g hg => ?_
    have hheld : g ∈ s.memory.kernelBasePageTable :: (lost ++ housing space s.live) :=
      housing_held hq (by simp [Space.frames, hg])
    obtain hfree | ⟨hf, hne⟩ := hfs hq f hf
    · exact (h.pool.apart hfree hheld).symm
    · refine h.pool.apart_held hheld hf ?_
      rintro rfl
      exact hne hg
  · rw [Residents.view_dead hq, Residents.view_dead fun ht => hq (hlive.1 ht)]

/-! ## One step -/

/-- Where a program has bytes. -/
theorem Space.Mapped.bytes_defined {x : Space} {base a : Nat} (h : x.Mapped base mem) :
    x.bytes mem a ≠ none ↔ InPages x.fs.length a := by
  have h1 := h.fits.enough
  have h2 := h.room
  unfold ptSize stackFrameSize at *
  have hdefined : x.bytes mem a ≠ none ↔ x.frameAt a ≠ none := by
    unfold bytes
    rw [ne_eq, Option.map_eq_none_iff]
  rw [hdefined]
  unfold frameAt InPages
  split
  next hu =>
    split
    next hheap => simp [hheap]
    next hheap =>
      rw [ne_eq, List.getElem?_eq_none_iff]
      unfold userStart userStop frameSize at *
      omega
  next hu =>
    simp only [ne_eq, not_true_eq_false, false_iff]
    unfold userStart userStop heapStart frameSize at *
    omega

/-- The frame a store goes to. -/
theorem Housed.userStore {m : ProcessMemory} {a : Nat} (byte : UInt8) (h : Housed R board space lost free s) (hp : p ∈ s.live)
    (hm : s.memory.procs p = some m) : userStore s.memory.pool.mem m.pageTableLevel2 a byte =
      ((space p).frameAt a).map fun f => Function.update s.memory.pool.mem (f + a % frameSize) byte := by
  rw [h.record p hp] at hm
  cases hm
  exact (h.mapped p hp).userStore h.kernel (h.mem_frames hp) byte

theorem onlyFrames_update {o : Nat} (ho : o < frameSize) (byte : UInt8) : OnlyFrames [f] mem (Function.update mem (f + o) byte) := by
  intro a ha
  have := ha f (List.mem_singleton_self f)
  rw [Function.update_of_ne]
  omega

/-- What the program or a trap writes is in no other process's pages. -/
theorem Housed.not_page (h : Housed R board space lost free s) (hp : p ∈ s.live) (hq : q ∈ s.live) (hne : q ≠ p)
    (hf : f ∈ (space p).frames) : f ∉ (space q).pages := by
  intro hg
  exact h.disjoint hp hq hne.symm hf (by simp [Space.frames, hg]) rfl

/-- A store. -/
theorem Housed.stored {m : ProcessMemory} {a : Nat} {byte : UInt8} (h : Housed R board space lost free s) (hp : p ∈ s.live)
    (hm : s.memory.procs p = some m) (run : Xinul.userStore s.memory.pool.mem m.pageTableLevel2 a byte = some mem) :
    Housed R board space lost free { s with memory := s.memory.setMem mem } ∧
      ViewStep R s.view (.store p a byte) (Residents.view { s with memory := s.memory.setMem mem }) := by
  rw [h.userStore byte hp hm, Option.map_eq_some_iff] at run
  obtain ⟨f, hf, rfl⟩ := run
  have hpage := Space.frameAt_mem hf
  have hframe : f ∈ (space p).frames := by simp [Space.frames, hpage]
  have honly : OnlyFrames [f] s.memory.pool.mem (Function.update s.memory.pool.mem (f + a % frameSize) byte) :=
    onlyFrames_update (Nat.mod_lt a (by decide)) byte
  have h' := h.written hp (List.mem_cons_of_mem _ hpage) honly
  refine ⟨h', ?_⟩
  have hmapped : (space p).bytes s.memory.pool.mem a ≠ none := by
    unfold Space.bytes
    rw [hf]
    exact Option.some_ne_none _
  have hview : Residents.view { s with memory := s.memory.setMem (Function.update s.memory.pool.mem (f + a % frameSize) byte) } =
      Function.update s.view p (some (Function.update ((space p).bytes s.memory.pool.mem) a (some byte))) := by
    funext q
    by_cases hq : q = p
    · subst hq
      rw [Function.update_self, h'.view hp]
      congr 1
      have hnd := h.nodup_frames hp
      have hpages : (space q).pages.Nodup := (List.nodup_append.1 (List.nodup_cons.1 hnd).2).1
      refine Space.bytes_update hpages (fun g hg g' hg' hne => ?_) hf byte
      exact h.pool.apart_held (housing_held hp (by simp [Space.frames, hg])) (housing_held hp (by simp [Space.frames, hg'])) hne
    · rw [Function.update_of_ne hq]
      refine h.view_kept h' Iff.rfl rfl honly fun hlive g hg => .inr ?_
      rw [List.mem_singleton.1 hg]
      exact ⟨housing_held hp hframe, h.not_page hp hlive hq hframe⟩
  rw [hview]
  exact .store (h.view hp) hmapped

/-- A start that has what it needs. -/
def Succeeds {R : Ram} (s : Residents) : MemoryEvent R → Prop
  | .start p app size env contextOk => ∃ m, startMemory p app size env contextOk s.memory = .ok (0, m)
  | _ => True

/-- The invariant, and what the programs see of a step. -/
theorem Housed.step {e : MemoryEvent R} (h : Housed R board space lost free s) (hstep : MemoryStep R s e t) :
    (∃ space' lost' free', Housed R board space' lost' free' t ∧ (Succeeds s e → lost' = lost)) ∧
      ViewStep R s.view e t.view := by
  cases hstep with
  | @start m p app size env contextOk fresh run =>
    obtain ⟨x, free', hfilled, hfree, honly, h'⟩ := h.started fresh run
    refine ⟨⟨_, _, _, h', fun _ => rfl⟩, ?_⟩
    have hmapped : x.Mapped m.kernelBasePageTable m.pool.mem := by
      have := h'.mapped p List.mem_cons_self
      rwa [Function.update_self] at this
    have hview : Residents.view ⟨m, p :: s.live⟩ = Function.update s.view p (some (x.bytes m.pool.mem)) := by
      funext q
      by_cases hq : q = p
      · subst hq
        rw [Function.update_self, h'.view List.mem_cons_self, Function.update_self]
      · rw [Function.update_of_ne hq]
        refine h.view_kept h' ?_ (Function.update_of_ne hq _ _) honly fun _ f hf => .inl (hfree f hf)
        simp [hq]
    rw [hview]
    refine .start (Residents.view_dead fresh) fun a => ?_
    rw [← hfilled.length]
    exact hmapped.bytes_defined
  | @refuse m p app size env contextOk v fresh run negative =>
    obtain ⟨taken, free', hfree, honly, h'⟩ := h.refused fresh run
    have hsucceeds : ¬ Succeeds (R := R) s (.start p app size env contextOk) := by
      rintro ⟨m', run'⟩
      rw [run] at run'
      cases run'
      cases negative
    refine ⟨⟨_, _, _, h', fun hs => absurd hs hsucceeds⟩, ?_⟩
    have hview : Residents.view ⟨m, s.live⟩ = s.view := by
      funext q
      exact h.view_kept h' Iff.rfl rfl honly fun _ f hf => .inl (hfree f hf)
    rw [hview]
    exact .refuse (Residents.view_dead fresh)
  | @free m p user env calls live run =>
    obtain ⟨free', honly, h'⟩ := h.freed live run
    refine ⟨⟨_, _, _, h', fun _ => rfl⟩, ?_⟩
    have hview : Residents.view ⟨m, s.live.erase p⟩ = Function.update s.view p none := by
      funext q
      by_cases hq : q = p
      · subst hq
        rw [Function.update_self]
        exact Residents.view_dead h.nodup.not_mem_erase
      · rw [Function.update_of_ne hq]
        refine h.view_kept h' ⟨List.mem_of_mem_erase, (List.mem_erase_of_ne hq).2⟩ rfl honly fun hlive f hf => .inr ?_
        exact ⟨housing_held live hf, h.not_page live hlive hq hf⟩
    rw [hview]
    exact .free (by rw [h.view live]; exact Option.some_ne_none _)
  | store live record run =>
    obtain ⟨h', hview⟩ := h.stored live record run
    exact ⟨⟨_, _, _, h', fun _ => rfl⟩, hview⟩
  | @trap p m mem live record frame =>
    have hsscratch : m.sscratchFrame = (space p).sscratch := by
      rw [h.record p live] at record
      cases record
      rfl
    rw [hsscratch] at frame
    have honly : OnlyFrames [(space p).sscratch] s.memory.pool.mem mem := fun a ha => frame a (ha _ (List.mem_singleton_self _))
    have hframe : (space p).sscratch ∈ (space p).frames := List.mem_cons_self
    have h' := h.written live List.mem_cons_self honly
    refine ⟨⟨_, _, _, h', fun _ => rfl⟩, ?_⟩
    have hview : Residents.view { s with memory := s.memory.setMem mem } = s.view := by
      funext q
      refine h.view_kept h' Iff.rfl rfl honly fun hlive f hf => .inr ?_
      rw [List.mem_singleton.1 hf]
      refine ⟨housing_held live hframe, ?_⟩
      by_cases hq : q = p
      · subst hq
        have hnd := (List.nodup_cons.1 (h.nodup_frames live)).1
        intro hg
        exact hnd (List.mem_append_left _ hg)
      · exact h.not_page live hlive hq hframe
    rw [hview]
    exact .trap (by rw [h.view live]; exact Option.some_ne_none _)

/-! ## Small boards -/

theorem MemoryBoot.used (h : MemoryBoot R board s) : s.used = 0 := by
  unfold Residents.used
  rw [h.live]
  rfl

theorem boots (hlent : 0 < R.lent) : ∃ s, MemoryBoot R .virt s := by
  obtain ⟨pool, hinit, hinv⟩ := initFrames_spec R.toRegion fun _ => 0
  obtain ⟨vm, pool', hset⟩ : ∃ vm pool', setUpVirtualMemory .virt pool = (vm, pool') := by
    generalize setUpVirtualMemory .virt pool = v
    exact ⟨v.1, v.2, rfl⟩
  obtain ⟨s, hpool, hbase, hlive⟩ : ∃ s : Residents, s.memory.pool = pool' ∧
      s.memory.kernelBasePageTable = vm.kernelBasePageTable ∧ s.live = [] :=
    ⟨⟨{ bootMemory pool' with kernelBasePageTable := vm.kernelBasePageTable }, []⟩, rfl, rfl, rfl⟩
  rw [← hpool] at hset
  refine ⟨s, ⟨_, pool, vm, hinit, hset, ?_, hbase⟩, hlive⟩
  obtain ⟨hnil, -⟩ | ⟨f, free, -, he, -, hinv'⟩ := hinv.getFrame
  · have := congrArg List.length hnil
    rw [Region.lendable, List.length_map, List.length_range, List.length_nil] at this
    omega
  · have hpos := (Region.frame_bounds (hinv'.mem_frames.2 f (by simp))).2.2.2.1
    have hne : f ≠ 0 := by omega
    unfold setUpVirtualMemory initDirectory createPageTable at hset
    generalize getFrame pool = taken at hset he
    obtain ⟨f', pool1⟩ := taken
    obtain rfl : f' = f := he
    simp only [if_neg hne] at hset
    exact congrArg (fun v => v.1.answer) hset.symm

/-- After boot there is memory for a process. -/
theorem small_start : ∃ s m, MemoryBoot smallRam .virt s ∧ 1 ∉ s.live ∧
    startMemory 1 (smallApp 5000 (by decide)) 4096 ⟨true, fun _ => true⟩ true s.memory = .ok (0, m) := by
  obtain ⟨s, hboot⟩ := boots (R := smallRam) (by decide)
  obtain ⟨free, h⟩ := hboot.housed fun _ => ⟨0, 0, [], 0, [], 0, 0, fun _ => false⟩
  have hused := hboot.used
  have hlent : smallRam.toRegion.lent = 15 := by decide
  have hlength := h.free_length
  obtain ⟨m, run⟩ : ∃ m, startMemory 1 (smallApp 5000 (by decide)) 4096 ⟨true, fun _ => true⟩ true s.memory = .ok (0, m) := by
    apply h.starts_iff.2
    refine ⟨⟨by decide, by decide, rfl, fun _ _ => rfl, rfl⟩, ?_⟩
    have : footprint (pagesOf (smallApp 5000 (by decide)).codeSize + pagesOf (4096 : Nat)) = 9 := by decide
    omega
  have fresh : 1 ∉ s.live := by
    rw [hboot.live]
    exact List.not_mem_nil
  exact ⟨s, m, hboot, fresh, run⟩

/-- A run with one process. -/
theorem one_resident : ∃ s, Reach (MemoryBoot smallRam .virt) (MemoryStep smallRam) Succeeds s ∧ s.live = [1] := by
  obtain ⟨s, m, hboot, fresh, run⟩ := small_start
  have hsucceeds : Succeeds s (.start 1 (smallApp 5000 (by decide)) 4096 ⟨true, fun _ => true⟩ true) := ⟨m, run⟩
  refine ⟨_, .step (.init hboot) hsucceeds (.start fresh run), ?_⟩
  rw [hboot.live]

/-- Thirty-two frames above a kernel of two megabytes. -/
def wideRam : Ram where
  start := 0x80200000
  stop := 0x80220000
  aligned := by decide
  nonnull := by decide
  below := by decide
  fits := by decide
  physical := by decide
  few := by decide

/-- A program in it. -/
def wideApp : App wideRam.toRegion where
  start := 0x80180000
  stop := 0x80181388
  nonnull := by decide
  ordered := by decide
  small := by decide
  below := by decide

/-! ## Runs -/

theorem housed_of_run {C : Residents → MemoryEvent R → Prop} (run : Reach (MemoryBoot R board) (MemoryStep R) C s) :
    ∃ space lost free, Housed R board space lost free s := by
  apply run.invariant
  · intro s hboot
    obtain ⟨free, h⟩ := hboot.housed fun _ => ⟨0, 0, [], 0, [], 0, 0, fun _ => false⟩
    exact ⟨_, _, _, h⟩
  · rintro s e t ⟨space, lost, free, h⟩ - hstep
    obtain ⟨⟨space', lost', free', h', -⟩, -⟩ := h.step hstep
    exact ⟨space', lost', free', h'⟩

/-- Without failed starts no frame is lost. -/
theorem housed_of_successes (run : Reach (MemoryBoot R board) (MemoryStep R) Succeeds s) :
    ∃ space free, Housed R board space [] free s := by
  apply run.invariant
  · intro s hboot
    obtain ⟨free, h⟩ := hboot.housed fun _ => ⟨0, 0, [], 0, [], 0, 0, fun _ => false⟩
    exact ⟨_, _, h⟩
  · rintro s e t ⟨space, free, h⟩ hsucceeds hstep
    obtain ⟨⟨space', lost', free', h', hlost⟩, -⟩ := h.step hstep
    rw [hlost hsucceeds] at h'
    exact ⟨space', free', h'⟩

/-- The first process holds the frames it asked for. -/
theorem Housed.used_first {app : App R.toRegion} {size : Nat} {env : NodesEnv} {contextOk : Bool} {m : MemoryState}
    (h : Housed R board space lost free s) (run : startMemory p app size env contextOk s.memory = .ok (0, m)) :
    Residents.used ⟨m, [p]⟩ = footprint ((pagesOf app.codeSize + pagesOf size) % 2 ^ 16) := by
  obtain ⟨hneg, -⟩ | ⟨-, -, u, root, dir, ts, heapTable, fs, heap, sscratch, free', hstarted⟩ :=
    wp_ok (wp_startMemory app size env contextOk h.pool) run
  · cases hneg
  · simp [Residents.used, hstarted.procs]

theorem wide_start {s : Residents} {free : List Nat} (h : Housed wideRam board space [] free s) (hused : s.used ≤ 9) :
    ∃ m, startMemory p wideApp 4096 ⟨true, fun _ => true⟩ true s.memory = .ok (0, m) := by
  apply h.starts_iff.2
  have hlength := h.free_length
  have hlent : wideRam.toRegion.lent = 31 := by decide
  have : footprint (pagesOf wideApp.codeSize + pagesOf (4096 : Nat)) = 9 := by decide
  exact ⟨⟨by decide, by decide, rfl, fun _ _ => rfl, rfl⟩, by omega⟩

/-- A run with two processes. -/
theorem two_residents : ∃ s, Reach (MemoryBoot wideRam .virt) (MemoryStep wideRam) Succeeds s ∧ s.live = [2, 1] := by
  obtain ⟨s, hboot⟩ := boots (R := wideRam) (by decide)
  obtain ⟨free, h⟩ := hboot.housed fun _ => ⟨0, 0, [], 0, [], 0, 0, fun _ => false⟩
  obtain ⟨m, hfirst⟩ := wide_start (p := 1) h (by simp [hboot.used])
  have fresh : 1 ∉ s.live := by simp [hboot.live]
  have one : Reach (MemoryBoot wideRam .virt) (MemoryStep wideRam) Succeeds ⟨m, [1]⟩ := by
    have hstep := MemoryStep.start fresh hfirst
    rw [hboot.live] at hstep
    have hsucceeds : Succeeds s (.start 1 wideApp 4096 ⟨true, fun _ => true⟩ true) := ⟨m, hfirst⟩
    exact .step (.init hboot) hsucceeds hstep
  obtain ⟨space, free', h'⟩ := housed_of_successes one
  have hnine : Residents.used ⟨m, [1]⟩ ≤ 9 := by
    rw [h.used_first hfirst]
    decide
  obtain ⟨m', hsecond⟩ := wide_start (p := 2) h' hnine
  have two : Reach (MemoryBoot wideRam .virt) (MemoryStep wideRam) Succeeds ⟨m', [2, 1]⟩ := by
    have hsucceeds : Succeeds ⟨m, [1]⟩ (.start 2 wideApp 4096 ⟨true, fun _ => true⟩ true) := ⟨m', hsecond⟩
    exact .step one hsucceeds (.start (by simp) hsecond)
  exact ⟨_, two, rfl⟩

/-- **Every process has a memory of its own**: whatever starts, ends, stores and traps have
happened, the next one changes what the programs see as it changes private memories: a
start makes one with exactly the pages asked for, a store changes one byte of the
process that made it, and nothing else changes what any program sees. And whatever
private memories allow can happen: a store to any byte that is there, the end of any
process, a start of any other; neither the allocator nor the release faults. What a trap
writes is up to the kernel. -/
theorem memory_is_private (run : Reach (MemoryBoot R board) (MemoryStep R) (fun _ _ => True) s) :
    (∀ e t, MemoryStep R s e t → ViewStep R s.view e t.view) ∧
      ∀ e v, ViewStep R s.view e v → (∀ p mem, e ≠ .trap p mem) → ∃ t, MemoryStep R s e t := by
  obtain ⟨space, lost, free, h⟩ := housed_of_run run
  refine ⟨fun e t hstep => (h.step hstep).2, fun e v hview htrap => ?_⟩
  have hlive : ∀ {p}, s.view p ≠ none → p ∈ s.live := fun hv => Classical.byContradiction fun hp => hv (Residents.view_dead hp)
  have hstart : ∀ {p app size env contextOk}, s.view p = none → ∃ t, MemoryStep R s (.start p app size env contextOk) t := by
    intro p app size env contextOk hv
    have fresh : p ∉ s.live := by
      intro hp
      rw [h.view hp] at hv
      cases hv
    obtain ⟨v, m, run, hpost⟩ := wp_returns (wp_startMemory (p := p) app size env contextOk h.pool)
    obtain ⟨rfl, -⟩ | ⟨rfl, -⟩ := hpost
    · exact ⟨_, .refuse fresh run (by decide)⟩
    · exact ⟨_, .start fresh run⟩
  cases hview with
  | start fresh pages => exact hstart fresh
  | refuse fresh => exact hstart fresh
  | @free p user env live =>
    have hp := hlive live
    obtain ⟨calls, m, run, -⟩ := wp_returns (wp_freeMemory_space (h.record p hp) (h.mapped p hp) (h.pool_erase hp))
    exact ⟨_, .free hp run⟩
  | @store p w address byte live mapped =>
    have hp := hlive (by rw [live]; exact Option.some_ne_none _)
    rw [h.view hp] at live
    cases live
    cases hf : (space p).frameAt address with
    | none =>
      unfold Space.bytes at mapped
      rw [hf] at mapped
      exact absurd rfl mapped
    | some f =>
      have hstore := h.userStore byte hp (h.record p hp) (a := address)
      rw [hf, Option.map_some] at hstore
      exact ⟨_, .store hp (h.record p hp) hstore⟩
  | trap live => exact absurd rfl (htrap _ _)

/-- Two processes live, and each has its own memory. -/
theorem memory_is_private_two : ∃ s : Residents, s.live = [2, 1] ∧
    (∀ e t, MemoryStep wideRam s e t → ViewStep wideRam s.view e t.view) ∧
      ∀ e v, ViewStep wideRam s.view e v → (∀ p mem, e ≠ .trap p mem) → ∃ t, MemoryStep wideRam s e t := by
  obtain ⟨s, run, hlive⟩ := two_residents
  exact ⟨s, hlive, memory_is_private (run.mono fun _ _ _ => trivial)⟩

/-- **No frame is lost to a process that was freed**: as long as no start has failed, a start
that has its nodes and its context succeeds exactly when its frames fit into the region
beside the kernel's table and the frames of the processes that live now. -/
theorem start_succeeds_iff (app : App R.toRegion) (size : Nat) (env : NodesEnv) (contextOk : Bool)
    (run : Reach (MemoryBoot R board) (MemoryStep R) Succeeds s) :
    (∃ m, startMemory p app size env contextOk s.memory = .ok (0, m)) ↔
      Suits app size env contextOk ∧ 1 + s.used + footprint (pagesOf app.codeSize + pagesOf size) ≤ R.lent := by
  obtain ⟨space, free, h⟩ := housed_of_successes run
  have hlength := h.free_length
  rw [h.starts_iff]
  constructor
  · rintro ⟨hsuits, hframes⟩
    exact ⟨hsuits, by omega⟩
  · rintro ⟨hsuits, hframes⟩
    exact ⟨hsuits, by omega⟩

theorem start_succeeds_iff_one : ∃ s : Residents, s.live = [1] ∧
    ((∃ m, startMemory 2 (smallApp 5000 (by decide)) 4096 ⟨true, fun _ => true⟩ true s.memory = .ok (0, m)) ↔
      Suits (smallApp 5000 (by decide)) 4096 ⟨true, fun _ => true⟩ true ∧
        1 + s.used + footprint (pagesOf (smallApp 5000 (by decide)).codeSize + pagesOf (4096 : Nat)) ≤ smallRam.lent) := by
  obtain ⟨s, run, hlive⟩ := one_resident
  exact ⟨s, hlive, start_succeeds_iff _ _ _ _ run⟩

/-- **The kernel is at home everywhere**: whatever starts, ends, stores and traps have
happened, outside the user space every live process's tables lead where the kernel's own
table leads: each gigapage of the kernel to itself, readable and writable by the kernel and
not by the program, and nowhere else. An address stands for its low 39 bits, those that
Sv39 translates. -/
theorem kernel_is_at_home {m : ProcessMemory} (run : Reach (MemoryBoot R board) (MemoryStep R) (fun _ _ => True) s)
    (hp : p ∈ s.live) (hm : s.memory.procs p = some m) {a : Nat} (ha : a < 2 ^ 39) (hu : ¬ (userStart ≤ a ∧ a < userStop)) :
    physical s.memory.pool.mem m.pageTableLevel2 a = physical s.memory.pool.mem s.memory.kernelBasePageTable a ∧
      if board.mapped (a / gigaSize) then
        ∃ e, physical s.memory.pool.mem m.pageTableLevel2 a = some (e, a) ∧ e.resU = false ∧ e.read = true ∧ e.write = true
      else physical s.memory.pool.mem m.pageTableLevel2 a = none := by
  obtain ⟨space, lost, free, h⟩ := housed_of_run run
  rw [h.record p hp] at hm
  cases hm
  have hmapped := h.mapped p hp
  have hmod : a / gigaSize % ptSize = a / gigaSize := by
    unfold gigaSize ptSize
    omega
  have hindex : a / gigaSize % ptSize ≠ userspace := by
    rw [hmod]
    unfold userStart userStop at hu
    unfold gigaSize userspace
    omega
  have hpage : a / kiloSize / ptSize ^ 2 % ptSize ≠ userspace := by
    have : a / kiloSize / ptSize ^ 2 % ptSize = a / gigaSize % ptSize := by
      unfold kiloSize ptSize gigaSize
      omega
    rwa [this]
  have hphysical := hmapped.physical_kernel h.kernel hindex
  rw [hmod, Nat.mul_comm, Nat.div_add_mod] at hphysical
  constructor
  · show physical _ (space p).root a = _
    unfold physical translate
    rw [hmapped.walk_kernel hpage]
  · show if _ then ∃ e, physical _ (space p).root a = _ ∧ _ else physical _ (space p).root a = none
    rw [hphysical]
    split
    next hk =>
      obtain ⟨-, hread, hwrite, huser, -⟩ := Board.entry_mapped hk
      exact ⟨_, rfl, huser, hread, hwrite⟩
    next => rfl

theorem kernel_is_at_home_one : ∃ (s : Residents) (m : ProcessMemory), s.live = [1] ∧ s.memory.procs 1 = some m ∧
    ∃ e, physical s.memory.pool.mem m.pageTableLevel2 0x80080000 = some (e, 0x80080000) ∧ e.resU = false ∧ e.read = true ∧
      e.write = true := by
  obtain ⟨s, run, hlive⟩ := one_resident
  have hrun := run.mono (D := fun _ _ => True) fun _ _ _ => trivial
  obtain ⟨space, lost, free, h⟩ := housed_of_run hrun
  have hp : 1 ∈ s.live := by
    rw [hlive]
    exact List.mem_singleton_self 1
  have hhome := (kernel_is_at_home hrun hp (h.record 1 hp) (a := 0x80080000) (by decide) (by decide)).2
  exact ⟨s, _, hlive, h.record 1 hp, hhome⟩

/-! ## What a new program finds -/

/-- The byte at an offset of the code and the stack of a new program, in terms of the memory
before: the pages up to the one after the last whole page of the image are copied, with
what follows the image in the kernel; the next page is left as the frame was; the others are
cleared. -/
def App.content {r : Region} (app : App r) (mem : Memory) (left i : Nat) : UInt8 :=
  if app.codeSize = 0 then 0
  else if i < frameSize * (app.codeSize / frameSize + 1) then mem (app.start + i)
  else if i < frameSize * (app.codeSize / frameSize + 2) then mem (left + i % frameSize)
  else 0

theorem Filling.byte_content {app : App R.toRegion} (k left : Nat) {o : Nat} (ho : o < frameSize)
    (hleft : k = app.codeSize / frameSize + 1 → left = f) :
    ((Writing.init (some app.start) app.codeSize).after k).filling.byte mem f o = app.content mem left (frameSize * k + o) := by
  have hmod : (frameSize * k + o) % frameSize = o := by
    rw [Nat.mul_add_mod, Nat.mod_eq_of_lt ho]
  unfold App.content
  split
  next hzero =>
    have hinit : Writing.init (some app.start) app.codeSize = ⟨false, 0, 0⟩ := by
      rw [hzero]
      rfl
    have hafter : (Writing.mk false 0 0).after k = ⟨false, 0, 0⟩ := Function.iterate_fixed rfl k
    rw [hinit, hafter]
    rfl
  next hpos =>
    rw [app.init_eq (Nat.pos_of_ne_zero hpos)]
    split
    next hcopied =>
      have hk : k ≤ app.codeSize / frameSize := by
        unfold frameSize at *
        omega
      rw [Writing.filling_copied hk, Filling.byte, Nat.add_assoc]
    next hcopied =>
      split
      next hone =>
        have hk : k = app.codeSize / frameSize + 1 := by
          unfold frameSize at *
          omega
        have hnegative : (app.codeSize : Int) - frameSize * ↑(app.codeSize / frameSize + 1) < 0 := by
          unfold frameSize
          omega
        have hfilling : ((Writing.mk true app.start app.codeSize).after k).filling = .left := by
          rw [hk, Writing.after_copying (Nat.le_refl _)]
          simp only [Writing.filling, if_true, if_pos hnegative]
        rw [hfilling, Filling.byte, hmod, hleft hk]
      next hmore =>
        have hk : app.codeSize / frameSize + 2 ≤ k := by
          unfold frameSize at *
          omega
        have hfilling : ((Writing.mk true app.start app.codeSize).after k).filling = .cleared := by
          simp [Writing.filling, Writing.after_copied hk]
        rw [hfilling, Filling.byte]

/-- **What a new program finds in its memory**: after any run, every byte of the code and the
stack of a process that was started is what `App.content` says, with one frame that was
free, and every byte of its heap is zero. So of all that processes freed earlier have left in
memory a new one sees at most one page. -/
theorem new_program_finds {app : App R.toRegion} {size : Nat} {env : NodesEnv} {contextOk : Bool} {m : MemoryState}
    (run : Reach (MemoryBoot R board) (MemoryStep R) (fun _ _ => True) s) (fresh : p ∉ s.live)
    (start : startMemory p app size env contextOk s.memory = .ok (0, m)) :
    ∃ w left held free, Residents.view ⟨m, p :: s.live⟩ p = some w ∧ PoolInv R.toRegion s.memory.pool held free ∧ left ∈ free ∧
      (∀ i < frameSize * (pagesOf app.codeSize + pagesOf size), w (userStart + i) = some (app.content s.memory.pool.mem left i)) ∧
      ∀ i < frameSize, w (heapStart + i) = some 0 := by
  obtain ⟨space, lost, free, h⟩ := housed_of_run run
  obtain ⟨x, free', hfilled, hfree, -, h'⟩ := h.started fresh start
  have hview := h'.view (p := p) List.mem_cons_self
  rw [Function.update_self] at hview
  have hmapped := h'.mapped p List.mem_cons_self
  rw [Function.update_self] at hmapped
  have h1 := hmapped.fits.enough
  have h2 := hmapped.room
  unfold ptSize at h1
  unfold stackFrameSize at h2
  have hlength := hfilled.length
  refine ⟨_, x.fs[app.codeSize / frameSize + 1]?.getD x.heap, _, free, hview, h.pool, ?_, fun i hi => ?_, fun i hi => ?_⟩
  · apply hfree
    cases hleft : x.fs[app.codeSize / frameSize + 1]? with
    | none => simp [Space.frames, Space.pages]
    | some f => simp [Space.frames, Space.pages, List.mem_of_getElem? hleft]
  · have hk : i / frameSize < x.fs.length := by
      rw [hlength]
      exact Nat.div_lt_of_lt_mul hi
    obtain ⟨f, hf⟩ : ∃ f, x.fs[i / frameSize]? = some f := ⟨_, List.getElem?_eq_getElem hk⟩
    have hlt := Nat.mod_lt i (show 0 < frameSize by decide)
    have hat : x.frameAt (userStart + i) = some f := by
      unfold Space.frameAt
      rw [if_pos, if_neg, Nat.add_sub_cancel_left, hf]
      · unfold heapStart userStart frameSize at *
        omega
      · unfold userStart userStop frameSize at *
        omega
    have hoffset : (userStart + i) % frameSize = i % frameSize := by
      unfold userStart frameSize
      omega
    have hsplit : frameSize * (i / frameSize) + i % frameSize = i := Nat.div_add_mod i frameSize
    unfold Space.bytes
    rw [hat, Option.map_some, hoffset, hfilled.byte _ _ hf _ hlt,
      Filling.byte_content _ (x.fs[app.codeSize / frameSize + 1]?.getD x.heap) hlt, hsplit]
    intro he
    rw [he] at hf
    rw [hf]
    rfl
  · have hat : x.frameAt (heapStart + i) = some x.heap := by
      unfold Space.frameAt
      rw [if_pos, if_pos]
      · exact ⟨Nat.le_add_right _ _, Nat.add_lt_add_left hi _⟩
      · unfold heapStart userStart userStop frameSize at *
        omega
    have hoffset : (heapStart + i) % frameSize = i := by
      unfold heapStart frameSize at *
      omega
    unfold Space.bytes
    rw [hat, Option.map_some, hoffset, hfilled.heapByte i hi]

theorem new_program_finds_two_pages : ∃ (s : Residents) (m : MemoryState) (w : View) (left : Nat),
    Residents.view ⟨m, 1 :: s.live⟩ 1 = some w ∧
      ∀ i < 12288, w (userStart + i) = some ((smallApp 5000 (by decide)).content s.memory.pool.mem left i) := by
  obtain ⟨s, m, hboot, fresh, run⟩ := small_start
  obtain ⟨w, left, held, free, hview, -, -, hbytes, -⟩ :=
    new_program_finds (.init hboot) fresh run
  exact ⟨s, m, w, left, hview, hbytes⟩

end Xinul
