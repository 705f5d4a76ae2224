import Xinul.Kernel.Residents
import Xinul.Runs.Spaces

/-!
# What a program sees

With the tables of its address space in memory, and those of the kernel behind them, the
loads and the stores of a program are reads and writes of its own pages.
-/

namespace Xinul

open Bytes Prog

variable {R : Ram} {board : Board} {x : Space} {base a k : Nat} {mem mem' : Memory}

/-! ## The table of the kernel -/

/-- The entry `init_directory` leaves at an index. -/
def Board.entry : Board → Nat → PageTableEntry
  | .cep, 0 => configurePageEntry (.ofWord 0) kernelSpaceAddress true true true false .giga
  | .cep, 1 => configurePageEntry (.ofWord 0) userspaceAddress false false false true .giga
  | .cep, 2 => configurePageEntry (.ofWord 0) vramSpace1Address true true false false .giga
  | .cep, 3 => configurePageEntry (.ofWord 0) vramSpace2Address true true false false .giga
  | .virt, 0 => configurePageEntry (.ofWord 0) kernelSpaceAddress true true true false .giga
  | .virt, 2 => configurePageEntry (.ofWord 0) vramSpace1Address true true true false .giga
  | _, _ => .ofWord 0

/-- The table of the kernel is in memory. -/
def KernelTable (board : Board) (base : Nat) (mem : Memory) : Prop := ∀ i < ptSize, pteAt mem base i = board.entry i

/-- The gigapages that are mapped, each to itself. -/
def Board.mapped (board : Board) (i : Nat) : Bool := i = 0 || i = 2 || (i = 3 && board = .cep)

theorem Board.entry_large {i : Nat} (h : 4 ≤ i) : board.entry i = .ofWord 0 := by
  obtain ⟨i, rfl⟩ := Nat.exists_eq_add_of_le' h
  cases board with
  | cep => rfl
  | virt => rfl

theorem pteAt_configurePte {t i j address : Nat} {read write exec userMode : Bool} {size : PageSize} :
    pteAt (configurePte mem t j address read write exec userMode size) t i =
      if i = j then configurePageEntry (pteAt mem t j) address read write exec userMode size else pteAt mem t i := by
  split
  next h =>
    subst h
    exact pteAt_setPte_self
  next h => exact pteAt_setPte_index h

theorem Board.directory_table {dir : Nat} (hblank : ∀ i < ptSize, pteAt mem dir i = .ofWord 0) :
    KernelTable board dir (board.directory dir mem) := by
  intro i hi
  have h0 := hblank 0 (by decide)
  have h1 := hblank 1 (by decide)
  have h2 := hblank 2 (by decide)
  have h3 := hblank 3 (by decide)
  have h := hblank i hi
  clear hblank
  obtain rfl | rfl | rfl | rfl | hlarge : i = 0 ∨ i = 1 ∨ i = 2 ∨ i = 3 ∨ 4 ≤ i := by omega
  · cases board <;> simp [directory, entry, pteAt_configurePte, kernelSpace, vramSpace1, vramSpace2, h0]
  · cases board <;> simp [directory, entry, pteAt_configurePte, kernelSpace, vramSpace1, vramSpace2, h1]
  · cases board <;> simp [directory, entry, pteAt_configurePte, kernelSpace, vramSpace1, vramSpace2, h2]
  · cases board <;> simp [directory, entry, pteAt_configurePte, kernelSpace, vramSpace1, vramSpace2, h3]
  · have hne : i ≠ 3 ∧ i ≠ 2 ∧ i ≠ 1 ∧ i ≠ 0 := by omega
    rw [entry_large hlarge]
    cases board <;> simp [directory, pteAt_configurePte, kernelSpace, vramSpace1, vramSpace2, h, hne]

theorem Board.directory_only (dir : Nat) : OnlyFrames [dir] mem (board.directory dir mem) := by
  have h : ∀ mem i address read write exec userMode, i < ptSize →
      OnlyFrames [dir] mem (configurePte mem dir i address read write exec userMode .giga) :=
    fun _ _ _ _ _ _ _ hi => onlyFrames_setPte hi
  cases board with
  | cep =>
    exact (((h _ _ _ _ _ _ _ (by decide)).trans (h _ _ _ _ _ _ _ (by decide))).trans (h _ _ _ _ _ _ _ (by decide))).trans
      (h _ _ _ _ _ _ _ (by decide))
  | virt => exact (h _ _ _ _ _ _ _ (by decide)).trans (h _ _ _ _ _ _ _ (by decide))

/-- A gigapage that is mapped is the kernel's, and maps to itself. -/
theorem Board.entry_mapped {i : Nat} (h : board.mapped i = true) :
    (board.entry i).valid = true ∧ (board.entry i).read = true ∧ (board.entry i).write = true ∧
      (board.entry i).resU = false ∧ findPteAdress (board.entry i) = i * gigaSize := by
  unfold mapped at h
  simp only [Bool.or_eq_true, Bool.and_eq_true, decide_eq_true_eq] at h
  obtain (rfl | rfl) | ⟨rfl, rfl⟩ := h
  · cases board <;> decide
  · cases board <;> decide
  · decide

theorem Board.entry_blank {i : Nat} (h : board.mapped i = false) (hi : i ≠ userspace) : board.entry i = .ofWord 0 := by
  unfold mapped at h
  simp only [Bool.or_eq_false_iff, Bool.and_eq_false_iff, decide_eq_false_iff_not] at h
  obtain ⟨⟨h0, h2⟩, h3⟩ := h
  have h1 : i ≠ 1 := hi
  obtain rfl | hlarge : i = 3 ∨ 4 ≤ i := by omega
  · cases board with
    | cep => simp at h3
    | virt => rfl
  · exact entry_large hlarge

/-- The walk outside the user space. -/
theorem KernelTable.walk (h : KernelTable board base mem) {page : Nat} (hp : page / ptSize ^ 2 % ptSize ≠ userspace) :
    translateFrom mem 3 base page =
      if board.mapped (page / ptSize ^ 2 % ptSize) then some (board.entry (page / ptSize ^ 2 % ptSize), ptSize ^ 2) else none := by
  have hpte := h _ (Nat.mod_lt (page / ptSize ^ 2) (by decide))
  unfold translateFrom
  rw [hpte]
  cases hmapped : board.mapped (page / ptSize ^ 2 % ptSize) with
  | true =>
    obtain ⟨hvalid, hread, hwrite, -⟩ := Board.entry_mapped hmapped
    simp [hvalid, hread, isLeaf]
  | false =>
    rw [Board.entry_blank hmapped hp]
    rfl

/-! ## Loads and stores -/

/-- The frame behind an address of the program. -/
def Space.frameAt (x : Space) (a : Nat) : Option Nat :=
  if userStart ≤ a ∧ a < userStop then
    if heapStart ≤ a ∧ a < heapStart + frameSize then some x.heap else x.fs[(a - userStart) / frameSize]?
  else none

theorem Space.frameAt_mem {f : Nat} (h : x.frameAt a = some f) : f ∈ x.pages := by
  unfold frameAt at h
  split at h
  next =>
    split at h
    next =>
      cases h
      exact List.mem_cons_self
    next => exact List.mem_cons_of_mem _ (List.mem_of_getElem? h)
  next => cases h

/-- Different pages of the program have different frames. -/
theorem Space.frameAt_inj {a' f : Nat} (hnd : x.pages.Nodup) (h : x.frameAt a = some f) (h' : x.frameAt a' = some f)
    (hoffset : a % frameSize = a' % frameSize) : a = a' := by
  have hnotin : ∀ {k : Nat}, x.fs[k]? = some x.heap → False := fun hk =>
    (List.nodup_cons.1 hnd).1 (List.mem_of_getElem? hk)
  unfold frameAt at h h'
  split at h
  next hu =>
    split at h'
    next hu' =>
      split at h
      next hheap =>
        cases h
        split at h'
        next hheap' =>
          unfold heapStart frameSize at *
          omega
        next => exact (hnotin h').elim
      next =>
        split at h'
        next =>
          cases h'
          exact (hnotin h).elim
        next =>
          obtain ⟨hlt, he⟩ := List.getElem?_eq_some_iff.1 h
          obtain ⟨hlt', he'⟩ := List.getElem?_eq_some_iff.1 h'
          have hk := (List.nodup_cons.1 hnd).2.getElem_inj_iff.1 (he.trans he'.symm)
          unfold userStart frameSize at *
          omega
    next => cases h'
  next => cases h

section sees

variable (h : x.Mapped base mem) (hk : KernelTable board base mem) (hl : ∀ f ∈ x.frames, f ∈ R.toRegion.frames)

include h

include hk in
/-- Outside the user space every process finds what the kernel finds, and cannot use it. -/
theorem Space.Mapped.physical_kernel (hi : a / gigaSize % ptSize ≠ userspace) :
    physical mem x.root a = if board.mapped (a / gigaSize % ptSize) then
      some (board.entry (a / gigaSize % ptSize), a / gigaSize % ptSize * gigaSize + a % gigaSize) else none := by
  have hindex : a / kiloSize / ptSize ^ 2 % ptSize = a / gigaSize % ptSize := by
    unfold kiloSize ptSize gigaSize
    omega
  have hp : a / kiloSize / ptSize ^ 2 % ptSize ≠ userspace := by rwa [hindex]
  rw [physical, translate, h.walk_kernel hp, hk.walk hp, hindex]
  split
  next hmapped =>
    obtain ⟨-, -, -, -, haddress⟩ := Board.entry_mapped hmapped
    have hgiga : ptSize ^ 2 * kiloSize = gigaSize := by decide
    have hzero : ¬ a / gigaSize % ptSize * gigaSize % gigaSize ≠ 0 := not_not.2 (Nat.mul_mod_left _ _)
    rw [Option.bind_eq_bind, Option.bind_some]
    simp only [haddress, hgiga]
    rw [if_neg hzero]
  next => rfl

include hl in
/-- In the user space it finds its own pages. -/
theorem Space.Mapped.physical_user (hlo : userStart ≤ a) (hhi : a < userStop) :
    (x.frameAt a = none → physical mem x.root a = none) ∧
      ∀ f, x.frameAt a = some f → ∃ e, physical mem x.root a = some (e, f + a % frameSize) ∧ e.resU = true ∧ e.read = true ∧
        e.write = true := by
  have hpage := user_page hlo
  have hsmall : (a - userStart) / frameSize < 2 ^ 18 := by
    unfold userStart userStop frameSize at *
    omega
  have hleaf : ∀ f exec, f ∈ x.frames → translateFrom mem 3 x.root (a / kiloSize) =
      some (configurePageEntry (.ofWord 0) f true true exec true .kilo, 1) →
      ∃ e, physical mem x.root a = some (e, f + a % frameSize) ∧ e.resU = true ∧ e.read = true ∧ e.write = true := by
    intro f exec hf hwalk
    have hlink := R.frame_linkable (hl f hf)
    have haddress := R.find_configure (hl f hf) true true exec true
    have hzero : f % (1 * kiloSize) = 0 := hlink.1
    refine ⟨configurePageEntry (.ofWord 0) f true true exec true .kilo, ?_, rfl, rfl, rfl⟩
    rw [physical, translate, hwalk, Option.bind_eq_bind, Option.bind_some]
    simp only [haddress]
    rw [if_neg (not_not.2 hzero)]
    rfl
  unfold Space.frameAt
  rw [if_pos ⟨hlo, hhi⟩]
  split
  next hheap =>
    refine ⟨fun hnone => absurd hnone (by simp), fun f hf => ?_⟩
    cases hf
    have hk : a / kiloSize = 2 ^ 18 + 2 ^ 16 := by
      unfold heapStart kiloSize frameSize at *
      omega
    apply hleaf x.heap false (by simp [Space.frames, Space.pages])
    rw [hk]
    exact h.walk_heap hl
  next hheap =>
    constructor
    · intro hnone
      have hwalk := h.walk_none hl hsmall (List.getElem?_eq_none_iff.1 hnone) (by
        unfold heapStart userStart frameSize at *
        omega)
      rw [← hpage] at hwalk
      rw [physical, translate, hwalk]
      rfl
    · intro f hf
      have hmem := List.mem_of_getElem? hf
      apply hleaf f (x.exec ((a - userStart) / frameSize)) (by simp [Space.frames, Space.pages, hmem])
      rw [hpage]
      exact h.walk_page hl hf

include hk hl in
/-- What an access in user mode finds. -/
theorem Space.Mapped.access (hcanonical : canonical a = true) :
    (x.frameAt a = none ∧ ∀ e at_, physical mem x.root a = some (e, at_) → e.resU = false) ∨
      ∃ f e, x.frameAt a = some f ∧ physical mem x.root a = some (e, f + a % frameSize) ∧ e.resU = true ∧ e.read = true ∧
        e.write = true := by
  by_cases hu : userStart ≤ a ∧ a < userStop
  · obtain ⟨hnone, hsome⟩ := h.physical_user hl hu.1 hu.2
    cases hf : x.frameAt a with
    | none =>
      refine .inl ⟨rfl, fun e at_ he => ?_⟩
      rw [hnone hf] at he
      cases he
    | some f =>
      obtain ⟨e, he⟩ := hsome f hf
      exact .inr ⟨f, e, rfl, he⟩
  · have hi : a / gigaSize % ptSize ≠ userspace := by
      unfold canonical at hcanonical
      simp only [Bool.or_eq_true, Bool.and_eq_true, decide_eq_true_eq] at hcanonical
      unfold userStart userStop at hu
      unfold gigaSize ptSize userspace
      omega
    refine .inl ⟨if_neg hu, fun e at_ he => ?_⟩
    rw [h.physical_kernel hk hi] at he
    split at he
    next hmapped =>
      cases he
      exact (Board.entry_mapped hmapped).2.2.2.1
    next => cases he

omit h in
theorem Space.frameAt_canonical {f : Nat} (hf : x.frameAt a = some f) : canonical a = true := by
  unfold frameAt at hf
  split at hf
  next hu =>
    unfold canonical
    unfold userStart userStop at hu
    simp only [Bool.or_eq_true, decide_eq_true_eq]
    left
    omega
  next => cases hf

include hk hl in
/-- A load reads a page of the program. -/
theorem Space.Mapped.userLoad : userLoad mem x.root a = (x.frameAt a).map fun f => mem (f + a % frameSize) := by
  unfold Xinul.userLoad
  split
  next hcanonical =>
    unfold userByte
    obtain ⟨hf, hnone⟩ | ⟨f, e, hf, hphysical, huser, hread, -⟩ := h.access hk hl hcanonical
    · rw [hf]
      cases hphysical : physical mem x.root a with
      | none => rfl
      | some v =>
        have := hnone v.1 v.2 hphysical
        simp [this]
    · rw [hf, hphysical]
      simp [huser, hread]
  next hcanonical =>
    cases hf : x.frameAt a with
    | none => rfl
    | some f => exact absurd (Space.frameAt_canonical hf) hcanonical

include hk hl in
/-- A store writes a page of the program. -/
theorem Space.Mapped.userStore (byte : UInt8) :
    userStore mem x.root a byte = (x.frameAt a).map fun f => Function.update mem (f + a % frameSize) byte := by
  unfold Xinul.userStore
  split
  next hcanonical =>
    obtain ⟨hf, hnone⟩ | ⟨f, e, hf, hphysical, huser, -, hwrite⟩ := h.access hk hl hcanonical
    · rw [hf]
      cases hphysical : physical mem x.root a with
      | none => rfl
      | some v =>
        have := hnone v.1 v.2 hphysical
        simp [this]
    · rw [hf, hphysical]
      simp [huser, hwrite]
  next hcanonical =>
    cases hf : x.frameAt a with
    | none => rfl
    | some f => exact absurd (Space.frameAt_canonical hf) hcanonical

end sees

end Xinul
