import Xinul.Proofs.Filling

/-!
# The reserving loops of `process_memory.c`

`add_frames_process` takes tables and counts pages. Whatever the sizes are, the
children of a type come out as full tables and a last one with the rest.
-/

namespace Xinul

open Bytes Prog

/-! ## Nodes -/

/-- The tables `ts` are as many as `n` pages need. -/
structure Fits (ts : List Nat) (n : Nat) : Prop where
  enough : n ≤ ptSize * ts.length
  tight : ptSize * ts.length < n + ptSize

/-- The tables for `n` pages. -/
def tablesOf (n : Nat) : Nat := (n + (ptSize - 1)) / ptSize

/-- The pages for `size` bytes: at least one. -/
def pagesOf (size : Int) : Nat := max 1 ((size.toNat + (frameSize - 1)) / frameSize)

/-- No node has a level 1 index of this type. -/
def OutOf (type : PageType) (nodes : List PageTableNode) : Prop :=
  ∀ node ∈ nodes, node.index < type.start ∨ type.stop < node.index

/-- Some more level 1 indices of a type are taken. -/
def PageDirectory.takes (d : PageDirectory) (k : Nat) : PageType → PageDirectory
  | .stackCode => { d with usage := d.usage + k, stackUsage := d.stackUsage + k }
  | .heap => { d with usage := d.usage + k, heapUsage := d.heapUsage + k }
  | .shared => { d with usage := d.usage + k, sharedMemoryUsage := d.sharedMemoryUsage + k }

/-- The directory with `n` pages of a type over the new tables `ts`. -/
def PageDirectory.reserve (d : PageDirectory) (type : PageType) (ts : List Nat) (n : Nat) : PageDirectory :=
  { d.takes ts.length type with children := d.children ++ nodesOf type.start ts n }

variable {r : Region} {type : PageType} {d : PageDirectory} {ts held free : List Nat} {n start table : Nat}

theorem Fits.nil : Fits [] 0 := ⟨Nat.zero_le _, by decide⟩

/-- A page more in the last table. -/
theorem Fits.more (h : Fits ts n) (hroom : n < ptSize * ts.length) : Fits ts (n + 1) where
  enough := hroom
  tight := by
    have := h.tight
    omega

/-- A page more in a table more. -/
theorem Fits.snoc (h : Fits ts n) (hfull : ¬ n < ptSize * ts.length) (table : Nat) : Fits (ts ++ [table]) (n + 1) := by
  have h1 := h.enough
  have hone : 0 < ptSize := by decide
  constructor
  · rw [List.length_append, List.length_singleton, Nat.mul_succ]
    omega
  · rw [List.length_append, List.length_singleton, Nat.mul_succ]
    omega

theorem Fits.full (h : Fits ts n) (hfull : ¬ n < ptSize * ts.length) : n = ptSize * ts.length := by
  have := h.enough
  omega

theorem Fits.length (h : Fits ts n) : ts.length = tablesOf n := by
  have h1 := h.enough
  have h2 := h.tight
  unfold tablesOf ptSize at *
  omega

/-- A page more needs a table more. -/
theorem Fits.tablesOf_succ (h : Fits ts n) (hfull : ¬ n < ptSize * ts.length) : tablesOf (n + 1) = ts.length + 1 := by
  have := (h.snoc hfull 0).length
  rw [List.length_append, List.length_singleton] at this
  exact this.symm

theorem tablesOf_mono {m n : Nat} (h : m ≤ n) : tablesOf m ≤ tablesOf n :=
  Nat.div_le_div_right (Nat.add_le_add_right h _)

theorem pagesOf_pos (size : Int) : 0 < pagesOf size := Nat.lt_of_lt_of_le Nat.zero_lt_one (Nat.le_max_left _ _)

theorem pagesOf_last {size : Int} (h : ¬ size - frameSize > 0) : pagesOf size = 1 := by
  unfold pagesOf frameSize at *
  omega

theorem pagesOf_more {size : Int} (h : size - frameSize > 0) : pagesOf size = pagesOf (size - frameSize) + 1 := by
  unfold pagesOf frameSize at *
  omega

theorem nodesOf_length (n : Nat) : (nodesOf start ts n).length = ts.length := by
  induction ts generalizing start n with
  | nil => rfl
  | cons table ts ih => rw [nodesOf, List.length_cons, ih, List.length_cons]

/-- The nodes have the next level 1 indices. -/
theorem nodesOf_index {node : PageTableNode} (h : node ∈ nodesOf start ts n) :
    start ≤ node.index ∧ node.index < start + ts.length := by
  induction ts generalizing start n with
  | nil => cases h
  | cons table ts ih =>
    rw [nodesOf, List.mem_cons] at h
    rw [List.length_cons]
    obtain rfl | h := h
    · exact ⟨Nat.le_refl _, by simp⟩
    · have := ih h
      omega

/-- The nodes when a page more needs a table more. -/
theorem nodesOf_snoc (hfull : n = ptSize * ts.length) :
    nodesOf start (ts ++ [table]) (n + 1) = nodesOf start ts n ++ [⟨table, 1, start + ts.length⟩] := by
  induction ts generalizing start n with
  | nil =>
    obtain rfl : n = 0 := hfull
    simp [nodesOf, ptSize]
  | cons t ts ih =>
    rw [List.length_cons, Nat.mul_succ] at hfull
    have hone : 0 < ptSize := by decide
    have hrest : n + 1 - ptSize = n - ptSize + 1 := by omega
    have husage : min (n + 1) ptSize = min n ptSize := by omega
    have hnext : start + 1 + ts.length = start + (ts.length + 1) := by omega
    rw [List.cons_append, nodesOf, nodesOf, List.cons_append, hrest, ih (by omega), List.length_cons, husage, hnext]

/-! ## The search for room -/

theorem findRoom_out {before : List PageTableNode} (h : OutOf type before) (nodes : List PageTableNode) :
    findRoom type (before ++ nodes) = (findRoom type nodes).map fun found => (found.1, before ++ found.2) := by
  induction before with
  | nil => simp
  | cons node before ih =>
    have hnode := h node (by simp)
    rw [List.cons_append, findRoom, if_neg (by omega), ih fun x hx => h x (by simp [hx]), Option.map_map]
    congr 1

/-- Full tables have no room. -/
theorem findRoom_full (h : ptSize * ts.length ≤ n) : findRoom type (nodesOf start ts n) = none := by
  induction ts generalizing start n with
  | nil => rfl
  | cons table ts ih =>
    rw [List.length_cons, Nat.mul_succ] at h
    rw [nodesOf, findRoom, if_neg, ih (by omega), Option.map_none]
    rintro ⟨-, -, husage⟩
    simp only at husage
    omega

/-- The room is in the table after the full ones. -/
theorem findRoom_room (h : n < ptSize * ts.length) (hlo : type.start ≤ start) (hhi : start + ts.length ≤ type.stop + 1) :
    ∃ node, findRoom type (nodesOf start ts n) = some (node, nodesOf start ts (n + 1)) := by
  induction ts generalizing start n with
  | nil => simp at h
  | cons table ts ih =>
    rw [List.length_cons] at h hhi
    rw [Nat.mul_succ] at h
    by_cases hn : n < ptSize
    · have h1 : min n ptSize = n := by omega
      have h2 : min (n + 1) ptSize = n + 1 := by omega
      have h3 : n + 1 - ptSize = n - ptSize := by omega
      refine ⟨⟨table, n, start⟩, ?_⟩
      rw [nodesOf, findRoom, if_pos ⟨hlo, by simp only; omega, by simp only; omega⟩, nodesOf, h1, h2, h3]
    · have hnext : type.start ≤ start + 1 := by omega
      obtain ⟨node, e⟩ := ih (n := n - ptSize) (by omega) hnext (by omega)
      refine ⟨node, ?_⟩
      have h1 : min (n + 1) ptSize = min n ptSize := by omega
      have h2 : n + 1 - ptSize = n - ptSize + 1 := by omega
      rw [nodesOf, findRoom, if_neg, e, nodesOf, h1, h2]
      · rfl
      · rintro ⟨-, -, husage⟩
        simp only at husage
        omega

/-! ## The directory -/

theorem PageDirectory.reserve_nil : d.reserve type [] 0 = d := by
  cases type <;> simp [reserve, takes, nodesOf]

theorem PageDirectory.usageOf_reserve : (d.reserve type ts n).usageOf type = d.usageOf type + ts.length := by
  cases type <;> rfl

/-- A page more in a table more. -/
theorem PageDirectory.reserve_snoc (hfull : n = ptSize * ts.length) :
    { (d.reserve type ts n).take type with
      children := (d.reserve type ts n).children ++ [⟨table, 1, type.start + ts.length⟩] } =
        d.reserve type (ts ++ [table]) (n + 1) := by
  simp only [reserve, nodesOf_snoc hfull]
  cases type <;> simp [take, takes, Nat.add_assoc]

/-! ## One page -/

-- the elaborator would run it on a symbolic memory
attribute [local irreducible] takePageTable

/-- `n` pages of a type were reserved for the process `p`, whose other fields are
those of `m` and whose directory was `d`. -/
structure Reserving (r : Region) (p : Ptr) (m : ProcessMemory) (d : PageDirectory) (type : PageType) (ts : List Nat) (n : Nat)
    (held free free' : List Nat) (s t : MemoryState) : Prop where
  fits : Fits ts n
  room : type.start + ts.length ≤ type.stop + 1
  procs : t.procs = Function.update s.procs p (some { m with pageTablesLvl1List := some (d.reserve type ts n) })
  taken : free = ts ++ free'
  state : t = { s with pool := t.pool, procs := t.procs }
  pool : PoolInv r t.pool (ts.reverse ++ held) free'
  only : OnlyFrames ts s.pool.mem t.pool.mem
  blank : ∀ table ∈ ts, ∀ i < ptSize, pteAt t.pool.mem table i = .ofWord 0

variable {p : Ptr} {m : ProcessMemory} {free' : List Nat} {s t : MemoryState}

theorem wp_procMemory {Q : ProcessMemory → MemoryState → Prop} {E : MemoryFault → Prop} (h : s.procs p = some m) :
    wp (procMemory p) Q E s ↔ Q m s := by
  simp only [procMemory, wp_bind, wp_get, h, wp_pure]

theorem wp_setProcMemory {Q : Unit → MemoryState → Prop} {E : MemoryFault → Prop} :
    wp (setProcMemory p m) Q E s ↔ Q () (s.setProc p m) := Iff.rfl

/-- The record of the process. -/
theorem Reserving.proc (h : Reserving r p m d type ts n held free free' s t) :
    t.procs p = some { m with pageTablesLvl1List := some (d.reserve type ts n) } := by
  rw [h.procs, Function.update_self]

/-- Nothing is reserved. -/
theorem Reserving.nil (h : PoolInv r s.pool held free) (hp : s.procs p = some m) (hd : m.pageTablesLvl1List = some d) :
    Reserving r p m d type [] 0 held free free s s where
  fits := .nil
  room := by cases type <;> decide
  procs := by
    rw [PageDirectory.reserve_nil, ← hd, ← hp, Function.update_eq_self]
  taken := rfl
  state := rfl
  pool := h
  only := .refl _ _
  blank := by simp

/-- The directory the record had does not matter. -/
theorem Reserving.forget {o : Option PageDirectory} (h : Reserving r p { m with pageTablesLvl1List := o } d type ts n held free free' s t) :
    Reserving r p m d type ts n held free free' s t :=
  ⟨h.fits, h.room, h.procs, h.taken, h.state, h.pool, h.only, h.blank⟩

/-- The fields of the process other than its directory are written. -/
theorem Reserving.write (h : Reserving r p m d type ts n held free free' s t) (m' : ProcessMemory) :
    Reserving r p m' d type ts n held free free' s
      (t.setProc p { m' with pageTablesLvl1List := some (d.reserve type ts n) }) where
  fits := h.fits
  room := h.room
  procs := by
    rw [MemoryState.setProc, h.procs, Function.update_idem]
  taken := h.taken
  state := by
    rw [h.state]
    rfl
  pool := h.pool
  only := h.only
  blank := h.blank

/-- A page in the last table. -/
theorem Reserving.more (h : Reserving r p m d type ts n held free free' s t) (hroom : n < ptSize * ts.length) :
    Reserving r p m d type ts (n + 1) held free free' s
      (t.setProc p { m with pageTablesLvl1List := some (d.reserve type ts (n + 1)) }) where
  fits := h.fits.more hroom
  room := h.room
  procs := by
    rw [MemoryState.setProc, h.procs, Function.update_idem]
  taken := h.taken
  state := by
    rw [h.state]
    rfl
  pool := h.pool
  only := h.only
  blank := h.blank

/-- A page in a table more. -/
theorem Reserving.snoc {pool : FramePool} {free'' : List Nat} (h : Reserving r p m d type ts n held free (table :: free'') s t)
    (hfull : ¬ n < ptSize * ts.length) (hroom : type.start + ts.length ≤ type.stop)
    (hpool : PoolInv r pool (table :: (ts.reverse ++ held)) free'') (hmem : OnlyFrames [table] t.pool.mem pool.mem)
    (hblank : ∀ i < ptSize, pteAt pool.mem table i = .ofWord 0) :
    Reserving r p m d type (ts ++ [table]) (n + 1) held free free'' s
      (MemoryState.setProc { t with pool := pool } p
        { m with pageTablesLvl1List := some (d.reserve type (ts ++ [table]) (n + 1)) }) where
  fits := h.fits.snoc hfull table
  room := by
    rw [List.length_append, List.length_singleton]
    omega
  procs := by
    rw [MemoryState.setProc, h.procs, Function.update_idem]
  taken := by
    rw [h.taken, List.append_assoc]
    rfl
  state := by
    rw [h.state]
    rfl
  pool := by
    rw [List.reverse_append]
    exact hpool
  only := (h.only.mono (by simp)).trans (hmem.mono (by simp))
  blank := by
    intro g hg i hi
    obtain hg | hg := List.mem_append.1 hg
    · rw [← h.blank g hg i hi]
      have hheld : g ∈ ts.reverse ++ held := by simp [hg]
      refine hmem.pteAt (fun x hx => ?_) hi
      rw [List.mem_singleton.1 hx]
      exact (h.pool.apart (by simp) hheld).symm
    · rw [List.mem_singleton.1 hg]
      exact hblank i hi

/-- The limits of a directory keep the next level 1 index in its space. -/
theorem PageDirectory.usageOf_le (d : PageDirectory) (type : PageType) (hstack : d.stackUsage < stackFrameSize)
    (hheap : d.heapUsage < heapFrameSize) (hshared : d.sharedMemoryUsage < sharedFrameSize) :
    type.start + d.usageOf type ≤ type.stop := by
  unfold stackFrameSize heapFrameSize sharedFrameSize at *
  cases type with
  | stackCode =>
    show 0 + d.stackUsage ≤ 127
    omega
  | heap =>
    show 128 + d.heapUsage ≤ 255
    omega
  | shared =>
    show 256 + d.sharedMemoryUsage ≤ 511
    omega

/-- No table can be added. -/
def PageDirectory.Full (d : PageDirectory) : Prop :=
  d.usage ≥ ptSize ∨ d.stackUsage ≥ stackFrameSize ∨ d.heapUsage ≥ heapFrameSize ∨ d.sharedMemoryUsage ≥ sharedFrameSize

/-- `add_child_node_page_table`. -/
theorem wp_addChildNodePageTable (h : PoolInv r s.pool held free) (ok : Bool)
    {Q : Option (PageTableNode × PageDirectory) → MemoryState → Prop} {E : MemoryFault → Prop}
    (none : ∀ t, d.Full ∨ free = [] ∨ ok = false → Q none t)
    (some : ∀ table free' pool, free = table :: free' → ¬ d.Full → ok = true → type.start + d.usageOf type ≤ type.stop →
      PoolInv r pool (table :: held) free' → OnlyFrames [table] s.pool.mem pool.mem →
      (∀ i < ptSize, pteAt pool.mem table i = .ofWord 0) →
      Q (some (⟨table, 0, type.start + d.usageOf type⟩,
        { d.take type with children := d.children ++ [⟨table, 0, type.start + d.usageOf type⟩] })) { s with pool := pool }) :
    wp (addChildNodePageTable d type ok) Q E s := by
  unfold addChildNodePageTable
  split
  next hfull =>
    rw [wp_pure]
    exact none s (.inl hfull)
  next hlimits =>
    have hlimit := d.usageOf_le type (by omega) (by omega) (by omega)
    rw [wp_bind]
    refine wp_takePageTable h (fun hnil => ?_) fun table free' pool hfree hne hpool hmem hblank => ?_
    · simp only [if_true, wp_pure]
      exact none s (.inr (.inl hnil))
    · rw [if_neg hne]
      split
      next hok =>
        rw [wp_pure]
        exact none _ (.inr (.inr hok))
      next hok =>
        rw [wp_pure]
        exact some table free' pool hfree hlimits (by simpa using hok) hlimit hpool hmem hblank

/-- `add_frame_to_process` for a page that is not shared: it fails, or one more page is
reserved. -/
theorem wp_addFrameToProcess (h : Reserving r p m d type ts n held free free' s t) (htype : type ≠ .shared)
    (hout : OutOf type d.children) (hused : d.usageOf type = 0) (ok : Bool) :
    wp (addFrameToProcess p type ok)
      (fun v u => v = -1 ∧ tablesOf (n + 1) = ts.length + 1 ∧ ((d.takes ts.length type).Full ∨ free' = [] ∨ ok = false) ∨
        v = 0 ∧ ∃ ts' free'', (∀ j, ts.length ≤ j → j < ts'.length → j = ts.length ∧ ok = true ∧ ¬ (d.takes j type).Full) ∧
          Reserving r p m d type ts' (n + 1) held free free'' s u) (fun _ => False) t := by
  have hchildren : (d.reserve type ts n).children = d.children ++ nodesOf type.start ts n := rfl
  rw [addFrameToProcess, wp_bind, wp_procMemory h.proc]
  simp only [hchildren, findRoom_out hout]
  by_cases hroom : n < ptSize * ts.length
  · obtain ⟨node, e⟩ := findRoom_room hroom (Nat.le_refl type.start) h.room
    simp only [e, Option.map_some, if_neg htype, wp_bind, wp_setProcMemory, wp_pure]
    exact .inr ⟨trivial, ts, free', fun j hlo hhi => absurd hhi (Nat.not_lt.2 hlo), h.more hroom⟩
  · have hfull := h.fits.full hroom
    simp only [findRoom_full (Nat.le_of_not_lt hroom), Option.map_none, wp_bind]
    refine wp_addChildNodePageTable h.pool ok (fun u hu => .inl ⟨rfl, h.fits.tablesOf_succ hroom, hu⟩) fun table free'' pool hfree hroomy hok hlimit hpool hmem hblank => ?_
    rw [PageDirectory.usageOf_reserve, hused, Nat.zero_add] at hlimit ⊢
    subst hfree
    simp only [if_neg htype, wp_bind, wp_setProcMemory, wp_pure]
    refine .inr ⟨trivial, ts ++ [table], free'', fun j hlo hhi => ?_, ?_⟩
    · rw [List.length_append, List.length_singleton] at hhi
      obtain rfl : j = ts.length := by omega
      exact ⟨rfl, hok, hroomy⟩
    have := h.snoc hroom hlimit hpool hmem hblank
    rw [← PageDirectory.reserve_snoc hfull] at this
    exact this

/-! ## The loops -/

/-- The record after `k` pages of a loop, if they count for the stack pointer. -/
def ProcessMemory.shifted (m : ProcessMemory) (shift : Bool) (k : Nat) : ProcessMemory :=
  { m with stackShift := if shift then (m.stackShift + k) % 2 ^ 16 else m.stackShift }

theorem ProcessMemory.shifted_shifted (m : ProcessMemory) (shift : Bool) (j k : Nat) :
    (m.shifted shift j).shifted shift k = m.shifted shift (k + j) := by
  cases shift with
  | false => rfl
  | true =>
    have : ((m.stackShift + j) % 2 ^ 16 + k) % 2 ^ 16 = (m.stackShift + (k + j)) % 2 ^ 16 := by omega
    simp only [shifted, if_true, this]

/-- Why a loop that needs `b` tables and has `a` of them stops. -/
def Stuck (d : PageDirectory) (type : PageType) (ok : Nat → Bool) (a b : Nat) (free : List Nat) : Prop :=
  (∃ j < b, ok (d.children.length + j) = false) ∨ free.length + a < b ∨ ∃ j < b, (d.takes j type).Full

/-- The tables from the `a`th on can be added up to the `b`th. -/
def Grows (d : PageDirectory) (type : PageType) (ok : Nat → Bool) (a b : Nat) : Prop :=
  ∀ j, a ≤ j → j < b → ok (d.children.length + j) = true ∧ ¬ (d.takes j type).Full

/-- A loop of `add_frames_process`, by induction on the pages left. -/
theorem wp_addFramesLoop (htype : type ≠ .shared) (hout : OutOf type d.children) (hused : d.usageOf type = 0) (shift : Bool)
    (ok : Nat → Bool) (k : Nat) : ∀ (size : Int) (n : Nat) (ts free' : List Nat) (m : ProcessMemory) (t : MemoryState),
    pagesOf size = k → Reserving r p m d type ts n held free free' s t →
    wp (addFramesLoop p type shift ok size)
      (fun v u => v = -1 ∧ Stuck d type ok ts.length (tablesOf (n + k)) free' ∨
        v = 0 ∧ ∃ ts' free'', Grows d type ok ts.length ts'.length ∧
          Reserving r p (m.shifted shift k) d type ts' (n + k) held free free'' s u)
      (fun _ => False) t := by
  induction k with
  | zero => exact fun size n ts free' m t hk _ => absurd hk (Nat.ne_of_gt (pagesOf_pos size))
  | succ k ih =>
    intro size n ts free' m t hk h
    have hchildren : (d.reserve type ts n).children.length = d.children.length + ts.length := by
      rw [PageDirectory.reserve, List.length_append, nodesOf_length]
    rw [addFramesLoop, wp_bind, wp_procMemory h.proc, Option.map_some, Option.getD_some, hchildren, wp_bind]
    refine wp_mono (wp_addFrameToProcess h htype hout hused _) (fun v u _ hv => ?_) fun _ _ h => h
    obtain ⟨rfl, htables, hwhy⟩ | ⟨rfl, ts', free'', hgrows, hnext⟩ := hv
    · rw [if_pos (by decide), wp_pure]
      have hmono : tablesOf (n + 1) ≤ tablesOf (n + (k + 1)) := tablesOf_mono (by omega)
      refine .inl ⟨rfl, ?_⟩
      obtain hfull | rfl | hok := hwhy
      · exact .inr (.inr ⟨ts.length, by omega, hfull⟩)
      · exact .inr (.inl (by simp only [List.length_nil]; omega))
      · exact .inl ⟨ts.length, by omega, hok⟩
    have hgrown : ∀ b, Grows d type ok ts'.length b → Grows d type ok ts.length b := by
      intro b hrest j hlo hhi
      by_cases hj : j < ts'.length
      · obtain ⟨rfl, hok, hroomy⟩ := hgrows j hlo hj
        exact ⟨hok, hroomy⟩
      · exact hrest j (Nat.le_of_not_lt hj) hhi
    have hstuck : ∀ b, Stuck d type ok ts'.length b free'' → Stuck d type ok ts.length b free' := by
      have h1 := congrArg List.length h.taken
      have h2 := congrArg List.length hnext.taken
      rw [List.length_append] at h1 h2
      rintro b (hok | hshort | hfull)
      · exact .inl hok
      · exact .inr (.inl (by omega))
      · exact .inr (.inr hfull)
    -- what is left to do once the page is counted
    have hrest : ∀ u', Reserving r p (m.shifted shift 1) d type ts' (n + 1) held free free'' s u' →
        wp (if size - frameSize > 0 then addFramesLoop p type shift ok (size - frameSize) else pure 0)
          (fun v u => v = -1 ∧ Stuck d type ok ts.length (tablesOf (n + (k + 1))) free' ∨
            v = 0 ∧ ∃ ts' free'', Grows d type ok ts.length ts'.length ∧
              Reserving r p (m.shifted shift (k + 1)) d type ts' (n + (k + 1)) held free free'' s u)
          (fun _ => False) u' := by
      intro u' hu'
      split
      next hmore =>
        rw [pagesOf_more hmore] at hk
        have := ih (size - frameSize) (n + 1) ts' free'' (m.shifted shift 1) u' (by omega) hu'
        rw [ProcessMemory.shifted_shifted, Nat.add_right_comm n 1 k, Nat.add_assoc n k 1] at this
        refine wp_mono this (fun v u _ hv => ?_) fun _ _ h => h
        obtain ⟨rfl, hwhy⟩ | ⟨rfl, ts'', free₃, hmore, hlast⟩ := hv
        · exact .inl ⟨rfl, hstuck _ hwhy⟩
        · exact .inr ⟨rfl, ts'', free₃, hgrown _ hmore, hlast⟩
      next hlast =>
        rw [pagesOf_last hlast] at hk
        obtain rfl : k = 0 := by omega
        exact .inr ⟨rfl, ts', free'', hgrown _ fun j hlo hhi => absurd hhi (Nat.not_lt.2 hlo), hu'⟩
    rw [if_neg (by decide)]
    cases shift with
    | false => exact hrest u hnext
    | true =>
      rw [if_pos rfl, wp_bind, wp_procMemory hnext.proc, wp_bind, wp_setProcMemory]
      exact hrest _ (hnext.write (m.shifted true 1))

/-- Why `add_frames_process` fails for `n` pages of code and stack and `k` of heap. -/
def Scarce (ok : Nat → Bool) (n k : Nat) (free : List Nat) : Prop :=
  (∃ i < tablesOf n + tablesOf k, ok i = false) ∨ free.length < tablesOf n + tablesOf k ∨ stackFrameSize ≤ tablesOf n ∨ heapFrameSize < tablesOf k

/-- Too few tables for the code and the stack. -/
theorem Stuck.scarce_stack {ok : Nat → Bool} {a b k : Nat} (h : Stuck ⟨table, [], 0, 0, 0, 0⟩ .stackCode ok a b free')
    (hfree : free.length = a + free'.length) (hb : b ≤ tablesOf n) : Scarce ok n k free := by
  obtain ⟨j, hj, hok⟩ | hshort | ⟨j, hj, hfull⟩ := h
  · rw [List.length_nil, Nat.zero_add] at hok
    exact .inl ⟨j, by omega, hok⟩
  · exact .inr (.inl (by omega))
  · refine .inr (.inr (.inl ?_))
    simp only [PageDirectory.Full, PageDirectory.takes, ptSize, stackFrameSize, heapFrameSize, sharedFrameSize] at *
    omega

/-- Too few tables for the heap. -/
theorem Stuck.scarce_heap {ok : Nat → Bool} {k : Nat}
    (h : Stuck (PageDirectory.reserve ⟨table, [], 0, 0, 0, 0⟩ .stackCode ts n) .heap ok 0 (tablesOf k) free')
    (hfits : Fits ts n) (hfree : free = ts ++ free') : Scarce ok n k free := by
  have hlen := hfits.length
  obtain ⟨j, hj, hok⟩ | hshort | ⟨j, hj, hfull⟩ := h
  · rw [PageDirectory.reserve, List.nil_append, nodesOf_length] at hok
    exact .inl ⟨ts.length + j, by omega, hok⟩
  · refine .inr (.inl ?_)
    rw [hfree, List.length_append]
    omega
  · simp only [Scarce, PageDirectory.Full, PageDirectory.takes, PageDirectory.reserve, ptSize, stackFrameSize, heapFrameSize,
      sharedFrameSize] at *
    omega

/-- The tables for the code and the stack and for the heap were added. -/
theorem Grows.not_scarce {k : Nat} {hs : List Nat} (hstack : Grows ⟨table, [], 0, 0, 0, 0⟩ .stackCode ok 0 ts.length)
    (hheap : Grows (PageDirectory.reserve ⟨table, [], 0, 0, 0, 0⟩ .stackCode ts n) .heap ok 0 hs.length)
    (hts : Fits ts n) (hhs : Fits hs k) (hpos : 0 < k) (hfree : free = ts ++ (hs ++ free')) : ¬ Scarce ok n k free := by
  have h1 := hts.length
  have h2 := hhs.length
  have h3 := hhs.enough
  rintro (⟨i, hi, hok⟩ | hshort | hlimit | hlimit)
  · by_cases hlt : i < ts.length
    · have hyes := (hstack i (Nat.zero_le i) hlt).1
      rw [List.length_nil, Nat.zero_add, hok] at hyes
      cases hyes
    · have hyes := (hheap (i - ts.length) (Nat.zero_le _) (by omega)).1
      rw [PageDirectory.reserve, List.nil_append, nodesOf_length, show ts.length + (i - ts.length) = i by omega, hok] at hyes
      cases hyes
  · rw [hfree, List.length_append, List.length_append] at hshort
    omega
  · apply (hheap 0 (Nat.le_refl 0) (by unfold ptSize at h3; omega)).2
    simp only [PageDirectory.Full, PageDirectory.takes, PageDirectory.reserve, stackFrameSize] at *
    omega
  · apply (hheap (hs.length - 1) (Nat.zero_le _) (by unfold ptSize at h3; omega)).2
    simp only [PageDirectory.Full, PageDirectory.takes, PageDirectory.reserve, heapFrameSize] at *
    omega

/-- `add_frames_process`: the directory it leaves. -/
theorem wp_addFramesProcess {codeSize heapSize sizeStack : Int} {dir : Nat} {m : ProcessMemory} {s : MemoryState}
    (h : PoolInv r s.pool held free) (hp : s.procs p = some m) (hd : m.pageTablesLvl1List = some ⟨dir, [], 0, 0, 0, 0⟩)
    (ok : Nat → Bool) :
    wp (addFramesProcess p codeSize heapSize sizeStack ok)
      (fun v t => v = -1 ∧ Scarce ok (pagesOf codeSize + pagesOf sizeStack) (pagesOf heapSize) free ∨
        v = 0 ∧ ¬ Scarce ok (pagesOf codeSize + pagesOf sizeStack) (pagesOf heapSize) free ∧ ∃ ts hs free' free'' u,
        Reserving r p (m.shifted true (pagesOf codeSize + pagesOf sizeStack)) ⟨dir, [], 0, 0, 0, 0⟩ .stackCode ts
          (pagesOf codeSize + pagesOf sizeStack) held free free' s u ∧
        Reserving r p (m.shifted true (pagesOf codeSize + pagesOf sizeStack))
          (PageDirectory.reserve ⟨dir, [], 0, 0, 0, 0⟩ .stackCode ts (pagesOf codeSize + pagesOf sizeStack)) .heap hs
          (pagesOf heapSize) (ts.reverse ++ held) free' free'' u t)
      (fun _ => False) s := by
  have hempty : OutOf .stackCode (PageDirectory.children ⟨dir, [], 0, 0, 0, 0⟩) := by simp [OutOf]
  rw [addFramesProcess, wp_bind]
  refine wp_mono (wp_addFramesLoop (by decide) hempty rfl true ok _ codeSize 0 [] free m s rfl (.nil h hp hd))
    (fun v t _ hv => ?_) fun _ _ h => h
  obtain ⟨rfl, hstuck⟩ | ⟨rfl, ts₀, free', hgrows, hcode⟩ := hv
  · rw [if_pos (by decide), wp_pure]
    rw [Nat.zero_add] at hstuck
    exact .inl ⟨rfl, hstuck.scarce_stack (by simp) (tablesOf_mono (Nat.le_add_right _ _))⟩
  rw [if_neg (by decide), wp_bind]
  refine wp_mono (wp_addFramesLoop (by decide) hempty rfl true ok _ sizeStack _ ts₀ free' _ t rfl hcode)
    (fun v t _ hv => ?_) fun _ _ h => h
  obtain ⟨rfl, hstuck⟩ | ⟨rfl, ts, free', hgrows', hstack⟩ := hv
  · rw [if_pos (by decide), wp_pure]
    rw [Nat.zero_add] at hstuck
    exact .inl ⟨rfl, hstuck.scarce_stack (by rw [hcode.taken, List.length_append]) (Nat.le_refl _)⟩
  rw [if_neg (by decide), wp_bind]
  rw [ProcessMemory.shifted_shifted, Nat.zero_add, Nat.add_comm (pagesOf sizeStack)] at hstack
  have hout : OutOf .heap (PageDirectory.reserve ⟨dir, [], 0, 0, 0, 0⟩ .stackCode ts (pagesOf codeSize + pagesOf sizeStack)).children := by
    intro node hnode
    have h1 := nodesOf_index hnode
    have h2 := hstack.room
    simp only [PageType.start, PageType.stop] at *
    omega
  refine wp_mono (wp_addFramesLoop (by decide) hout rfl false ok _ heapSize 0 [] free' _ t rfl (.nil hstack.pool hstack.proc rfl))
    (fun v u _ hv => ?_) fun _ _ h => h
  obtain ⟨rfl, hstuck⟩ | ⟨rfl, hs, free'', hgrowsHeap, hheap⟩ := hv
  · rw [if_pos (by decide), wp_pure]
    rw [Nat.zero_add] at hstuck
    exact .inl ⟨rfl, hstuck.scarce_heap hstack.fits hstack.taken⟩
  rw [if_neg (by decide), wp_pure]
  rw [Nat.zero_add] at hheap
  have hgrowsStack : Grows ⟨dir, [], 0, 0, 0, 0⟩ .stackCode ok 0 ts.length := by
    intro j hlo hhi
    by_cases hj : j < ts₀.length
    · exact hgrows j hlo hj
    · exact hgrows' j (Nat.le_of_not_lt hj) hhi
  have htaken : free = ts ++ (hs ++ free'') := by rw [hstack.taken, hheap.taken]
  have hplenty := hgrowsStack.not_scarce hgrowsHeap hstack.fits hheap.fits (pagesOf_pos heapSize) htaken
  exact .inr ⟨rfl, hplenty, ts, hs, free', free'', t, hstack, Reserving.forget (m := m.shifted true _) hheap⟩

/-- Without a level 1 node it fails. -/
theorem wp_addFramesProcess_none {codeSize heapSize sizeStack : Int} (hp : s.procs p = some m) (hd : m.pageTablesLvl1List = none)
    (ok : Nat → Bool) :
    wp (addFramesProcess p codeSize heapSize sizeStack ok) (fun v _ => v = -1) (fun _ => False) s := by
  have hadd : ∀ b, wp (addFrameToProcess p .stackCode b) (fun v _ => v = -1) (fun _ => False) s := by
    intro b
    rw [addFrameToProcess, wp_bind, wp_procMemory hp]
    simp only [hd, wp_pure]
  rw [addFramesProcess, wp_bind, addFramesLoop, wp_bind, wp_procMemory hp, wp_bind]
  refine wp_mono (hadd _) (fun v t _ hv => ?_) fun _ _ h => h
  rw [hv, if_pos (by decide), wp_pure, if_pos (by decide), wp_pure]

end Xinul
