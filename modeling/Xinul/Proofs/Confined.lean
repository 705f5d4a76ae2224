import Xinul.Proofs.Allocating

/-!
# What a start touches, whatever comes of it

A `start_virtual` that runs out of memory leaves tables and pages behind. But on
every path it takes its frames from the free list and writes only frames it took.
-/

namespace Xinul

open Bytes Prog

variable {r : Region} {p : Ptr} {held free taken : List Nat} {s t : MemoryState}

/-- The tables of a directory are among the frames `taken`, and their entries are entries of tables. -/
structure PageDirectory.Within (d : PageDirectory) (taken : List Nat) : Prop where
  table : d.table ∈ taken
  children : ∀ node ∈ d.children, node.table ∈ taken ∧ node.usage ≤ ptSize ∧ node.index < ptSize

/-- Since `s` the frames `taken` were taken from the free list for the process `p`, and nothing
but them and its record was written. -/
structure Confined (r : Region) (p : Ptr) (held free : List Nat) (s : MemoryState) (taken : List Nat) (t : MemoryState) :
    Prop where
  pool : ∃ free', free.Perm (taken ++ free') ∧ PoolInv r t.pool (taken ++ held) free'
  only : OnlyFrames taken s.pool.mem t.pool.mem
  others : ∀ q, q ≠ p → t.procs q = s.procs q
  state : t = { s with pool := t.pool, procs := t.procs }
  tables : ∀ m d, t.procs p = some m → m.pageTablesLvl1List = some d → d.Within taken

/-- The same with some more frames, which include those of before. -/
def Grown (r : Region) (p : Ptr) (held free : List Nat) (s : MemoryState) (taken : List Nat) (Q : List Nat → Prop)
    (t : MemoryState) : Prop :=
  ∃ taken', taken ⊆ taken' ∧ Confined r p held free s taken' t ∧ Q taken'

theorem PageDirectory.Within.mono {d : PageDirectory} {taken' : List Nat} (h : d.Within taken) (hs : taken ⊆ taken') :
    d.Within taken' :=
  ⟨hs h.table, fun node hnode => ⟨hs (h.children node hnode).1, (h.children node hnode).2⟩⟩

theorem Confined.grown {Q : List Nat → Prop} (h : Confined r p held free s taken t) (hQ : Q taken) :
    Grown r p held free s taken Q t := ⟨taken, fun _ hf => hf, h, hQ⟩

/-- What the first part of a program took, the second part may use. -/
theorem wp_grown {α β : Type} {m : MemoryM α} {f : α → MemoryM β} {Q : α → List Nat → Prop} {Q' : β → List Nat → Prop}
    (hm : wp m (fun a u => Grown r p held free s taken (Q a) u) (fun _ => True) t)
    (hf : ∀ a taken' u, taken ⊆ taken' → Confined r p held free s taken' u → Q a taken' →
      wp (f a) (fun b v => Grown r p held free s taken' (Q' b) v) (fun _ => True) u) :
    wp (m >>= f) (fun b v => Grown r p held free s taken (Q' b) v) (fun _ => True) t := by
  refine wp_seq hm fun a u _ hu => ?_
  obtain ⟨taken', hsub, hconf, hq⟩ := hu
  refine wp_mono (hf a taken' u hsub hconf hq) (fun b v _ hv => ?_) fun _ _ h => h
  obtain ⟨taken'', hsub', hconf', hq'⟩ := hv
  exact ⟨taken'', fun f hf => hsub' (hsub hf), hconf', hq'⟩

/-- The record of the process is written. -/
theorem Confined.setProc (h : Confined r p held free s taken t) (m : ProcessMemory)
    (hm : ∀ d, m.pageTablesLvl1List = some d → d.Within taken) : Confined r p held free s taken (t.setProc p m) where
  pool := h.pool
  only := h.only
  others := by
    intro q hq
    exact (Function.update_of_ne hq _ _).trans (h.others q hq)
  state := by
    rw [h.state]
    rfl
  tables := by
    intro m' d hm' hd
    have hm' : Function.update t.procs p (some m) p = some m' := hm'
    rw [Function.update_self] at hm'
    cases hm'
    exact hm d hd

/-- A frame taken is written. -/
theorem Confined.setMem {f : Nat} {mem : Memory} (h : Confined r p held free s taken t) (hf : f ∈ taken)
    (hmem : OnlyFrames [f] t.pool.mem mem) : Confined r p held free s taken (t.setMem mem) where
  pool := by
    obtain ⟨free', hperm, hpool⟩ := h.pool
    exact ⟨free', hperm, hpool.write [f] (by simp [hf]) hmem⟩
  only := h.only.trans (hmem.mono (by simpa using hf))
  others := h.others
  state := by
    rw [h.state]
    rfl
  tables := h.tables

/-- An entry of a table taken is written. -/
theorem Confined.link {table i address : Nat} {read write exec userMode : Bool} {size : PageSize}
    (h : Confined r p held free s taken t) (ht : table ∈ taken) (hi : i < ptSize) :
    Confined r p held free s taken (t.setMem (configurePte t.pool.mem table i address read write exec userMode size)) :=
  h.setMem ht (onlyFrames_setPte hi)

/-- A frame is taken, and perhaps written. -/
theorem Confined.take {f : Nat} {free' : List Nat} {pool : FramePool} (h : Confined r p held free s taken t)
    (hperm : free.Perm (taken ++ f :: free')) (hpool : PoolInv r pool (f :: (taken ++ held)) free')
    (hmem : OnlyFrames [f] t.pool.mem pool.mem) : Confined r p held free s (f :: taken) { t with pool := pool } where
  pool := ⟨free', hperm.trans List.perm_middle, hpool⟩
  only := (h.only.mono (List.subset_cons_self ..)).trans (hmem.mono (by simp))
  others := h.others
  state := by
    rw [h.state]
  tables := fun m d hm hd => (h.tables m d hm hd).mono (List.subset_cons_self ..)

-- the elaborator would run them on a symbolic memory
attribute [local irreducible] takeFrame takePageTable

theorem wp_takeFrame_confined (h : Confined r p held free s taken t) :
    wp takeFrame (fun f u => Grown r p held free s taken (fun taken' => f ≠ 0 → f ∈ taken') u) (fun _ => True) t := by
  obtain ⟨free', hperm, hpool⟩ := h.pool
  apply wp_takeFrame hpool
  · intro _
    exact h.grown fun hne => absurd rfl hne
  · intro f free'' pool hfree hne hpool' hmem
    subst hfree
    have hconf := h.take hperm hpool' (by rw [hmem]; exact .refl _ _)
    exact ⟨f :: taken, List.subset_cons_self .., hconf, fun _ => List.mem_cons_self⟩

theorem wp_takePageTable_confined (h : Confined r p held free s taken t) :
    wp takePageTable (fun f u => Grown r p held free s taken (fun taken' => f ≠ 0 → f ∈ taken') u) (fun _ => True) t := by
  obtain ⟨free', hperm, hpool⟩ := h.pool
  apply wp_takePageTable hpool
  · intro _
    exact h.grown fun hne => absurd rfl hne
  · intro f free'' pool hfree hne hpool' hmem _
    subst hfree
    exact ⟨f :: taken, List.subset_cons_self .., h.take hperm hpool' hmem, fun _ => List.mem_cons_self⟩

/-! ## Reserving -/

theorem findRoom_within {type : PageType} {nodes nodes' : List PageTableNode} {node : PageTableNode}
    (h : ∀ node ∈ nodes, node.table ∈ taken ∧ node.usage ≤ ptSize ∧ node.index < ptSize)
    (hfind : findRoom type nodes = some (node, nodes')) :
    ∀ node ∈ nodes', node.table ∈ taken ∧ node.usage ≤ ptSize ∧ node.index < ptSize := by
  induction nodes generalizing nodes' with
  | nil => cases hfind
  | cons head rest ih =>
    have hhead := h head (by simp)
    have hrest : ∀ node ∈ rest, node.table ∈ taken ∧ node.usage ≤ ptSize ∧ node.index < ptSize :=
      fun node hnode => h node (List.mem_cons_of_mem _ hnode)
    rw [findRoom] at hfind
    split at hfind
    next hroom =>
      cases hfind
      rw [List.forall_mem_cons]
      exact ⟨⟨hhead.1, hroom.2.2, hhead.2.2⟩, hrest⟩
    next =>
      obtain ⟨⟨found, rest'⟩, hfound, he⟩ := Option.map_eq_some_iff.1 hfind
      cases he
      rw [List.forall_mem_cons]
      exact ⟨hhead, ih hrest hfound⟩

theorem PageDirectory.take_table (d : PageDirectory) (type : PageType) : (d.take type).table = d.table := by
  cases type with
  | stackCode => rfl
  | heap => rfl
  | shared => rfl

theorem wp_addChildNodePageTable_confined {d : PageDirectory} (type : PageType) (ok : Bool) (hd : d.Within taken)
    (h : Confined r p held free s taken t) :
    wp (addChildNodePageTable d type ok)
      (fun o u => Grown r p held free s taken (fun taken' => ∀ node d', o = some (node, d') →
        d'.Within taken' ∧ node ∈ d'.children) u) (fun _ => True) t := by
  unfold addChildNodePageTable
  split
  next =>
    rw [wp_pure]
    exact h.grown (by simp)
  next hlimits =>
  have hlimit := d.usageOf_le type (by omega) (by omega) (by omega)
  have hstop : type.stop < ptSize := by
    cases type with
    | stackCode => decide
    | heap => decide
    | shared => decide
  refine wp_grown (wp_takePageTable_confined h) fun table taken' u hsub hconf htable => ?_
  split
  next =>
    rw [wp_pure]
    exact hconf.grown (by simp)
  next hne =>
  split
  next =>
    rw [wp_pure]
    exact hconf.grown (by simp)
  next =>
  rw [wp_pure]
  apply hconf.grown
  intro node d' he
  cases he
  have hwithin := hd.mono hsub
  refine ⟨⟨?_, ?_⟩, by simp⟩
  · show (d.take type).table ∈ taken'
    rw [d.take_table type]
    exact hwithin.table
  · intro node hnode
    obtain hnode | hnode := List.mem_append.1 hnode
    · exact hwithin.children node hnode
    · rw [List.mem_singleton.1 hnode]
      exact ⟨htable hne, Nat.zero_le _, Nat.lt_of_le_of_lt hlimit hstop⟩

theorem wp_addFrameToProcess_confined {type : PageType} (htype : type ≠ .shared) (ok : Bool)
    (h : Confined r p held free s taken t) :
    wp (addFrameToProcess p type ok) (fun _ u => Grown r p held free s taken (fun _ => True) u) (fun _ => True) t := by
  rw [addFrameToProcess, wp_bind]
  cases hp : t.procs p with
  | none => simp only [procMemory, wp_bind, wp_get, hp, wp_throw]
  | some m =>
  rw [wp_procMemory hp]
  split
  next =>
    rw [wp_pure]
    exact h.grown trivial
  next d hd =>
  have hwithin := h.tables m d hp hd
  split
  next node children hfind =>
    rw [if_neg htype, wp_bind, wp_setProcMemory, wp_pure]
    refine (h.setProc _ fun d' hd' => ?_).grown trivial
    cases hd'
    exact ⟨hwithin.table, findRoom_within hwithin.children hfind⟩
  next =>
  refine wp_grown (wp_addChildNodePageTable_confined type ok hwithin h) fun o taken' u hsub hconf hnew => ?_
  cases o with
  | none =>
    rw [wp_pure]
    exact hconf.grown trivial
  | some new =>
    obtain ⟨hd', hnode⟩ := hnew new.1 new.2 rfl
    have hchild := hd'.children _ hnode
    simp only [if_neg htype, wp_bind, wp_setProcMemory, wp_pure]
    refine (hconf.setProc _ fun d'' hd'' => ?_).grown trivial
    cases hd''
    refine ⟨hd'.table, fun node hnode => ?_⟩
    obtain hnode | hnode := List.mem_append.1 hnode
    · exact (hwithin.mono hsub).children node hnode
    · rw [List.mem_singleton.1 hnode]
      exact ⟨hchild.1, show 1 ≤ 512 by decide, hchild.2.2⟩

/-- The loop, by induction on what is left of the size. -/
theorem wp_addFramesLoop_confined {type : PageType} (htype : type ≠ .shared) (shift : Bool) (ok : Nat → Bool) (n : Nat) :
    ∀ (size : Int) (taken : List Nat) (t : MemoryState), size.toNat ≤ n → Confined r p held free s taken t →
      wp (addFramesLoop p type shift ok size) (fun _ u => Grown r p held free s taken (fun _ => True) u) (fun _ => True) t := by
  induction n using Nat.strong_induction_on with
  | _ n ih =>
  intro size taken t hsize h
  rw [addFramesLoop, wp_bind]
  cases hp : t.procs p with
  | none => simp only [procMemory, wp_bind, wp_get, hp, wp_throw]
  | some m =>
  rw [wp_procMemory hp]
  refine wp_grown (wp_addFrameToProcess_confined htype _ h) fun v taken' u _ hconf _ => ?_
  split
  next =>
    rw [wp_pure]
    exact hconf.grown trivial
  next =>
  have hrest : ∀ u, Confined r p held free s taken' u →
      wp (if size - frameSize > 0 then addFramesLoop p type shift ok (size - frameSize) else pure 0)
        (fun _ u => Grown r p held free s taken' (fun _ => True) u) (fun _ => True) u := by
    intro u hu
    split
    next hmore =>
      unfold frameSize at hmore
      exact ih (size - frameSize).toNat (by unfold frameSize; omega) _ taken' u (Nat.le_refl _) hu
    next =>
      rw [wp_pure]
      exact hu.grown trivial
  cases shift with
  | false => exact hrest u hconf
  | true =>
    simp only [if_true, wp_bind]
    cases hp' : u.procs p with
    | none => simp only [procMemory, wp_bind, wp_get, hp', wp_throw]
    | some m' =>
      rw [wp_procMemory hp', wp_setProcMemory]
      exact hrest _ (hconf.setProc _ fun d hd => hconf.tables m' d hp' hd)

theorem wp_addFramesProcess_confined (codeSize heapSize sizeStack : Int) (ok : Nat → Bool)
    (h : Confined r p held free s taken t) :
    wp (addFramesProcess p codeSize heapSize sizeStack ok) (fun _ u => Grown r p held free s taken (fun _ => True) u)
      (fun _ => True) t := by
  rw [addFramesProcess]
  refine wp_grown (wp_addFramesLoop_confined (by decide) true ok _ codeSize taken t (Nat.le_refl _) h)
    fun v taken1 u _ h1 _ => ?_
  split
  next =>
    rw [wp_pure]
    exact h1.grown trivial
  next =>
  refine wp_grown (wp_addFramesLoop_confined (by decide) true ok _ sizeStack taken1 u (Nat.le_refl _) h1)
    fun v taken2 u _ h2 _ => ?_
  split
  next =>
    rw [wp_pure]
    exact h2.grown trivial
  next =>
  refine wp_grown (wp_addFramesLoop_confined (by decide) false ok _ heapSize taken2 u (Nat.le_refl _) h2)
    fun v taken3 u _ h3 _ => ?_
  split
  next =>
    rw [wp_pure]
    exact h3.grown trivial
  next =>
    rw [wp_pure]
    exact h3.grown trivial

/-! ## Allocating -/

/-- The inner loop, by induction on the pages left. -/
theorem wp_allocateEntries_confined {table : Nat} (n : Nat) : ∀ (index : Nat) (w : Writing) (taken : List Nat) (t : MemoryState),
    Confined r p held free s taken t → table ∈ taken → index + n ≤ ptSize →
      wp (allocateEntries table n index w) (fun _ u => Grown r p held free s taken (fun _ => True) u) (fun _ => True) t := by
  induction n with
  | zero => exact fun index w taken t h _ _ => h.grown trivial
  | succ n ih =>
    intro index w taken t h htable hindex
    rw [allocateEntries]
    refine wp_grown (wp_takeFrame_confined h) fun f taken' u hsub hconf hf => ?_
    split
    next =>
      rw [wp_pure]
      exact hconf.grown trivial
    next hne =>
    simp only [wp_bind, wp_get, wp_modify]
    have hfill := hconf.setMem (hf hne) (onlyFrames_fillFrame w u.pool.mem f)
    have hindex' : index < ptSize := by omega
    exact ih (index + 1) _ taken' _ (hfill.link (hsub htable) hindex') (hsub htable) (by omega)

/-- The outer loop, by induction on the tables left. -/
theorem wp_allocateTables_confined {dir : Nat} (n : Nat) : ∀ (index : Nat) (nodes : List PageTableNode) (w : Writing)
    (taken : List Nat) (t : MemoryState), Confined r p held free s taken t → dir ∈ taken →
      (∀ node ∈ nodes, node.table ∈ taken ∧ node.usage ≤ ptSize ∧ node.index < ptSize) →
      wp (allocateTables dir n index nodes w) (fun _ u => Grown r p held free s taken (fun _ => True) u) (fun _ => True) t := by
  induction n with
  | zero => exact fun index nodes w taken t h _ _ => h.grown trivial
  | succ n ih =>
    intro index nodes w taken t h hdir hnodes
    cases nodes with
    | nil => trivial
    | cons node rest =>
    obtain ⟨htable, husage, hindex⟩ := hnodes node (by simp)
    rw [allocateTables]
    split
    next => trivial
    next heq =>
    split
    next =>
      rw [wp_pure]
      exact h.grown trivial
    next =>
    rw [wp_bind, wp_modify]
    have hindex' : index < ptSize := by omega
    refine wp_grown (wp_allocateEntries_confined node.usage 0 w taken _ (h.link hdir hindex') htable (by omega))
      fun o taken' u hsub hconf _ => ?_
    cases o with
    | none => exact hconf.grown trivial
    | some w' =>
      refine ih (index + 1) rest w' taken' u hconf (hsub hdir) fun node hnode => ?_
      have := hnodes node (List.mem_cons_of_mem _ hnode)
      exact ⟨hsub this.1, this.2⟩

theorem wp_allocateMemoryFinal_confined (first last : Nat) (data : Option Nat) (dataSize : Int)
    (h : Confined r p held free s taken t) :
    wp (allocateMemoryFinal p first last data dataSize) (fun _ u => Grown r p held free s taken (fun _ => True) u)
      (fun _ => True) t := by
  unfold allocateMemoryFinal
  rw [wp_bind]
  cases hp : t.procs p with
  | none => simp only [procMemory, wp_bind, wp_get, hp, wp_throw]
  | some m =>
  rw [wp_procMemory hp]
  cases hd : m.pageTablesLvl1List with
  | none => exact h.grown trivial
  | some d =>
  have hwithin := h.tables m d hp hd
  simp only
  cases hnodes : d.children.dropWhile (fun node => node.index ≠ first) with
  | nil => exact h.grown trivial
  | cons node rest =>
    apply wp_allocateTables_confined
    · exact h
    · exact hwithin.table
    · intro node' hnode
      rw [← hnodes] at hnode
      exact hwithin.children node' ((List.dropWhile_sublist _).subset hnode)

theorem wp_processFramesAlloc_confined {r' : Region} (app : App r') (h : Confined r p held free s taken t) :
    wp (processFramesAlloc p app) (fun _ u => Grown r p held free s taken (fun _ => True) u) (fun _ => True) t := by
  rw [processFramesAlloc, wp_bind]
  cases hp : t.procs p with
  | none => simp only [procMemory, wp_bind, wp_get, hp, wp_throw]
  | some m =>
  rw [wp_procMemory hp]
  split
  next => trivial
  next d hd =>
  refine wp_grown (wp_allocateMemoryFinal_confined _ _ _ _ h) fun v taken1 u _ h1 _ => ?_
  split
  next =>
    rw [wp_pure]
    exact h1.grown trivial
  next =>
  refine wp_grown (wp_allocateMemoryFinal_confined _ _ _ _ h1) fun v taken2 u _ h2 _ => ?_
  split
  next =>
    rw [wp_pure]
    exact h2.grown trivial
  next =>
    rw [wp_pure]
    exact h2.grown trivial

theorem wp_processMemoryAllocator_confined {r' : Region} {m : ProcessMemory} (app : App r') (size : Nat) (env : NodesEnv)
    (h : Confined r p held free s taken t) (hp : t.procs p = some m) (hnone : m.pageTablesLvl1List = none) :
    wp (processMemoryAllocator p app size env) (fun _ u => Grown r p held free s taken (fun _ => True) u) (fun _ => True) t := by
  unfold processMemoryAllocator
  split
  next =>
    rw [wp_pure]
    exact h.grown trivial
  rw [wp_bind, wp_procMemory hp, wp_bind, wp_setProcMemory]
  have h0 := h.setProc { m with stackShift := 0 } (by simp [hnone])
  refine wp_grown (wp_takePageTable_confined h0) fun root taken1 u _ h1 hroot => ?_
  split
  next =>
    rw [wp_pure]
    exact h1.grown trivial
  next hne =>
  rw [wp_bind, wp_setProcMemory, wp_bind, wp_modify]
  have hcopied := (h1.setProc { m with stackShift := 0, pageTableLevel2 := root } (by simp [hnone])).setMem (hroot hne)
    (onlyFrames_memcpy u.kernelBasePageTable)
  refine wp_grown (wp_takePageTable_confined hcopied) fun dir taken2 u hsub h2 hdir => ?_
  split
  next =>
    rw [wp_pure]
    exact h2.grown trivial
  next hne' =>
  rw [wp_bind, wp_setProcMemory, wp_bind, wp_modify]
  have hlinked := h2.setProc { m with
    stackShift := 0
    pageTableLevel2 := root
    pageTablesLvl1List := if env.lvl1 then some ⟨dir, [], 0, 0, 0, 0⟩ else none } (by
      intro d hd
      split at hd
      next =>
        cases hd
        exact ⟨hdir hne', by simp⟩
      next => cases hd)
  refine wp_grown (wp_addFramesProcess_confined _ _ _ env.child (hlinked.link (hsub (hroot hne)) (by decide)))
    fun v taken3 u _ h3 _ => ?_
  split
  next =>
    rw [wp_pure]
    exact h3.grown trivial
  next =>
  refine wp_grown (wp_processFramesAlloc_confined app h3) fun v taken4 u _ h4 _ => ?_
  split
  next =>
    rw [wp_pure]
    exact h4.grown trivial
  next =>
    rw [wp_pure]
    exact h4.grown trivial

/-- The part of `start_virtual` about memory, whatever it returns. -/
theorem wp_startMemory_confined (app : App r) (size : Nat) (env : NodesEnv) (contextOk : Bool)
    (hinv : PoolInv r s.pool held free) :
    wp (startMemory p app size env contextOk) (fun _ t => ∃ taken, Confined r p held free s taken t) (fun _ => True) s := by
  have h0 : Confined r p held free s [] (s.setProc p .blank) := by
    constructor
    · exact ⟨free, List.Perm.refl _, hinv⟩
    · exact .refl _ _
    · exact fun q hq => Function.update_of_ne hq _ _
    · rfl
    · intro m d hm hd
      have hm : Function.update s.procs p (some .blank) p = some m := hm
      rw [Function.update_self] at hm
      cases hm
      cases hd
  have hgrown : wp (startMemory p app size env contextOk) (fun _ t => Grown r p held free s [] (fun _ => True) t)
      (fun _ => True) s := by
    rw [startMemory, wp_bind, wp_setProcMemory]
    refine wp_grown (wp_processMemoryAllocator_confined app size env h0 (Function.update_self ..) rfl)
      fun v taken1 u _ h1 _ => ?_
    split
    next =>
      rw [wp_pure]
      exact h1.grown trivial
    next =>
    split
    next =>
      rw [wp_pure]
      exact h1.grown trivial
    next =>
    refine wp_grown (wp_takeFrame_confined h1) fun f taken2 u _ h2 _ => ?_
    split
    next =>
      rw [wp_pure]
      exact h2.grown trivial
    next =>
    rw [wp_bind]
    cases hp : u.procs p with
    | none => simp only [procMemory, wp_bind, wp_get, hp, wp_throw]
    | some m =>
      rw [wp_procMemory hp, wp_bind, wp_setProcMemory, wp_pure]
      have h3 := h2.setProc { m with sscratchFrame := f } fun d hd => h2.tables m d hp hd
      exact h3.grown trivial
  refine wp_mono hgrown (fun v t _ ht => ?_) fun _ _ h => h
  obtain ⟨taken, -, hconf, -⟩ := ht
  exact ⟨taken, hconf⟩

end Xinul
