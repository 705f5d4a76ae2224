import Xinul.Kernel.SharedMemory
import Xinul.Proofs.Releasing
import Xinul.Runs.HashFailures
import Xinul.Runs.UserPages

/-!
# What `shm_create` leaves when it fails

A page is created in steps: a frame, an entry of the global table, a node of the caller, a
place in its tables. The steps done are not undone, and `create_shared_page` does not ask
whether it got a frame.
-/

namespace Xinul

open Bytes Prog

/-! ## `hash_set` on any table -/

/-- A larger table would have a size below 0. -/
def HashTable.Overfull (map : HashTable) : Prop :=
  3 * map.fill ≥ 2 * (map.mask + 1).toInt ∧ ((map.mask + 1) <<< 1).slt (map.mask + 1) = true

/-- `hash_update` cannot give the table the size it needs. -/
def HashTable.Barred (map : HashTable) (heap : Heap) : Prop := map.Overfull ∨ map.Denied heap

/-- `hash_set` of a key whose slot is `slot` returns -1. -/
def HashTable.SetBarred (map : HashTable) (heap : Heap) (slot : HashSlot) : Prop :=
  slot.mode ≠ .active ∧ HashTable.Barred { map with
    count := map.count + 1, fill := if slot.mode = .empty then map.fill + 1 else map.fill } heap

section

variable {fuel i : Nat} {strings : Strings} {heap : Heap} {map new : HashTable} {key value : Word} {slot : HashSlot} {r : Int}
  {slots : List HashSlot}

theorem hashCopySlot_size (h : hashCopySlot fuel strings map slot = some new) :
    new.mask = map.mask ∧ new.table.length = map.table.length ∧ (slot.mode = .active → map.table ≠ []) := by
  rw [hashCopySlot] at h
  split at h
  next hne =>
    cases h
    exact ⟨rfl, rfl, fun ha => absurd ha hne⟩
  next =>
    rw [Option.bind_eq_bind, Option.bind_eq_some_iff] at h
    obtain ⟨i, hi, e⟩ := h
    cases e
    refine ⟨rfl, List.length_set, fun _ hnil => ?_⟩
    cases fuel with
    | zero => cases hi
    | succ fuel =>
      rw [hashLookup, hashLookupLoop, hnil] at hi
      cases hi

/-- A table without slots takes no key. -/
theorem hashCopy_size (h : hashCopy fuel strings map slots = some new) :
    new.mask = map.mask ∧ ((∃ slot ∈ slots, slot.mode = .active) → map.table ≠ []) := by
  induction slots generalizing map with
  | nil =>
    cases h
    refine ⟨rfl, ?_⟩
    rintro ⟨slot, hs, -⟩
    cases hs
  | cons old slots ih =>
    rw [hashCopy, List.foldlM_cons, Option.bind_eq_bind, Option.bind_eq_some_iff] at h
    obtain ⟨mid, hmid, h⟩ := h
    obtain ⟨hmask, hlength, hold⟩ := hashCopySlot_size hmid
    obtain ⟨hmask', hrest⟩ := ih h
    refine ⟨hmask'.trans hmask, ?_⟩
    rintro ⟨slot, hs, ha⟩
    rcases List.mem_cons.1 hs with rfl | hs
    · exact hold ha
    · have hne := hrest ⟨slot, hs, ha⟩
      rw [← List.length_pos_iff] at hne ⊢
      omega

/-- A table of another size is another table. -/
theorem hashResize_outcome {size : BitVec 64} (h : hashResize fuel strings heap map size = some (r, new)) :
    (r = -1 ∧ heap.grants (size * sizeofHashSlot) = false ∧ new = map) ∨
      (r = 0 ∧ heap.grants (size * sizeofHashSlot) = true ∧ new.mask = size - 1 ∧
        ((∃ slot ∈ map.table, slot.mode = .active) → size ≠ 0)) := by
  rw [hashResize, hashInitialize] at h
  cases hg : heap.grants (size * sizeofHashSlot) with
  | false =>
    rw [hg] at h
    cases h
    exact .inl ⟨rfl, rfl, rfl⟩
  | true =>
    rw [hg] at h
    simp only [if_true] at h
    rw [if_neg (by decide), Option.bind_eq_bind, Option.bind_eq_some_iff] at h
    obtain ⟨mid, hcopy, e⟩ := h
    cases e
    obtain ⟨hmask, hactive⟩ := hashCopy_size hcopy
    refine .inr ⟨rfl, rfl, hmask, fun ha hzero => hactive ha ?_⟩
    subst hzero
    rfl

/-- `hash_update` returns -1 just when it is barred, and changes the size if it moves. -/
theorem hashUpdate_outcome (h : hashUpdate fuel strings heap map = some (r, new)) :
    (r = -1 ∧ map.Barred heap ∧ new = map) ∨
      (r = 0 ∧ ¬ map.Barred heap ∧ (new = map ∨ ((∃ slot ∈ map.table, slot.mode = .active) → new.mask ≠ map.mask))) := by
  have hresize : ∀ {size : BitVec 64}, map.asks = some size → ¬ map.Overfull →
      ((∃ slot ∈ map.table, slot.mode = .active) → size ≠ 0 → size ≠ map.mask + 1) →
      hashResize fuel strings heap map size = some (r, new) →
      (r = -1 ∧ map.Barred heap ∧ new = map) ∨
        (r = 0 ∧ ¬ map.Barred heap ∧ (new = map ∨ ((∃ slot ∈ map.table, slot.mode = .active) → new.mask ≠ map.mask))) := by
    intro size hasks hover hother hr
    obtain ⟨rfl, hdenied, rfl⟩ | ⟨rfl, hgranted, hmask, hzero⟩ := hashResize_outcome hr
    · exact .inl ⟨rfl, .inr ⟨size, hasks, hdenied⟩, rfl⟩
    · refine .inr ⟨rfl, ?_, .inr fun ha hsame => ?_⟩
      · rintro (h | ⟨size', hasks', hdenied⟩)
        · exact hover h
        · cases hasks.symm.trans hasks'
          rw [hgranted] at hdenied
          cases hdenied
      · apply hother ha (hzero ha)
        rw [← hsame, hmask]
        exact (BitVec.sub_add_cancel size 1).symm
  simp only [hashUpdate] at h
  split at h
  next hfull =>
    split at h
    next hover =>
      cases h
      exact .inl ⟨rfl, .inl ⟨hfull, hover⟩, rfl⟩
    next hover =>
      refine hresize (by rw [HashTable.asks, if_pos hfull]) (fun h => hover h.2) (fun _ hne hsame => hne ?_) h
      bv_omega
  next hfull =>
    split at h
    next hlow =>
      refine hresize (by rw [HashTable.asks, if_neg hfull, if_pos hlow]) (fun h => hfull h.1) (fun _ _ hsame => ?_) h
      have hpos := hlow.1
      rw [hashMinsize, BitVec.slt_eq_decide, decide_eq_true_eq] at hpos
      have hhalf := congrArg BitVec.toInt hsame
      rw [BitVec.toInt_sshiftRight, Int.shiftRight_eq_div_pow] at hhalf
      have height : (8 : BitVec 64).toInt = 8 := by decide
      omega
    next hlow =>
      cases h
      refine .inr ⟨rfl, ?_, .inl rfl⟩
      rintro (h | ⟨size, hasks, -⟩)
      · exact hfull h.1
      · rw [HashTable.asks, if_neg hfull, if_neg hlow] at hasks
        cases hasks

/-- A key that has not this value yet changes the table, whatever `hash_set` returns. -/
theorem hashSet_outcome {out : Option HashTable} (h : hashSet fuel strings heap (some map) key value = some (r, out)) :
    ∃ i slot new, hashLookup fuel strings map key (map.hfunc strings key) = some i ∧ map.table[i]? = some slot ∧
      out = some new ∧ ((r = -1 ∧ map.SetBarred heap slot) ∨ (r = 0 ∧ ¬ map.SetBarred heap slot)) ∧
      ((slot.mode = .active → slot.value ≠ value) → new ≠ map) := by
  simp only [hashSet, Option.bind_eq_bind, Option.bind_eq_some_iff] at h
  obtain ⟨i, hi, slot, hslot, h⟩ := h
  obtain ⟨hlt, -⟩ := List.getElem?_eq_some_iff.1 hslot
  split at h
  next hactive =>
    cases h
    refine ⟨i, slot, _, hi, hslot, rfl, .inr ⟨rfl, fun hb => hb.1 hactive⟩, fun hne hsame => hne hactive ?_⟩
    have htable := congrArg (fun m : HashTable => m.table[i]?) hsame
    simp only [List.getElem?_set_self hlt, hslot, Option.some.injEq] at htable
    rw [← htable]
  next hfree =>
    rw [Option.bind_eq_some_iff] at h
    obtain ⟨⟨r', new⟩, hu, e⟩ := h
    cases e
    have hin : ∃ s ∈ map.table.set i ⟨key, value, map.hfunc strings key, .active⟩, s.mode = .active :=
      ⟨_, List.mem_set hlt _, rfl⟩
    have hcount : ∀ fill table, ({ map with count := map.count + 1, fill := fill, table := table } : HashTable) ≠ map := by
      intro fill table hsame
      have hc := congrArg HashTable.count hsame
      dsimp only at hc
      omega
    refine ⟨i, slot, new, hi, hslot, rfl, ?_⟩
    obtain ⟨rfl, hbarred, rfl⟩ | ⟨rfl, hbarred, hnew⟩ := hashUpdate_outcome hu
    · exact ⟨.inl ⟨rfl, hfree, hbarred⟩, fun _ => hcount _ _⟩
    · refine ⟨.inr ⟨rfl, fun h => hbarred h.2⟩, fun _ hsame => ?_⟩
      obtain rfl | hmask := hnew
      · exact hcount _ _ hsame
      · have hsize : new.mask = map.mask := by rw [hsame]
        exact hmask hin hsize

end

/-! ## The steps of `shm_create` -/

/-- The address that a node of a shared page stands for. -/
def SharedPagesProc.address (page : SharedPagesProc) : Nat := mapAddressForProcess page.lvl2Index page.lvl1Index page.lvl0Index

/-- And the one of a hole. -/
def ReleasedPage.address (hole : ReleasedPage) : Nat := mapAddressForProcess hole.lvl2Index hole.lvl1Index hole.lvl0Index

/-- There are the table and the list of the process, or memory for them. -/
structure ProcessMemory.CanWrap (m : ProcessMemory) (env : ShmEnv) : Prop where
  table : m.procSharedHashTable = none → env.table = true ∧ env.tableHeap.grants (hashMinsize * sizeofHashSlot) = true
  wrapper : m.sharedPages = none → env.wrapper = true

/-- There is a place for a shared page: a hole, an entry of a table, or a frame for another table. -/
def ProcessMemory.HasPlace (m : ProcessMemory) (pool : FramePool) (childOk : Bool) : Prop :=
  m.releasedPagesList ≠ [] ∨ ∃ d, m.pageTablesLvl1List = some d ∧
    ((findRoom .shared d.children).isSome = true ∨ ¬ d.Full ∧ (getFrame pool).1 ≠ 0 ∧ childOk = true)

/-- The hole that is filled next is not at address 0. -/
def ProcessMemory.HoleNonzero (m : ProcessMemory) : Prop := ∀ hole ∈ m.releasedPagesList.head?, hole.address ≠ 0

section

variable {r : Region} {user : Strings} {p : Ptr} {env : ShmEnv} {s t : MemoryState} {m : ProcessMemory} {a key : Word}
  {pages : List SharedPagesProc} {page new : SharedPagesProc}

theorem hashInitString_zero (heap : Heap) (map : HashTable) :
    (hashInitString heap map).1 = 0 ↔ heap.grants (hashMinsize * sizeofHashSlot) = true := by
  rw [hashInitString, hashInit, hashInitialize]
  cases heap.grants (hashMinsize * sizeofHashSlot) with
  | false => simp
  | true => simp

/-- The rest of `create_hash_table_and_shared_pages_wrapper`, once the table is there. -/
def createWrapper (p : Ptr) (env : ShmEnv) (m : ProcessMemory) : MemoryM Int :=
  match m.sharedPages with
  | some _ => pure 0
  | none =>
    if env.wrapper = false then pure (-1)
    else do
      setProcMemory p { m with sharedPages := some [] }
      pure 0

theorem wp_createWrapper {Q : Int → MemoryState → Prop} {E : MemoryFault → Prop} (env : ShmEnv)
    (refused : m.sharedPages = none → env.wrapper = false → Q (-1) (s.setProc p m))
    (granted : (m.sharedPages = none → env.wrapper = true) → Q 0 (s.setProc p { m with sharedPages := some (m.sharedPages.getD []) })) :
    wp (createWrapper p env m) Q E (s.setProc p m) := by
  rw [createWrapper]
  cases hpages : m.sharedPages with
  | some pages =>
    have hsame : { m with sharedPages := some (m.sharedPages.getD []) } = m := by
      rw [hpages, Option.getD_some, ← hpages]
    rw [hsame] at granted
    refine granted fun hnone => ?_
    rw [hpages] at hnone
    cases hnone
  | none =>
    rw [hpages] at granted
    dsimp only
    split
    next hno => exact refused hpages hno
    next hyes =>
      rw [wp_bind, wp_setProcMemory, MemoryState.setProc_setProc]
      exact granted fun _ => by simpa using hyes

theorem wp_createHashTable (env : ShmEnv) (hm : s.procs p = some m) :
    wp (createHashTableAndSharedPagesWrapper p env) (fun v t => (v < 0 ∧ ¬ m.CanWrap env ∧ t.sharedMemoryHashTable = s.sharedMemoryHashTable) ∨ (v = 0 ∧ m.CanWrap env ∧
      ∃ table, t = s.setProc p { m with procSharedHashTable := some table, sharedPages := some (m.sharedPages.getD []) }))
      (fun _ => False) s := by
  have hneg : (-1 : Int) < 0 := by decide
  have hwrap : ∀ table, (m.procSharedHashTable = none → env.table = true ∧
      env.tableHeap.grants (hashMinsize * sizeofHashSlot) = true) →
      wp (createWrapper p env { m with procSharedHashTable := some table })
        (fun v t => (v < 0 ∧ ¬ m.CanWrap env ∧ t.sharedMemoryHashTable = s.sharedMemoryHashTable) ∨ (v = 0 ∧ m.CanWrap env ∧
          ∃ table, t = s.setProc p { m with procSharedHashTable := some table, sharedPages := some (m.sharedPages.getD []) }))
        (fun _ => False) (s.setProc p { m with procSharedHashTable := some table }) := by
    intro table htable
    apply wp_createWrapper
    · intro hpages hrefused
      refine .inl ⟨hneg, fun h => ?_, rfl⟩
      have hyes := h.wrapper hpages
      rw [hrefused] at hyes
      cases hyes
    · intro hgranted
      exact .inr ⟨rfl, ⟨htable, hgranted⟩, table, rfl⟩
  rw [createHashTableAndSharedPagesWrapper, wp_bind, wp_procMemory hm]
  split
  next hno =>
    refine .inl ⟨hneg, fun h => ?_, rfl⟩
    have hyes := (h.table hno.1).1
    rw [hno.2] at hyes
    cases hyes
  next hno =>
    cases htable : m.procSharedHashTable with
    | some table =>
      refine hwrap table fun hnone => ?_
      rw [htable] at hnone
      cases hnone
    | none =>
      have hyes : env.table = true := by simpa [htable] using hno
      have hzero := hashInitString_zero env.tableHeap env.garbage
      dsimp only
      generalize hashInitString env.tableHeap env.garbage = init at hzero ⊢
      obtain ⟨v, table⟩ := init
      by_cases hv : v = 0
      · subst hv
        exact hwrap table fun _ => ⟨hyes, hzero.1 rfl⟩
      · dsimp only
        rw [wp_bind, wp_setProcMemory, if_pos hv]
        exact .inl ⟨hneg, fun h => hv (hzero.2 (h.table htable).2), rfl⟩

theorem wp_takeTable {Q : Nat → MemoryState → Prop} {E : MemoryFault → Prop} :
    wp takePageTable Q E s ↔ Q (createPageTable s.pool).1 { s with pool := (createPageTable s.pool).2 } := by
  rw [takePageTable, wp_bind, wp_get]
  generalize createPageTable s.pool = new
  exact Iff.rfl

theorem createPageTable_zero {pool : FramePool} : (createPageTable pool).1 = 0 ↔ (getFrame pool).1 = 0 := by
  unfold createPageTable
  split
  next ptr pool' e =>
  rw [e]
  split
  next h => exact ⟨fun _ => h, fun _ => rfl⟩
  next h => exact Iff.rfl

/-- `add_child_node_page_table`, whatever the frames are. -/
theorem wp_addChild (d : PageDirectory) (type : PageType) (ok : Bool) :
    wp (addChildNodePageTable d type ok) (fun o t => (o = none ∧ ¬ (¬ d.Full ∧ (getFrame s.pool).1 ≠ 0 ∧ ok = true) ∧ t.sharedMemoryHashTable = s.sharedMemoryHashTable) ∨
      ∃ node d', o = some (node, d') ∧ (¬ d.Full ∧ (getFrame s.pool).1 ≠ 0 ∧ ok = true) ∧ t.procs = s.procs ∧ t.pages = s.pages ∧
        t.sharedMemoryHashTable = s.sharedMemoryHashTable)
      (fun _ => False) s := by
  unfold addChildNodePageTable
  split
  next hfull => exact .inl ⟨rfl, fun h => h.1 hfull, rfl⟩
  next hlimits =>
  rw [wp_bind, wp_takeTable]
  have hsome := @createPageTable_zero s.pool
  generalize createPageTable s.pool = new at hsome ⊢
  split
  next hzero => exact .inl ⟨rfl, fun h => h.2.1 (hsome.1 hzero), rfl⟩
  next hframe =>
  split
  next hrefused =>
    refine .inl ⟨rfl, fun h => ?_, rfl⟩
    rw [h.2.2] at hrefused
    cases hrefused
  next hok =>
    have hgranted : ok = true := by simpa using hok
    exact .inr ⟨_, _, rfl, ⟨hlimits, fun h => hframe (hsome.2 h), hgranted⟩, rfl, rfl, rfl⟩

/-- A process with a place for a shared page gives it to the node at the tail. -/
theorem wp_placeSharedPage (ok : Bool) (hm : s.procs p = some m) (hpages : m.sharedPages = some (pages ++ [new])) :
    wp (placeSharedPage p ok) (fun v t => (v < 0 ∧ ¬ m.HasPlace s.pool ok ∧ t.sharedMemoryHashTable = s.sharedMemoryHashTable) ∨ (v = 0 ∧ m.HasPlace s.pool ok ∧ t.pages = s.pages ∧ t.sharedMemoryHashTable = s.sharedMemoryHashTable ∧
      ∃ m' tail, t.procs p = some m' ∧ m'.sharedPages = some (pages ++ [tail]) ∧ (tail.address ≠ 0 ↔ m.HoleNonzero)))
      (fun _ => False) s := by
  have hneg : (-1 : Int) < 0 := by decide
  have huser : ∀ node : PageTableNode, (new.place node).address ≠ 0 := by
    intro node hzero
    have hlo : gigaSize ≤ (new.place node).address := by
      show gigaSize ≤ userspace * gigaSize + node.index * megaSize + node.usage * kiloSize
      unfold userspace
      omega
    rw [hzero] at hlo
    exact absurd hlo (by decide)
  have hplace : ∀ node, placeTail node m.sharedPages = some (pages ++ [new.place node]) := by
    intro node
    rw [hpages, placeTail]
    simp
  rw [placeSharedPage, wp_bind, wp_procMemory hm]
  cases hholes : m.releasedPagesList with
  | cons hole holes =>
    have hlast : m.sharedPages.bind (·.getLast?) = some new := by simp [hpages]
    simp only [hlast, wp_bind, wp_setProcMemory, wp_pure]
    refine .inr ⟨trivial, .inl (by simp [hholes]), rfl, rfl, _, new.fillHole hole, Function.update_self .., ?_, ?_⟩
    · simp [hpages]
    · rw [ProcessMemory.HoleNonzero, hholes]
      simp only [List.head?_cons, Option.mem_def, Option.some.injEq, forall_eq']
      exact Iff.rfl
  | nil =>
    have hzero : m.HoleNonzero := by simp [ProcessMemory.HoleNonzero, hholes]
    dsimp only
    rw [addFrameToProcess, wp_bind, wp_procMemory hm]
    cases hdir : m.pageTablesLvl1List with
    | none =>
      refine .inl ⟨hneg, ?_, rfl⟩
      rintro (hne | ⟨d, hd, -⟩)
      · exact hne hholes
      · rw [hdir] at hd
        cases hd
    | some d =>
      have hwhy : m.HasPlace s.pool ok → (findRoom .shared d.children).isSome = true ∨
          ¬ d.Full ∧ (getFrame s.pool).1 ≠ 0 ∧ ok = true := by
        rintro (hne | ⟨d', hd, h⟩)
        · exact absurd hholes hne
        · rw [hdir, Option.some.injEq] at hd
          rwa [hd]
      dsimp only
      cases hroom : findRoom .shared d.children with
      | some found =>
        obtain ⟨node, children⟩ := found
        simp only [if_true, hplace, wp_bind, wp_setProcMemory, wp_pure]
        refine .inr ⟨trivial, .inr ⟨d, hdir, .inl (by rw [hroom]; rfl)⟩, rfl, rfl, _, new.place node, Function.update_self .., rfl, ?_⟩
        exact ⟨fun _ => hzero, fun _ => huser node⟩
      | none =>
        rw [hroom] at hwhy
        dsimp only
        rw [wp_bind]
        refine wp_mono (wp_addChild d .shared ok) (fun o u _ hu => ?_) fun _ _ h => h
        obtain ⟨rfl, hnot, hkept⟩ | ⟨node, d', rfl, hyes, -, hsame, hkept⟩ := hu
        · refine .inl ⟨hneg, fun h => ?_, hkept⟩
          obtain hsome | hsome := hwhy h
          · cases hsome
          · exact hnot hsome
        · simp only [if_true, hplace, wp_bind, wp_modify, wp_setProcMemory, wp_pure]
          refine .inr ⟨trivial, .inr ⟨d, hdir, .inr hyes⟩, hsame, hkept, _, new.place node, Function.update_self .., rfl, ?_⟩
          exact ⟨fun _ => hzero, fun _ => huser _⟩

/-- The page is mapped at the tail. -/
theorem wp_mapSharedPage {q : SharedPage} {name : Word} (hm : s.procs p = some m) (hpages : m.sharedPages = some (pages ++ [page]))
    (hq : s.pages a = some q) (haligned : q.pageAddress % frameSize = 0) (hlt : q.pageAddress < 2 ^ 56) :
    wp (mapSharedPage user p env a name) (fun _ t => t.sharedMemoryHashTable = s.sharedMemoryHashTable ∧
      (∃ m', t.procs p = some m' ∧ m'.sharedPages = some (pages ++ [page])) ∧
      t.pages a = some { q with usage := q.usage + 1 } ∧
      findPteAdress (pteAt t.pool.mem page.pageTable page.lvl0Index) = q.pageAddress) (fun _ => True) s := by
  have htail : ∀ u : MemoryState, u.procs p = some m → ∀ {Q E}, wp (tailSharedPage p) Q E u ↔ Q page u := by
    intro u hu Q E
    have hlast : m.sharedPages.bind (·.getLast?) = some page := by simp [hpages]
    rw [tailSharedPage, wp_bind, wp_procMemory hu, hlast]
    exact Iff.rfl
  rw [mapSharedPage, wp_bind, htail s hm, wp_bind, wp_procMemory hm, wp_bind, wp_get, wp_bind, wp_hashed]
  refine ⟨fun result _ => ?_, fun _ => trivial⟩
  obtain ⟨v, table⟩ := result
  have hpage : ∀ u : MemoryState, u.pages a = some q → ∀ {Q E}, wp (sharedPage a) Q E u ↔ Q q u := by
    intro u hu Q E
    rw [sharedPage, wp_bind, wp_get, hu]
    exact Iff.rfl
  dsimp only
  rw [wp_bind, wp_setProcMemory, wp_bind]
  refine (hpage (s.setProc p _) hq).2 ?_
  simp only [wp_bind, wp_modify]
  refine ⟨rfl, ⟨_, Function.update_self .., hpages⟩, Function.update_self .., ?_⟩
  show findPteAdress (pteAt (configurePte _ _ _ _ _ _ _ _ _) _ _) = _
  rw [configurePte, pteAt_setPte_self, findPteAdress_configure _ _ _ _ _ haligned hlt]

/-- `link_shared_page_to_process` of a process with a list. -/
theorem wp_linkSharedPage {q : SharedPage} {name : Word} (hm : s.procs p = some m) (hpages : m.sharedPages = some pages)
    (ha : a ≠ 0) (hname : name ≠ 0) (hq : s.pages a = some q) (haligned : q.pageAddress % frameSize = 0)
    (hlt : q.pageAddress < 2 ^ 56) :
    wp (linkSharedPageToProcess user p env a name) (fun v t => t.sharedMemoryHashTable = s.sharedMemoryHashTable ∧
      ((v < 0 ∧ ¬ (env.nodeKey ≠ 0 ∧ m.HasPlace s.pool env.child)) ∨ (v = 0 ∧ (env.nodeKey ≠ 0 ∧ m.HasPlace s.pool env.child) ∧
        ∃ m' tail, t.procs p = some m' ∧ m'.sharedPages = some (pages ++ [tail]) ∧ (tail.address ≠ 0 ↔ m.HoleNonzero) ∧
          t.pages a = some { q with usage := q.usage + 1 } ∧
          findPteAdress (pteAt t.pool.mem tail.pageTable tail.lvl0Index) = q.pageAddress))) (fun _ => True) s := by
  have hneg : (-1 : Int) < 0 := by decide
  rw [linkSharedPageToProcess, wp_bind, wp_procMemory hm, hpages]
  have hnonnull : ¬ (a = 0 ∨ name = 0) := not_or.2 ⟨ha, hname⟩
  dsimp only
  rw [if_neg hnonnull]
  split
  next => trivial
  next hnode =>
  split
  next hkey => exact ⟨rfl, .inl ⟨hneg, fun h => h.1 hkey⟩⟩
  next hkey =>
  rw [wp_bind, wp_modify, wp_bind, wp_setProcMemory, wp_bind]
  refine wp_mono (wp_placeSharedPage env.child (Function.update_self ..) rfl) (fun v u _ hu => ?_) fun _ _ h => h.elim
  obtain ⟨hv, hnot, hkept⟩ | ⟨rfl, hplace, hsame, hkept, m', tail, hm', hpages', hzero⟩ := hu
  · rw [if_pos hv]
    exact ⟨hkept, .inl ⟨hneg, fun h => hnot h.2⟩⟩
  · rw [if_neg (by decide), wp_bind]
    have hq' : u.pages a = some q := by
      rw [hsame]
      exact hq
    refine wp_mono (wp_mapSharedPage hm' hpages' hq' haligned hlt) (fun _ t _ ht => ?_) fun _ _ h => h
    obtain ⟨hkept', ⟨m'', hm'', hpages''⟩, hpage, hentry⟩ := ht
    exact ⟨hkept'.trans hkept, .inr ⟨rfl, ⟨hkey, hplace⟩, m'', tail, hm'', hpages'', hzero, hpage, hentry⟩⟩

end

/-! ## `shm_create` -/

/-- What a call that returns `NULL` should leave: the global table, the lists and tables of
the caller, and the free frames. -/
structure MemoryState.Kept (current : Option Ptr) (s t : MemoryState) : Prop where
  table : t.sharedMemoryHashTable = s.sharedMemoryHashTable
  caller : ∀ p, current = some p → t.procs p = s.procs p
  entries : ∀ table i, pteAt t.pool.mem table i = pteAt s.pool.mem table i
  frames : ∀ f, (∃ n, f ∈ lends n t.pool) ↔ ∃ n, f ∈ lends n s.pool

/-- The caller finds at `v` the frame that `get_frame` returned. -/
def MemoryState.Backed (current : Option Ptr) (env : ShmEnv) (s t : MemoryState) (v : Nat) : Prop :=
  ∃ p m tail page, current = some p ∧ t.procs p = some m ∧ m.sharedPages.bind (·.getLast?) = some tail ∧ v = tail.address ∧
    t.pages env.page = some page ∧ page.pageAddress = (getFrame s.pool).1 ∧ page.pageAddress ≠ 0 ∧
    findPteAdress (pteAt t.pool.mem tail.pageTable tail.lvl0Index) = page.pageAddress

/-- The strings once the key is copied. -/
def MemoryState.keyed (s : MemoryState) (user : Strings) (env : ShmEnv) (key : Word) : Strings :=
  MemoryState.view { s with strings := Function.update s.strings env.key (s.view user key) } user

/-- The key has a page. -/
def MemoryState.HasKey (s : MemoryState) (user : Strings) (env : ShmEnv) (key : Word) : Prop :=
  ∃ a, a ≠ 0 ∧ hashGet lookupTurns (s.keyed user env key) s.sharedMemoryHashTable env.key 0 = some a

/-- There is a table and it takes the key. -/
def CanInsert (strings : Strings) (heap : Heap) (shared : Option HashTable) (key : Word) : Prop :=
  ∃ map i slot, shared = some map ∧ hashLookup lookupTurns strings map key (map.hfunc strings key) = some i ∧
    map.table[i]? = some slot ∧ ¬ map.SetBarred heap slot

/-- The caller can have one more shared page, once the frame of the page is taken. -/
structure ProcessMemory.CanMap (m : ProcessMemory) (pool : FramePool) (env : ShmEnv) : Prop where
  wrap : m.CanWrap env
  key : env.nodeKey ≠ 0
  place : m.HasPlace pool env.child
  hole : m.HoleNonzero

/-- Nothing is missing for the page but its frame. -/
structure MemoryState.CanCreate (s : MemoryState) (user : Strings) (current : Option Ptr) (env : ShmEnv) (key : Word) : Prop where
  page : env.page ≠ 0
  insert : CanInsert (s.keyed user env key) env.sharedHeap s.sharedMemoryHashTable env.key
  caller : ∃ p m, current = some p ∧ s.procs p = some m ∧ m.CanMap (getFrame s.pool).2 env

section

variable {r : Region} {R : Ram} {user : Strings} {current : Option Ptr} {env : ShmEnv} {s t : MemoryState} {a key : Word} {v f : Nat}
  {held free : List Nat} {pool : FramePool}

theorem PoolRun.get_none (run : PoolRun r held pool) (h : (getFrame pool).1 = 0) : (getFrame pool).2 = pool := by
  obtain ⟨free, hinv⟩ := run.inv
  obtain ⟨-, e⟩ | ⟨f, free', rfl, hf, -, -⟩ := hinv.getFrame
  · rw [e]
  · have hb := Region.frame_bounds (hinv.mem_frames.1 f (by simp))
    omega

/-- A frame released at once was never taken. -/
theorem PoolRun.release_get (run : PoolRun r held pool) : releaseFrame r (getFrame pool).2 (getFrame pool).1 = pool := by
  by_cases hzero : (getFrame pool).1 = 0
  · rw [hzero, run.get_none hzero]
    apply releaseFrame_eq
    have := r.nonnull
    omega
  · obtain ⟨haligned, hlo, hhi⟩ := run.getFrame_inside hzero
    have hload : load64 pool.mem pool.memPtr ≠ 0 := by
      intro hload
      rw [getFrame, if_pos hload] at hzero
      exact hzero rfl
    rw [getFrame, if_neg hload] at haligned hlo hhi ⊢
    have hand : pool.memPtr &&& 0xFFF = 0 := (Nat.and_two_pow_sub_one_eq_mod pool.memPtr 12).trans haligned
    dsimp only at hlo hhi
    rw [releaseFrame, if_neg (by omega), if_neg (not_not_intro hand), store64_load64]

/-- The frames that are free are those that can be given out. -/
theorem PoolInv.lends_free (h : PoolInv r pool held free) (n : Nat) : ∀ f ∈ lends n pool, f ∈ free := by
  induction n generalizing held free pool with
  | zero =>
    intro f hf
    cases hf
  | succ n ih =>
    intro f hf
    rw [lends] at hf
    obtain ⟨rfl, e⟩ | ⟨g, free', rfl, hg, -, h'⟩ := h.getFrame
    · rw [e, if_pos rfl] at hf
      exact ih h f hf
    · split at hf
      · exact List.mem_cons_of_mem g (ih h' f hf)
      · rw [List.mem_cons, hg] at hf
        obtain rfl | hf := hf
        · exact List.mem_cons_self
        · exact List.mem_cons_of_mem g (ih h' f hf)

/-- A frame taken is no longer free. -/
theorem PoolRun.frames_get (run : PoolRun r held pool) (h : (getFrame pool).1 ≠ 0) :
    ¬ ∀ f, (∃ n, f ∈ lends n (getFrame pool).2) ↔ ∃ n, f ∈ lends n pool := by
  intro hsame
  obtain ⟨free, hinv⟩ := run.inv
  obtain ⟨-, e⟩ | ⟨f, free', rfl, hf, -, hinv'⟩ := hinv.getFrame
  · rw [e] at h
    exact h rfl
  · have hone : f ∈ lends 1 pool := by
      rw [lends, if_neg h, hf]
      exact List.mem_cons_self
    obtain ⟨n, hn⟩ := (hsame f).2 ⟨1, hone⟩
    have hfree := hinv'.lends_free n f hn
    exact hinv'.disjoint (List.mem_append_left _ hfree) List.mem_cons_self rfl

/-- `create_shared_page` of a key that has no page. -/
theorem wp_createSharedPage (hget : hashGet lookupTurns (s.view user) s.sharedMemoryHashTable key 0 = some 0) :
    wp (createSharedPage r user env key) (fun a t =>
      (a = 0 ∧ env.page = 0 ∧ t.sharedMemoryHashTable = s.sharedMemoryHashTable ∧ t.procs = s.procs ∧ t.pool = (getFrame s.pool).2) ∨
      (a = 0 ∧ env.page ≠ 0 ∧ s.sharedMemoryHashTable = none ∧ t.sharedMemoryHashTable = none ∧ t.procs = s.procs ∧
        t.pool = releaseFrame r (getFrame s.pool).2 (getFrame s.pool).1) ∨
      (env.page ≠ 0 ∧ s.sharedMemoryHashTable ≠ none ∧ t.sharedMemoryHashTable ≠ s.sharedMemoryHashTable ∧
        ((a = 0 ∧ ¬ CanInsert (s.view user) env.sharedHeap s.sharedMemoryHashTable key) ∨
          (a = env.page ∧ CanInsert (s.view user) env.sharedHeap s.sharedMemoryHashTable key ∧ t.procs = s.procs ∧
            t.pool = (getFrame s.pool).2 ∧ t.pages env.page = some ⟨key, (getFrame s.pool).1, 0⟩)))) (fun _ => True) s := by
  rw [createSharedPage, wp_bind, takeFrame, wp_bind, wp_get]
  generalize getFrame s.pool = new
  dsimp only
  rw [wp_bind, wp_modify, wp_pure]
  split
  next hpage => exact .inl ⟨rfl, hpage, rfl, rfl, rfl⟩
  next hpage =>
  rw [wp_bind, wp_modify, wp_bind, wp_get, wp_bind, wp_hashed]
  refine ⟨fun result hset => ?_, fun _ => trivial⟩
  obtain ⟨set, table⟩ := result
  have hset' : hashSet lookupTurns (s.view user) env.sharedHeap s.sharedMemoryHashTable key env.page = some (set, table) := hset
  dsimp only
  rw [wp_bind, wp_modify]
  cases hshared : s.sharedMemoryHashTable with
  | none =>
    rw [hshared] at hset'
    cases hset'
    rw [if_pos (by decide), wp_bind, wp_modify]
    exact .inr (.inl ⟨rfl, hpage, rfl, rfl, rfl, rfl⟩)
  | some map =>
    rw [hshared] at hset' hget
    obtain ⟨i, slot, out, hi, hslot, rfl, hr, hchange⟩ := hashSet_outcome hset'
    have hother : slot.mode = .active → slot.value ≠ env.page := by
      intro hactive hsame
      simp only [hashGet, hi, hslot, Option.bind_eq_bind, Option.bind_some, if_pos hactive, Option.some.injEq] at hget
      exact hpage (hsame.symm.trans hget)
    have hne : some out ≠ some map := fun h => hchange hother (Option.some.inj h)
    obtain ⟨rfl, hbarred⟩ | ⟨rfl, hbarred⟩ := hr
    · rw [if_pos (by decide), wp_bind, wp_modify]
      refine .inr (.inr ⟨hpage, by simp, hne, .inl ⟨rfl, ?_⟩⟩)
      rintro ⟨map', i', slot', hmap, hi', hslot', hnot⟩
      cases hmap
      cases hi.symm.trans hi'
      cases hslot.symm.trans hslot'
      exact hnot hbarred
    · rw [if_neg (by decide), wp_pure]
      refine .inr (.inr ⟨hpage, by simp, hne, .inr ⟨rfl, ⟨map, i, slot, rfl, hi, hslot, hbarred⟩, rfl, rfl, Function.update_self ..⟩⟩)

/-- How a call of `shm_create` ends. -/
inductive Created (r : Region) (user : Strings) (current : Option Ptr) (env : ShmEnv) (key : Word) (s : MemoryState) :
    Nat → MemoryState → Prop where
  | none {t : MemoryState} (why : key = 0 ∨ s.HasKey user env key) (table : t.sharedMemoryHashTable = s.sharedMemoryHashTable)
      (procs : t.procs = s.procs) (pool : t.pool = s.pool) : Created r user current env key s 0 t
  | noPage {t : MemoryState} (nonzero : key ≠ 0) (new : ¬ s.HasKey user env key) (page : env.page = 0)
      (table : t.sharedMemoryHashTable = s.sharedMemoryHashTable) (procs : t.procs = s.procs)
      (pool : t.pool = (getFrame s.pool).2) : Created r user current env key s 0 t
  | noTable {t : MemoryState} (page : env.page ≠ 0) (shared : s.sharedMemoryHashTable = none)
      (table : t.sharedMemoryHashTable = none) (procs : t.procs = s.procs)
      (pool : t.pool = releaseFrame r (getFrame s.pool).2 (getFrame s.pool).1) : Created r user current env key s 0 t
  | inserted {v : Nat} {t : MemoryState} (nonzero : key ≠ 0) (new : ¬ s.HasKey user env key) (page : env.page ≠ 0)
      (shared : s.sharedMemoryHashTable ≠ .none) (table : t.sharedMemoryHashTable ≠ s.sharedMemoryHashTable)
      (failed : v = 0 → ¬ s.CanCreate user current env key)
      (backed : v ≠ 0 → s.CanCreate user current env key ∧ ((getFrame s.pool).1 ≠ 0 → s.Backed current env t v)) :
      Created r user current env key s v t

/-- The rest of `shm_create`, once the page is in the global table. -/
def linkNewPage (user : Strings) (current : Option Ptr) (env : ShmEnv) (pageInfo : Word) : MemoryM Nat :=
  match current with
  | none => pure 0
  | some p => do
    if (← createHashTableAndSharedPagesWrapper p env) < 0 then pure 0
    else if (← linkSharedPageToProcess user p env pageInfo env.key) < 0 then pure 0
    else mappedAddress p

theorem wp_linkNewPage {u : MemoryState} {frame : Nat} (hnonzero : key ≠ 0) (hnew : ¬ s.HasKey user env key) (hpage : env.page ≠ 0)
    (hkey : env.key ≠ 0)
    (hinsert : CanInsert (s.keyed user env key) env.sharedHeap s.sharedMemoryHashTable env.key)
    (hchange : u.sharedMemoryHashTable ≠ s.sharedMemoryHashTable) (hprocs : u.procs = s.procs)
    (hpool : u.pool = (getFrame s.pool).2) (hq : u.pages env.page = some ⟨env.key, frame, 0⟩)
    (hframe : (getFrame s.pool).1 = frame) (haligned : frame % frameSize = 0) (hlt : frame < 2 ^ 56) :
    wp (linkNewPage user current env env.page) (Created r user current env key s) (fun _ => True) u := by
  have hshared : s.sharedMemoryHashTable ≠ none := by
    intro hnone
    obtain ⟨map, -, -, hmap, -⟩ := hinsert
    rw [hnone] at hmap
    cases hmap
  have hfails : ∀ t : MemoryState, t.sharedMemoryHashTable = u.sharedMemoryHashTable → ¬ s.CanCreate user current env key →
      Created r user current env key s 0 t := fun t ht hnot =>
    .inserted hnonzero hnew hpage hshared (by rwa [ht]) (fun _ => hnot) fun h => absurd rfl h
  unfold linkNewPage
  cases current with
  | none =>
    refine hfails u rfl fun h => ?_
    obtain ⟨p, -, hp, -⟩ := h.caller
    cases hp
  | some p =>
    cases hm : u.procs p with
    | none =>
      dsimp only
      rw [wp_bind, createHashTableAndSharedPagesWrapper, wp_bind, procMemory, wp_bind, wp_get, hm]
      exact trivial
    | some m =>
      have hcaller : s.CanCreate user (some p) env key → m.CanMap u.pool env := by
        intro h
        obtain ⟨p', m', hp, hm', hmap⟩ := h.caller
        cases hp
        rw [hprocs, hm'] at hm
        cases hm
        rw [hpool]
        exact hmap
      dsimp only
      rw [wp_bind]
      refine wp_mono (wp_createHashTable env hm) (fun v w _ hw => ?_) fun _ _ _ => trivial
      obtain ⟨hv, hnot, hkept⟩ | ⟨rfl, hwrap, table, rfl⟩ := hw
      · rw [if_pos hv]
        exact hfails w hkept fun h => hnot (hcaller h).wrap
      rw [if_neg (by decide), wp_bind]
      refine wp_mono (wp_linkSharedPage (q := ⟨env.key, frame, 0⟩) (Function.update_self ..) rfl hpage hkey hq haligned hlt)
        (fun v w _ hw => ?_) fun _ _ h => h
      obtain ⟨hkept, ⟨hv, hnot⟩ | ⟨rfl, hplace, m', tail, hm', hpages, hzero, hcount, hentry⟩⟩ := hw
      · rw [if_pos hv]
        exact hfails w hkept fun h => hnot ⟨(hcaller h).key, (hcaller h).place⟩
      have htail : m'.sharedPages.bind (·.getLast?) = some tail := by simp [hpages]
      rw [if_neg (by decide), mappedAddress, wp_bind, tailSharedPage, wp_bind, wp_procMemory hm', htail]
      refine .inserted hnonzero hnew hpage hshared ?_ (fun hv h => ?_) fun hv => ⟨?_, fun hne => ?_⟩
      · rw [hkept]
        exact hchange
      · exact hzero.2 (hcaller h).hole hv
      · refine ⟨hpage, hinsert, p, m, rfl, ?_, hwrap, hplace.1, ?_, hzero.1 hv⟩
        · rw [← hprocs]
          exact hm
        · rw [← hpool]
          exact hplace.2
      · rw [hframe] at hne
        exact ⟨p, m', tail, ⟨env.key, frame, 0 + 1⟩, rfl, hm', htail, rfl, hcount, hframe.symm, hne, hentry⟩

/-- `shm_create` of a key without a page, from the state with its copy on. -/
theorem wp_createNewPage {u : MemoryState} (run : PoolRun R.toRegion held s.pool) (hnonzero : key ≠ 0) (hkey : env.key ≠ 0)
    (hget : hashGet lookupTurns (s.keyed user env key) s.sharedMemoryHashTable env.key 0 = some 0)
    (hview : u.view user = s.keyed user env key) (hshared : u.sharedMemoryHashTable = s.sharedMemoryHashTable)
    (hprocs : u.procs = s.procs) (hpool : u.pool = s.pool) :
    wp (do
      let pageInfo ← createSharedPage R.toRegion user env env.key
      if pageInfo = 0 then pure 0 else linkNewPage user current env pageInfo)
      (Created R.toRegion user current env key s) (fun _ => True) u := by
  have hnew : ¬ s.HasKey user env key := by
    rintro ⟨a, hne, hsome⟩
    rw [hget] at hsome
    cases hsome
    exact hne rfl
  have hcreate := @wp_createSharedPage R.toRegion user env u env.key (by rw [hview, hshared]; exact hget)
  rw [hview, hshared, hprocs, hpool] at hcreate
  rw [wp_bind]
  -- the call is not to be run by the elaborator
  generalize createSharedPage R.toRegion user env env.key = create at hcreate ⊢
  refine wp_mono hcreate (fun a w _ hw => ?_) fun _ _ h => h
  obtain ⟨rfl, hpage, htable, hprocs, hpool⟩ | ⟨rfl, hpage, hnone, htable, hprocs, hpool⟩ | ⟨hpage, hsome, hchange, hw⟩ := hw
  · rw [if_pos rfl]
    exact .noPage hnonzero hnew hpage htable hprocs hpool
  · rw [if_pos rfl]
    exact .noTable hpage hnone htable hprocs hpool
  · obtain ⟨rfl, hnot⟩ | ⟨rfl, hinsert, hprocs, hpool, hq⟩ := hw
    · rw [if_pos rfl]
      exact .inserted hnonzero hnew hpage hsome hchange (fun _ h => hnot h.insert) fun h => absurd rfl h
    · rw [if_neg hpage]
      have hframe : (getFrame s.pool).1 % frameSize = 0 ∧ (getFrame s.pool).1 < 2 ^ 56 := by
        by_cases hzero : (getFrame s.pool).1 = 0
        · rw [hzero]
          decide
        · obtain ⟨haligned, hlo, hhi⟩ := run.getFrame_inside hzero
          have := R.physical
          unfold frameSize at hhi
          exact ⟨haligned, by omega⟩
      exact wp_linkNewPage hnonzero hnew hpage hkey hinsert hchange hprocs hpool hq rfl hframe.1 hframe.2

theorem wp_shmCreate (run : PoolRun R.toRegion held s.pool) :
    wp (shmCreate R.toRegion user current env key) (Created R.toRegion user current env key s) (fun _ => True) s := by
  unfold shmCreate
  split
  next hzero => exact .none (.inl hzero) rfl rfl rfl
  next hnonzero =>
  split
  next => trivial
  next hkey =>
  rw [wp_bind, wp_modify, wp_bind, getSharedPage, wp_bind, wp_get, wp_hashed]
  refine ⟨fun a ha => ?_, fun _ => trivial⟩
  have hget : hashGet lookupTurns (s.keyed user env key) s.sharedMemoryHashTable env.key 0 = some a := ha
  split
  next hfound => exact .none (.inr ⟨a, hfound, hget⟩) rfl rfl rfl
  next hfree =>
    obtain rfl : a = 0 := not_not.1 hfree
    exact wp_createNewPage run hnonzero hkey hget rfl rfl rfl rfl

/-- Nothing but the strings of the kernel changed. -/
theorem MemoryState.Kept.of_eq (table : t.sharedMemoryHashTable = s.sharedMemoryHashTable) (procs : t.procs = s.procs)
    (pool : t.pool = s.pool) : s.Kept current t := by
  refine ⟨table, fun p _ => by rw [procs], fun a i => by rw [pool], fun f => ?_⟩
  rw [pool]

end

/-- **A page is created or not**: a call of `shm_create` that returns `NULL` leaves the tables, the
lists and the free frames as they were, and one that returns an address has a frame there, if
and only if it ends before a frame is lost, or nothing is missing and a frame is free. -/
theorem shm_create_iff {R : Ram} {held : List Nat} {user : Strings} {current : Option Ptr} {env : ShmEnv} {key : Word} {v : Nat}
    {s t : MemoryState} (run : PoolRun R.toRegion held s.pool) (h : shmCreate R.toRegion user current env key s = .ok (v, t)) :
    ((v = 0 → s.Kept current t) ∧ (v ≠ 0 → s.Backed current env t v)) ↔
      key = 0 ∨ s.HasKey user env key ∨ ((getFrame s.pool).1 = 0 ∧ env.page = 0) ∨
        (env.page ≠ 0 ∧ s.sharedMemoryHashTable = none) ∨ ((getFrame s.pool).1 ≠ 0 ∧ s.CanCreate user current env key) := by
  have hcreated := wp_ok (wp_shmCreate run) h
  cases hcreated with
  | none why table procs pool =>
    refine ⟨fun _ => ?_, fun _ => ⟨fun _ => .of_eq table procs pool, fun hv => absurd rfl hv⟩⟩
    exact why.imp_right .inl
  | noPage nonzero new page table procs pool =>
    by_cases hframe : (getFrame s.pool).1 = 0
    · refine ⟨fun _ => .inr (.inr (.inl ⟨hframe, page⟩)), fun _ => ⟨fun _ => ?_, fun hv => absurd rfl hv⟩⟩
      exact .of_eq table procs (pool.trans (run.get_none hframe))
    · constructor
      · intro hkept
        refine absurd (fun f => ?_) (run.frames_get hframe)
        rw [← pool]
        exact (hkept.1 rfl).frames f
      · rintro (hzero | hkey | hnone | htable | hcan)
        · exact absurd hzero nonzero
        · exact absurd hkey new
        · exact absurd hnone.1 hframe
        · exact absurd page htable.1
        · exact absurd page hcan.2.page
  | noTable page shared table procs pool =>
    refine ⟨fun _ => .inr (.inr (.inr (.inl ⟨page, shared⟩))), fun _ => ⟨fun _ => ?_, fun hv => absurd rfl hv⟩⟩
    exact .of_eq (table.trans shared.symm) procs (pool.trans run.release_get)
  | inserted nonzero new page shared table failed backed =>
    constructor
    · intro hkept
      have hv : v ≠ 0 := fun hv => table (hkept.1 hv).table
      obtain ⟨p, m, tail, q, -, -, -, -, -, hframe, hne, -⟩ := hkept.2 hv
      rw [hframe] at hne
      exact .inr (.inr (.inr (.inr ⟨hne, (backed hv).1⟩)))
    · rintro (hzero | hkey | hnone | htable | hcan)
      · exact absurd hzero nonzero
      · exact absurd hkey new
      · exact absurd hnone.2 page
      · exact absurd htable.2 shared
      · have hv : v ≠ 0 := fun hv => failed hv hcan.2
        exact ⟨fun h => absurd h hv, fun _ => (backed hv).2 hcan.1⟩

/-- The global table as boot leaves it. -/
def sharedTable : HashTable := (hashInitString Heap.roomy ⟨0, 0, 0, [], hashDirectHfunc, hashDirectCmp⟩).2

/-- The same string everywhere. -/
def sameStrings : Strings := fun _ => ⟨[107], by decide⟩

/-- And with one key. -/
def keyTable : HashTable :=
  ((hashSet lookupTurns sameStrings Heap.roomy (some sharedTable) 0x80001000 0x80002000).bind (·.2)).getD sharedTable

/-- The state after boot with a global table. -/
def bootShared (pool : FramePool) (table : HashTable) : MemoryState :=
  { bootMemory pool with sharedMemoryHashTable := some table, strings := sameStrings }

/-- `malloc` has no memory for a `shared_page_t`. -/
def noPageEnv : ShmEnv where
  key := 0x80005000
  page := 0
  sharedHeap := Heap.roomy
  table := true
  garbage := sharedTable
  tableHeap := Heap.roomy
  wrapper := true
  node := 0x80006000
  nodeKey := 0x80007000
  child := true
  procHeap := Heap.roomy

/-- What the calls below find. -/
theorem wp_shmCreate_noPage {Q : Nat → MemoryState → Prop} {E : MemoryFault → Prop} {pool : FramePool} {table : HashTable} {a : Word}
    (h : hashGet lookupTurns (MemoryState.keyed (bootShared ⟨fun _ => 0, 0⟩ table) sameStrings noPageEnv 0x40000000) (some table)
      noPageEnv.key 0 = some a)
    (found : a ≠ 0 → ∀ t, Q 0 t) (free : a = 0 → ∀ t : MemoryState, t.pool = (getFrame pool).2 → Q 0 t) :
    wp (shmCreate smallRam.toRegion sameStrings (some 1) noPageEnv 0x40000000) Q E (bootShared pool table) := by
  rw [shmCreate, if_neg (by decide), if_neg (by decide), wp_bind, wp_modify, wp_bind, getSharedPage, wp_bind, wp_get, wp_hashed]
  refine ⟨fun b hb => ?_, fun hnone => ?_⟩
  · obtain rfl : a = b := Option.some.inj (h.symm.trans hb)
    split
    next hfound => exact found hfound _
    next hfree =>
      have hpage : noPageEnv.page = 0 := rfl
      rw [wp_bind, createSharedPage, wp_bind, takeFrame, wp_bind, wp_get, wp_bind, wp_modify, wp_pure, if_pos hpage, wp_pure,
        if_pos rfl, wp_pure]
      apply free (not_not.1 hfree)
      simp only [bootShared, bootMemory]
  · cases h.symm.trans hnone

/-- The key of a page is not given another one. -/
theorem shm_create_iff_found : ∃ s t, shmCreate smallRam.toRegion sameStrings (some 1) noPageEnv 0x40000000 s = .ok (0, t) ∧
    s.Kept (some 1) t := by
  obtain ⟨pool, e, -⟩ := initFrames_spec smallRam.toRegion fun _ => 0
  have hget : hashGet lookupTurns (MemoryState.keyed (bootShared ⟨fun _ => 0, 0⟩ keyTable) sameStrings noPageEnv 0x40000000)
      (some keyTable) noPageEnv.key 0 = some 0x80002000 := by decide +kernel
  have hcall : wp (shmCreate smallRam.toRegion sameStrings (some 1) noPageEnv 0x40000000) (fun v _ => v = 0) (fun _ => False)
      (bootShared pool keyTable) := wp_shmCreate_noPage hget (fun _ _ => rfl) fun h => absurd h (by decide)
  obtain ⟨v, t, ht, rfl⟩ := wp_returns hcall
  refine ⟨bootShared pool keyTable, t, ht, ?_⟩
  exact ((shm_create_iff (.init e) ht).2 (.inr (.inl ⟨_, by decide, hget⟩))).1 rfl

/-- A call without memory for its `shared_page_t` returns `NULL` and keeps the frame. -/
theorem shm_create_leaks :
    ¬ ∀ (R : Ram) (held : List Nat) (user : Strings) (current : Option Ptr) (env : ShmEnv) (key : Word) (v : Nat) (s t : MemoryState),
      PoolRun R.toRegion held s.pool → shmCreate R.toRegion user current env key s = .ok (v, t) →
      (v = 0 → s.Kept current t) ∧ (v ≠ 0 → s.Backed current env t v) := by
  intro h
  obtain ⟨pool, e, hinv⟩ := initFrames_spec smallRam.toRegion fun _ => 0
  have run : PoolRun smallRam.toRegion [] pool := .init e
  have hget : hashGet lookupTurns (MemoryState.keyed (bootShared ⟨fun _ => 0, 0⟩ sharedTable) sameStrings noPageEnv 0x40000000)
      (some sharedTable) noPageEnv.key 0 = some 0 := by decide +kernel
  have hcall : wp (shmCreate smallRam.toRegion sameStrings (some 1) noPageEnv 0x40000000) (fun v t => v = 0 ∧ t.pool = (getFrame pool).2)
      (fun _ => False) (bootShared pool sharedTable) := wp_shmCreate_noPage hget (fun h => absurd rfl h) fun _ _ hpool => ⟨rfl, hpool⟩
  obtain ⟨v, t, ht, rfl, hpool⟩ := wp_returns hcall
  have hkept := (h smallRam [] sameStrings (some 1) noPageEnv 0x40000000 0 _ t run ht).1 rfl
  have hframe : (getFrame pool).1 ≠ 0 := by
    obtain ⟨hnil, -⟩ | ⟨f, free', hfree, hf, -, -⟩ := hinv.getFrame
    · exact absurd hnil (by decide)
    · rw [hf]
      have hb := Region.frame_bounds (hinv.mem_frames.1 f (by simp [hfree]))
      omega
  refine run.frames_get hframe fun f => ?_
  rw [← hpool]
  exact hkept.frames f

end Xinul
