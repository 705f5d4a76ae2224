import Xinul.Kernel.FreeMemory
import Xinul.Proofs.Reserving

/-!
# What `shm_release` does

The outcomes of `shm_release` one by one: it finds nothing to release, the table of the
process refuses to shrink, other users are left, or the page goes with its last user.
-/

namespace Xinul

open Bytes Prog

variable {r : Region} {user : Strings} {p : Ptr} {env : ReleaseEnv} {key a : Word} {s t : MemoryState}
  {m : ProcessMemory} {page : SharedPagesProc} {freed : List FreeCall}

theorem wp_hashed {α : Type} {Q : α → MemoryState → Prop} {E : MemoryFault → Prop} {o : Option α} :
    wp (hashed o) Q E s ↔ (∀ x, o = some x → Q x s) ∧ (o = none → E .hang) := by
  cases o with
  | none => simp [hashed]
  | some x => simp [hashed]

/-- The page that `shm_release` finds: in the global table, in the one of the process, and
in its list. -/
structure FoundPage (user : Strings) (s : MemoryState) (m : ProcessMemory) (key a : Word) (page : SharedPagesProc) : Prop where
  nonzero : key ≠ 0
  shared : hashGet lookupTurns (s.view user) s.sharedMemoryHashTable key 0 = some a
  nonnull : a ≠ 0
  own : ∃ table, m.procSharedHashTable = some table ∧ hashGet lookupTurns (s.view user) (some table) key 0 = some page.node
  node : page.node ≠ 0
  listed : m.sharedPages.bind (·.find? (·.node = page.node)) = some page

/-- The record without the page, with a hole in its place. -/
def ProcessMemory.unlink (m : ProcessMemory) (page : SharedPagesProc) : ProcessMemory :=
  { m with
    releasedPagesList := page.hole :: m.releasedPagesList
    sharedPages := m.sharedPages.map (·.eraseP (·.node = page.node)) }

/-- The memory with the entry of the page cleared. -/
def SharedPagesProc.clear (page : SharedPagesProc) (mem : Memory) : Memory :=
  configurePte (setPte mem page.pageTable page.lvl0Index (setInvalid (pteAt mem page.pageTable page.lvl0Index)))
    page.pageTable page.lvl0Index 0 false false false false .kilo

/-- The state when the page has left the process, whose table is then `table`. -/
def MemoryState.unlink (s : MemoryState) (p : Ptr) (m : ProcessMemory) (page : SharedPagesProc) (table : Option HashTable) :
    MemoryState :=
  (s.setMem (page.clear s.pool.mem)).setProc p { m.unlink page with procSharedHashTable := table }

theorem MemoryState.setProc_setProc (s : MemoryState) (p : Ptr) (m m' : ProcessMemory) :
    (s.setProc p m).setProc p m' = s.setProc p m' := by
  simp only [setProc, Function.update_idem]

/-- The state after the last user of a page. -/
def MemoryState.forget (s : MemoryState) (r : Region) (a : Word) (q : SharedPage) (shared : Option HashTable) : MemoryState :=
  { s with pool := releaseFrame r s.pool q.pageAddress, sharedMemoryHashTable := shared }.setPage a none

/-- The outcomes of `shm_release`. -/
inductive Released (r : Region) (user : Strings) (p : Ptr) (env : ReleaseEnv) (key : Word) (s : MemoryState) (m : ProcessMemory) :
    List FreeCall → MemoryState → Prop where
  | absent : Released r user p env key s m [] s
  | refused {a : Word} {page : SharedPagesProc} {del : Int} {table : Option HashTable} (found : FoundPage user s m key a page)
      (hole : env.hole = true)
      (delete : hashDel lookupTurns (s.view user) env.procHeap m.procSharedHashTable key = some (del, table))
      (neg : del < 0) : Released r user p env key s m [] (s.unlink p m page table)
  | kept {a : Word} {page : SharedPagesProc} {del : Int} {table : Option HashTable} {q : SharedPage}
      (found : FoundPage user s m key a page) (hole : env.hole = true)
      (delete : hashDel lookupTurns (s.view user) env.procHeap m.procSharedHashTable key = some (del, table))
      (nonneg : 0 ≤ del) (live : s.pages a = some q) (others : q.usage ≠ 1) :
      Released r user p env key s m [.sharedPagesProc page.node]
        ((s.unlink p m page table).setPage a (some { q with usage := q.usage - 1 }))
  | last {a : Word} {page : SharedPagesProc} {del del' : Int} {table shared : Option HashTable} {q : SharedPage}
      (found : FoundPage user s m key a page) (hole : env.hole = true)
      (delete : hashDel lookupTurns (s.view user) env.procHeap m.procSharedHashTable key = some (del, table))
      (nonneg : 0 ≤ del) (live : s.pages a = some q) (last : q.usage = 1)
      (forget : hashDel lookupTurns (s.view user) env.sharedHeap s.sharedMemoryHashTable key = some (del', shared)) :
      Released r user p env key s m
        ((.key page.key :: (if q.pageKey = 0 then [] else [.key q.pageKey]) ++ [.sharedPage a]) ++ [.sharedPagesProc page.node])
        ((s.unlink p m page table).forget r a q shared)

theorem wp_unlinkSharedPage {Q : Unit → MemoryState → Prop} {E : MemoryFault → Prop} (hm : s.procs p = some m) :
    wp (unlinkSharedPage p page) Q E s ↔ Q () ((s.setMem (page.clear s.pool.mem)).setProc p (m.unlink page)) := by
  rw [unlinkSharedPage, wp_bind, wp_procMemory hm]
  exact Iff.rfl

theorem wp_dropSharedPage {Q : List FreeCall → MemoryState → Prop} {keyFree : Word} :
    wp (dropSharedPage r user env a key keyFree) Q (fun _ => True) s ↔ ∀ q, s.pages a = some q →
      (q.usage = 1 → ∀ v shared,
        hashDel lookupTurns (s.view user) env.sharedHeap s.sharedMemoryHashTable key = some (v, shared) →
        Q (.key keyFree :: (if q.pageKey = 0 then [] else [.key q.pageKey]) ++ [.sharedPage a]) (s.forget r a q shared)) ∧
      (q.usage ≠ 1 → Q [] (s.setPage a (some { q with usage := q.usage - 1 }))) := by
  rw [dropSharedPage, wp_bind, sharedPage, wp_bind, wp_get]
  cases s.pages a with
  | none => simp
  | some q =>
    have hlast : q.usage - 1 = 0 ↔ q.usage = 1 := by omega
    simp only [wp_pure, wp_ite, wp_bind, wp_modify, wp_get, wp_hashed, hlast, implies_true, and_true, Prod.forall,
      Option.some.injEq, forall_eq']
    exact Iff.rfl

/-- Every return of `shm_release` is one of the outcomes. -/
theorem wp_shmRelease (r : Region) (user : Strings) (env : ReleaseEnv) (key : Word) (hm : s.procs p = some m) :
    wp (shmRelease r user (some p) env key) (Released r user p env key s m) (fun _ => True) s := by
  unfold shmRelease
  split
  next => exact .absent
  next hkey =>
    rw [wp_bind, getSharedPage, wp_bind, wp_get, wp_hashed]
    refine ⟨fun a ha => ?_, fun _ => trivial⟩
    split
    next => exact .absent
    next hnull =>
      dsimp only
      rw [wp_bind, getSharedPageProc, wp_bind, wp_procMemory hm]
      cases htable : m.procSharedHashTable with
      | none => exact .absent
      | some table =>
        dsimp only
        rw [wp_bind, wp_get, wp_hashed]
        refine ⟨fun node hnode => ?_, fun _ => trivial⟩
        split
        next => exact .absent
        next hnz =>
          split
          next => trivial
          next hhole =>
            rw [wp_bind, sharedPagesProc, wp_bind, wp_procMemory hm]
            split
            next page hpage =>
              have hfound : FoundPage user s m key a page := by
                have hsame : page.node = node := by
                  obtain ⟨pages, -, hfind⟩ := Option.bind_eq_some_iff.1 hpage
                  simpa using List.find?_some hfind
                subst hsame
                exact ⟨hkey, ha, hnull, ⟨table, htable, hnode⟩, hnz, hpage⟩
              have hyes : env.hole = true := by simpa using hhole
              rw [wp_pure, wp_bind, wp_unlinkSharedPage hm, wp_bind, wp_procMemory (Function.update_self ..), wp_bind, wp_get,
                wp_bind, wp_hashed]
              refine ⟨fun ⟨del, table'⟩ hdel => ?_, fun _ => trivial⟩
              have hdelete : hashDel lookupTurns (s.view user) env.procHeap m.procSharedHashTable key = some (del, table') := hdel
              dsimp only
              rw [wp_bind, wp_setProcMemory, MemoryState.setProc_setProc]
              split
              next hneg => exact .refused hfound hyes hdelete hneg
              next hnonneg =>
                rw [wp_bind, wp_dropSharedPage]
                intro q hlive
                refine ⟨fun hlast v shared hforget => ?_, fun hothers => ?_⟩
                · exact .last hfound hyes hdelete (Int.not_lt.1 hnonneg) hlive hlast hforget
                · exact .kept hfound hyes hdelete (Int.not_lt.1 hnonneg) hlive hothers
            next => trivial

/-- `shm_release` of a page that it finds, up to its last part. -/
theorem wp_shmRelease_found {Q : List FreeCall → MemoryState → Prop} {E : MemoryFault → Prop} {del : Int} {table : Option HashTable}
    (hm : s.procs p = some m) (found : FoundPage user s m key a page) (hole : env.hole = true)
    (delete : hashDel lookupTurns (s.view user) env.procHeap m.procSharedHashTable key = some (del, table)) (nonneg : 0 ≤ del) :
    wp (shmRelease r user (some p) env key) Q E s ↔
      wp (dropSharedPage r user env a key page.key) (fun freed t => Q (freed ++ [.sharedPagesProc page.node]) t) E
        (s.unlink p m page table) := by
  obtain ⟨own, hown, hnode⟩ := found.own
  have hproc : ((s.setMem (page.clear s.pool.mem)).setProc p (m.unlink page)).procs p = some (m.unlink page) :=
    Function.update_self ..
  have hdel : hashDel lookupTurns (((s.setMem (page.clear s.pool.mem)).setProc p (m.unlink page)).view user) env.procHeap
      (m.unlink page).procSharedHashTable key = some (del, table) := delete
  rw [shmRelease, if_neg found.nonzero, wp_bind, getSharedPage, wp_bind, wp_get, found.shared, hashed, wp_pure, if_neg found.nonnull]
  dsimp only
  rw [wp_bind, getSharedPageProc, wp_bind, wp_procMemory hm, hown]
  dsimp only
  rw [wp_bind, wp_get, hnode, hashed, wp_pure, if_neg found.node, if_neg (by simp [hole]), wp_bind, sharedPagesProc, wp_bind,
    wp_procMemory hm, found.listed, wp_pure, wp_bind, wp_unlinkSharedPage hm, wp_bind, wp_procMemory hproc, wp_bind, wp_get, wp_bind,
    hdel, hashed, wp_pure]
  dsimp only
  rw [wp_bind, wp_setProcMemory, MemoryState.setProc_setProc, if_neg (Int.not_lt.2 nonneg), wp_bind]
  exact Iff.rfl

end Xinul
