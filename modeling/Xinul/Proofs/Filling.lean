import Xinul.Kernel.ProcessMemory
import Xinul.Proofs.FramePool
import Xinul.Proofs.Pages

/-!
# The allocating loops of `process_memory.c`

Frames are taken from the head of the free list in the order of the pages they
become. Every frame is copied into, cleared, or, once, left as it was found.
-/

namespace Xinul

open Bytes Prog

variable {r : Region} {pool : FramePool} {mem mem' : Memory} {held free fs : List Nat} {f g : Nat} {s : MemoryState}

/-! ## Frames of the pool -/

/-- A free frame does not overlap a frame held. -/
theorem PoolInv.apart (h : PoolInv r pool held free) (hf : f ∈ free) (hg : g ∈ held) : ApartFrames f g :=
  Region.frames_apart (h.mem_frames.1 f (List.mem_append_left _ hf)) (h.mem_frames.2 g hg)
    (h.disjoint (List.mem_append_left _ hf) hg)

/-- Two frames held do not overlap. -/
theorem PoolInv.apart_held (h : PoolInv r pool held free) (hf : f ∈ held) (hg : g ∈ held) (hne : f ≠ g) : ApartFrames f g :=
  Region.frames_apart (h.mem_frames.2 f hf) (h.mem_frames.2 g hg) hne

theorem PoolInv.nodup (h : PoolInv r pool held free) : (free ++ held).Nodup := by
  have := r.nodup_frames
  rw [Region.frames, List.nodup_append] at this
  exact h.parts.nodup_iff.2 this.1

/-- What lies below the region is in no frame. -/
theorem Region.below_frame (hf : f ∈ r.frames) {a : Nat} (ha : a < r.start) : a < f ∨ f + frameSize ≤ a :=
  .inl (Nat.lt_of_lt_of_le ha (Region.frame_bounds hf).2.1)

/-- Writes into frames held leave the free list. -/
theorem PoolInv.write (h : PoolInv r pool held free) (fs : List Nat) (hfs : fs ⊆ held) (hmem : OnlyFrames fs pool.mem mem') :
    PoolInv r { pool with mem := mem' } held free := by
  refine ⟨h.chain.congr fun g hg => nextFrame_congr fun a h1 h2 => hmem a fun f hf => ?_, h.parts⟩
  have := Region.frames_apart (h.mem_frames.1 g hg) (h.mem_frames.2 f (hfs hf)) (h.disjoint hg (hfs hf))
  unfold frameSize at *
  omega

/-- `get_frame` on the state. -/
theorem wp_takeFrame (h : PoolInv r s.pool held free) {Q : Nat → MemoryState → Prop} {E : MemoryFault → Prop}
    (none : free = [] → Q 0 s)
    (some : ∀ f free' pool, free = f :: free' → f ≠ 0 → PoolInv r pool (f :: held) free' → pool.mem = s.pool.mem →
      Q f { s with pool := pool }) : wp takeFrame Q E s := by
  simp only [takeFrame, wp_bind, wp_get, wp_modify, wp_pure]
  obtain ⟨hnil, e⟩ | ⟨f, free', rfl, he, hmem, hinv⟩ := h.getFrame
  · rw [e]
    exact none hnil
  · have hpos := (Region.frame_bounds (h.mem_frames.1 f (by simp))).2.2.2.1
    rw [he]
    exact some f free' _ rfl (by omega) hinv hmem

/-- `create_page_table` on the state. -/
theorem wp_takePageTable (h : PoolInv r s.pool held free) {Q : Nat → MemoryState → Prop} {E : MemoryFault → Prop}
    (none : free = [] → Q 0 s)
    (some : ∀ t free' pool, free = t :: free' → t ≠ 0 → PoolInv r pool (t :: held) free' →
      OnlyFrames [t] s.pool.mem pool.mem → (∀ i < ptSize, pteAt pool.mem t i = .ofWord 0) →
      Q t { s with pool := pool }) : wp takePageTable Q E s := by
  simp only [takePageTable, createPageTable, wp_bind, wp_get, wp_modify, wp_pure]
  obtain ⟨hnil, e⟩ | ⟨t, free', rfl, he, hmem, hinv⟩ := h.getFrame
  · rw [e, if_pos rfl]
    exact none hnil
  · have hpos := (Region.frame_bounds (h.mem_frames.1 t (by simp))).2.2.2.1
    rw [he, if_neg (by omega)]
    refine some t free' _ rfl (by omega) (hinv.write [t] (by simp) (onlyFrames_memset 0)) ?_ ?_
    · rw [← hmem]
      exact onlyFrames_memset 0
    · exact fun i hi => pteAt_memset_zero hi

-- the elaborator would run it on a symbolic memory
attribute [local irreducible] takeFrame

/-! ## What a frame is filled with -/

/-- What one turn of the inner loop does to the bytes of its frame. -/
inductive Filling where
  | copied (source : Nat)
  | left
  | cleared
  deriving DecidableEq, Repr

/-- What the next turn does. -/
def Writing.filling (w : Writing) : Filling :=
  if w.writingData then if w.dataLeft < 0 then .left else .copied w.dataPointer
  else .cleared

/-- The variables after the next turn. -/
def Writing.next (w : Writing) : Writing := (fillFrame w (fun _ => 0) 0).1

/-- The variables after some turns. -/
def Writing.after (w : Writing) (n : Nat) : Writing := Writing.next^[n] w

/-- A byte of a frame after its turn, in terms of the memory before. -/
def Filling.byte (mem : Memory) (frame offset : Nat) : Filling → UInt8
  | .copied source => mem (source + offset)
  | .left => mem (frame + offset)
  | .cleared => 0

/-- The bytes that are still to be copied lie below the region. -/
def Writing.Below (w : Writing) (r : Region) : Prop :=
  w.writingData = true → 0 ≤ w.dataLeft → (w.dataPointer : Int) + w.dataLeft + frameSize ≤ r.start

theorem Writing.after_succ (w : Writing) (n : Nat) : w.after (n + 1) = w.next.after n := rfl

theorem Writing.after_add (w : Writing) (m n : Nat) : w.after (m + n) = (w.after m).after n := by
  rw [after, after, after, Nat.add_comm, Function.iterate_add_apply]

theorem fillFrame_fst (w : Writing) (mem : Memory) (f : Nat) : (fillFrame w mem f).1 = w.next := by
  unfold Writing.next fillFrame
  split
  next => split <;> rfl
  next => rfl

theorem onlyFrames_fillFrame (w : Writing) (mem : Memory) (f : Nat) : OnlyFrames [f] mem (fillFrame w mem f).2 := by
  unfold fillFrame
  split
  next =>
    split
    next => exact .refl _ _
    next => exact onlyFrames_memcpy _
  next => exact onlyFrames_memset 0

theorem fillFrame_byte (w : Writing) (mem : Memory) (f : Nat) {o : Nat} (ho : o < frameSize) :
    (fillFrame w mem f).2 (f + o) = w.filling.byte mem f o := by
  unfold fillFrame Writing.filling
  split
  next =>
    split
    next => rfl
    next => exact memcpy_of_mem ho
  next => exact memset_of_mem ho

theorem Writing.Below.next {w : Writing} (h : w.Below r) : w.next.Below r := by
  unfold Writing.next fillFrame
  split
  next hw =>
    split
    next => intro hw'; cases hw'
    next hleft =>
      intro _ _
      have := h hw (by omega)
      push_cast
      omega
  next hw => exact h

theorem Writing.Below.after {w : Writing} (h : w.Below r) : ∀ n, (w.after n).Below r := by
  intro n
  induction n generalizing w with
  | zero => exact h
  | succ n ih => exact ih h.next

/-- What a turn copies lies below the region. -/
theorem Writing.Below.source {w : Writing} (h : w.Below r) {source o : Nat} (hs : w.filling = .copied source)
    (ho : o < frameSize) : source + o < r.start := by
  unfold Writing.filling at hs
  split at hs
  next hw =>
    split at hs
    next => cases hs
    next hleft =>
      cases hs
      have := h hw (by omega)
      omega
  next => cases hs

/-- The byte of a turn does not depend on frames that its own frame is apart from. -/
theorem Writing.Below.byte_congr {w : Writing} (h : w.Below r) (hmem : OnlyFrames fs mem mem') (hfs : ∀ f ∈ fs, f ∈ r.frames)
    (hg : ∀ f ∈ fs, ApartFrames g f) {o : Nat} (ho : o < frameSize) : w.filling.byte mem' g o = w.filling.byte mem g o := by
  cases hw : w.filling with
  | copied source => exact hmem _ fun f hf => Region.below_frame (hfs f hf) (h.source hw ho)
  | left => exact hmem.byte hg ho
  | cleared => rfl

/-! ## The inner loop -/

/-- `n` pages from the entry `index` of a table on were given the frames `fs`. -/
structure EntriesFilled (r : Region) (table n index : Nat) (w : Writing) (held free fs free' : List Nat) (s t : MemoryState) :
    Prop where
  taken : free = fs ++ free'
  length : fs.length = n
  state : t = { s with pool := t.pool }
  pool : PoolInv r t.pool (fs.reverse ++ held) free'
  only : OnlyFrames (table :: fs) s.pool.mem t.pool.mem
  entry : ∀ i f, fs[i]? = some f → pteAt t.pool.mem table (index + i) =
    configurePageEntry (pteAt s.pool.mem table (index + i)) f true true (w.after (i + 1)).writingData true .kilo
  others : ∀ i < ptSize, i < index ∨ index + n ≤ i → pteAt t.pool.mem table i = pteAt s.pool.mem table i
  byte : ∀ i f, fs[i]? = some f → ∀ o < frameSize, t.pool.mem (f + o) = (w.after i).filling.byte s.pool.mem f o

/-- Nothing is filled. -/
theorem EntriesFilled.nil (h : PoolInv r s.pool held free) (table index : Nat) (w : Writing) :
    EntriesFilled r table 0 index w held free [] free s s :=
  ⟨rfl, rfl, rfl, h, .refl _ _, by simp, fun _ _ _ => rfl, by simp⟩

/-- The frames taken were free. -/
theorem EntriesFilled.mem_free {table n index : Nat} {w : Writing} {free' : List Nat} {t : MemoryState}
    (h : EntriesFilled r table n index w held free fs free' s t) : ∀ f ∈ fs, f ∈ free :=
  fun _ hf => h.taken ▸ List.mem_append_left _ hf

theorem getElem?_singleton {i : Nat} (h : [f][i]? = some g) : i = 0 ∧ f = g := by
  cases i with
  | zero => exact ⟨rfl, Option.some.inj h⟩
  | succ i => cases h

/-- One turn. -/
theorem EntriesFilled.turn {table : Nat} (index : Nat) {free' : List Nat} (w : Writing) (h : PoolInv r s.pool held (f :: free'))
    (hpool : PoolInv r pool (f :: held) free') (hmem : pool.mem = s.pool.mem) (htable : table ∈ held) (hindex : index < ptSize) :
    EntriesFilled r table 1 index w held (f :: free') [f] free' s (MemoryState.setMem { s with pool := pool }
      (configurePte (fillFrame w pool.mem f).2 table index f true true w.next.writingData true .kilo)) := by
  have hapart : ApartFrames f table := h.apart (by simp) htable
  have hfill := onlyFrames_fillFrame w pool.mem f
  have hset {e : PageTableEntry} : OnlyFrames [table] (fillFrame w pool.mem f).2 (setPte (fillFrame w pool.mem f).2 table index e) :=
    onlyFrames_setPte hindex
  have honly : OnlyFrames [table, f] pool.mem
      (configurePte (fillFrame w pool.mem f).2 table index f true true w.next.writingData true .kilo) :=
    (hfill.mono (by simp)).trans (hset.mono (by simp))
  have hkept : ∀ i < ptSize, pteAt (fillFrame w pool.mem f).2 table i = pteAt s.pool.mem table i := by
    intro i hi
    rw [← hmem]
    exact hfill.pteAt (by simpa using hapart.symm) hi
  refine ⟨rfl, rfl, rfl, hpool.write [table, f] (by simp [htable]) honly, ?_, ?_, ?_, ?_⟩
  · rw [← hmem]
    exact honly
  · intro i g hg
    obtain ⟨rfl, rfl⟩ := getElem?_singleton hg
    rw [Nat.add_zero]
    refine pteAt_setPte_self.trans ?_
    rw [hkept index hindex]
    rfl
  · intro i hi hout
    exact (pteAt_setPte_index (by omega)).trans (hkept i hi)
  · intro i g hg o ho
    obtain ⟨rfl, rfl⟩ := getElem?_singleton hg
    refine (hset.byte (by simpa using hapart) ho).trans ?_
    rw [fillFrame_byte w pool.mem f ho, hmem]
    rfl

/-- Some turns and then more. -/
theorem EntriesFilled.trans {table n n' index : Nat} {w : Writing} {free' free'' fs' : List Nat} {t u : MemoryState}
    (h : EntriesFilled r table n index w held free fs free' s t)
    (h' : EntriesFilled r table n' (index + n) (w.after n) (fs.reverse ++ held) free' fs' free'' t u)
    (hinv : PoolInv r s.pool held free) (htable : table ∈ held) (hindex : index + n + n' ≤ ptSize) (hw : w.Below r) :
    EntriesFilled r table (n + n') index w held free (fs ++ fs') free'' s u := by
  have hpast {i f : Nat} (hi : (fs ++ fs')[i]? = some f) :
      fs[i]? = some f ∨ ∃ j, i = n + j ∧ fs'[j]? = some f := by
    rw [List.getElem?_append] at hi
    split at hi
    next => exact .inl hi
    next hlt =>
      have := h.length
      exact .inr ⟨i - n, by omega, by rw [← hi, h.length]⟩
  refine ⟨?_, ?_, ?_, ?_, ?_, ?_, ?_, ?_⟩
  · rw [h.taken, h'.taken, List.append_assoc]
  · rw [List.length_append, h.length, h'.length]
  · rw [h'.state, h.state]
  · rw [List.reverse_append, List.append_assoc]
    exact h'.pool
  · exact (h.only.mono (by simp)).trans (h'.only.mono (by simp))
  · intro i f hi
    obtain hi | ⟨j, rfl, hj⟩ := hpast hi
    · have hlt := (List.getElem?_eq_some_iff.1 hi).1
      rw [h.length] at hlt
      rw [h'.others (index + i) (by omega) (by omega)]
      exact h.entry i f hi
    · have hlt := (List.getElem?_eq_some_iff.1 hj).1
      rw [h'.length] at hlt
      have he := h'.entry j f hj
      rw [h.others (index + n + j) (by omega) (by omega), Nat.add_assoc, ← Writing.after_add] at he
      exact he
  · intro i hi hout
    rw [h'.others i hi (by omega), h.others i hi (by omega)]
  · intro i f hi o ho
    obtain hi | ⟨j, rfl, hj⟩ := hpast hi
    · have hf := List.mem_of_getElem? hi
      have hkept : u.pool.mem (f + o) = t.pool.mem (f + o) := by
        refine h'.only.byte (fun g hg => ?_) ho
        obtain rfl | hg := List.mem_cons.1 hg
        · exact hinv.apart (h.mem_free f hf) htable
        · exact (h.pool.apart (h'.mem_free g hg) (by simp [hf])).symm
      rw [hkept, h.byte i f hi o ho]
    · have hf := List.mem_of_getElem? hj
      rw [h'.byte j f hj o ho, ← Writing.after_add]
      have hheld : ∀ g ∈ table :: fs, g ∈ fs.reverse ++ held := by
        intro g hg
        obtain rfl | hg := List.mem_cons.1 hg
        · simp [htable]
        · simp [hg]
      exact (hw.after (n + j)).byte_congr h.only (fun g hg => h.pool.mem_frames.2 g (hheld g hg))
        (fun g hg => h.pool.apart (h'.mem_free f hf) (hheld g hg)) ho

/-- The inner loop of `allocate_memory_final`, by induction on the pages left. -/
theorem wp_allocateEntries {table : Nat} (n : Nat) : ∀ (index : Nat) (w : Writing) (held free : List Nat) (s : MemoryState),
    PoolInv r s.pool held free → table ∈ held → index + n ≤ ptSize → w.Below r →
    wp (allocateEntries table n index w)
      (fun o t => (free.length < n ∧ o = none) ∨
        ∃ fs free', o = some (w.after n) ∧ EntriesFilled r table n index w held free fs free' s t) (fun _ => False) s := by
  induction n with
  | zero => exact fun index w held free s h _ _ _ => .inr ⟨[], free, rfl, .nil h table index w⟩
  | succ n ih =>
    intro index w held free s h htable hindex hw
    rw [allocateEntries, wp_bind]
    apply wp_takeFrame h
    · intro hnil
      simp [hnil]
    intro f free' pool hfree hf hpool hmem
    subst hfree
    simp only [if_neg hf, wp_bind, wp_get, wp_modify, fillFrame_fst]
    have hturn := EntriesFilled.turn index w h hpool hmem htable (by omega)
    refine wp_mono (ih (index + 1) w.next (f :: held) free' _ hturn.pool (by simp [htable]) (by omega) hw.next) (fun o t _ ho => ?_) fun _ _ h => h
    obtain ⟨hshort, ho⟩ | ⟨fs, free'', ho, hrest⟩ := ho
    · exact .inl ⟨by simp; omega, ho⟩
    · refine .inr ⟨f :: fs, free'', ho, ?_⟩
      rw [Nat.add_comm n 1]
      exact hturn.trans hrest h htable (by omega) hw

/-! ## The outer loop -/

/-- The nodes of `n` pages over their level 0 tables, the first of which has the
level 1 index `start`: every table but the last is full. -/
def nodesOf (start : Nat) : List Nat → Nat → List PageTableNode
  | [], _ => []
  | table :: tables, n => ⟨table, min n ptSize, start⟩ :: nodesOf (start + 1) tables (n - ptSize)

/-- `n` pages over the level 0 tables `ts`, linked from the level 1 index `start`
of a directory on, were given the frames `fs`. -/
structure PagesFilled (r : Region) (dir start : Nat) (ts : List Nat) (n : Nat) (w : Writing) (held free fs free' : List Nat)
    (s t : MemoryState) : Prop where
  taken : free = fs ++ free'
  length : fs.length = n
  state : t = { s with pool := t.pool }
  pool : PoolInv r t.pool (fs.reverse ++ held) free'
  only : OnlyFrames (dir :: (ts ++ fs)) s.pool.mem t.pool.mem
  linked : ∀ i table, ts[i]? = some table → pteAt t.pool.mem dir (start + i) =
    configurePageEntry (pteAt s.pool.mem dir (start + i)) table false false false true .kilo
  unlinked : ∀ i < ptSize, i < start ∨ start + ts.length ≤ i → pteAt t.pool.mem dir i = pteAt s.pool.mem dir i
  entry : ∀ k table f, ts[k / ptSize]? = some table → fs[k]? = some f → pteAt t.pool.mem table (k % ptSize) =
    configurePageEntry (pteAt s.pool.mem table (k % ptSize)) f true true (w.after (k + 1)).writingData true .kilo
  others : ∀ i table, ts[i]? = some table → ∀ j < ptSize, n ≤ ptSize * i + j →
    pteAt t.pool.mem table j = pteAt s.pool.mem table j
  byte : ∀ k f, fs[k]? = some f → ∀ o < frameSize, t.pool.mem (f + o) = (w.after k).filling.byte s.pool.mem f o

/-- The tables of a directory are held, in frames of their own. -/
structure Tables (held : List Nat) (dir start : Nat) (ts : List Nat) : Prop where
  root : dir ∈ held
  tables : ∀ t ∈ ts, t ∈ held
  nodup : (dir :: ts).Nodup
  room : start + ts.length ≤ ptSize

theorem Tables.tail {dir start table : Nat} {ts : List Nat} (h : Tables held dir start (table :: ts)) (fs : List Nat) :
    Tables (fs ++ held) dir (start + 1) ts where
  root := List.mem_append_right _ h.root
  tables t ht := List.mem_append_right _ (h.tables t (List.mem_cons_of_mem _ ht))
  nodup := by
    have := h.nodup
    simp only [List.nodup_cons, List.mem_cons, not_or] at this ⊢
    exact ⟨this.1.2, this.2.2⟩
  room := by
    have := h.room
    rw [List.length_cons] at this
    omega

variable {dir start table n : Nat} {w : Writing} {ts free' free'' fs' : List Nat} {t u : MemoryState}

/-- The frames taken were free. -/
theorem PagesFilled.mem_free (h : PagesFilled r dir start ts n w held free fs free' s t) : ∀ f ∈ fs, f ∈ free :=
  fun _ hf => h.taken ▸ List.mem_append_left _ hf

/-- Nothing is filled. -/
theorem PagesFilled.nil (h : PoolInv r s.pool held free) (dir start : Nat) (w : Writing) :
    PagesFilled r dir start [] 0 w held free [] free s s :=
  ⟨rfl, rfl, rfl, h, .refl _ _, by simp, fun _ _ _ => rfl, by simp, by simp, by simp⟩

/-- One table. -/
theorem PagesFilled.single (h : PoolInv r s.pool held free) (ht : Tables held dir start [table])
    (he : EntriesFilled r table n 0 w held free fs free'
      (s.setMem (configurePte s.pool.mem dir start table false false false true .kilo)) t) (hn : n ≤ ptSize) (hw : w.Below r) :
    PagesFilled r dir start [table] n w held free fs free' s t := by
  have htable := ht.tables table (by simp)
  have hne : dir ≠ table := by
    have := ht.nodup
    simp only [List.nodup_cons, List.mem_singleton] at this
    exact this.1
  have hapart : ApartFrames dir table := h.apart_held ht.root htable hne
  have hstart : start < ptSize := ht.room
  have hlink : OnlyFrames [dir] s.pool.mem (configurePte s.pool.mem dir start table false false false true .kilo) :=
    onlyFrames_setPte hstart
  have hdir : ∀ i < ptSize, pteAt t.pool.mem dir i =
      pteAt (configurePte s.pool.mem dir start table false false false true .kilo) dir i := by
    intro i hi
    refine he.only.pteAt (fun g hg => ?_) hi
    obtain rfl | hg := List.mem_cons.1 hg
    · exact hapart
    · exact (h.apart (he.mem_free g hg) ht.root).symm
  have hkept : ∀ i < ptSize, pteAt (configurePte s.pool.mem dir start table false false false true .kilo) table i =
      pteAt s.pool.mem table i := fun i hi => hlink.pteAt (by simpa using hapart.symm) hi
  refine ⟨he.taken, he.length, he.state, he.pool, ?_, ?_, ?_, ?_, ?_, ?_⟩
  · exact (hlink.mono (by simp)).trans (he.only.mono (by simp))
  · intro i g hi
    obtain ⟨rfl, rfl⟩ := getElem?_singleton hi
    rw [Nat.add_zero, hdir start hstart]
    exact pteAt_setPte_self
  · intro i hi hout
    rw [List.length_singleton] at hout
    rw [hdir i hi]
    exact pteAt_setPte_index (by omega)
  · intro k g f hk hf
    obtain ⟨hzero, rfl⟩ := getElem?_singleton hk
    have hlt := (List.getElem?_eq_some_iff.1 hf).1
    have hmod : k % ptSize = k := Nat.mod_eq_of_lt (by rw [he.length] at hlt; omega)
    have := he.entry k f hf
    rw [Nat.zero_add] at this
    rw [hmod, this]
    exact congrArg (configurePageEntry · f true true _ true .kilo) (hkept k (by rw [he.length] at hlt; omega))
  · intro i g hi j hj hout
    obtain ⟨rfl, rfl⟩ := getElem?_singleton hi
    rw [he.others j hj (by omega)]
    exact hkept j hj
  · intro k f hk o ho
    rw [he.byte k f hk o ho]
    refine (hw.after k).byte_congr hlink (fun g hg => ?_) (fun g hg => ?_) ho
    · rw [List.mem_singleton] at hg
      exact hg ▸ h.mem_frames.2 _ ht.root
    · rw [List.mem_singleton] at hg
      exact hg ▸ h.apart (he.mem_free f (List.mem_of_getElem? hk)) ht.root

/-- The other tables lie apart from the directory and from the first table. -/
theorem Tables.apart_tail {i g : Nat} (ht : Tables held dir start (table :: ts)) (hinv : PoolInv r s.pool held free)
    (hi : ts[i]? = some g) : g ∈ held ∧ ApartFrames g dir ∧ ApartFrames g table := by
  have hg := List.mem_of_getElem? hi
  have hheld := ht.tables g (List.mem_cons_of_mem _ hg)
  have hnd := ht.nodup
  simp only [List.nodup_cons, List.mem_cons, not_or] at hnd
  refine ⟨hheld, hinv.apart_held hheld ht.root ?_, hinv.apart_held hheld (ht.tables table (by simp)) ?_⟩
  · rintro rfl
    exact hnd.1.2 hg
  · rintro rfl
    exact hnd.2.1 hg

/-! A table is filled, and then the others. -/

section cons

variable (h : PagesFilled r dir start [table] (min n ptSize) w held free fs free' s t)
  (h' : PagesFilled r dir (start + 1) ts (n - ptSize) (w.after (min n ptSize)) (fs.reverse ++ held) free' fs' free'' t u)
  (hinv : PoolInv r s.pool held free) (ht : Tables held dir start (table :: ts))

include h h' in
/-- A page has its entry in the first table, or the first table is full. -/
theorem PagesFilled.page_cases {k f : Nat} (hk : (fs ++ fs')[k]? = some f) :
    (fs[k]? = some f ∧ k < ptSize) ∨ ∃ j, k = ptSize + j ∧ min n ptSize = ptSize ∧ fs'[j]? = some f := by
  have hlen := h.length
  have hlen' := h'.length
  rw [List.getElem?_append] at hk
  split at hk
  next hlt => exact .inl ⟨hk, by omega⟩
  next hlt =>
    have hj := (List.getElem?_eq_some_iff.1 hk).1
    have hmin : min n ptSize = ptSize := by omega
    rw [hlen, hmin] at hk
    exact .inr ⟨k - ptSize, by omega, hmin, hk⟩

include h h' hinv ht in
/-- The second part writes no entry of the first table. -/
theorem PagesFilled.first_table {i : Nat} (hi : i < ptSize) : pteAt u.pool.mem table i = pteAt t.pool.mem table i := by
  have hheld := ht.tables table (by simp)
  refine h'.only.pteAt (fun g hg => ?_) hi
  obtain rfl | hg := List.mem_cons.1 hg
  · have hnd := ht.nodup
    simp only [List.nodup_cons, List.mem_cons, not_or] at hnd
    exact hinv.apart_held hheld ht.root (Ne.symm hnd.1.1)
  · obtain hg | hg := List.mem_append.1 hg
    · obtain ⟨i, hi⟩ := List.mem_iff_getElem?.1 hg
      exact (ht.apart_tail hinv hi).2.2.symm
    · exact (h.pool.apart (h'.mem_free g hg) (by simp [hheld])).symm

include h hinv ht in
/-- The first part writes no entry of the other tables. -/
theorem PagesFilled.other_table {k g i : Nat} (hk : ts[k]? = some g) (hi : i < ptSize) :
    pteAt t.pool.mem g i = pteAt s.pool.mem g i := by
  obtain ⟨hheld, hdir, htab⟩ := ht.apart_tail hinv hk
  refine h.only.pteAt (fun x hx => ?_) hi
  obtain rfl | hx := List.mem_cons.1 hx
  · exact hdir
  · obtain hx | hx := List.mem_append.1 hx
    · rw [List.mem_singleton.1 hx]
      exact htab
    · exact (hinv.apart (h.mem_free x hx) hheld).symm

include h h' hinv ht in
/-- The second part writes no byte of a page of the first table. -/
theorem PagesFilled.first_page {f o : Nat} (hf : f ∈ fs) (ho : o < frameSize) : u.pool.mem (f + o) = t.pool.mem (f + o) := by
  refine h'.only.byte (fun g hg => ?_) ho
  have hheld : g ∈ held ∨ g ∈ fs' := by
    simp only [List.mem_cons, List.mem_append] at hg
    obtain rfl | hg | hg := hg
    · exact .inl ht.root
    · exact .inl (ht.tables g (List.mem_cons_of_mem _ hg))
    · exact .inr hg
  obtain hg | hg := hheld
  · exact hinv.apart (h.mem_free f hf) hg
  · exact (h.pool.apart (h'.mem_free g hg) (by simp [hf])).symm

include h h' ht in
/-- What a page of the other tables is filled with does not depend on what the first part
wrote. -/
theorem PagesFilled.other_page {f k o : Nat} (hf : f ∈ fs') (hw : w.Below r) (ho : o < frameSize) :
    (w.after k).filling.byte t.pool.mem f o = (w.after k).filling.byte s.pool.mem f o := by
  have hheld : ∀ g ∈ dir :: ([table] ++ fs), g ∈ fs.reverse ++ held := by
    intro g hg
    simp only [List.mem_cons, List.mem_append, List.not_mem_nil, or_false] at hg
    obtain rfl | rfl | hg := hg
    · simp [ht.root]
    · simp [ht.tables]
    · simp [hg]
  exact (hw.after k).byte_congr h.only (fun g hg => h.pool.mem_frames.2 g (hheld g hg))
    (fun g hg => h.pool.apart (h'.mem_free f hf) (hheld g hg)) ho

include h h' hinv ht in
theorem PagesFilled.cons (hw : w.Below r) :
    PagesFilled r dir start (table :: ts) n w held free (fs ++ fs') free'' s u := by
  have hlen := h.length
  have hlen' := h'.length
  have hsize : 0 < ptSize := by decide
  have hroom := ht.room
  rw [List.length_cons] at hroom
  refine ⟨?_, ?_, ?_, ?_, ?_, ?_, ?_, ?_, ?_, ?_⟩
  · rw [h.taken, h'.taken, List.append_assoc]
  · rw [List.length_append, hlen, hlen']
    omega
  · rw [h'.state, h.state]
  · rw [List.reverse_append, List.append_assoc]
    exact h'.pool
  · refine (h.only.mono fun g hg => ?_).trans (h'.only.mono fun g hg => ?_)
    all_goals
      simp only [List.mem_cons, List.mem_append, List.not_mem_nil, or_false] at hg ⊢
      tauto
  · intro i g hi
    cases i with
    | zero =>
      cases hi
      rw [Nat.add_zero, h'.unlinked start (by omega) (by omega)]
      exact h.linked 0 table rfl
    | succ i =>
      have hlt := (List.getElem?_eq_some_iff.1 hi).1
      rw [List.length_cons] at hlt
      have := h'.linked i g hi
      rw [h.unlinked (start + 1 + i) (by omega) (.inr (by rw [List.length_singleton]; omega))] at this
      rw [show start + (i + 1) = start + 1 + i by omega, this]
  · intro i hi hout
    rw [List.length_cons] at hout
    rw [h'.unlinked i hi (by omega), h.unlinked i hi (by rw [List.length_singleton]; omega)]
  · intro k g f hk hf
    obtain ⟨hf, hlt⟩ | ⟨j, rfl, hmin, hf⟩ := h.page_cases h' hf
    · rw [Nat.div_eq_of_lt hlt] at hk
      cases hk
      rw [h.first_table h' hinv ht (Nat.mod_lt _ hsize)]
      exact h.entry k table f (by rw [Nat.div_eq_of_lt hlt]; rfl) hf
    · rw [Nat.add_div_left _ hsize] at hk
      have := h'.entry j g f hk hf
      rw [hmin, ← Writing.after_add, h.other_table hinv ht hk (Nat.mod_lt _ hsize)] at this
      rw [Nat.add_mod_left, this, Nat.add_assoc]
  · intro i g hi j hj hout
    cases i with
    | zero =>
      cases hi
      rw [h.first_table h' hinv ht hj]
      exact h.others 0 table rfl j hj (by omega)
    | succ i =>
      rw [Nat.mul_succ] at hout
      rw [h'.others i g hi j hj (by omega)]
      exact h.other_table hinv ht hi hj
  · intro k f hk o ho
    obtain ⟨hf, -⟩ | ⟨j, rfl, hmin, hf⟩ := h.page_cases h' hk
    · rw [h.first_page h' hinv ht (List.mem_of_getElem? hf) ho]
      exact h.byte k f hf o ho
    · rw [h'.byte j f hf o ho, hmin, ← Writing.after_add]
      exact h.other_page h' ht (List.mem_of_getElem? hf) hw ho

end cons

/-- The outer loop of `allocate_memory_final`, by induction on the tables left. -/
theorem wp_allocateTables {dir : Nat} (ts : List Nat) : ∀ (start n : Nat) (w : Writing) (held free : List Nat) (s : MemoryState),
    PoolInv r s.pool held free → Tables held dir start ts → n ≤ ptSize * ts.length → w.Below r →
    wp (allocateTables dir ts.length start (nodesOf start ts n) w)
      (fun v t => (free.length < n ∧ v = -1) ∨
        ∃ fs free', v = 0 ∧ PagesFilled r dir start ts n w held free fs free' s t) (fun _ => False) s := by
  induction ts with
  | nil =>
    intro start n w held free s h _ hn _
    obtain rfl : n = 0 := by simpa using hn
    exact .inr ⟨[], free, rfl, .nil h dir start w⟩
  | cons table ts ih =>
    intro start n w held free s h ht hn hw
    have htable := ht.tables table (by simp)
    have hpos := (Region.frame_bounds (h.mem_frames.2 table htable)).2.2.2.1
    have hroom := ht.room
    rw [List.length_cons] at hroom hn
    have hone : Tables held dir start [table] :=
      ⟨ht.root, fun t hm => by rw [List.mem_singleton.1 hm]; exact htable,
        by have := ht.nodup; simp only [List.nodup_cons, List.mem_cons, not_or] at this; simp [this.1.1], by simp; omega⟩
    have hlink : OnlyFrames [dir] s.pool.mem (configurePte s.pool.mem dir start table false false false true .kilo) :=
      onlyFrames_setPte (by omega)
    have hinv := h.write [dir] (by simp [ht.root]) hlink
    simp only [nodesOf, List.length_cons, allocateTables]
    rw [if_neg (not_not.2 rfl), if_neg (by omega), wp_bind, wp_modify, wp_bind]
    refine wp_mono (wp_allocateEntries (min n ptSize) 0 w held free
      (s.setMem (configurePte s.pool.mem dir start table false false false true .kilo)) hinv htable (by omega) hw)
      (fun o t _ ho => ?_) fun _ _ h => h
    obtain ⟨hshort, rfl⟩ | ⟨fs, free', rfl, he⟩ := ho
    · exact .inl ⟨by omega, rfl⟩
    have hfirst := PagesFilled.single h hone he (by omega) hw
    refine wp_mono (ih (start + 1) (n - ptSize) (w.after (min n ptSize)) (fs.reverse ++ held) free' t he.pool
      (ht.tail fs.reverse) (by rw [Nat.mul_succ] at hn; omega) (hw.after _)) (fun v u _ hv => ?_) fun _ _ h => h
    obtain ⟨hshort, rfl⟩ | ⟨fs', free'', rfl, hrest⟩ := hv
    · have h1 := congrArg List.length he.taken
      have h2 := he.length
      rw [List.length_append] at h1
      exact .inl ⟨by omega, rfl⟩
    · exact .inr ⟨fs ++ fs', free'', rfl, hfirst.cons hrest h ht hw⟩

end Xinul
