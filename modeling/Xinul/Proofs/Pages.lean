import Xinul.Kernel.Pages

/-!
# Entries, tables and frames

An entry read back is the entry written, and a write to one frame leaves the
tables and the bytes of the others.
-/

namespace Xinul

open Bytes

/-! ## Entries -/

/-- The fields of a word are below their sizes. -/
theorem PageTableEntry.bounds (e : PageTableEntry) :
    (e.valid.toNat ≤ 1 ∧ e.read.toNat ≤ 1 ∧ e.write.toNat ≤ 1 ∧ e.exec.toNat ≤ 1 ∧ e.resU.toNat ≤ 1 ∧
      e.global.toNat ≤ 1 ∧ e.resA.toNat ≤ 1 ∧ e.resD.toNat ≤ 1 ∧ e.n.toNat ≤ 1) ∧
    e.rsw.toNat < 2 ^ 2 ∧ e.ppn0.toNat < 2 ^ 9 ∧ e.ppn1.toNat < 2 ^ 9 ∧ e.ppn2.toNat < 2 ^ 26 ∧
      e.reserved.toNat < 2 ^ 7 ∧ e.pbmt.toNat < 2 ^ 2 :=
  ⟨⟨Bool.toNat_le _, Bool.toNat_le _, Bool.toNat_le _, Bool.toNat_le _, Bool.toNat_le _, Bool.toNat_le _,
    Bool.toNat_le _, Bool.toNat_le _, Bool.toNat_le _⟩, e.rsw.isLt, e.ppn0.isLt, e.ppn1.isLt, e.ppn2.isLt,
    e.reserved.isLt, e.pbmt.isLt⟩

theorem PageTableEntry.toWord_lt (e : PageTableEntry) : e.toWord < 2 ^ 64 := by
  have h := e.bounds
  unfold toWord
  omega

/-- A bit of a word as a field. -/
theorem bit_eq {n : Nat} {b : Bool} (h : n % 2 = b.toNat) : decide (n % 2 = 1) = b := by
  cases b with
  | false => simp [h]
  | true => simp [h]

/-- A bit-field of a word. -/
theorem field_eq {n w : Nat} {x : BitVec w} (h : n % 2 ^ w = x.toNat) : BitVec.ofNat w n = x :=
  BitVec.eq_of_toNat_eq (by rw [BitVec.toNat_ofNat, h])

/-- An entry read back. -/
theorem PageTableEntry.ofWord_toWord (e : PageTableEntry) : ofWord e.toWord = e := by
  have h := e.bounds
  unfold toWord ofWord
  ext1
  · exact bit_eq (by omega)
  · exact bit_eq (by omega)
  · exact bit_eq (by omega)
  · exact bit_eq (by omega)
  · exact bit_eq (by omega)
  · exact bit_eq (by omega)
  · exact bit_eq (by omega)
  · exact bit_eq (by omega)
  · exact field_eq (by omega)
  · exact field_eq (by omega)
  · exact field_eq (by omega)
  · exact field_eq (by omega)
  · exact field_eq (by omega)
  · exact field_eq (by omega)
  · exact bit_eq (by omega)

/-- The address of an entry is the one it was configured with. -/
theorem findPteAdress_configure (pte : PageTableEntry) {address : Nat} (read write exec userMode : Bool)
    (haligned : address % frameSize = 0) (hlt : address < 2 ^ 56) :
    findPteAdress (configurePageEntry pte address read write exec userMode .kilo) = address := by
  simp only [findPteAdress, configurePageEntry, linkPte, BitVec.toNat_ofNat, gigaSize, megaSize, kiloSize]
  unfold frameSize at haligned
  omega

/-- The flags of an entry are those it was configured with. -/
theorem configurePageEntry_flags (pte : PageTableEntry) (address : Nat) (read write exec userMode : Bool) :
    let e := configurePageEntry pte address read write exec userMode .kilo
    e.valid = true ∧ e.read = read ∧ e.write = write ∧ e.exec = exec ∧ e.resU = userMode := ⟨rfl, rfl, rfl, rfl, rfl⟩

/-! ## Entries in memory -/

variable {mem mem' : Memory} {t t' i j f a n : Nat} {e : PageTableEntry}

theorem pteAt_congr (h : ∀ a, t + 8 * i ≤ a → a < t + 8 * i + 8 → mem' a = mem a) : pteAt mem' t i = pteAt mem t i := by
  rw [pteAt, pteAt, load64_congr h]

theorem pteAt_setPte_self : pteAt (setPte mem t i e) t i = e := by
  rw [pteAt, setPte, load64_store64 e.toWord_lt, e.ofWord_toWord]

theorem pteAt_setPte_of_ne (h : t + 8 * i + 8 ≤ t' + 8 * j ∨ t' + 8 * j + 8 ≤ t + 8 * i) :
    pteAt (setPte mem t' j e) t i = pteAt mem t i := by
  rw [pteAt, setPte, load64_store64_of_ne h, pteAt]

/-- Only the bytes of these frames differ. -/
def OnlyFrames (fs : List Nat) (mem mem' : Memory) : Prop :=
  ∀ a, (∀ f ∈ fs, a < f ∨ f + frameSize ≤ a) → mem' a = mem a

/-- The frames at `f` and `g` do not overlap. -/
def ApartFrames (f g : Nat) : Prop := f + frameSize ≤ g ∨ g + frameSize ≤ f

theorem ApartFrames.symm {g : Nat} (h : ApartFrames f g) : ApartFrames g f := Or.symm h

/-- An address inside a frame that lies apart from another. -/
theorem ApartFrames.outside {g o : Nat} (h : ApartFrames f g) (ho : o < frameSize) : f + o < g ∨ g + frameSize ≤ f + o := by
  unfold ApartFrames at h
  omega

variable {fs gs : List Nat} {mem'' : Memory}

theorem OnlyFrames.refl (fs : List Nat) (mem : Memory) : OnlyFrames fs mem mem := fun _ _ => rfl

theorem OnlyFrames.mono (h : OnlyFrames fs mem mem') (hs : fs ⊆ gs) : OnlyFrames gs mem mem' :=
  fun a ha => h a fun f hf => ha f (hs hf)

theorem OnlyFrames.trans (h : OnlyFrames fs mem mem') (h' : OnlyFrames fs mem' mem'') : OnlyFrames fs mem mem'' :=
  fun a ha => (h' a ha).trans (h a ha)

theorem onlyFrames_setPte (hi : i < ptSize) : OnlyFrames [t] mem (setPte mem t i e) := by
  intro a ha
  have ha := ha t (List.mem_singleton_self t)
  unfold frameSize ptSize at *
  obtain ha | ha := ha
  · exact store64_of_lt (by omega)
  · exact store64_of_ge (by omega)

theorem onlyFrames_memset (b : UInt8) : OnlyFrames [f] mem (memset mem f b frameSize) :=
  fun _ ha => memset_of_not (ha f (List.mem_singleton_self f))

theorem onlyFrames_memcpy (src : Nat) : OnlyFrames [f] mem (memcpy mem f src frameSize) :=
  fun _ ha => memcpy_of_not (ha f (List.mem_singleton_self f))

/-- A byte in a frame apart from those that differ. -/
theorem OnlyFrames.byte (h : OnlyFrames fs mem mem') (hf : ∀ g ∈ fs, ApartFrames f g) {o : Nat} (ho : o < frameSize) :
    mem' (f + o) = mem (f + o) := h _ fun g hg => (hf g hg).outside ho

/-- A table in a frame apart from those that differ. -/
theorem OnlyFrames.pteAt (h : OnlyFrames fs mem mem') (hf : ∀ g ∈ fs, ApartFrames t g) (hi : i < ptSize) :
    pteAt mem' t i = pteAt mem t i := by
  refine pteAt_congr fun a h1 h2 => ?_
  obtain ⟨o, rfl⟩ : ∃ o, a = t + o := ⟨a - t, by omega⟩
  apply h.byte hf
  unfold frameSize ptSize at *
  omega

/-- The other entries of a table. -/
theorem pteAt_setPte_index (h : i ≠ j) : pteAt (setPte mem t j e) t i = pteAt mem t i :=
  pteAt_setPte_of_ne (by omega)

theorem pteAt_memset_zero (hi : i < ptSize) : pteAt (memset mem f 0 frameSize) f i = .ofWord 0 := by
  have hz : ∀ k, k < 8 → memset mem f 0 frameSize (f + 8 * i + k) = 0 := by
    intro k hk
    rw [Nat.add_assoc]
    apply memset_of_mem
    unfold frameSize ptSize at *
    omega
  have h0 := hz 0 (by decide)
  rw [Nat.add_zero] at h0
  rw [Xinul.pteAt, load64, h0, hz 1 (by decide), hz 2 (by decide), hz 3 (by decide), hz 4 (by decide), hz 5 (by decide),
    hz 6 (by decide), hz 7 (by decide)]
  rfl

theorem pteAt_memcpy (hi : i < ptSize) : pteAt (memcpy mem f a frameSize) f i = pteAt mem a i := by
  have hz : ∀ k, k < 8 → memcpy mem f a frameSize (f + 8 * i + k) = mem (a + 8 * i + k) := by
    intro k hk
    rw [Nat.add_assoc, Nat.add_assoc]
    apply memcpy_of_mem
    unfold frameSize ptSize at *
    omega
  have h0 := hz 0 (by decide)
  rw [Nat.add_zero, Nat.add_zero] at h0
  rw [Xinul.pteAt, load64, h0, hz 1 (by decide), hz 2 (by decide), hz 3 (by decide), hz 4 (by decide), hz 5 (by decide),
    hz 6 (by decide), hz 7 (by decide)]
  rfl

/-! ## The walk -/

variable {levels page : Nat} {pte : PageTableEntry}

/-- An entry that links a table leads on. -/
theorem translateFrom_link {address : Nat} {userMode : Bool}
    (h : pteAt mem t (page / ptSize ^ levels % ptSize) = configurePageEntry pte address false false false userMode .kilo)
    (haligned : address % frameSize = 0) (hlt : address < 2 ^ 56) :
    translateFrom mem (levels + 1) t page = translateFrom mem levels address page := by
  have hleaf : isLeaf (configurePageEntry pte address false false false userMode .kilo) = false := rfl
  rw [translateFrom, h]
  simp only [hleaf, findPteAdress_configure pte false false false userMode haligned hlt]
  rw [if_neg, if_neg (by decide)]
  rintro (hvalid | ⟨-, hwrite⟩)
  · cases hvalid
  · cases hwrite

/-- An entry that can be read ends the walk. -/
theorem translateFrom_leaf {address : Nat} {write exec userMode : Bool}
    (h : pteAt mem t (page / ptSize ^ levels % ptSize) = configurePageEntry pte address true write exec userMode .kilo) :
    translateFrom mem (levels + 1) t page =
      some (configurePageEntry pte address true write exec userMode .kilo, ptSize ^ levels) := by
  have hleaf : isLeaf (configurePageEntry pte address true write exec userMode .kilo) = true := rfl
  rw [translateFrom, h]
  simp only [hleaf, if_true]
  rw [if_neg]
  rintro (hvalid | ⟨hread, -⟩)
  · cases hvalid
  · cases hread

/-- An empty entry ends the walk without a page. -/
theorem translateFrom_blank (h : pteAt mem t (page / ptSize ^ levels % ptSize) = .ofWord 0) :
    translateFrom mem (levels + 1) t page = none := by
  have hvalid : (PageTableEntry.ofWord 0).valid = false := by decide
  rw [translateFrom, h]
  simp only [hvalid, true_or, if_true]

end Xinul
