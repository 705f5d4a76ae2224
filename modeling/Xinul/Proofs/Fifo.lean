import Xinul.Kernel.MsgQueue
import Xinul.Lib.Ring

/-!
# The ring of a message queue

`MsgQueue.Fifo` ties the history of a queue to its ring: what was accepted is what
was delivered and then what the ring holds, oldest first.
-/

namespace Xinul

/-- The messages in the ring, oldest first. -/
def MsgQueue.contents (m : MsgQueue) : List Int := Ring.window m.msgArr m.size m.oldestIndex m.numberOfMsgs

/-- The ring is within its bounds. -/
structure MsgQueue.Bounded (m : MsgQueue) : Prop where
  room : m.numberOfMsgs ≤ m.size
  index : m.size = 0 ∨ m.iffc < m.size

/-- The messages accepted are the ones delivered followed by the ones in the ring. -/
def MsgQueue.Fifo (m : MsgQueue) : Prop := m.accepted = m.delivered ++ m.contents

variable {m : MsgQueue}

/-- The remainder `mod` computes. -/
theorem msgMod_eq {a b : Int} (hb : 0 < b) : msgMod a b = a % b := by
  have h1 := Int.tmod_eq_emod (a := a) (b := b)
  have h2 := Int.emod_nonneg a hb.ne'
  have h3 := Int.emod_lt_of_pos a hb
  unfold msgMod
  split at h1 <;> dsimp only <;> split <;> omega

theorem MsgQueue.oldestIndex_eq (hroom : m.numberOfMsgs ≤ m.size) (hsize : 0 < m.size) :
    m.oldestIndex = Ring.oldest m.size m.iffc m.numberOfMsgs := by
  unfold MsgQueue.oldestIndex Ring.oldest
  rw [msgMod_eq (by omega)]
  have : ((m.iffc : Int) - m.numberOfMsgs) % m.size = ((m.iffc + m.size - m.numberOfMsgs : Nat) : Int) % m.size := by
    rw [show ((m.iffc + m.size - m.numberOfMsgs : Nat) : Int) = (m.iffc : Int) - m.numberOfMsgs + m.size by omega,
      Int.add_emod_right]
  rw [this]
  rfl

theorem MsgQueue.contents_of_empty (h : m.isEmpty = true) : m.contents = [] := by
  have : m.numberOfMsgs = 0 := by simpa [MsgQueue.isEmpty] using h
  simp [MsgQueue.contents, this]

/-! ## The bounds -/

theorem MsgQueue.Bounded.fresh (n : Nat) : MsgQueue.Bounded ⟨fun _ => 0, n, 0, 0, [], []⟩ :=
  ⟨Nat.zero_le n, by simp only; omega⟩

theorem MsgQueue.Bounded.reset (_h : m.Bounded) : m.reset.Bounded :=
  ⟨Nat.zero_le _, by simp only [MsgQueue.reset]; omega⟩

theorem MsgQueue.Bounded.addMessage (h : m.Bounded) (hf : m.numberOfMsgs < m.size) (v : Int) : (m.addMessage v).Bounded :=
  ⟨hf, .inr (Nat.mod_lt _ (h.index.elim (by omega) (by omega)))⟩

theorem MsgQueue.Bounded.popOldestMsg (h : m.Bounded) : m.popOldestMsg.Bounded :=
  ⟨(Nat.sub_le _ _).trans h.room, h.index⟩

theorem MsgQueue.Bounded.history (h : m.Bounded) (accepted delivered : List Int) :
    MsgQueue.Bounded { m with accepted := accepted, delivered := delivered } := ⟨h.room, h.index⟩

/-! ## The history -/

theorem MsgQueue.Fifo.fresh (n : Nat) : MsgQueue.Fifo ⟨fun _ => 0, n, 0, 0, [], []⟩ := rfl

theorem MsgQueue.Fifo.reset (m : MsgQueue) : m.reset.Fifo := rfl

/-- A message handed over while the ring is empty. -/
theorem MsgQueue.Fifo.handOver (h : m.Fifo) (he : m.isEmpty = true) (v : Int) : (m.handOver v).Fifo := by
  have h0 : (m.handOver v).contents = [] := MsgQueue.contents_of_empty he
  have h1 : m.accepted = m.delivered := by
    have := h
    rwa [MsgQueue.Fifo, MsgQueue.contents_of_empty he, List.append_nil] at this
  rw [MsgQueue.Fifo, h0, List.append_nil]
  simp [MsgQueue.handOver, MsgQueue.accept, MsgQueue.deliver, h1]

theorem MsgQueue.Fifo.addMessage (h : m.Fifo) (hb : m.Bounded) (hf : m.numberOfMsgs < m.size) (v : Int) :
    (m.addMessage v).Fifo := by
  have hi : m.iffc < m.size := hb.index.resolve_left (by omega)
  have hold : (m.addMessage v).oldestIndex = m.oldestIndex := by
    rw [m.oldestIndex_eq hb.room (by omega), (m.addMessage v).oldestIndex_eq hf (show 0 < m.size by omega)]
    exact Ring.oldest_push hi hf
  have hcell : m.iffc = (m.oldestIndex + m.numberOfMsgs) % m.size := by
    rw [m.oldestIndex_eq hb.room (by omega), Ring.oldest_add hi hb.room]
  have hcont : (m.addMessage v).contents = m.contents ++ [v] := by
    unfold MsgQueue.contents
    rw [hold]
    simp only [MsgQueue.addMessage]
    nth_rewrite 1 [hcell]
    exact Ring.window_push hf v
  have h' : m.accepted = m.delivered ++ m.contents := h
  rw [MsgQueue.Fifo, hcont, ← List.append_assoc, show (m.addMessage v).delivered = m.delivered from rfl, ← h']
  rfl

theorem MsgQueue.Fifo.popOldestMsg (h : m.Fifo) (hb : m.Bounded) (he : 0 < m.numberOfMsgs) :
    (m.popOldestMsg.deliver m.oldestMsg).Fifo := by
  have hroom := hb.room
  obtain ⟨n, hn⟩ : ∃ n, m.numberOfMsgs = n + 1 := ⟨m.numberOfMsgs - 1, by omega⟩
  have hi : m.iffc < m.size := hb.index.resolve_left (by omega)
  have hn' : m.popOldestMsg.numberOfMsgs = n := by simp [MsgQueue.popOldestMsg, hn]
  have hroom' : m.popOldestMsg.numberOfMsgs ≤ m.popOldestMsg.size := hb.popOldestMsg.room
  have hold : m.popOldestMsg.oldestIndex = (m.oldestIndex + 1) % m.size := by
    rw [m.oldestIndex_eq hb.room (by omega), m.popOldestMsg.oldestIndex_eq hroom' (show 0 < m.size by omega), hn', hn]
    exact Ring.oldest_pop hi (show n < m.size by omega)
  have hlt : m.oldestIndex < m.size := by
    rw [m.oldestIndex_eq hb.room (by omega)]
    exact Ring.oldest_lt (by omega)
  have hcont : m.contents = m.oldestMsg :: m.popOldestMsg.contents := by
    unfold MsgQueue.contents
    rw [hn, hn', hold, Ring.window_pop, Nat.mod_eq_of_lt hlt]
    rfl
  have h' : m.accepted = m.delivered ++ m.contents := h
  show m.accepted = (m.delivered ++ [m.oldestMsg]) ++ m.popOldestMsg.contents
  rw [h', hcont]
  simp

end Xinul
