import Mathlib.Data.List.Chain

/-!
# Queues of unacknowledged segments

A sender appends segments to a queue, each beginning where the one before ends, and
removes them from the front. The window reaches from the first segment that is left
to the place where the next one will begin.
-/
namespace NetworkLab.SlidingWindow

variable {S K : Type*}

/-- The segments ever queued, those that are left, and the ends of the window. -/
structure Window (S K : Type*) where
  history : List K
  queue : List K
  una : S
  nxt : S

/-- What is left is the tail of what was queued, without gaps and up to `nxt`; once
something has been removed, `una` is where the rest begins. -/
structure Sound (start stop : K → S) (w : Window S K) : Prop where
  tail : ∃ popped, w.history = popped ++ w.queue ∧
    (popped ≠ [] → w.una = (w.queue.head?.map start).getD w.nxt)
  chain : w.queue.IsChain fun k next => start next = stop k
  last : ∀ k ∈ w.queue.getLast?, stop k = w.nxt

variable {start stop : K → S}

theorem sound_empty (una nxt : S) : Sound start stop ⟨[], [], una, nxt⟩ :=
  ⟨⟨[], rfl, fun h => absurd rfl h⟩, .nil, by simp⟩

/-- A segment that begins where the window ends extends it. -/
theorem Sound.push {w : Window S K} (h : Sound start stop w) {k : K} (hk : start k = w.nxt) :
    Sound start stop ⟨w.history ++ [k], w.queue ++ [k], w.una, stop k⟩ := by
  obtain ⟨popped, htail, huna⟩ := h.tail
  refine ⟨⟨popped, by rw [htail, List.append_assoc], fun hne => ?_⟩, ?_, ?_⟩
  · rw [huna hne]
    cases hqueue : w.queue with
    | nil => simp [hk]
    | cons first rest => simp
  · refine List.isChain_append.mpr ⟨h.chain, .singleton k, fun last hlast next hnext => ?_⟩
    obtain rfl : k = next := by simpa using hnext
    exact hk.trans (h.last last hlast).symm
  · intro last hlast
    obtain rfl : k = last := by simpa using hlast
    rfl

/-- Removing segments moves the front of the window to the end of the last of them. -/
theorem Sound.pop {history popped queue : List K} {una nxt : S}
    (h : Sound start stop ⟨history, popped ++ queue, una, nxt⟩) :
    Sound start stop ⟨history, queue, (popped.getLast?.map stop).getD una, nxt⟩ := by
  obtain ⟨earlier, htail, huna⟩ := h.tail
  obtain ⟨-, hchain, hjoin⟩ := List.isChain_append.mp h.chain
  refine ⟨⟨earlier ++ popped, by rw [htail, List.append_assoc], fun hne => ?_⟩, hchain, ?_⟩
  · cases hlast : popped.getLast? with
    | none =>
      obtain rfl : popped = [] := by simpa using hlast
      exact huna (by simpa using hne)
    | some last =>
      cases queue with
      | nil => exact h.last last (by simpa using hlast)
      | cons first rest => exact (hjoin last hlast first rfl).symm
  · intro last hlast
    refine h.last last ?_
    simp only [List.getLast?_append, Option.mem_def] at hlast ⊢
    rw [hlast]
    rfl

end NetworkLab.SlidingWindow
