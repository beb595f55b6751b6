import Mathlib.Data.List.Rotate
import Mathlib.Tactic.Common

/-!
# The ring buffer

`ring_buffer.h`: an array with a place to read from and a place to write to, one cell
of which always stays free. Seen from outside it is the list of its unread cells.
-/
namespace NetworkLab

/-- `struct ring_buffer`; the indices stay inside the array. -/
structure RingBuffer (α : Type*) where
  size : ℕ
  head : ℕ
  tail : ℕ
  buf : List α
  length_buf : buf.length = size
  head_lt : head < size
  tail_lt : tail < size

namespace RingBuffer

variable {α : Type*}

/-- `alloc_ring_buffer`, which clears the cells. -/
def alloc (size : ℕ) (zero : α) : RingBuffer α where
  size := size + 1
  head := 0
  tail := 0
  buf := List.replicate (size + 1) zero
  length_buf := List.length_replicate
  head_lt := Nat.succ_pos size
  tail_lt := Nat.succ_pos size

variable (r : RingBuffer α)

/-- `ring_buffer_used`. -/
def used : ℕ := (r.tail + r.size - r.head) % r.size

/-- `ring_buffer_free`. -/
def free : ℕ := r.size - r.used - 1

/-- Unread cells, the oldest first. -/
def contents : List α := (r.buf.rotate r.head).take r.used

/-- The copy out of the array for a read of `len` cells, in two pieces where the end of
the array is in between. -/
def copyOut (len : ℕ) : List α :=
  if r.head + len > r.size then
    let right := r.size - r.head
    (r.buf.drop r.head).take right ++ r.buf.take (len - right)
  else (r.buf.drop r.head).take len

/-- `read_ring_buffer`: the cells read and the buffer after it. -/
def read (size : ℕ) : List α × RingBuffer α :=
  let len := min r.used size
  (r.copyOut len,
    { r with
      head := (r.head + len) % r.size
      head_lt := Nat.mod_lt _ (Nat.zero_lt_of_lt r.head_lt) })

/-- `memcpy` into an array. -/
def memcpy (dst : List α) (pos : ℕ) (src : List α) : List α :=
  dst.take pos ++ src ++ dst.drop (pos + src.length)

/-- The copy into the array. -/
def copyIn (data : List α) : List α :=
  if r.tail + data.length > r.size then
    let right := r.size - r.tail
    memcpy (memcpy r.buf r.tail (data.take right)) 0 (data.drop right)
  else memcpy r.buf r.tail data

theorem length_memcpy {dst : List α} {pos : ℕ} {src : List α}
    (h : pos + src.length ≤ dst.length) : (memcpy dst pos src).length = dst.length := by
  simp only [memcpy, List.length_append, List.length_take, List.length_drop]
  omega

theorem used_lt : r.used < r.size := Nat.mod_lt _ (Nat.zero_lt_of_lt r.head_lt)

theorem used_add_free : r.used + r.free + 1 = r.size := by
  have h := r.used_lt
  unfold free
  omega

theorem length_copyIn {data : List α} (h : data.length ≤ r.free) :
    (r.copyIn data).length = r.size := by
  have hfree := r.used_add_free
  have htail := r.tail_lt
  have hbuf := r.length_buf
  unfold copyIn
  split_ifs with hwrap
  · have hfirst : (memcpy r.buf r.tail (data.take (r.size - r.tail))).length = r.buf.length := by
      apply length_memcpy
      rw [List.length_take]
      omega
    rw [length_memcpy, hfirst, hbuf]
    rw [hfirst, List.length_drop]
    omega
  · rw [length_memcpy (by omega), hbuf]

/-- `write_ring_buffer` of data that its assertion admits. -/
def write (data : List α) (h : data.length ≤ r.free) : RingBuffer α :=
  { r with
    tail := (r.tail + data.length) % r.size
    buf := r.copyIn data
    length_buf := r.length_copyIn h
    tail_lt := Nat.mod_lt _ (Nat.zero_lt_of_lt r.tail_lt) }

theorem length_contents : r.contents.length = r.used := by
  have h := r.used_lt
  rw [contents, List.length_take, List.length_rotate, r.length_buf]
  omega

@[simp] theorem contents_alloc (size : ℕ) (zero : α) : (alloc size zero).contents = [] := by
  have hused : (alloc size zero).used = 0 := by simp [used, alloc]
  rw [contents, hused, List.take_zero]

/-- The number of cells from `head` on to `tail`. -/
theorem mod_of_tail {size head tail n : ℕ} (hhead : head < size) (hn : n < size)
    (h : tail = (head + n) % size) : (tail + size - head) % size = n := by
  by_cases hwrap : head + n < size
  · rw [Nat.mod_eq_of_lt hwrap] at h
    have hsplit : tail + size - head = n + size := by omega
    rw [hsplit, Nat.add_mod_right, Nat.mod_eq_of_lt hn]
  · have hsub : (head + n) % size = head + n - size := by
      rw [Nat.mod_eq_sub_mod (by omega), Nat.mod_eq_of_lt (by omega)]
    have hsplit : tail + size - head = n := by omega
    rw [hsplit, Nat.mod_eq_of_lt hn]

/-- `tail` is where the unread cells end. -/
theorem tail_eq : r.tail = (r.head + r.used) % r.size := by
  have hhead := r.head_lt
  have htail := r.tail_lt
  unfold used
  by_cases hle : r.head ≤ r.tail
  · have hfrom : r.tail = (r.head + (r.tail - r.head)) % r.size := by
      rw [Nat.add_sub_cancel' hle, Nat.mod_eq_of_lt htail]
    rw [mod_of_tail hhead (by omega) hfrom]
    exact hfrom
  · have hsplit : r.head + (r.tail + r.size - r.head) = r.tail + r.size := by omega
    have hmod : (r.tail + r.size - r.head) % r.size = r.tail + r.size - r.head :=
      Nat.mod_eq_of_lt (by omega)
    rw [hmod, hsplit, Nat.add_mod_right, Nat.mod_eq_of_lt htail]

section Read

/-- The two pieces are the oldest unread cells in order. -/
theorem copyOut_eq (len : ℕ) (h : len ≤ r.used) : r.copyOut len = r.contents.take len := by
  have hhead := r.head_lt
  have hused := r.used_lt
  have hbuf := r.length_buf
  have hrotate : r.buf.rotate r.head = r.buf.drop r.head ++ r.buf.take r.head :=
    List.rotate_eq_drop_append_take (by omega)
  rw [contents, List.take_take, min_eq_left h, hrotate, List.take_append, List.length_drop, hbuf,
    copyOut]
  split_ifs with hwrap
  · have hfull : (r.buf.drop r.head).length ≤ len := by
      rw [List.length_drop]
      omega
    have hfull' : (r.buf.drop r.head).length ≤ r.size - r.head := by
      rw [List.length_drop]
      omega
    simp only [List.take_of_length_le hfull, List.take_of_length_le hfull', List.take_take]
    rw [min_eq_left (by omega)]
  · have hnone : len - (r.size - r.head) = 0 := by omega
    rw [hnone, List.take_zero, List.append_nil]

theorem used_read (size : ℕ) : (r.read size).2.used = r.used - min r.used size := by
  have hused := r.used_lt
  refine mod_of_tail (r.read size).2.head_lt (Nat.lt_of_le_of_lt (Nat.sub_le _ _) hused) ?_
  have htail := r.tail_eq
  simp only [read, Nat.mod_add_mod, Nat.add_assoc]
  rw [Nat.add_sub_cancel' (min_le_left _ _)]
  exact htail

/-- A read takes the oldest cells and leaves the others. -/
theorem contents_read (size : ℕ) : (r.read size).1 = r.contents.take size ∧
    (r.read size).2.contents = r.contents.drop size := by
  have hlen := r.length_contents
  have hused := r.used_lt
  have hbuf := r.length_buf
  refine ⟨?_, ?_⟩
  · simp only [read, r.copyOut_eq _ (min_le_left _ _)]
    rw [List.take_eq_take_min (i := size), hlen, min_comm]
  · have hrotate : (r.read size).2.buf.rotate (r.read size).2.head =
        (r.buf.rotate r.head).rotate (min r.used size) := by
      rw [List.rotate_rotate]
      simp only [read]
      rw [← hbuf, List.rotate_mod]
    have hsplit : (r.buf.rotate r.head).rotate (min r.used size) =
        (r.buf.rotate r.head).drop (min r.used size) ++
          (r.buf.rotate r.head).take (min r.used size) := by
      apply List.rotate_eq_drop_append_take
      rw [List.length_rotate]
      omega
    have hleft : (r.used - min r.used size) - ((r.buf.rotate r.head).drop
        (min r.used size)).length = 0 := by
      rw [List.length_drop, List.length_rotate]
      omega
    rw [contents, used_read, hrotate, hsplit, List.take_append, hleft, List.take_zero,
      List.append_nil, contents, List.drop_take]
    by_cases hsize : size ≤ r.used
    · rw [min_eq_right hsize]
    · have hall : r.used - size = 0 := by omega
      rw [min_eq_left (by omega), Nat.sub_self, hall, List.take_zero, List.take_zero]

end Read

section Write

theorem used_write {data : List α} (h : data.length ≤ r.free) :
    (r.write data h).used = r.used + data.length := by
  have hfree := r.used_add_free
  refine mod_of_tail r.head_lt (by simp only [write]; omega) ?_
  simp only [write, r.tail_eq, Nat.mod_add_mod, Nat.add_assoc]

/-- The cells of the array after a `memcpy`. -/
theorem getElem?_memcpy (dst : List α) (pos : ℕ) (src : List α) (i : ℕ) (h : pos ≤ dst.length) :
    (memcpy dst pos src)[i]? =
      if i < pos then dst[i]? else if i < pos + src.length then src[i - pos]? else dst[i]? := by
  have htake : (dst.take pos).length = pos := List.length_take_of_le h
  split_ifs with hbefore hin
  · rw [memcpy, List.append_assoc, List.getElem?_append_left (by omega),
      List.getElem?_take_of_lt hbefore]
  · rw [memcpy, List.append_assoc, List.getElem?_append_right (by omega), htake,
      List.getElem?_append_left (by omega)]
  · rw [memcpy, List.append_assoc, List.getElem?_append_right (by omega), htake,
      List.getElem?_append_right (by omega), List.getElem?_drop]
    congr 1
    omega

/-- The cells of the array after a write: those from `tail` on hold the data. -/
theorem getElem?_copyIn {data : List α} (h : data.length ≤ r.free) (j : ℕ) (hj : j < r.size) :
    (r.copyIn data)[j]? =
      if r.tail ≤ j then
        if j < r.tail + data.length then data[j - r.tail]? else r.buf[j]?
      else if j + r.size < r.tail + data.length then data[j + r.size - r.tail]?
      else r.buf[j]? := by
  have hfree := r.used_add_free
  have htail := r.tail_lt
  have hbuf := r.length_buf
  unfold copyIn
  by_cases hwrap : r.tail + data.length > r.size
  · have hlen : (data.take (r.size - r.tail)).length = r.size - r.tail :=
      List.length_take_of_le (by omega)
    have hrest : (data.drop (r.size - r.tail)).length = data.length - (r.size - r.tail) :=
      List.length_drop
    rw [if_pos hwrap]
    dsimp only
    rw [getElem?_memcpy _ _ _ _ (Nat.zero_le _), getElem?_memcpy _ _ _ _ (by omega), hlen, hrest]
    by_cases hle : r.tail ≤ j
    · rw [if_neg (by omega), if_neg (by omega), if_neg (by omega), if_pos (by omega), if_pos hle,
        if_pos (by omega), List.getElem?_take_of_lt (by omega)]
    · by_cases hin : j + r.size < r.tail + data.length
      · rw [if_neg (by omega), if_pos (by omega), if_neg hle, if_pos hin, List.getElem?_drop]
        congr 1
        omega
      · rw [if_neg (by omega), if_neg (by omega), if_pos (by omega), if_neg hle, if_neg hin]
  · rw [if_neg hwrap, getElem?_memcpy _ _ _ _ (by omega)]
    by_cases hle : r.tail ≤ j
    · rw [if_neg (by omega), if_pos hle]
    · rw [if_pos (by omega), if_neg hle, if_neg (by omega)]

/-- The place in the array of the `i`-th cell from `head` on. -/
theorem mod_cases {size head i : ℕ} (hhead : head < size) (hi : i < size) :
    ((i + head) % size = i + head ∧ i + head < size) ∨
      ((i + head) % size + size = i + head ∧ size ≤ i + head) := by
  by_cases h : i + head < size
  · exact .inl ⟨Nat.mod_eq_of_lt h, h⟩
  · refine .inr ⟨?_, by omega⟩
    rw [Nat.mod_eq_sub_mod (by omega), Nat.mod_eq_of_lt (by omega)]
    omega

/-- A write adds the data after the unread cells. -/
theorem contents_write {data : List α} (h : data.length ≤ r.free) :
    (r.write data h).contents = r.contents ++ data := by
  have hfree := r.used_add_free
  have hhead := r.head_lt
  have htail := r.tail_eq
  have hbuf := r.length_buf
  have hcopy := r.length_copyIn h
  apply List.ext_getElem?
  intro i
  by_cases hi : i < r.used + data.length
  · have hplace := mod_cases hhead (i := i) (by omega)
    have hend := mod_cases hhead (i := r.used) r.used_lt
    rw [Nat.add_comm, ← htail] at hend
    have hcell : (r.write data h).contents[i]? = (r.copyIn data)[(i + r.head) % r.size]? := by
      rw [contents, used_write, List.getElem?_take_of_lt hi, List.getElem?_rotate]
      · simp only [write, hcopy]
      · simp only [write, hcopy]
        omega
    rw [hcell, r.getElem?_copyIn h _ (Nat.mod_lt _ (by omega))]
    by_cases hold : i < r.used
    · have hsame : (r.contents ++ data)[i]? = r.buf[(i + r.head) % r.size]? := by
        rw [List.getElem?_append_left (by rw [length_contents]; exact hold), contents,
          List.getElem?_take_of_lt hold, List.getElem?_rotate (by omega), hbuf]
      rw [hsame]
      split_ifs <;> first | rfl | omega
    · rw [List.getElem?_append_right (by rw [length_contents]; omega), length_contents]
      split_ifs
      all_goals first
        | omega
        | congr 1; omega
  · have hnew := (r.write data h).length_contents
    have hall := r.length_contents
    rw [used_write] at hnew
    rw [List.getElem?_eq_none (by omega), List.getElem?_eq_none]
    rw [List.length_append]
    omega

end Write

end RingBuffer

end NetworkLab
