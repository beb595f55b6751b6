import Mathlib.Algebra.Group.Int.Defs
import Mathlib.Algebra.Group.Nat.Defs
import NetworkLab.RingBuffer

/-!
# The ring buffer as a bounded queue

The functions of `ring_buffer.h` on integers of type `int`, whose overflow has no defined
result, and with every copy checked against the array. On the buffers of a run they do what
they do to the list of the unread cells.
-/
namespace NetworkLab

section Memory

/-- A value of type `int`. -/
def toInt (z : ℤ) : Option ℤ := if -2 ^ 31 ≤ z ∧ z < 2 ^ 31 then some z else none

/-- The operator `%`. -/
def remInt (a b : ℤ) : Option ℤ := if b = 0 then none else toInt (a.tmod b)

/-- `struct ring_buffer` as it is in memory. -/
structure RingMemory (α : Type) where
  size : ℤ
  head : ℤ
  tail : ℤ
  buf : List α

namespace RingMemory

variable {α : Type}

/-- `memcpy` from an array. -/
def copyFrom (src : List α) (pos count : ℤ) : Option (List α) :=
  if 0 ≤ pos ∧ 0 ≤ count ∧ pos + count ≤ src.length then
    some ((src.drop pos.toNat).take count.toNat)
  else none

/-- `memcpy` of these bytes into an array. -/
def copyTo (dst : List α) (pos : ℤ) (src : List α) : Option (List α) :=
  if 0 ≤ pos ∧ pos + src.length ≤ dst.length then some (RingBuffer.memcpy dst pos.toNat src)
  else none

/-- `alloc_ring_buffer`. -/
def allocRingBuffer (size : ℤ) (zero : α) : Option (RingMemory α) := do
  let cells ← toInt (size + 1)
  some ⟨cells, 0, 0, List.replicate cells.toNat zero⟩

variable (rbuf : RingMemory α)

def ringBufferUsed : Option ℤ := do
  let diff ← toInt (rbuf.tail - rbuf.head)
  let sum ← toInt (diff + rbuf.size)
  remInt sum rbuf.size

def ringBufferFree : Option ℤ := do
  let used ← rbuf.ringBufferUsed
  let rest ← toInt (rbuf.size - used)
  toInt (rest - 1)

/-- The copies of `read_ring_buffer`. -/
def copyOut (len : ℤ) : Option (List α) := do
  let stop ← toInt (rbuf.head + len)
  if stop > rbuf.size then
    let right ← toInt (rbuf.size - rbuf.head)
    let left ← toInt (len - right)
    let first ← copyFrom rbuf.buf rbuf.head right
    let second ← copyFrom rbuf.buf 0 left
    some (first ++ second)
  else copyFrom rbuf.buf rbuf.head len

/-- `read_ring_buffer`: its result, the bytes read and the buffer after it. -/
def readRingBuffer (size : ℤ) : Option (ℤ × List α × RingMemory α) := do
  let used ← rbuf.ringBufferUsed
  let len := min used size
  if 0 < len then
    let bytes ← rbuf.copyOut len
    let stop ← toInt (rbuf.head + len)
    let head ← remInt stop rbuf.size
    some (len, bytes, { rbuf with head := head })
  else some (len, [], rbuf)

/-- The copies of `write_ring_buffer`. -/
def copyIn (data : List α) : Option (List α) := do
  let len ← toInt data.length
  let stop ← toInt (rbuf.tail + len)
  if stop > rbuf.size then
    let right ← toInt (rbuf.size - rbuf.tail)
    let left ← toInt (len - right)
    let first ← copyFrom data 0 right
    let second ← copyFrom data right left
    let buf ← copyTo rbuf.buf rbuf.tail first
    copyTo buf 0 second
  else copyTo rbuf.buf rbuf.tail data

/-- `write_ring_buffer`, which stops the program where its assertion fails. -/
def writeRingBuffer (data : List α) : Option (RingMemory α) := do
  let free ← rbuf.ringBufferFree
  if 0 < data.length ∧ (data.length : ℤ) ≤ free then
    let buf ← rbuf.copyIn data
    let stop ← toInt (rbuf.tail + data.length)
    let tail ← remInt stop rbuf.size
    some { rbuf with tail := tail, buf := buf }
  else none

/-- The buffers of runs on a capacity, with the bytes written and the bytes returned. -/
inductive Runs (n : ℤ) (zero : α) : RingMemory α → List α → List α → Prop
  | alloc {rbuf : RingMemory α} : allocRingBuffer n zero = some rbuf → Runs n zero rbuf [] []
  | read {rbuf rbuf' : RingMemory α} {written returned bytes : List α} {size len : ℤ} :
      Runs n zero rbuf written returned → -2 ^ 31 ≤ size → size < 2 ^ 31 →
      rbuf.readRingBuffer size = some (len, bytes, rbuf') →
      Runs n zero rbuf' written (returned ++ bytes)
  | write {rbuf rbuf' : RingMemory α} {written returned data : List α} :
      Runs n zero rbuf written returned → rbuf.writeRingBuffer data = some rbuf' →
      Runs n zero rbuf' (written ++ data) returned

end RingMemory

end Memory

section Refinement

open RingMemory

variable {α : Type}

theorem toInt_of_lt {z : ℤ} (h : -2 ^ 31 ≤ z) (h' : z < 2 ^ 31) : toInt z = some z := if_pos ⟨h, h'⟩

theorem toInt_eq {z w : ℤ} (heq : z = w) (h : -2 ^ 31 ≤ w) (h' : w < 2 ^ 31) :
    toInt z = some w := by
  subst heq
  exact toInt_of_lt h h'

theorem remInt_natCast {a b : ℕ} (hb : 0 < b) (ha : a < 2 ^ 31) :
    remInt a b = some ((a % b : ℕ) : ℤ) := by
  have hmod : a % b ≤ a := Nat.mod_le a b
  have htmod : (a : ℤ).tmod b = ((a % b : ℕ) : ℤ) := (Int.ofNat_tmod a b).symm
  rw [remInt, if_neg (by omega), htmod, toInt_of_lt (by omega) (by omega)]

namespace RingBuffer

variable (r : RingBuffer α)

/-- The buffer in memory. -/
def toMemory : RingMemory α := ⟨r.size, r.head, r.tail, r.buf⟩

variable {r}

theorem toMemory_used (hsize : r.size ≤ 2 ^ 30) :
    r.toMemory.ringBufferUsed = some (r.used : ℤ) := by
  have hhead := r.head_lt
  have htail := r.tail_lt
  have hdiff : toInt (r.toMemory.tail - r.toMemory.head) = some ((r.tail : ℤ) - r.head) :=
    toInt_eq rfl (by omega) (by omega)
  have hsum : toInt ((r.tail : ℤ) - r.head + r.toMemory.size) =
      some ((r.tail + r.size - r.head : ℕ) : ℤ) :=
    toInt_eq (show (r.tail : ℤ) - r.head + r.size = _ by omega) (by omega) (by omega)
  rw [ringBufferUsed, hdiff, Option.bind_eq_bind, Option.bind_some, hsum]
  exact remInt_natCast (by omega) (by omega)

theorem toMemory_free (hsize : r.size ≤ 2 ^ 30) :
    r.toMemory.ringBufferFree = some (r.free : ℤ) := by
  have hused := r.used_lt
  have hfree := r.used_add_free
  have hrest : toInt (r.toMemory.size - r.used) = some ((r.size : ℤ) - r.used) :=
    toInt_eq rfl (by omega) (by omega)
  have hone : toInt ((r.size : ℤ) - r.used - 1) = some (r.free : ℤ) :=
    toInt_eq (by omega) (by omega) (by omega)
  rw [ringBufferFree, toMemory_used hsize, Option.bind_eq_bind, Option.bind_some, hrest]
  exact hone

theorem copyFrom_natCast (src : List α) (pos count : ℕ) (h : pos + count ≤ src.length) :
    copyFrom src pos count = some ((src.drop pos).take count) := by
  rw [copyFrom, if_pos ⟨by omega, by omega, by omega⟩]
  rfl

theorem copyTo_natCast (dst src : List α) (pos : ℕ) (h : pos + src.length ≤ dst.length) :
    copyTo dst pos src = some (memcpy dst pos src) := by
  rw [copyTo, if_pos ⟨by omega, by omega⟩]
  rfl

theorem toMemory_copyOut (hsize : r.size ≤ 2 ^ 30) {len : ℕ} (hlen : len ≤ r.used) :
    r.toMemory.copyOut len = some (r.copyOut len) := by
  have hhead := r.head_lt
  have hused := r.used_lt
  have hbuf := r.length_buf
  have hstop : toInt (r.toMemory.head + len) = some ((r.head + len : ℕ) : ℤ) :=
    toInt_eq rfl (by omega) (by omega)
  have hcells : r.toMemory.size = (r.size : ℤ) := rfl
  rw [RingMemory.copyOut, RingBuffer.copyOut, hstop, Option.bind_eq_bind, Option.bind_some]
  by_cases hwrap : r.head + len > r.size
  · have hright : toInt (r.toMemory.size - r.toMemory.head) =
        some ((r.size - r.head : ℕ) : ℤ) :=
      toInt_eq (show (r.size : ℤ) - r.head = _ by omega) (by omega) (by omega)
    have hleft : toInt ((len : ℤ) - ((r.size - r.head : ℕ) : ℤ)) =
        some ((len - (r.size - r.head) : ℕ) : ℤ) :=
      toInt_eq (by omega) (by omega) (by omega)
    have hfirst : copyFrom r.toMemory.buf r.toMemory.head ((r.size - r.head : ℕ) : ℤ) =
        some ((r.buf.drop r.head).take (r.size - r.head)) := copyFrom_natCast r.buf _ _ (by omega)
    have hsecond : copyFrom r.toMemory.buf 0 ((len - (r.size - r.head) : ℕ) : ℤ) =
        some (r.buf.take (len - (r.size - r.head))) :=
      copyFrom_natCast r.buf 0 _ (by omega)
    rw [if_pos (by omega), if_pos hwrap]
    simp only [hright, hleft, hfirst, hsecond, Option.bind_eq_bind, Option.bind_some]
  · rw [if_neg (by omega), if_neg hwrap]
    exact copyFrom_natCast r.buf _ _ (by omega)

/-- A read in memory is a read of the buffer. -/
theorem toMemory_read (hsize : r.size ≤ 2 ^ 30) (size : ℤ) :
    r.toMemory.readRingBuffer size =
      some (min (r.used : ℤ) size, (r.read size.toNat).1, (r.read size.toNat).2.toMemory) := by
  have hhead := r.head_lt
  have hused := r.used_lt
  rw [readRingBuffer, toMemory_used hsize, Option.bind_eq_bind, Option.bind_some]
  by_cases hpos : 0 < min (r.used : ℤ) size
  · have hlen : min (r.used : ℤ) size = ((min r.used size.toNat : ℕ) : ℤ) := by omega
    have hstop : r.toMemory.head + ((min r.used size.toNat : ℕ) : ℤ) =
        ((r.head + min r.used size.toNat : ℕ) : ℤ) := rfl
    have hcells : r.toMemory.size = (r.size : ℤ) := rfl
    rw [if_pos hpos, hlen, toMemory_copyOut hsize (min_le_left _ _), Option.bind_eq_bind,
      Option.bind_some, hstop, toInt_of_lt (by omega) (by omega), Option.bind_some, hcells,
      remInt_natCast (by omega) (by omega)]
    rfl
  · have hzero : min r.used size.toNat = 0 := by omega
    have hbytes : (r.read size.toNat).1 = [] := by
      have hread := (r.contents_read size.toNat).1
      rw [hread, List.take_eq_nil_iff, ← List.length_eq_zero_iff, r.length_contents]
      omega
    have hsame : (r.read size.toNat).2.toMemory = r.toMemory := by
      simp only [read, toMemory, hzero, Nat.add_zero, Nat.mod_eq_of_lt hhead]
    rw [if_neg hpos, hbytes, hsame]

theorem toMemory_copyIn (hsize : r.size ≤ 2 ^ 30) {data : List α} (h : data.length ≤ r.free) :
    r.toMemory.copyIn data = some (r.copyIn data) := by
  have htail := r.tail_lt
  have hfree := r.used_add_free
  have hbuf := r.length_buf
  have hlen : toInt (data.length : ℤ) = some (data.length : ℤ) :=
    toInt_of_lt (by omega) (by omega)
  have hstop : toInt (r.toMemory.tail + data.length) = some ((r.tail + data.length : ℕ) : ℤ) :=
    toInt_eq rfl (by omega) (by omega)
  have hcells : r.toMemory.size = (r.size : ℤ) := rfl
  rw [RingMemory.copyIn, RingBuffer.copyIn, hlen, Option.bind_eq_bind, Option.bind_some, hstop,
    Option.bind_some]
  by_cases hwrap : r.tail + data.length > r.size
  · have hright : toInt (r.toMemory.size - r.toMemory.tail) =
        some ((r.size - r.tail : ℕ) : ℤ) :=
      toInt_eq (show (r.size : ℤ) - r.tail = _ by omega) (by omega) (by omega)
    have hleft : toInt ((data.length : ℤ) - ((r.size - r.tail : ℕ) : ℤ)) =
        some ((data.length - (r.size - r.tail) : ℕ) : ℤ) :=
      toInt_eq (by omega) (by omega) (by omega)
    have hfirst : copyFrom data 0 ((r.size - r.tail : ℕ) : ℤ) =
        some (data.take (r.size - r.tail)) := copyFrom_natCast data 0 _ (by omega)
    have hsecond : copyFrom data ((r.size - r.tail : ℕ) : ℤ)
        ((data.length - (r.size - r.tail) : ℕ) : ℤ) = some (data.drop (r.size - r.tail)) := by
      have hrest : (data.drop (r.size - r.tail)).length = data.length - (r.size - r.tail) :=
        List.length_drop
      rw [copyFrom_natCast data _ _ (by omega), List.take_of_length_le hrest.le]
    have hpiece : (data.take (r.size - r.tail)).length = r.size - r.tail :=
      List.length_take_of_le (by omega)
    have hmem : (memcpy r.buf r.tail (data.take (r.size - r.tail))).length = r.buf.length :=
      length_memcpy (by omega)
    have hthird : copyTo r.toMemory.buf r.toMemory.tail (data.take (r.size - r.tail)) =
        some (memcpy r.buf r.tail (data.take (r.size - r.tail))) :=
      copyTo_natCast r.buf _ _ (by omega)
    have hfourth : copyTo (memcpy r.buf r.tail (data.take (r.size - r.tail))) 0
        (data.drop (r.size - r.tail)) = some (memcpy (memcpy r.buf r.tail
          (data.take (r.size - r.tail))) 0 (data.drop (r.size - r.tail))) := by
      refine copyTo_natCast _ _ 0 ?_
      rw [hmem, List.length_drop]
      omega
    rw [if_pos (by omega), if_pos hwrap]
    simp only [hright, hleft, hfirst, hsecond, hthird, hfourth, Option.bind_eq_bind,
      Option.bind_some]
  · rw [if_neg (by omega), if_neg hwrap]
    exact copyTo_natCast r.buf _ _ (by omega)

/-- A write in memory that the assertion admits is a write to the buffer. -/
theorem toMemory_write (hsize : r.size ≤ 2 ^ 30) {data : List α} (hpos : 0 < data.length)
    (h : data.length ≤ r.free) :
    r.toMemory.writeRingBuffer data = some (r.write data h).toMemory := by
  have htail := r.tail_lt
  have hfree := r.used_add_free
  have hstop : r.toMemory.tail + (data.length : ℤ) = ((r.tail + data.length : ℕ) : ℤ) := rfl
  have hcells : r.toMemory.size = (r.size : ℤ) := rfl
  rw [writeRingBuffer, toMemory_free hsize, Option.bind_eq_bind, Option.bind_some,
    if_pos ⟨hpos, by omega⟩, toMemory_copyIn hsize h, Option.bind_eq_bind, Option.bind_some, hstop,
    toInt_of_lt (by omega) (by omega), Option.bind_some, hcells,
    remInt_natCast (by omega) (by omega)]
  rfl

end RingBuffer

end Refinement

section Queue

open RingMemory

variable {α : Type} {n : ℤ} {zero : α} {rbuf : RingMemory α} {written returned : List α}

theorem allocRingBuffer_eq (h1 : 1 ≤ n) (hn : n < 2 ^ 30) :
    allocRingBuffer n zero = some (RingBuffer.alloc n.toNat zero).toMemory := by
  have hcells : n + 1 = ((n.toNat + 1 : ℕ) : ℤ) := by omega
  rw [allocRingBuffer, toInt_of_lt (by omega) (by omega), Option.bind_eq_bind, Option.bind_some,
    hcells]
  rfl

/-- In every run the unread cells are what has been written and not yet returned. -/
theorem RingMemory.Runs.queue (h1 : 1 ≤ n) (hn : n < 2 ^ 30)
    (h : Runs n zero rbuf written returned) : ∃ r : RingBuffer α, rbuf = r.toMemory ∧
      r.size = n.toNat + 1 ∧ written = returned ++ r.contents := by
  induction h with
  | alloc halloc =>
    rw [allocRingBuffer_eq h1 hn] at halloc
    refine ⟨RingBuffer.alloc n.toNat zero, (Option.some.inj halloc).symm, rfl, ?_⟩
    rw [RingBuffer.contents_alloc, List.append_nil]
  | @read _ _ _ returned _ size _ _ _ _ hread ih =>
    obtain ⟨r, rfl, hsize, hqueue⟩ := ih
    obtain ⟨htake, hdrop⟩ := r.contents_read size.toNat
    rw [RingBuffer.toMemory_read (by omega)] at hread
    obtain ⟨-, rfl, rfl⟩ := Prod.mk.inj (Option.some.inj hread) |>.imp id Prod.mk.inj
    refine ⟨(r.read size.toNat).2, rfl, hsize, ?_⟩
    rw [htake, hdrop, hqueue, List.append_assoc, List.take_append_drop]
  | @write _ _ written returned data _ hwrite ih =>
    obtain ⟨r, rfl, hsize, hqueue⟩ := ih
    by_cases hassert : 0 < data.length ∧ data.length ≤ r.free
    · rw [RingBuffer.toMemory_write (by omega) hassert.1 hassert.2] at hwrite
      obtain rfl := Option.some.inj hwrite
      refine ⟨r.write data hassert.2, rfl, hsize, ?_⟩
      rw [r.contents_write, hqueue, List.append_assoc]
    · rw [writeRingBuffer, RingBuffer.toMemory_free (by omega), Option.bind_eq_bind,
        Option.bind_some, if_neg (by omega)] at hwrite
      cases hwrite

/-- The ring buffer is a bounded queue: no copy leaves the array, reads return what was written
in its order, and the number of unread bytes is what has been written and not read. -/
theorem ring_buffer_fifo (zero : α) (h1 : 1 ≤ n) (hn : n < 2 ^ 30) :
    (∃ rbuf, allocRingBuffer n zero = some rbuf) ∧
    ∀ rbuf written returned, Runs n zero rbuf written returned →
      returned <+: written ∧
      (∃ used, rbuf.ringBufferUsed = some used ∧ used = written.length - returned.length ∧
        0 ≤ used ∧ used ≤ n ∧
        ∀ size, -2 ^ 31 ≤ size → size < 2 ^ 31 → ∃ bytes rbuf',
          rbuf.readRingBuffer size = some (min used size, bytes, rbuf') ∧
          bytes.length = (min used size).toNat) ∧
      ∀ data : List α, 0 < data.length →
        (∃ free, rbuf.ringBufferFree = some free ∧ (data.length : ℤ) ≤ free) →
        ∃ rbuf', rbuf.writeRingBuffer data = some rbuf' := by
  refine ⟨⟨_, allocRingBuffer_eq h1 hn⟩, fun rbuf written returned hruns => ?_⟩
  obtain ⟨r, rfl, hsize, rfl⟩ := hruns.queue h1 hn
  have hused := r.used_lt
  have hlen := r.length_contents
  refine ⟨List.prefix_append _ _, ⟨r.used, RingBuffer.toMemory_used (by omega), ?_, by omega,
    by omega, fun size _ _ => ⟨_, _, RingBuffer.toMemory_read (by omega) size, ?_⟩⟩, ?_⟩
  · rw [List.length_append]
    omega
  · rw [(r.contents_read size.toNat).1, List.length_take]
    omega
  · rintro data hpos ⟨free, hfree, hle⟩
    rw [RingBuffer.toMemory_free (by omega)] at hfree
    obtain rfl := Option.some.inj hfree
    exact ⟨_, RingBuffer.toMemory_write (by omega) hpos (by omega)⟩

/-- The second byte that is written is in the last cell, and `tail` is at the first one again. -/
theorem ring_buffer_fifo_one : ∃ rbuf : RingMemory UInt8, rbuf.tail < rbuf.head ∧
    Runs 1 0 rbuf [7, 8] [7] ∧ [7] <+: ([7, 8] : List UInt8) ∧
    ∃ used, rbuf.ringBufferUsed = some used ∧ used = 1 := by
  have halloc : allocRingBuffer 1 (0 : UInt8) = some ⟨2, 0, 0, [0, 0]⟩ := rfl
  have hseven : writeRingBuffer ⟨2, 0, 0, [0, 0]⟩ [(7 : UInt8)] = some ⟨2, 0, 1, [7, 0]⟩ := rfl
  have hread : readRingBuffer ⟨2, 0, 1, [(7 : UInt8), 0]⟩ 1 = some (1, [7], ⟨2, 1, 1, [7, 0]⟩) :=
    rfl
  have height : writeRingBuffer ⟨2, 1, 1, [7, 0]⟩ [(8 : UInt8)] = some ⟨2, 1, 0, [7, 8]⟩ := rfl
  have hruns : Runs (1 : ℤ) (0 : UInt8) ⟨2, 1, 0, [7, 8]⟩ [7, 8] [7] :=
    .write (.read (.write (.alloc halloc) hseven) (by decide) (by decide) hread) height
  obtain ⟨hfront, ⟨used, hused, heq, -⟩, -⟩ :=
    (ring_buffer_fifo (0 : UInt8) (by decide) (by decide)).2 _ _ _ hruns
  exact ⟨_, by decide, hruns, hfront, used, hused, heq⟩

end Queue

end NetworkLab
