import KernelIL.ArgumentBuffer

/-!
# Ranges of bytes

Reading and writing a range of a buffer, byte by byte.  A value that has the
length of the range replaces the bytes in it and moves no others.
-/

namespace KernelIL

open List

namespace ByteRange

def Contains (range : ByteRange) (pos : Nat) : Prop :=
  range.start ≤ pos ∧ pos < range.stop

instance (range : ByteRange) (pos : Nat) : Decidable (range.Contains pos) :=
  inferInstanceAs (Decidable (_ ∧ _))

/-- A value can be written to a range of a buffer without moving anything. -/
structure Takes (range : ByteRange) (v bytes : List UInt8) : Prop where
  ordered : range.start ≤ range.stop
  within : range.stop ≤ bytes.length
  length : v.length = range.stop - range.start

variable {range other : ByteRange} {v bytes : List UInt8}

theorem getElem?_read (range : ByteRange) (bytes : List UInt8) (pos : Nat) :
    (range.read bytes)[pos]? =
      if pos < range.stop - range.start then bytes[range.start + pos]? else none := by
  simp [read, getElem?_take]

theorem getElem?_write (h : range.Takes v bytes) (pos : Nat) : (range.write v bytes)[pos]? =
    if range.Contains pos then v[pos - range.start]? else bytes[pos]? := by
  have hordered := h.ordered
  have hwithin := h.within
  have hlen := h.length
  have htake : (bytes.take range.start).length = range.start := by
    rw [length_take]
    omega
  unfold write
  rw [append_assoc, getElem?_append, getElem?_append, htake, hlen]
  by_cases hstart : pos < range.start
  · have hnot : ¬range.Contains pos := fun hc => by
      have := hc.1
      omega
    rw [if_pos hstart, if_neg hnot, getElem?_take, if_pos hstart]
  · rw [if_neg hstart]
    by_cases hstop : pos < range.stop
    · have hcontains : range.Contains pos := ⟨by omega, hstop⟩
      rw [if_pos hcontains, if_pos (by omega)]
    · have hnot : ¬range.Contains pos := fun hc => hstop hc.2
      rw [if_neg hnot, if_neg (by omega), getElem?_drop]
      congr 1
      omega

theorem length_write (h : range.Takes v bytes) : (range.write v bytes).length = bytes.length := by
  have hordered := h.ordered
  have hwithin := h.within
  have hlen := h.length
  simp only [write, length_append, length_take, length_drop]
  omega

theorem read_write_self (h : range.Takes v bytes) : range.read (range.write v bytes) = v := by
  have hlen := h.length
  apply ext_getElem?
  intro pos
  rw [getElem?_read, getElem?_write h]
  by_cases hpos : pos < range.stop - range.start
  · have hcontains : range.Contains (range.start + pos) :=
      ⟨Nat.le_add_right _ _, by omega⟩
    rw [if_pos hpos, if_pos hcontains, Nat.add_sub_cancel_left]
  · rw [if_neg hpos, getElem?_eq_none (by omega)]

theorem read_write_of_apart (h : range.Takes v bytes)
    (hapart : range.stop ≤ other.start ∨ other.stop ≤ range.start) :
    other.read (range.write v bytes) = other.read bytes := by
  apply ext_getElem?
  intro pos
  rw [getElem?_read, getElem?_read]
  by_cases hpos : pos < other.stop - other.start
  · have hnot : ¬range.Contains (other.start + pos) := by
      rintro ⟨hstart, hstop⟩
      omega
    rw [if_pos hpos, if_pos hpos, getElem?_write h, if_neg hnot]
  · rw [if_neg hpos, if_neg hpos]

variable {image mapped : List UInt8}

/-- Copying ranges one after the other takes their bytes from the image and
leaves all other bytes. -/
theorem getElem?_foldl_copy {ranges : List ByteRange}
    (hranges : ∀ range ∈ ranges, range.start ≤ range.stop ∧ range.stop ≤ image.length)
    (hlen : image.length ≤ mapped.length) (pos : Nat) :
    (ranges.foldl (fun mapped range => range.write (range.read image) mapped) mapped)[pos]? =
      if ∃ range ∈ ranges, range.Contains pos then image[pos]? else mapped[pos]? := by
  induction ranges generalizing mapped with
  | nil => simp
  | cons range rest ih =>
    obtain ⟨hordered, hwithin⟩ := hranges range (by simp)
    have hread : (range.read image).length = range.stop - range.start := by
      simp only [read, length_take, length_drop]
      omega
    have htakes : range.Takes (range.read image) mapped :=
      ⟨hordered, Nat.le_trans hwithin hlen, hread⟩
    have hlonger : image.length ≤ (range.write (range.read image) mapped).length := by
      rw [length_write htakes]
      exact hlen
    have hrest := ih (fun other hother => hranges other (by simp [hother])) hlonger
    rw [foldl_cons, hrest, getElem?_write htakes]
    by_cases hlater : ∃ other ∈ rest, other.Contains pos
    · obtain ⟨other, hother, hcontains⟩ := hlater
      rw [if_pos ⟨other, hother, hcontains⟩, if_pos ⟨other, by simp [hother], hcontains⟩]
    · rw [if_neg hlater]
      by_cases hhere : range.Contains pos
      · rw [if_pos hhere, if_pos ⟨range, by simp, hhere⟩, getElem?_read]
        obtain ⟨hstart, hstop⟩ := hhere
        rw [if_pos (by omega), Nat.add_sub_cancel' hstart]
      · have hnone : ¬∃ other ∈ range :: rest, other.Contains pos := by
          rintro ⟨other, hother, hcontains⟩
          rcases mem_cons.mp hother with rfl | hmem
          · exact hhere hcontains
          · exact hlater ⟨other, hmem, hcontains⟩
        rw [if_neg hhere, if_neg hnone]

end ByteRange

end KernelIL
