import KernelIL.Proofs.Arguments.Placement
import KernelIL.Proofs.Arguments.Ranges

/-!
# Argument buffers and mapped buffers

A host sets arguments and prepares launches, in any order and with any mistakes.
What has been asked and answered so far is kept in a log, and everything that
the buffer knows can be read off that log: the value of an argument is the one
that was set last, and an argument is dirty if a request has changed it since
the mapped buffer was last written.

The mapped buffer may differ from the image in the bytes of dirty arguments and
nowhere else, padding included.  That is what a launch needs in order to copy
the dirty ranges only.
-/

namespace KernelIL

open List

/-! ## Requests and their log -/

namespace Host

/-- What a host asks of its argument buffer. -/
inductive Request where
  | set (name : String) (v : List UInt8)
  | prepare
deriving DecidableEq, Repr

/-- What it gets to know. -/
inductive Answer where
  /-- Whether the bytes of the argument changed. -/
  | changed (flag : Bool)
  /-- The ranges that were copied. -/
  | copied (ranges : List ByteRange)
  | failed (e : Error)
deriving DecidableEq, Repr

def Answer.isCopied : Answer → Bool
  | copied _ => true
  | _ => false

/-- Requests and their answers, the latest first. -/
abbrev Log := List (Request × Answer)

namespace Log

/-- The value that an argument was last set to. -/
def lastValue? (log : Log) (name : String) : Option (List UInt8) :=
  log.findSome? fun
    | (.set other v, .changed _) =>
      if other = name then some v else none
    | _ => none

/-- Whether a launch has been prepared. -/
def hasCopied (log : Log) : Bool :=
  log.any (·.2.isCopied)

/-- Whether a request has changed an argument since a launch was last
prepared. -/
def changed (log : Log) (name : String) : Bool :=
  (log.takeWhile (!·.2.isCopied)).any fun
    | (.set other _, .changed true) => other = name
    | _ => false

variable {log : Log} {name : String} {request : Request}

theorem lastValue?_failed (e : Error) :
    lastValue? ((request, .failed e) :: log) name = log.lastValue? name := by
  cases request <;> rfl

theorem lastValue?_copied (ranges : List ByteRange) :
    lastValue? ((request, .copied ranges) :: log) name = log.lastValue? name := by
  cases request <;> rfl

theorem lastValue?_set (other : String) (v : List UInt8) (flag : Bool) :
    lastValue? ((.set other v, .changed flag) :: log) name =
      if other = name then some v else log.lastValue? name := by
  simp only [lastValue?, findSome?_cons]
  by_cases hname : other = name
  · simp [hname]
  · simp [hname]

theorem hasCopied_cons (answer : Answer) :
    hasCopied ((request, answer) :: log) = (answer.isCopied || log.hasCopied) := by
  simp [hasCopied]

theorem changed_copied (ranges : List ByteRange) :
    changed ((request, .copied ranges) :: log) name = false := by
  simp [changed, Answer.isCopied]

theorem changed_failed (e : Error) :
    changed ((request, .failed e) :: log) name = log.changed name := by
  simp [changed, Answer.isCopied]

theorem changed_set (other : String) (v : List UInt8) (flag : Bool) :
    changed ((.set other v, .changed flag) :: log) name =
      (flag && decide (other = name) || log.changed name) := by
  cases flag <;> simp [changed, Answer.isCopied]

end Log

end Host

/-- A host with its argument buffer, the mapped buffer that it passes to every
launch, and what has happened so far. -/
structure Host where
  buffer : ArgumentBuffer
  mapped : List UInt8
  log : Host.Log := []

namespace Host

/-- A host for declared arguments with a mapped buffer of any contents. -/
def start (d : Declarations ValueType) (mapped : List UInt8) : Host :=
  { buffer := .ofDeclarations d, mapped }

/-- The answer to a request, and both buffers after it. -/
def answer (host : Host) :
    Request → Answer × ArgumentBuffer × List UInt8
  | .set name v =>
    match host.buffer.set name v with
    | .ok (flag, buffer) => (.changed flag, buffer, host.mapped)
    | .error e => (.failed e, host.buffer, host.mapped)
  | .prepare =>
    match host.buffer.prepare host.mapped with
    | .ok (ranges, mapped, buffer) => (.copied ranges, buffer, mapped)
    | .error e => (.failed e, host.buffer, host.mapped)

def step (host : Host) (request : Request) : Host :=
  let (answer, buffer, mapped) := host.answer request
  { buffer, mapped, log := (request, answer) :: host.log }

def run (host : Host) (requests : List Request) : Host :=
  requests.foldl step host

end Host

/-! ## Arguments by name -/

namespace ArgumentBuffer

variable {buffer : ArgumentBuffer} {name : String} {v : List UInt8}

theorem find?_slot {slots : List ArgumentSlot} {slot : ArgumentSlot}
    (hnames : (slots.map (·.layout.name)).Nodup) (hmem : slot ∈ slots) :
    slots.find? (·.layout.name == slot.layout.name) = some slot := by
  induction slots with
  | nil => cases hmem
  | cons first rest ih =>
    rw [map_cons, nodup_cons] at hnames
    rcases mem_cons.mp hmem with rfl | hrest
    · simp
    · have hne : first.layout.name ≠ slot.layout.name := by
        intro heq
        exact hnames.1 (heq ▸ mem_map_of_mem hrest)
      rw [find?_cons_of_neg (by simpa using hne)]
      exact ih hnames.2 hrest

theorem set_cases (buffer : ArgumentBuffer) (name : String) (v : List UInt8) :
    (buffer.slot? name = none ∧ buffer.set name v = .error (.binding (.unknownArgument name))) ∨
    ∃ slot, buffer.slot? name = some slot ∧
      ((v.length ≠ slot.layout.size ∧
          buffer.set name v = .error (.binding
            (.size name slot.layout.type slot.layout.size v.length))) ∨
        (v.length = slot.layout.size ∧ slot.layout.range.read buffer.image = v ∧
          buffer.set name v = .ok (false, buffer)) ∨
        (v.length = slot.layout.size ∧ slot.layout.range.read buffer.image ≠ v ∧
          buffer.set name v = .ok (true,
            { buffer with
              image := slot.layout.range.write v buffer.image }
              |>.markDirty name))) := by
  cases hslot : buffer.slot? name with
  | none =>
    refine .inl ⟨rfl, ?_⟩
    simp [set, hslot]
  | some slot =>
    refine .inr ⟨slot, rfl, ?_⟩
    by_cases hlen : v.length = slot.layout.size
    · by_cases hsame : slot.layout.range.read buffer.image = v
      · refine .inr (.inl ⟨hlen, hsame, ?_⟩)
        simp [set, hslot, hlen, hsame]
      · refine .inr (.inr ⟨hlen, hsame, ?_⟩)
        simp [set, hslot, hlen, hsame]
    · refine .inl ⟨hlen, ?_⟩
      simp [set, hslot, hlen]

variable {mapped : List UInt8}

/-- Preparing a launch fails exactly if the mapped buffer is too short. -/
theorem prepare_of_le (h : buffer.image.length ≤ mapped.length) :
    buffer.prepare mapped = .ok (buffer.pending,
      buffer.pending.foldl (fun mapped range => range.write (range.read buffer.image) mapped)
        mapped,
      buffer.settled) := by
  unfold prepare
  rw [if_neg (by omega)]

theorem prepare_of_lt (h : mapped.length < buffer.image.length) :
    buffer.prepare mapped = .error (.binding (.mapped mapped.length buffer.image.length)) := by
  unfold prepare
  rw [if_pos h]

/-- A buffer is dirty exactly if there is something to copy. -/
theorem isDirty_iff (buffer : ArgumentBuffer) : buffer.isDirty = true ↔ buffer.pending ≠ [] := by
  unfold isDirty pending
  by_cases huploaded : buffer.uploaded = true
  · simp [huploaded]
  · simp [huploaded]

end ArgumentBuffer

/-- Arguments with different names have no byte in common. -/
theorem Declarations.LaidOut.apart {d : Declarations ValueType}
    (h : d.LaidOut) {first second : ArgumentLayout ValueType} (hfirst : first ∈ d.arguments)
    (hsecond : second ∈ d.arguments) (hne : first.name ≠ second.name) :
    first.range.stop ≤ second.range.start ∨ second.range.stop ≤ first.range.start := by
  obtain ⟨i, hi, rfl⟩ := getElem_of_mem hfirst
  obtain ⟨j, hj, rfl⟩ := getElem_of_mem hsecond
  have hordered := pairwise_iff_getElem.mp h.ordered
  rcases Nat.lt_trichotomy i j with hlt | rfl | hgt
  · exact .inl (hordered i j hi hj hlt)
  · exact absurd rfl hne
  · exact .inr (hordered j i hj hi hgt)

namespace Host

/-! ## What the log says about the buffers -/

/-- Both buffers are what the log says. -/
structure Tracks (d : Declarations ValueType) (host : Host) : Prop where
  layouts : host.buffer.slots.map (·.layout) = d.arguments
  length : host.buffer.image.length = d.bufferRegisters * bytesPerRegister
  values : ∀ layout ∈ d.arguments,
    layout.range.read host.buffer.image =
      (host.log.lastValue? layout.name).getD (List.replicate layout.size 0)
  dirty : ∀ slot ∈ host.buffer.slots, slot.dirty = host.log.changed slot.layout.name
  uploaded : host.buffer.uploaded = host.log.hasCopied
  /-- Once copied, the buffers differ in the bytes of dirty arguments only. -/
  copied : host.log.hasCopied = true → ∀ pos, pos < host.buffer.image.length →
    (∀ slot ∈ host.buffer.slots, slot.dirty = true → ¬slot.layout.range.Contains pos) →
    host.mapped[pos]? = host.buffer.image[pos]?

variable {d : Declarations ValueType} {host : Host}

theorem start_tracks (h : d.LaidOut) (mapped : List UInt8) :
    (Host.start d mapped).Tracks d where
  layouts := by simp [start, ArgumentBuffer.ofDeclarations, Function.comp_def]
  length := by simp [start, ArgumentBuffer.ofDeclarations]
  values := by
    intro layout hmem
    have hwithin := h.within layout hmem
    have hrange : layout.range.stop - layout.range.start = layout.size :=
      Nat.add_sub_cancel_left _ _
    have hroom : layout.size ≤ d.bufferRegisters * bytesPerRegister - layout.range.start := by
      omega
    simp only [start, ArgumentBuffer.ofDeclarations, ByteRange.read,
      drop_replicate, take_replicate, hrange,
      Nat.min_eq_left hroom]
    rfl
  dirty := by
    intro slot hslot
    obtain ⟨layout, _, rfl⟩ := mem_map.mp hslot
    rfl
  uploaded := rfl
  copied := by
    intro hcopied
    cases hcopied

namespace Tracks

variable {slot : ArgumentSlot}

theorem layout_mem (h : host.Tracks d)
    (hmem : slot ∈ host.buffer.slots) : slot.layout ∈ d.arguments := by
  rw [← h.layouts]
  exact mem_map_of_mem hmem

variable {layout : ArgumentLayout ValueType}

theorem exists_slot (h : host.Tracks d) (hmem : layout ∈ d.arguments) :
    ∃ slot ∈ host.buffer.slots, slot.layout = layout := by
  rw [← h.layouts] at hmem
  exact mem_map.mp hmem

theorem slot?_eq (h : host.Tracks d) (hlaid : d.LaidOut) (hmem : slot ∈ host.buffer.slots) :
    host.buffer.slot? slot.layout.name = some slot := by
  refine ArgumentBuffer.find?_slot ?_ hmem
  have hnames := hlaid.names
  rw [← h.layouts, map_map] at hnames
  exact hnames

theorem mem_of_slot? {name : String} (hslot : host.buffer.slot? name = some slot) :
    slot ∈ host.buffer.slots ∧ slot.layout.name = name := by
  refine ⟨mem_of_find?_eq_some hslot, ?_⟩
  have hname := find?_some hslot
  exact beq_iff_eq.mp hname

variable (h : host.Tracks d)

include h

theorem takes (hlaid : d.LaidOut) (hmem : layout ∈ d.arguments)
    {v : List UInt8} (hlen : v.length = layout.size) :
    layout.range.Takes v host.buffer.image where
  ordered := Nat.le_add_right _ _
  within := by
    rw [h.length]
    exact hlaid.within layout hmem
  length := by
    rw [hlen]
    exact (Nat.add_sub_cancel_left _ _).symm

/-- A failed request leaves everything but the log. -/
theorem afterFailure (request : Request) (e : Error) :
    Tracks d { host with log := (request, .failed e) :: host.log } where
  layouts := h.layouts
  length := h.length
  values := by
    intro layout hmem
    rw [Log.lastValue?_failed]
    exact h.values layout hmem
  dirty := by
    intro slot hmem
    rw [Log.changed_failed]
    exact h.dirty slot hmem
  uploaded := by
    rw [Log.hasCopied_cons]
    exact h.uploaded
  copied := by
    intro hcopied
    rw [Log.hasCopied_cons] at hcopied
    exact h.copied hcopied

/-- An argument that is set to the value it has. -/
theorem afterSame {name : String} {v : List UInt8}
    (hsame : ∀ layout ∈ d.arguments, layout.name = name →
      layout.range.read host.buffer.image = v) :
    Tracks d { host with
      log := (.set name v, .changed false) :: host.log } where
  layouts := h.layouts
  length := h.length
  values := by
    intro layout hmem
    rw [Log.lastValue?_set]
    by_cases hname : name = layout.name
    · rw [if_pos hname]
      exact hsame layout hmem hname.symm
    · rw [if_neg hname]
      exact h.values layout hmem
  dirty := by
    intro slot hmem
    rw [Log.changed_set, Bool.false_and, Bool.false_or]
    exact h.dirty slot hmem
  uploaded := by
    rw [Log.hasCopied_cons]
    exact h.uploaded
  copied := by
    intro hcopied
    rw [Log.hasCopied_cons] at hcopied
    exact h.copied hcopied

/-- An argument that is set to another value becomes dirty, so its bytes may
differ from the mapped ones; no other byte changes. -/
theorem afterChange (hlaid : d.LaidOut) (hslot : slot ∈ host.buffer.slots)
    {v : List UInt8} (hlen : v.length = slot.layout.size) :
    Tracks d
      { host with
        buffer :=
          { host.buffer with
            image := slot.layout.range.write v host.buffer.image }
            |>.markDirty slot.layout.name
        log := (.set slot.layout.name v, .changed true) :: host.log } := by
  have hmem := h.layout_mem hslot
  have htakes := h.takes hlaid hmem hlen
  constructor
  · rw [← h.layouts]
    simp only [ArgumentBuffer.markDirty, map_map]
    refine map_congr_left fun other _ => ?_
    simp only [Function.comp_apply]
    split <;> rfl
  · rw [← h.length]
    exact ByteRange.length_write htakes
  · intro layout hlayout
    rw [Log.lastValue?_set]
    change layout.range.read (slot.layout.range.write v _) = _
    by_cases hname : slot.layout.name = layout.name
    · obtain ⟨other, hother, rfl⟩ := h.exists_slot hlayout
      have hsame : some slot = some other := by
        rw [← h.slot?_eq hlaid hslot, hname, h.slot?_eq hlaid hother]
      obtain rfl := Option.some.inj hsame
      rw [if_pos rfl]
      exact ByteRange.read_write_self htakes
    · rw [if_neg hname, ByteRange.read_write_of_apart htakes (hlaid.apart hmem hlayout hname)]
      exact h.values layout hlayout
  · intro marked hmarked
    obtain ⟨other, hother, rfl⟩ := mem_map.mp hmarked
    rw [Log.changed_set]
    by_cases hname : other.layout.name = slot.layout.name
    · simp [hname]
    · have hdirty := h.dirty other hother
      simpa [hname, Ne.symm hname] using hdirty
  · rw [Log.hasCopied_cons]
    exact h.uploaded
  · intro hcopied pos hpos hclean
    rw [Log.hasCopied_cons] at hcopied
    change host.mapped[pos]? = (slot.layout.range.write v host.buffer.image)[pos]?
    change pos < (slot.layout.range.write v host.buffer.image).length at hpos
    rw [ByteRange.length_write htakes] at hpos
    -- The position is not in the range that was just written.
    have hnot : ¬slot.layout.range.Contains pos := by
      refine hclean { slot with dirty := true } ?_ rfl
      exact mem_map.mpr ⟨slot, hslot, by simp⟩
    rw [ByteRange.getElem?_write htakes, if_neg hnot]
    refine h.copied hcopied pos hpos fun other hother hdirty => ?_
    by_cases hname : other.layout.name = slot.layout.name
    · refine hclean { other with dirty := true } ?_ rfl
      exact mem_map.mpr ⟨other, hother, by simp [hname]⟩
    · refine hclean other ?_ hdirty
      exact mem_map.mpr ⟨other, hother, by simp [hname]⟩

/-- The ranges to be copied are in order and within the image. -/
theorem pending_within (hlaid : d.LaidOut) : ∀ range ∈ host.buffer.pending,
    range.start ≤ range.stop ∧ range.stop ≤ host.buffer.image.length := by
  intro range hrange
  unfold ArgumentBuffer.pending at hrange
  split at hrange
  · obtain ⟨slot, hslot, rfl⟩ := mem_map.mp hrange
    have hmem := h.layout_mem (mem_filter.mp hslot).1
    refine ⟨Nat.le_add_right _ _, ?_⟩
    rw [h.length]
    exact hlaid.within _ hmem
  · obtain rfl := mem_singleton.mp hrange
    exact ⟨Nat.zero_le _, Nat.le_refl _⟩

/-- Copying the pending ranges makes the mapped buffer start with the
image. -/
theorem copy_pending (hlaid : d.LaidOut) (hroom : host.buffer.image.length ≤ host.mapped.length) :
    host.buffer.pending.foldl
        (fun mapped range => range.write (range.read host.buffer.image) mapped) host.mapped =
      host.buffer.image ++ host.mapped.drop host.buffer.image.length := by
  have hpending := h.pending_within hlaid
  apply ext_getElem?
  intro pos
  rw [ByteRange.getElem?_foldl_copy hpending hroom, getElem?_append]
  by_cases hpos : pos < host.buffer.image.length
  · rw [if_pos hpos]
    by_cases hcovered : ∃ range ∈ host.buffer.pending, range.Contains pos
    · rw [if_pos hcovered]
    · rw [if_neg hcovered]
      by_cases hcopied : host.log.hasCopied = true
      · -- Nothing is pending here, so no dirty argument has this byte.
        refine h.copied hcopied pos hpos fun slot hslot hdirty => ?_
        intro hcontains
        apply hcovered
        refine ⟨slot.layout.range, ?_, hcontains⟩
        unfold ArgumentBuffer.pending
        rw [h.uploaded, hcopied, if_pos rfl]
        exact mem_map_of_mem (mem_filter.mpr ⟨hslot, hdirty⟩)
      · refine absurd ⟨⟨0, host.buffer.image.length⟩, ?_, ?_⟩ hcovered
        · unfold ArgumentBuffer.pending
          rw [h.uploaded, if_neg hcopied]
          exact mem_singleton_self _
        · exact ⟨Nat.zero_le _, hpos⟩
  · have hnone : ¬∃ range ∈ host.buffer.pending, range.Contains pos := by
      rintro ⟨range, hrange, hcontains⟩
      have hstop := (hpending range hrange).2
      have hlt := hcontains.2
      omega
    rw [if_neg hpos, if_neg hnone, getElem?_drop]
    congr 1
    omega

/-- After a launch has been prepared nothing is dirty, and the mapped buffer
starts with the image. -/
theorem afterCopy (ranges : List ByteRange) :
    Tracks d
      { buffer := host.buffer.settled
        mapped := host.buffer.image ++ host.mapped.drop host.buffer.image.length
        log := (.prepare, .copied ranges) :: host.log } where
  layouts := by
    rw [← h.layouts]
    simp [ArgumentBuffer.settled]
  length := h.length
  values := by
    intro layout hmem
    rw [Log.lastValue?_copied]
    exact h.values layout hmem
  dirty := by
    intro slot hslot
    obtain ⟨other, _, rfl⟩ := mem_map.mp hslot
    rw [Log.changed_copied]
  uploaded := rfl
  copied := by
    intro _ pos hpos _
    exact getElem?_append_left hpos

end Tracks

/-- Every request keeps the buffers as the log says. -/
theorem Tracks.step (h : host.Tracks d) (hlaid : d.LaidOut)
    (request : Request) : (host.step request).Tracks d := by
  cases request with
  | set name v =>
    rcases host.buffer.set_cases name v with
      ⟨_, hset⟩ | ⟨slot, hslot, ⟨_, hset⟩ | ⟨_, hsame, hset⟩ |
        ⟨hlen, _, hset⟩⟩
    · simp only [Host.step, answer, hset]
      exact h.afterFailure _ _
    · simp only [Host.step, answer, hset]
      exact h.afterFailure _ _
    · simp only [Host.step, answer, hset]
      refine h.afterSame fun layout hmem hname => ?_
      obtain ⟨other, hother, rfl⟩ := h.exists_slot hmem
      have hfound := h.slot?_eq hlaid hother
      rw [hname, hslot] at hfound
      rw [← Option.some.inj hfound]
      exact hsame
    · obtain ⟨hmem, rfl⟩ := Tracks.mem_of_slot? hslot
      simp only [Host.step, answer, hset]
      exact h.afterChange hlaid hmem hlen
  | prepare =>
    by_cases hroom : host.buffer.image.length ≤ host.mapped.length
    · simp only [Host.step, answer, ArgumentBuffer.prepare_of_le hroom, h.copy_pending hlaid hroom]
      exact h.afterCopy _
    · have hprepare := ArgumentBuffer.prepare_of_lt (Nat.lt_of_not_le hroom)
      simp only [Host.step, answer, hprepare]
      exact h.afterFailure _ _

theorem Tracks.run (h : host.Tracks d) (hlaid : d.LaidOut)
    (requests : List Request) : (host.run requests).Tracks d := by
  induction requests generalizing host with
  | nil => exact h
  | cons request rest ih => exact ih (h.step hlaid request)

/-! ## What a host can rely on -/

/-- How the buffers of a host answer the next request, in terms of the requests
before. -/
structure Faithful (d : Declarations ValueType) (host : Host) : Prop where
  /-- An argument has the value that was set last, or zeros. -/
  get : ∀ layout ∈ d.arguments,
    host.buffer.get? layout.name =
      some ((host.log.lastValue? layout.name).getD (List.replicate layout.size 0))
  get_undeclared : ∀ name, name ∉ d.arguments.map (·.name) → host.buffer.get? name = none
  /-- Setting succeeds for a declared name and the right size, and says whether
  the value is another one. -/
  set : ∀ name v flag,
    (host.answer (.set name v)).1 = .changed flag ↔
      ∃ layout ∈ d.arguments, layout.name = name ∧ v.length = layout.size ∧
        flag = decide (host.buffer.get? name ≠ some v)
  /-- The first launch copies the whole image, a later one the arguments that
  have changed, in order of declaration. -/
  prepare : ∀ ranges,
    (host.answer .prepare).1 = .copied ranges ↔
      host.buffer.image.length ≤ host.mapped.length ∧
        ranges =
          if host.log.hasCopied then
            (d.arguments.filter (host.log.changed ·.name)).map (·.range)
          else [⟨0, host.buffer.image.length⟩]
  /-- A launch makes the mapped buffer start with the image and leaves the bytes
  behind. -/
  copied : host.buffer.image.length ≤ host.mapped.length →
    (host.answer .prepare).2.1.image = host.buffer.image ∧
      (host.answer .prepare).2.2 = host.buffer.image ++ host.mapped.drop host.buffer.image.length
  /-- A failed request changes neither buffer. -/
  failed : ∀ request e, (host.answer request).1 = .failed e →
    (host.answer request).2 = (host.buffer, host.mapped)
  /-- The buffer is dirty exactly if a launch would copy something now. -/
  dirty : ∀ target, host.buffer.image.length ≤ target.length →
    ∃ ranges after settled,
      host.buffer.prepare target = .ok (ranges, after, settled) ∧
        (host.buffer.isDirty = true ↔ ranges ≠ [])

variable {layout : ArgumentLayout ValueType}

theorem Tracks.get?_eq (h : host.Tracks d) (hlaid : d.LaidOut) (hmem : layout ∈ d.arguments) :
    host.buffer.get? layout.name = some (layout.range.read host.buffer.image) := by
  obtain ⟨slot, hslot, rfl⟩ := h.exists_slot hmem
  simp [ArgumentBuffer.get?, h.slot?_eq hlaid hslot]

theorem Tracks.slot?_eq_none (h : host.Tracks d) {name : String}
    (hname : name ∉ d.arguments.map (·.name)) :
    host.buffer.slot? name = none := by
  rw [← h.layouts, map_map] at hname
  refine find?_eq_none.mpr fun slot hslot hsame => hname ?_
  exact mem_map.mpr ⟨slot, hslot, beq_iff_eq.mp hsame⟩

theorem Tracks.pending_eq (h : host.Tracks d) :
    host.buffer.pending =
      if host.log.hasCopied then
        (d.arguments.filter (host.log.changed ·.name)).map (·.range)
      else [⟨0, host.buffer.image.length⟩] := by
  have hfilter : host.buffer.slots.filter (·.dirty) =
      host.buffer.slots.filter (host.log.changed ·.layout.name) :=
    filter_congr h.dirty
  unfold ArgumentBuffer.pending
  rw [h.uploaded, ← h.layouts, filter_map, map_map, hfilter]
  rfl

theorem Tracks.answer_set_iff (h : host.Tracks d)
    (hlaid : d.LaidOut) (name : String) (v : List UInt8) (flag : Bool) :
    (host.answer (.set name v)).1 = .changed flag ↔ ∃ layout ∈ d.arguments, layout.name = name ∧
      v.length = layout.size ∧ flag = decide (host.buffer.get? name ≠ some v) := by
  rcases host.buffer.set_cases name v with
    ⟨hnone, hset⟩ | ⟨slot, hslot, hcases⟩
  · simp only [answer, hset]
    constructor
    · intro hchanged
      cases hchanged
    · rintro ⟨layout, hmem, rfl, _⟩
      obtain ⟨slot, hslot, rfl⟩ := h.exists_slot hmem
      rw [h.slot?_eq hlaid hslot] at hnone
      cases hnone
  · obtain ⟨hmem, rfl⟩ := Tracks.mem_of_slot? hslot
    have hlayout := h.layout_mem hmem
    rw [h.get?_eq hlaid hlayout]
    rcases hcases with
      ⟨hlen, hset⟩ | ⟨hlen, hsame, hset⟩ | ⟨hlen, hother, hset⟩
    · simp only [answer, hset]
      constructor
      · intro hchanged
        cases hchanged
      · -- An argument is known by its name.
        rintro ⟨layout, hmem, hname, hsize, _⟩
        obtain ⟨other, hother, rfl⟩ := h.exists_slot hmem
        rw [← hname, h.slot?_eq hlaid hother] at hslot
        rw [← Option.some.inj hslot] at hlen
        exact absurd hsize hlen
    · simp only [answer, hset, hsame]
      constructor
      · intro hchanged
        obtain rfl := Answer.changed.inj hchanged
        exact ⟨slot.layout, hlayout, rfl, hlen, by simp⟩
      · rintro ⟨_, _, _, _, hflag⟩
        simp [hflag]
    · simp only [answer, hset]
      constructor
      · intro hchanged
        obtain rfl := Answer.changed.inj hchanged
        exact ⟨slot.layout, hlayout, rfl, hlen, by simp [hother]⟩
      · rintro ⟨_, _, _, _, hflag⟩
        simp [hflag, hother]

theorem Tracks.answer_prepare_iff (h : host.Tracks d) (ranges : List ByteRange) :
    (host.answer .prepare).1 = .copied ranges ↔
      host.buffer.image.length ≤ host.mapped.length ∧
        ranges =
          if host.log.hasCopied then
            (d.arguments.filter (host.log.changed ·.name)).map (·.range)
          else [⟨0, host.buffer.image.length⟩] := by
  rw [← h.pending_eq]
  by_cases hroom : host.buffer.image.length ≤ host.mapped.length
  · simp only [answer, ArgumentBuffer.prepare_of_le hroom]
    constructor
    · intro hcopied
      exact ⟨hroom, (Answer.copied.inj hcopied).symm⟩
    · rintro ⟨_, rfl⟩
      rfl
  · simp only [answer, ArgumentBuffer.prepare_of_lt (Nat.lt_of_not_le hroom)]
    constructor
    · intro hcopied
      cases hcopied
    · rintro ⟨hle, _⟩
      exact absurd hle hroom

theorem answer_of_failed {request : Request} {e : Error} (h : (host.answer request).1 = .failed e) :
    (host.answer request).2 = (host.buffer, host.mapped) := by
  cases request with
  | set name v | prepare =>
    simp only [answer] at h ⊢
    split at h
    · cases h
    · rfl

theorem Tracks.faithful (h : host.Tracks d) (hlaid : d.LaidOut) :
    host.Faithful d where
  get := by
    intro layout hmem
    rw [h.get?_eq hlaid hmem, h.values layout hmem]
  get_undeclared := by
    intro name hname
    simp [ArgumentBuffer.get?, h.slot?_eq_none hname]
  set := h.answer_set_iff hlaid
  prepare := h.answer_prepare_iff
  copied := by
    intro hroom
    simp only [answer, ArgumentBuffer.prepare_of_le hroom]
    exact ⟨rfl, h.copy_pending hlaid hroom⟩
  failed := fun _ _ hfailed => answer_of_failed hfailed
  dirty := by
    intro target hroom
    exact ⟨_, _, _, ArgumentBuffer.prepare_of_le hroom, host.buffer.isDirty_iff⟩

end Host

/-- For any declared arguments and after any requests, the argument buffer and
the mapped buffer answer as the requests before say. -/
theorem host_run_faithful (config : Config)
    (calls : List (String × ValueType)) (mapped : List UInt8)
    (requests : List Host.Request) :
    let d := ((Kernel.start config).declareArguments calls).declarations
    ((Host.start d mapped).run requests).Faithful d := by
  intro d
  have hlaid : d.LaidOut :=
    (Kernel.declareArguments_laidOut (Kernel.start_laidOut config) calls).1
  exact ((Host.start_tracks hlaid mapped).run hlaid requests).faithful hlaid

/-- An argument is copied once it has changed, also if it is then set back. -/
example :
    let calls : List (String × ValueType) := [("count", .uint), ("step", .int)]
    let d := ((Kernel.start {}).declareArguments calls).declarations
    let host := (Host.start d (List.replicate 17 0xff)).run
      [.set "step" [1, 0, 0, 0], .prepare, .set "other" [],
        .set "step" [2, 0, 0, 0], .set "step" [1, 0, 0, 0], .prepare]
    host.log.map (·.2) =
        [.copied [⟨4, 8⟩], .changed true, .changed true,
          .failed (.binding (.unknownArgument "other")),
          .copied [⟨0, 16⟩], .changed true] ∧
      host.mapped = [0, 0, 0, 0, 1, 0, 0, 0, 0, 0, 0, 0, 0, 0, 0, 0, 0xff] := by
  decide

end KernelIL
