import Mathlib.Data.List.Induction
import KernelIL.Kernel

/-!
# Requests to a literal pool

Requests come in any order, repeat one another, and fail once the pool is full.
Whatever they are, the pool holds the constants that were asked for first, each
of them once.  An index that has been handed out stands for its constant from
then on, and the line that declares it tells the constant apart from all
others.
-/

namespace KernelIL

open List

/-! ## Texts of constants -/

def hexValue (digit : Char) : Nat :=
  if digit.isDigit then digit.toNat - '0'.toNat
  else digit.toNat - 'A'.toNat + 10

/-- The number that a text of hexadecimal digits stands for. -/
def readHex (digits : List Char) : Nat :=
  digits.foldl (fun n digit => 16 * n + hexValue digit) 0

theorem hexValue_digitChar {digit : Nat} (h : digit < 16) :
    hexValue digit.digitChar.toUpper = digit := by
  have hall : ∀ digit : Fin 16, hexValue digit.val.digitChar.toUpper = digit.val := by decide
  exact hall ⟨digit, h⟩

theorem readHex_concat (digits : List Char) (last : Char) :
    readHex (digits ++ [last]) = 16 * readHex digits + hexValue last := by
  unfold readHex
  rw [foldl_append]
  rfl

theorem readHex_zeros (count : Nat) (digits : List Char) :
    readHex (List.replicate count '0' ++ digits) = readHex digits := by
  induction count with
  | zero => rfl
  | succ count ih => exact ih

theorem readHex_toDigits (n : Nat) : readHex ((Nat.toDigits 16 n).map Char.toUpper) = n := by
  induction n using Nat.strongRecOn with
  | ind n ih =>
    by_cases hsmall : n < 16
    · rw [Nat.toDigits_of_lt_base hsmall]
      have hdigit := hexValue_digitChar hsmall
      simpa [readHex] using hdigit
    · have hlt : n / 16 < n := by omega
      rw [Nat.toDigits_of_base_le (by decide) (by omega), map_append,
        map_singleton, readHex_concat, ih _ hlt,
        hexValue_digitChar (Nat.mod_lt _ (by decide))]
      exact Nat.div_add_mod n 16

theorem readHex_hexWord (word : UInt32) : readHex (hexWord word).toList = word.toNat := by
  unfold hexWord
  rw [String.toList_ofList, readHex_zeros]
  exact readHex_toDigits _

theorem hexWord_length (word : UInt32) : (hexWord word).toList.length = 8 := by
  have hdigits : (Nat.toDigits 16 word.toNat).length ≤ 8 := by
    rw [Nat.length_toDigits_le_iff (by decide) (by decide)]
    exact word.toNat_lt
  unfold hexWord
  simp only [String.toList_ofList, length_append, length_replicate, length_map]
  omega

theorem hexWord_injective {word other : UInt32}
    (h : hexWord word = hexWord other) : word = other := by
  have hn := congrArg (fun text => readHex text.toList) h
  simp only [readHex_hexWord] at hn
  exact UInt32.toNat_inj.mp hn

/-- Words in a declaration, with what stands before each of them. -/
def declaredTexts (words : List UInt32) : List Char :=
  words.flatMap fun word => ", 0x".toList ++ (hexWord word).toList

theorem declaredTexts_length (words : List UInt32) :
    (declaredTexts words).length = 12 * words.length := by
  induction words with
  | nil => rfl
  | cons word rest ih =>
    have hlen := hexWord_length word
    simp only [declaredTexts, flatMap_cons, length_append, length_cons] at ih ⊢
    rw [ih, hlen]
    change 4 + 8 + _ = _
    omega

/-- All words take the same space, so a text tells them apart. -/
theorem declaredTexts_injective {words others : List UInt32}
    (h : declaredTexts words = declaredTexts others) : words = others := by
  have hlen : words.length = others.length := by
    have hlengths := congrArg List.length h
    rw [declaredTexts_length, declaredTexts_length] at hlengths
    omega
  induction words generalizing others with
  | nil => exact (eq_nil_of_length_eq_zero hlen.symm).symm
  | cons word rest ih =>
    cases others with
    | nil => cases hlen
    | cons other others =>
      simp only [declaredTexts, flatMap_cons, append_assoc] at h
      obtain ⟨hword, hrest⟩ := append_inj (append_cancel_left h)
        ((hexWord_length word).trans (hexWord_length other).symm)
      rw [hexWord_injective (String.toList_injective hword), ih hrest (Nat.succ.inj hlen)]

namespace Words

theorem declaration_toList (words : Words) (i : Nat) :
    (words.declaration i).toList =
      "dcl_literal l".toList ++ Nat.toDigits 10 i ++ declaredTexts words.toList := by
  have hi : (s!"dcl_literal l{i}, ").toList =
      "dcl_literal l".toList ++ Nat.toDigits 10 i ++ ", ".toList := by
    change ("dcl_literal l" ++ Nat.repr i ++ ", ").toList = _
    have hdigits : (Nat.repr i).toList = Nat.toDigits 10 i := String.toList_ofList
    rw [String.toList_append, String.toList_append, hdigits]
  unfold declaration
  rw [String.toList_append, hi, String.toList_intercalate]
  simp [declaredTexts, toList, List.intercalate]

/-- A declaration says which words it is about. -/
theorem declaration_injective {words other : Words}
    {i pos : Nat} (h : words.declaration i = other.declaration pos) : words = other ∧ i = pos := by
  have htexts := congrArg String.toList h
  rw [declaration_toList, declaration_toList] at htexts
  obtain ⟨hi, hwords⟩ := append_inj' htexts
    (by rw [declaredTexts_length, declaredTexts_length]; rfl)
  have hdigits := congrArg (Nat.ofDigitChars 10 · 0) (append_cancel_left hi)
  simp only [Nat.ofDigitChars_toDigits (b := 10) (by decide) (by decide)] at hdigits
  have hlanes := declaredTexts_injective hwords
  simp only [toList, List.cons.injEq] at hlanes
  obtain ⟨hx, hy, hz, hw, _⟩ := hlanes
  obtain ⟨x, y, z, w⟩ := words
  obtain ⟨x', y', z', w'⟩ := other
  exact ⟨by simp_all, hdigits⟩

end Words

/-! ## Requests -/

namespace LiteralPool

variable {pool next : LiteralPool} {words other : Words} {limit i pos : Nat}
  {past earlier : List Words}

/-- The pool after a request, which is the same as before if it fails. -/
def request (pool : LiteralPool) (words : Words) : LiteralPool :=
  match pool.intern words with
  | .ok (_, next) => next
  | .error _ => pool

def afterRequests (limit : Nat) (past : List Words) : LiteralPool :=
  past.foldl request (.empty limit)

/-- After the requests `past`, a request for `words` returns `i`. -/
def Returns (limit : Nat) (past : List Words) (words : Words) (i : Nat) : Prop :=
  ∃ next, (afterRequests limit past).intern words = .ok (i, next)

/-- One of the requests was for `words` and has returned `i`. -/
def Received (limit : Nat) (past : List Words) (words : Words) (i : Nat) : Prop :=
  ∃ earlier, earlier ++ [words] <+: past ∧ Returns limit earlier words i

theorem afterRequests_append (later : List Words) :
    afterRequests limit (past ++ later) = later.foldl request (afterRequests limit past) :=
  foldl_append

theorem afterRequests_concat :
    afterRequests limit (past ++ [words]) = (afterRequests limit past).request words :=
  foldl_append

/-! ### One request -/

theorem lookup_eq_none_iff : pool.indices.lookup words = none ↔ words ∉ pool.values := by
  rw [mem_iff_getElem?, Option.eq_none_iff_forall_not_mem, not_exists]
  exact forall_congr' fun i => not_congr (pool.inverse words i)

/-- The table of indices finds what a search of the constants finds. -/
theorem lookup_eq_idxOf? : pool.indices.lookup words = pool.values.idxOf? words := by
  cases hfound : pool.values.idxOf? words with
  | none => exact lookup_eq_none_iff.mpr (idxOf?_eq_none_iff.mp hfound)
  | some i =>
    obtain ⟨hlt, hword, _⟩ := idxOf?_eq_some_iff.mp hfound
    exact (pool.inverse words i).mpr (List.getElem?_eq_some_iff.mpr ⟨hlt, hword⟩)

theorem index_unique (h : pool.values[i]? = some words)
    (h' : pool.values[pos]? = some words) : i = pos := by
  rw [← pool.inverse] at h h'
  exact Option.some.inj (h.symm.trans h')

theorem values_nodup : pool.values.Nodup := by
  refine pairwise_iff_getElem.mpr fun i pos hi hpos hlt heq => ?_
  have hsame := index_unique (getElem?_eq_getElem hi)
    ((getElem?_eq_getElem hpos).trans (congrArg some heq.symm))
  exact Nat.ne_of_lt hlt hsame

theorem intern_of_found (h : pool.values[i]? = some words) : pool.intern words = .ok (i, pool) := by
  have hfound := (pool.inverse words i).mpr h
  unfold intern
  split <;> simp_all

theorem intern_of_new (h : words ∉ pool.values) :
    pool.intern words =
      if pool.size < pool.limit then .ok (pool.size, pool.add words (lookup_eq_none_iff.mpr h))
      else .error (.literalOverflow pool.limit) := by
  have hfound := lookup_eq_none_iff.mpr h
  unfold intern
  split
  · simp_all
  · rfl

/-- The line of an index declares the constant. -/
theorem declarations_of_found (h : pool.values[i]? = some words) :
    pool.declarations[i]? = some (words.declaration i) := by
  unfold declarations
  rw [getElem?_mapIdx, h]
  rfl

/-- A new constant is added if there is room for it. -/
theorem request_eq : pool.request words = if h : words ∉ pool.values ∧
    pool.size < pool.limit then pool.add words (lookup_eq_none_iff.mpr h.1) else pool := by
  unfold request
  by_cases hmem : words ∈ pool.values
  · obtain ⟨i, hfound⟩ := mem_iff_getElem?.mp hmem
    rw [intern_of_found hfound, dif_neg (fun h => h.1 hmem)]
  · rw [intern_of_new hmem]
    by_cases hroom : pool.size < pool.limit
    · rw [if_pos hroom, dif_pos ⟨hmem, hroom⟩]
    · rw [if_neg hroom, dif_neg (fun h => hroom h.2)]

theorem request_limit : (pool.request words).limit = pool.limit := by
  rw [request_eq]
  split <;> rfl

theorem request_values : (pool.request words).values = if words ∉ pool.values ∧
    pool.size < pool.limit then pool.values ++ [words] else pool.values := by
  rw [request_eq]
  split <;> rfl

theorem values_prefix_request : pool.values <+: (pool.request words).values := by
  rw [request_values]
  split
  · exact prefix_append _ _
  · exact prefix_rfl

/-- The place of a constant stays its place. -/
theorem found_of_longer (hlonger : pool.values <+: next.values)
    (h : pool.values[i]? = some words) : next.values[i]? = some words := by
  obtain ⟨more, hmore⟩ := hlonger
  rw [← hmore, getElem?_append_left (List.getElem?_eq_some_iff.mp h).1]
  exact h

/-- A request that succeeds returns the place of its constant. -/
theorem found_of_intern (h : pool.intern words = .ok (i, next)) :
    next = pool.request words ∧ (pool.request words).values[i]? = some words := by
  have hnext : pool.request words = next := by
    unfold request
    rw [h]
  rw [hnext]
  refine ⟨rfl, ?_⟩
  by_cases hmem : words ∈ pool.values
  · obtain ⟨found, hfound⟩ := mem_iff_getElem?.mp hmem
    rw [intern_of_found hfound] at h
    obtain ⟨rfl, rfl⟩ := Prod.mk.inj (Except.ok.inj h)
    exact hfound
  · rw [intern_of_new hmem] at h
    split at h
    · obtain ⟨rfl, rfl⟩ := Prod.mk.inj (Except.ok.inj h)
      exact getElem?_concat_length
    · cases h

/-! ### All requests -/

theorem afterRequests_limit : (afterRequests limit past).limit = limit := by
  induction past using List.reverseRecOn with
  | nil => rfl
  | append_singleton past words ih => rw [afterRequests_concat, request_limit, ih]

theorem values_prefix_requests (later : List Words) :
    pool.values <+: (later.foldl request pool).values := by
  induction later generalizing pool with
  | nil => exact prefix_rfl
  | cons words later ih => exact values_prefix_request.trans ih

theorem afterRequests_values_mono (h : earlier <+: past) :
    (afterRequests limit earlier).values <+: (afterRequests limit past).values := by
  obtain ⟨later, rfl⟩ := h
  rw [afterRequests_append]
  exact values_prefix_requests later

theorem eraseDups_concat (past : List Words) (words : Words) : (past ++ [words]).eraseDups =
    if words ∈ past then past.eraseDups else past.eraseDups ++ [words] := by
  rw [eraseDups_append]
  by_cases hmem : words ∈ past
  · simp [List.removeAll, hmem]
  · simp [List.removeAll, hmem, eraseDups_cons]

/-- The pool holds the constants that were asked for first. -/
theorem afterRequests_values : (afterRequests limit past).values = past.eraseDups.take limit := by
  induction past using List.reverseRecOn with
  | nil => simp [afterRequests, empty]
  | append_singleton past words ih =>
    have hsize : (afterRequests limit past).size = min limit past.eraseDups.length := by
      unfold size
      rw [ih, length_take]
    rw [afterRequests_concat, request_values, afterRequests_limit, hsize, ih, eraseDups_concat]
    by_cases hroom : past.eraseDups.length < limit
    · -- nothing has been left out so far
      have hall : past.eraseDups.take limit = past.eraseDups :=
        take_of_length_le (Nat.le_of_lt hroom)
      rw [hall]
      by_cases hmem : words ∈ past
      · rw [if_neg (fun h => h.1 (mem_eraseDups.mpr hmem)), if_pos hmem, hall]
      · have hnew : words ∉ past.eraseDups :=
          fun h => hmem (mem_eraseDups.mp h)
        rw [if_pos ⟨hnew, by omega⟩, if_neg hmem, take_of_length_le]
        rw [length_append]
        exact hroom
    · have hfull : ¬min limit past.eraseDups.length < limit := by omega
      rw [if_neg (fun h => hfull h.2)]
      split
      · rfl
      · rw [take_append_of_le_length (by omega)]

theorem returns_of_room (hnew : words ∉ (afterRequests limit past).values)
    (hroom : (afterRequests limit past).size < (afterRequests limit past).limit) :
    Returns limit past words (afterRequests limit past).size := by
  have hintern := intern_of_new hnew
  rw [if_pos hroom] at hintern
  exact ⟨_, hintern⟩

/-- An index has been received exactly if the pool has its constant there. -/
theorem received_iff :
    Received limit past words i ↔ (afterRequests limit past).values[i]? = some words := by
  constructor
  · rintro ⟨earlier, hearlier, next, hintern⟩
    have hlonger : (afterRequests limit (earlier ++ [words])).values <+:
        (afterRequests limit past).values := afterRequests_values_mono hearlier
    rw [afterRequests_concat] at hlonger
    exact found_of_longer hlonger (found_of_intern hintern).2
  · intro hfound
    induction past using List.reverseRecOn with
    | nil => cases hfound
    | append_singleton past last ih =>
      by_cases hmem : words ∈ (afterRequests limit past).values
      · obtain ⟨found, hold⟩ := mem_iff_getElem?.mp hmem
        have hlonger : (afterRequests limit past).values <+:
            (afterRequests limit (past ++ [last])).values :=
          afterRequests_values_mono (prefix_append _ _)
        obtain rfl := index_unique hfound (found_of_longer hlonger hold)
        obtain ⟨earlier, hearlier, hreturns⟩ := ih hold
        exact ⟨earlier, hearlier.trans (prefix_append _ _), hreturns⟩
      · rw [afterRequests_concat] at hfound
        have hlast := mem_of_getElem? hfound
        rw [request_values] at hlast
        split at hlast
        · next hnew =>
          obtain rfl : words = last := by simpa [hmem] using hlast
          have hplace : ((afterRequests limit past).request words).values[
              (afterRequests limit past).size]? = some words := by
            rw [request_values, if_pos hnew]
            exact getElem?_concat_length
          obtain rfl := index_unique hfound hplace
          exact ⟨past, prefix_rfl, returns_of_room hmem hnew.2⟩
        · exact absurd hlast hmem

theorem afterRequests_size_le : (afterRequests limit past).size ≤ limit := by
  unfold size
  rw [afterRequests_values, length_take]
  exact Nat.min_le_left _ _

/-- A request fails exactly if the pool is full and lacks the constant. -/
theorem intern_eq_error_iff {e : Error} :
    (afterRequests limit past).intern words = .error e ↔ e = .literalOverflow limit ∧
      (afterRequests limit past).size = limit ∧ ∀ i, ¬Received limit past words i := by
  have hsize : (afterRequests limit past).size ≤ limit := afterRequests_size_le
  constructor
  · intro herror
    have hnew : words ∉ (afterRequests limit past).values := by
      intro hmem
      obtain ⟨i, hfound⟩ := mem_iff_getElem?.mp hmem
      rw [intern_of_found hfound] at herror
      cases herror
    rw [intern_of_new hnew, afterRequests_limit] at herror
    split at herror
    · cases herror
    · refine ⟨(Except.error.inj herror).symm, by omega, ?_⟩
      intro i hreceived
      rw [received_iff] at hreceived
      exact hnew (mem_of_getElem? hreceived)
  · rintro ⟨rfl, hfull, hnever⟩
    have hnew : words ∉ (afterRequests limit past).values := by
      intro hmem
      obtain ⟨i, hfound⟩ := mem_iff_getElem?.mp hmem
      exact hnever i (received_iff.mpr hfound)
    rw [intern_of_new hnew, afterRequests_limit, if_neg (by omega)]

/-- Constants are numbered in the order in which they are first asked for. -/
theorem returns_of_new (hnew : words ∉ past) (hroom : past.eraseDups.length < limit) :
    Returns limit past words past.eraseDups.length := by
  have hvalues : (afterRequests limit past).values = past.eraseDups := by
    rw [afterRequests_values, take_of_length_le (Nat.le_of_lt hroom)]
  have hsize : (afterRequests limit past).size = past.eraseDups.length := by
    unfold size
    rw [hvalues]
  have hmissing : words ∉ (afterRequests limit past).values := by
    rw [hvalues, mem_eraseDups]
    exact hnew
  rw [← hsize]
  refine returns_of_room hmissing ?_
  rw [afterRequests_limit, hsize]
  exact hroom

theorem Returns.received (h : Returns limit past words i) (later : List Words) :
    Received limit (past ++ words :: later) words i := by
  refine ⟨past, ?_, h⟩
  rw [append_cons past words later]
  exact prefix_append _ _

end LiteralPool

end KernelIL
