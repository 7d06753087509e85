import KernelIL.Proofs.Lexing.Patterns

/-!
# Numbers are longest matches

Integers, numbers with a point and their suffixes have prefixes in common.  A
run of digits is followed by something that is no digit, so all patterns agree
on where the run ends, and what comes next decides between them.  An `e` that
no digits follow belongs to the next piece.
-/

namespace KernelIL.Script

open Pattern List

variable {p : Char → Prop} {run after part tail : List Char} {c : Char}

/-! ## Runs -/

/-- No character of the class stands first. -/
def StopsAt (p : Char → Prop) (text : List Char) : Prop :=
  ∀ c ∈ text.head?, ¬p c

/-- A run that something else follows is the whole run. -/
theorem eq_run (hpart : ∀ d ∈ part, p d) (hc : ¬p c) (hrun : ∀ d ∈ run, p d)
    (hafter : StopsAt p after) (h : part ++ c :: tail = run ++ after) :
    part = run ∧ c :: tail = after := by
  induction part generalizing run with
  | nil =>
    cases run with
    | nil => exact ⟨rfl, h⟩
    | cons d rest =>
      obtain ⟨rfl, _⟩ := List.cons.inj h
      exact absurd (hrun c (mem_cons_self ..)) hc
  | cons d rest ih =>
    cases run with
    | nil =>
      rw [nil_append] at h
      have hd : ¬p d := hafter d (by rw [← h]; rfl)
      exact absurd (hpart d (mem_cons_self ..)) hd
    | cons first others =>
      obtain ⟨rfl, hrest⟩ := List.cons.inj h
      obtain ⟨rfl, hsame⟩ := ih (fun d hd => hpart d (mem_cons_of_mem _ hd))
        (fun d hd => hrun d (mem_cons_of_mem _ hd)) hrest
      exact ⟨rfl, hsame⟩

theorem length_le_run (hpart : ∀ d ∈ part, p d) (hafter : StopsAt p after)
    (h : part <+: run ++ after) : part.length ≤ run.length := by
  induction run generalizing part with
  | nil =>
    cases part with
    | nil => exact Nat.le_refl _
    | cons d rest =>
      obtain ⟨more, hmore⟩ := h
      rw [nil_append] at hmore
      have hd : ¬p d := hafter d (by rw [← hmore]; rfl)
      exact absurd (hpart d (mem_cons_self ..)) hd
  | cons first others ih =>
    cases part with
    | nil => exact Nat.zero_le _
    | cons d rest =>
      obtain ⟨rfl, hrest⟩ := cons_prefix_cons.mp h
      exact Nat.succ_le_succ (ih (fun d hd => hpart d (mem_cons_of_mem _ hd)) hrest)

variable {q : Char → Bool}

theorem mem_takeWhile (hq : ∀ c, q c = true ↔ p c)
    (text : List Char) : ∀ d ∈ text.takeWhile q, p d := by
  intro d hd
  exact (hq d).mp (all_eq_true.mp all_takeWhile d hd)

theorem stopsAt_dropWhile (hq : ∀ c, q c = true ↔ p c)
    (text : List Char) : StopsAt p (text.dropWhile q) := by
  intro d hd hp
  have hstops := head?_dropWhile_not q text
  rw [Option.mem_def.mp hd] at hstops
  have hfalse : q d = false := hstops
  rw [(hq d).mpr hp] at hfalse
  cases hfalse

variable {text : List Char}

theorem takeWhile_of_stopsAt (hq : ∀ c, q c = true ↔ p c) (h : StopsAt p text) :
    text.takeWhile q = [] := by
  cases text with
  | nil => rfl
  | cons d rest => rw [takeWhile_cons, if_neg fun hd => h d rfl ((hq d).mp hd)]

theorem takeWhile_run (hq : ∀ c, q c = true ↔ p c)
    (hrun : ∀ d ∈ run, p d) (hafter : StopsAt p after) : (run ++ after).takeWhile q = run := by
  rw [takeWhile_append_of_pos fun d hd => (hq d).mpr (hrun d hd),
    takeWhile_of_stopsAt hq hafter, append_nil]

theorem drop_takeWhile (q : Char → Bool) (text : List Char) :
    text.drop (text.takeWhile q).length = text.dropWhile q := by
  have hsplit : text.takeWhile q ++ text.dropWhile q = text := takeWhile_append_dropWhile
  calc text.drop (text.takeWhile q).length
      = (text.takeWhile q ++ text.dropWhile q).drop (text.takeWhile q).length := by rw [hsplit]
    _ = text.dropWhile q := drop_left

/-! ## Exponents -/

/-- The length of an exponent in front of other text, which may start with more
digits. -/
theorem exponentLength_eq {letter : Char}
    {sign n : List Char} (hletter : letter = 'e' ∨ letter = 'E') (hsign : IsSign sign)
    (hn : n ∈ digits) (tail : List Char) : exponentLength (letter :: (sign ++ (n ++ tail))) =
    1 + sign.length + ((n ++ tail).takeWhile Char.isDigit).length := by
  obtain ⟨d, more, hd, rfl⟩ := digits_starts hn
  have hdigit : d.isDigit = true := isDigit_iff.mpr hd
  have hplus : d ≠ '+' := by
    rintro rfl
    exact absurd hd (by decide)
  have hminus : d ≠ '-' := by
    rintro rfl
    exact absurd hd (by decide)
  have hcount : ((d :: more ++ tail).takeWhile Char.isDigit).length =
      ((more ++ tail).takeWhile Char.isDigit).length + 1 := by
    simp [hdigit]
  have hmarks : (decide (letter = 'e') || decide (letter = 'E')) = true := by
    simpa using hletter
  rcases hsign with rfl | rfl | rfl
  · simp only [exponentLength, hmarks, if_true, cons_append, nil_append] at hcount ⊢
    split
    · next heq => exact absurd (List.cons.inj heq).1 hplus
    · next heq => exact absurd (List.cons.inj heq).1 hminus
    · rw [hcount]
      rfl
  · simp only [exponentLength, hmarks, if_true, cons_append, nil_append] at hcount ⊢
    rw [hcount]
    rfl
  · simp only [exponentLength, hmarks, if_true, cons_append, nil_append] at hcount ⊢
    rw [hcount]
    rfl

theorem length_le_exponentLength {power : List Char}
    (hpower : power ∈ exponent) (h : power <+: text) : power.length ≤ exponentLength text := by
  obtain ⟨tail, rfl⟩ := h
  obtain ⟨letter, sign, n, hletter, hsign, hn, rfl⟩ := mem_exponent.mp hpower
  have hall := (mem_digits.mp hn).2
  have htake : ((n ++ tail).takeWhile Char.isDigit) = n ++ tail.takeWhile Char.isDigit :=
    takeWhile_append_of_pos fun d hd => isDigit_iff.mpr (hall d hd)
  have hlen := exponentLength_eq hletter hsign hn tail
  rw [htake] at hlen
  simp only [cons_append, append_assoc, length_cons, length_append] at hlen ⊢
  omega

/-- An exponent that no digit follows is the one that is taken. -/
theorem exponentLength_of_stopsAt {power : List Char} (hpower : power ∈ exponent)
    (htail : StopsAt IsDigit tail) : exponentLength (power ++ tail) = power.length := by
  obtain ⟨letter, sign, n, hletter, hsign, hn, rfl⟩ := mem_exponent.mp hpower
  have hall := (mem_digits.mp hn).2
  have htake : ((n ++ tail).takeWhile Char.isDigit) = n := takeWhile_run @isDigit_iff hall htail
  have hlen := exponentLength_eq hletter hsign hn tail
  rw [htake] at hlen
  simp only [cons_append, append_assoc, length_cons, length_append] at hlen ⊢
  omega

/-- An exponent is taken if there is one, and otherwise nothing. -/
theorem exponentLength_cases (text : List Char) : exponentLength text = 0 ∨
    ∃ power tail, text = power ++ tail ∧ power ∈ exponent ∧ StopsAt IsDigit tail := by
  by_cases hpower : ∃ letter sign body, text = letter :: (sign ++ body) ∧
      (letter = 'e' ∨ letter = 'E') ∧ IsSign sign ∧
      body.takeWhile Char.isDigit ≠ []
  · obtain ⟨letter, sign, body, rfl, hletter, hsign, hne⟩ := hpower
    have hn : body.takeWhile Char.isDigit ∈ digits :=
      mem_digits.mpr ⟨hne, mem_takeWhile @isDigit_iff body⟩
    refine .inr ⟨letter :: (sign ++ body.takeWhile Char.isDigit),
      body.dropWhile Char.isDigit, ?_, ?_, ?_⟩
    · rw [cons_append, append_assoc, takeWhile_append_dropWhile]
    · exact mem_exponent.mpr ⟨letter, sign, _, hletter, hsign, hn, rfl⟩
    · exact stopsAt_dropWhile @isDigit_iff body
  · have hnone : ∀ letter sign body, text = letter :: (sign ++ body) →
        (letter = 'e' ∨ letter = 'E') → IsSign sign →
        body.takeWhile Char.isDigit = [] := by
      intro letter sign body htext hletter hsign
      by_contra hne
      exact hpower ⟨letter, sign, body, htext, hletter, hsign, hne⟩
    left
    cases text with
    | nil => rfl
    | cons c rest =>
      unfold exponentLength
      by_cases hc : c = 'e' ∨ c = 'E'
      · have hmarks : (decide (c = 'e') || decide (c = 'E')) = true := by
          simpa using hc
        simp only [hmarks, if_true]
        split
        · next body =>
          rw [hnone c ['+'] body rfl hc (.inr (.inl rfl))]
          rfl
        · next body =>
          rw [hnone c ['-'] body rfl hc (.inr (.inr rfl))]
          rfl
        · next body _ _ =>
          rw [hnone c [] rest rfl hc (.inl rfl)]
          rfl
      · have hmarks : (decide (c = 'e') || decide (c = 'E')) = false := by
          simpa using hc
        simp only [hmarks, Bool.false_eq_true, if_false]

/-! ## What the patterns of numbers match -/

/-- The digits of a text, and what comes after them. -/
structure Digits (whole after : List Char) : Prop where
  whole : whole ∈ digits
  stops : StopsAt IsDigit after

namespace Digits

variable {whole other rest fraction more : List Char}

theorem int (h : Digits whole after) (hother : other ∈ Pattern.digits)
    (hstart : other <+: whole ++ after) : other.length ≤ whole.length :=
  length_le_run (mem_digits.mp hother).2 h.stops hstart

theorem uint (h : Digits whole after) (hother : other ∈ Rule.uint.language)
    (hstart : other <+: whole ++ after) : ∃ rest, after = 'u' :: rest ∧ other = whole ++ ['u'] := by
  obtain ⟨n, hn, _, rfl, rfl⟩ := Language.mem_mul.mp hother
  obtain ⟨rest, hrest⟩ := hstart
  have hsplit : n ++ 'u' :: rest = whole ++ after := by
    rw [← hrest]
    simp
  obtain ⟨rfl, hafter⟩ := eq_run (mem_digits.mp hn).2 (by decide)
    (mem_digits.mp h.whole).2 h.stops hsplit
  exact ⟨rest, hafter.symm, rfl⟩

/-- A number with a point has the whole run of digits in front of it. -/
theorem real (h : Digits whole after)
    (hother : other ∈ Pattern.real) (hstart : other ++ tail = whole ++ after) :
    ∃ part power, after = '.' :: (part ++ (power ++ tail)) ∧ (∀ d ∈ part, IsDigit d) ∧
      (power = [] ∨ power ∈ exponent) ∧ other = whole ++ '.' :: (part ++ power) := by
  obtain ⟨n, part, power, hn, hpart, hpower, rfl⟩ := mem_real.mp hother
  have hsplit : n ++ '.' :: (part ++ (power ++ tail)) = whole ++ after := by
    rw [← hstart]
    simp
  obtain ⟨rfl, hafter⟩ := eq_run (mem_digits.mp hn).2 (by decide)
    (mem_digits.mp h.whole).2 h.stops hsplit
  exact ⟨part, power, hafter.symm, hpart, hpower, rfl⟩

end Digits

/-! ## Numbers with a point -/

section

variable {fraction more power : List Char}

theorem exponent_starts (h : power ∈ exponent) :
    ∃ letter rest, ¬IsDigit letter ∧ power = letter :: rest := by
  obtain ⟨letter, sign, n, hletter, _, _, rfl⟩ := mem_exponent.mp h
  refine ⟨letter, _, ?_, rfl⟩
  rcases hletter with rfl | rfl <;> decide

/-- What follows the digits after the point is no longer than the exponent that
is taken. -/
theorem length_le_fraction (hfraction : ∀ d ∈ fraction, IsDigit d)
    (hmore : StopsAt IsDigit more) (hpart : ∀ d ∈ part, IsDigit d)
    (hpower : power = [] ∨ power ∈ exponent) (h : part ++ (power ++ tail) = fraction ++ more) :
    part.length + power.length ≤ fraction.length + exponentLength more := by
  rcases hpower with rfl | hpower
  · have hle := length_le_run hpart hmore ⟨_, h⟩
    rw [length_nil]
    omega
  · obtain ⟨letter, rest, hletter, rfl⟩ := exponent_starts hpower
    obtain ⟨rfl, rfl⟩ := eq_run hpart hletter hfraction hmore h
    have hle := length_le_exponentLength hpower (prefix_append _ tail)
    exact Nat.add_le_add_left hle _

/-- In front of a character that continues nothing all of it is taken. -/
theorem eq_fraction (hfraction : ∀ d ∈ fraction, IsDigit d) (hmore : StopsAt IsDigit more)
    (hpart : ∀ d ∈ part, IsDigit d) (hpower : power = [] ∨ power ∈ exponent) (hc : ¬IsDigit c)
    (hletter : c ≠ 'e' ∧ c ≠ 'E') (h : part ++ (power ++ c :: tail) = fraction ++ more) :
    part = fraction ∧ more = power ++ c :: tail ∧ exponentLength more = power.length := by
  rcases hpower with rfl | hpower
  · obtain ⟨rfl, rfl⟩ := eq_run hpart hc hfraction hmore h
    refine ⟨rfl, rfl, ?_⟩
    unfold exponentLength
    simp [hletter]
  · obtain ⟨letter, rest, hstart, rfl⟩ := exponent_starts hpower
    obtain ⟨rfl, rfl⟩ := eq_run hpart hstart hfraction hmore h
    refine ⟨rfl, rfl, exponentLength_of_stopsAt hpower ?_⟩
    intro d hd
    rw [← Option.some.inj (Option.mem_def.mp hd)]
    exact hc

end

/-! ## Numbers are cut off correctly -/

/-- What becomes of a match. -/
def PieceKind.ofToken? : Option Token → PieceKind
  | some found => .token found
  | none => .fault

/-- A match at the start of a text is cut off correctly. -/
def Match.Correct (found : Match) (text : List Char) : Prop :=
  ∃ piece after, text = piece ++ after ∧ piece.length = found.extra + 1 ∧
    Piece.Correct ⟨.ofToken? found.token?, piece⟩ after

/-- Only numbers start with digits. -/
theorem Rule.isNumber {rule : Rule} (h : text ∈ rule.language) {c : Char} (hc : IsDigit c)
    (hstart : text.head? = some c) : rule = double ∨ rule = float ∨ rule = uint ∨ rule = int := by
  obtain ⟨d, tail, hd, rfl⟩ := rule.starts h
  obtain rfl : d = c := Option.some.inj hstart
  cases rule with
  | double => exact .inl rfl
  | float => exact .inr (.inl rfl)
  | uint => exact .inr (.inr (.inl rfl))
  | int => exact .inr (.inr (.inr rfl))
  | name | keyword => exact absurd hd hc.not_wordStart
  | symbol mark => exact absurd hc (Symbol.starts_not_other hd).1
  | blank => exact absurd hc (IsBlank.not_other hd).1
  | comment =>
    obtain rfl : d = '/' := hd
    exact absurd hc (by decide)

variable {piece : List Char}

/-- A piece at the start of digits is the longest match if no number is
longer. -/
theorem Digits.longestMatch {whole after tail : List Char}
    (h : Digits whole after) (hsplit : whole ++ after = piece ++ tail)
    (hpattern : Matches piece) (hint : whole.length ≤ piece.length)
    (huint : ∀ rest, after = 'u' :: rest → whole.length + 1 ≤ piece.length)
    (hreal : ∀ other, other ∈ Pattern.real → other <+: whole ++ after → other.length ≤ piece.length)
    (hdouble : ∀ other, other ∈ Rule.double.language →
      other <+: whole ++ after → other.length ≤ piece.length) :
    LongestMatch piece tail := by
  refine ⟨hpattern, ?_⟩
  rintro other hstart ⟨rule, hrule⟩
  rw [← hsplit] at hstart
  obtain ⟨c, rest, hc, rfl⟩ := digits_starts h.whole
  have hhead : other.head? = some c := by
    obtain ⟨d, others, _, rfl⟩ := rule.starts hrule
    obtain ⟨rfl, _⟩ := cons_prefix_cons.mp hstart
    rfl
  rcases rule.isNumber hrule hc hhead with rfl | rfl | rfl | rfl
  · exact hdouble other hrule hstart
  · exact hreal other hrule hstart
  · obtain ⟨rest', hafter, rfl⟩ := h.uint hrule hstart
    rw [length_append]
    exact huint rest' hafter
  · exact Nat.le_trans (h.int hrule hstart) hint

/-- What is taken after a point: digits, an exponent, and the rest. -/
structure Decimals (rest fraction power tail : List Char) : Prop where
  split : rest = fraction ++ (power ++ tail)
  allDigits : ∀ d ∈ fraction, IsDigit d
  stops : StopsAt IsDigit (power ++ tail)
  isPower : power = [] ∨ power ∈ exponent
  taken : exponentLength (power ++ tail) = power.length

theorem exists_decimals (rest : List Char) :
    ∃ fraction power tail, Decimals rest fraction power tail := by
  have hsplit : rest = rest.takeWhile Char.isDigit ++ rest.dropWhile Char.isDigit :=
    takeWhile_append_dropWhile.symm
  have hfraction := mem_takeWhile @isDigit_iff rest
  have hstops := stopsAt_dropWhile @isDigit_iff rest
  rcases exponentLength_cases (rest.dropWhile Char.isDigit) with
    hnone | ⟨power, tail, hpower, hexponent, htail⟩
  · exact ⟨_, [], _, hsplit, hfraction, hstops, .inl rfl, hnone⟩
  · rw [hpower] at hsplit hstops
    exact ⟨_, power, tail, hsplit, hfraction, hstops, .inr hexponent,
      exponentLength_of_stopsAt hexponent htail⟩

section

variable {whole rest fraction power tail other : List Char}

theorem Decimals.matchReal (h : Decimals rest fraction power tail) (whole : List Char) :
    matchReal whole rest =
      if tail.head? = some 'd' then
        ⟨some (.literal (.double (realValue whole fraction power))),
          whole.length + 1 + fraction.length + power.length⟩
      else
        ⟨some (.literal (.float (realValue whole fraction power))),
          whole.length + 1 + fraction.length + power.length - 1⟩ := by
  have hfraction : rest.takeWhile Char.isDigit = fraction := by
    rw [h.split]
    exact takeWhile_run @isDigit_iff h.allDigits h.stops
  have hmore : rest.drop fraction.length = power ++ tail := by
    rw [h.split, drop_left]
  unfold Script.matchReal realValue
  simp only [hfraction, hmore, h.taken, take_left, drop_left]
  cases tail with
  | nil => rfl
  | cons c after =>
    by_cases hc : c = 'd'
    · subst hc
      rfl
    · rw [head?_cons, if_neg fun hsome => hc (Option.some.inj hsome)]
      split
      · next heq => exact absurd (List.cons.inj heq).1 hc
      · rfl

theorem Decimals.real (h : Decimals rest fraction power tail) (hwhole : Digits whole ('.' :: rest))
    (hother : other ∈ Pattern.real) (hstart : other <+: whole ++ '.' :: rest) :
    other.length ≤ (whole ++ '.' :: (fraction ++ power)).length := by
  obtain ⟨after, hafter⟩ := hstart
  obtain ⟨part, found, hrest, hpart, hfound, rfl⟩ := hwhole.real hother hafter
  have hsplit : part ++ (found ++ after) = fraction ++ (power ++ tail) :=
    (List.cons.inj hrest).2.symm.trans h.split
  have hle := length_le_fraction h.allDigits h.stops hpart hfound hsplit
  rw [h.taken] at hle
  simp only [length_append, length_cons] at hle ⊢
  omega

theorem Decimals.double (h : Decimals rest fraction power tail)
    (hwhole : Digits whole ('.' :: rest)) (hother : other ∈ Rule.double.language)
    (hstart : other <+: whole ++ '.' :: rest) :
    tail.head? = some 'd' ∧ other = whole ++ '.' :: (fraction ++ power) ++ ['d'] := by
  obtain ⟨n, hn, _, rfl, rfl⟩ := Language.mem_mul.mp hother
  obtain ⟨after, hafter⟩ := hstart
  rw [append_assoc] at hafter
  obtain ⟨part, found, hrest, hpart, hfound, rfl⟩ := hwhole.real hn hafter
  have hsplit : part ++ (found ++ 'd' :: after) = fraction ++ (power ++ tail) :=
    (List.cons.inj hrest).2.symm.trans h.split
  obtain ⟨rfl, hmore, hlen⟩ := eq_fraction h.allDigits h.stops hpart hfound
    (by decide) (by decide) hsplit
  rw [h.taken] at hlen
  obtain ⟨rfl, rfl⟩ := append_inj hmore hlen
  exact ⟨rfl, rfl⟩

end

theorem matchReal_correct {whole : List Char} (hwhole : whole ∈ digits) (rest : List Char) :
    (matchReal whole rest).Correct (whole ++ '.' :: rest) := by
  have hdigits : Digits whole ('.' :: rest) := by
    refine ⟨hwhole, fun c hc => ?_⟩
    rw [← Option.some.inj (Option.mem_def.mp hc)]
    decide
  obtain ⟨fraction, power, tail, h⟩ := exists_decimals rest
  have hreal : whole ++ '.' :: (fraction ++ power) ∈ Pattern.real :=
    mem_real.mpr ⟨whole, fraction, power, hwhole, h.allDigits, h.isPower, rfl⟩
  rw [h.matchReal whole]
  by_cases hd : tail.head? = some 'd'
  · obtain ⟨after, rfl⟩ : ∃ after, tail = 'd' :: after :=
      head?_eq_some_iff.mp hd
    rw [if_pos hd]
    refine ⟨whole ++ '.' :: (fraction ++ power) ++ ['d'], after, ?_, ?_, ?_, ?_⟩
    · rw [h.split]
      simp
    · simp only [length_append, length_cons, length_nil]
      omega
    · refine hdigits.longestMatch ?_ ?_ ?_ ?_ ?_ ?_
      · rw [h.split]
        simp
      · exact ⟨.double, Language.mem_mul.mpr ⟨_, hreal, _, rfl, rfl⟩⟩
      · simp
      · exact fun _ hu => absurd (List.cons.inj hu).1 (by decide)
      · intro other hother hstart
        refine Nat.le_trans (h.real hdigits hother hstart) ?_
        simp
      · intro other hother hstart
        rw [(h.double hdigits hother hstart).2]
    · exact .double hwhole h.allDigits h.isPower
  · rw [if_neg hd]
    refine ⟨whole ++ '.' :: (fraction ++ power), tail, ?_, ?_, ?_, ?_⟩
    · rw [h.split]
      simp
    · simp only [length_append, length_cons]
      omega
    · refine hdigits.longestMatch ?_ ⟨.float, hreal⟩ ?_ ?_ ?_ ?_
      · rw [h.split]
        simp
      · simp
      · exact fun _ hu => absurd (List.cons.inj hu).1 (by decide)
      · exact fun other hother hstart => h.real hdigits hother hstart
      · intro other hother hstart
        exact absurd (h.double hdigits hother hstart).1 hd
    · exact .float hwhole h.allDigits h.isPower

/-! ## Integers -/

/-- A longest match is a token if its value fits, and otherwise a fault. -/
theorem Piece.correct_ite {fits : Prop}
    [Decidable fits] {token : Token} {after : List Char} (hlongest : LongestMatch piece after)
    (hfits : fits → Spells piece token) (hover : ¬fits → Overflows piece) :
    Piece.Correct ⟨.ofToken? (if fits then some token else none), piece⟩ after := by
  by_cases h : fits
  · rw [if_pos h]
    exact ⟨hlongest, hfits h⟩
  · rw [if_neg h]
    exact .inr ⟨hlongest, hover h⟩

namespace Digits

variable {whole other rest : List Char}

theorem not_real (h : Digits whole after) (hpoint : after.head? ≠ some '.')
    (hother : other ∈ Pattern.real) : ¬other <+: whole ++ after := by
  rintro ⟨tail, htail⟩
  obtain ⟨part, power, rfl, _⟩ := h.real hother htail
  exact hpoint rfl

theorem not_double (h : Digits whole after) (hpoint : after.head? ≠ some '.')
    (hother : other ∈ Rule.double.language) : ¬other <+: whole ++ after := by
  obtain ⟨n, hn, suffix, _, rfl⟩ := Language.mem_mul.mp hother
  intro hstart
  have hnumber_start := (prefix_append n suffix).trans hstart
  exact h.not_real hpoint hn hnumber_start

theorem longestMatch_uint (h : Digits whole ('u' :: rest)) :
    LongestMatch (whole ++ ['u']) rest := by
  have hpoint : ('u' :: rest).head? ≠ some '.' := by simp
  refine h.longestMatch (by simp) ?_ (by simp) ?_ ?_ ?_
  · exact ⟨.uint, Language.mem_mul.mpr ⟨_, h.whole, _, rfl, rfl⟩⟩
  · exact fun _ _ => by simp
  · exact fun _ hother hstart => absurd hstart (h.not_real hpoint hother)
  · exact fun _ hother hstart => absurd hstart (h.not_double hpoint hother)

theorem longestMatch_int (h : Digits whole after)
    (hpoint : after.head? ≠ some '.') (hu : after.head? ≠ some 'u') : LongestMatch whole after := by
  refine h.longestMatch rfl ⟨.int, h.whole⟩ (Nat.le_refl _) ?_ ?_ ?_
  · rintro rest rfl
    exact absurd rfl hu
  · exact fun _ hother hstart => absurd hstart (h.not_real hpoint hother)
  · exact fun _ hother hstart => absurd hstart (h.not_double hpoint hother)

end Digits

theorem matchNumber_correct {c : Char} (hc : IsDigit c) (cs : List Char) :
    (matchNumber c cs).Correct (c :: cs) := by
  have hwhole : c :: cs.takeWhile Char.isDigit ∈ digits :=
    mem_digits.mpr ⟨cons_ne_nil _ _, forall_mem_cons.mpr ⟨hc, mem_takeWhile @isDigit_iff cs⟩⟩
  have hdigits : Digits (c :: cs.takeWhile Char.isDigit) (cs.dropWhile Char.isDigit) :=
    ⟨hwhole, stopsAt_dropWhile @isDigit_iff cs⟩
  have hsplit : c :: cs = c :: cs.takeWhile Char.isDigit ++ cs.dropWhile Char.isDigit := by
    rw [cons_append, takeWhile_append_dropWhile]
  have hdrop : cs.drop ((c :: cs.takeWhile Char.isDigit).length - 1) = cs.dropWhile Char.isDigit :=
    drop_takeWhile Char.isDigit cs
  unfold matchNumber
  simp only [hdrop]
  rw [hsplit]
  generalize c :: cs.takeWhile Char.isDigit = whole at *
  generalize cs.dropWhile Char.isDigit = after at *
  split
  · next rest => exact matchReal_correct hwhole rest
  · next rest =>
    refine ⟨whole ++ ['u'], rest, by simp, by simp, ?_⟩
    exact Piece.correct_ite hdigits.longestMatch_uint (.uint hwhole)
      fun hlarge => .uint hwhole (Nat.le_of_not_lt hlarge)
  · next hpoint hu =>
    have hlen : 0 < whole.length := length_pos_iff.mpr (mem_digits.mp hwhole).1
    refine ⟨whole, after, rfl, (Nat.sub_add_cancel hlen).symm, ?_⟩
    have hlongest : LongestMatch whole after := by
      apply hdigits.longestMatch_int
      · intro hhead
        obtain ⟨rest, rfl⟩ := head?_eq_some_iff.mp hhead
        exact hpoint rest rfl
      · intro hhead
        obtain ⟨rest, rfl⟩ := head?_eq_some_iff.mp hhead
        exact hu rest rfl
    exact Piece.correct_ite hlongest (.int hwhole)
      fun hlarge => .int hwhole (Nat.le_of_not_lt hlarge)

end KernelIL.Script
