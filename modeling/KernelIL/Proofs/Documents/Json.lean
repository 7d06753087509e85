import KernelIL.Json.Reader
import KernelIL.Proofs.Printing.Lexemes

/-!
# Reading written JSON

A written value is read back.  The text is cut into the tokens of the value,
since the blanks between them are skipped, an escaped character is read as the
character that it stands for, and a numeral ends in front of a comma or the end
of a line.  From the tokens the value is read back, since every value tells by
its first token what it is.
-/

namespace KernelIL.Json

open List

variable {c : Char} {text rest : List Char} {json first : Json}
variable {items : List Json} {members : List (Option String × Json)}

/-! ## Values that are written -/

/-- Values with natural numbers for numbers and texts for strings. -/
inductive Plain : Json → Prop
  | null : Plain .null
  | bool (value : Bool) : Plain (.bool value)
  | ofNat (n : Nat) : Plain (.ofNat n)
  | ofString (text : String) : Plain (.ofString text)
  | array {items : List Json} : (∀ item ∈ items, Plain item) → Plain (.array items)
  | record {fields : List (String × Json)} :
      (∀ field ∈ fields, Plain field.2) → Plain (.record fields)

mutual

def tokens : Json → List JsonToken
  | null => [.null]
  | bool v => [.bool v]
  | number numeral => [.number numeral]
  | string text => [.string text]
  | array [] => [.leftBracket, .rightBracket]
  | array (first :: rest) => .leftBracket :: tokens first ++ itemTokens rest ++ [.rightBracket]
  | object [] => [.leftBrace, .rightBrace]
  | object ((key, first) :: rest) =>
    .leftBrace :: .string key :: .colon :: tokens first ++ memberTokens rest ++ [.rightBrace]

def itemTokens : List Json → List JsonToken
  | [] => []
  | first :: rest => .comma :: tokens first ++ itemTokens rest

def memberTokens : List (Option String × Json) → List JsonToken
  | [] => []
  | (key, first) :: rest => .comma :: .string key :: .colon :: tokens first ++ memberTokens rest

end

/-! ## Strings -/

/-- The item that a written character is read as: a unit if it is a control
character without a letter of its own. -/
def itemOf (c : Char) : StringItem :=
  if c.toNat < 0x20 ∧ c ∉ ['\x08', '\x0c', '\n', '\r', '\t'] then .unit c.toNat
  else .char c

theorem hexUnit_read : ∀ n < 0x20,
    hexUnit n = ['0', '0', Nat.digitChar (n / 16), Nat.digitChar (n % 16)] ∧
      hexUnit? '0' '0' (Nat.digitChar (n / 16)) (Nat.digitChar (n % 16)) = some n := by
  decide

theorem readItems_letter {letter : Char} (h : unescape? letter = some c)
    (hunit : letter ≠ 'u') (text : List Char) : readItems ('\\' :: letter :: text) =
    (readItems text).map fun read => (.char c :: read.1, read.2) := by
  rw [readItems]
  · rw [h]
    cases readItems text <;> rfl
  · intro _ _ _ _ _ heq
    exact absurd heq hunit

theorem readItems_unit (h : c.toNat < 0x20) (text : List Char) :
    readItems ('\\' :: 'u' :: hexUnit c.toNat ++ text) =
      (readItems text).map fun read => (.unit c.toNat :: read.1, read.2) := by
  obtain ⟨hdigits, hv⟩ := hexUnit_read c.toNat h
  rw [hdigits]
  simp only [cons_append, nil_append]
  rw [readItems, hv]
  cases readItems text <;> rfl

theorem readItems_char (hquote : c ≠ '"') (hslash : c ≠ '\\')
    (h : ¬c.toNat < 0x20) (text : List Char) :
    readItems (c :: text) = (readItems text).map fun read => (.char c :: read.1, read.2) := by
  rw [readItems]
  · simp [hslash, h]
  · exact hquote
  · intro a b e d more hc
    exact absurd hc hslash
  · intro letter more hc
    exact absurd hc hslash

/-- A written character is read as one item. -/
theorem readItems_escape (c : Char) (text : List Char) : readItems (escape c ++ text) =
    (readItems text).map fun read => (itemOf c :: read.1, read.2) := by
  by_cases hletter : c ∈ ['"', '\\', '\x08', '\x0c', '\n', '\r', '\t']
  · simp only [mem_cons, not_mem_nil, or_false] at hletter
    rcases hletter with rfl | rfl | rfl | rfl | rfl | rfl | rfl
    all_goals exact readItems_letter rfl (by decide) text
  · simp only [mem_cons, not_mem_nil, or_false, not_or] at hletter
    obtain ⟨hquote, hslash, hb, hf, hn, hr, ht⟩ := hletter
    unfold escape itemOf
    simp only [hquote, hslash, hb, hf, hn, hr, ht, if_false]
    by_cases hcontrol : c.toNat < 0x20
    · simp only [if_pos hcontrol]
      rw [if_pos ⟨hcontrol, by simp [hb, hf, hn, hr, ht]⟩]
      exact readItems_unit hcontrol text
    · simp only [if_neg hcontrol]
      rw [if_neg fun h => hcontrol h.1]
      exact readItems_char hquote hslash hcontrol text

theorem readItems_quoted (text rest : List Char) :
    readItems (text.flatMap escape ++ '"' :: rest) = some (text.map itemOf, rest) := by
  induction text with
  | nil => simp [readItems]
  | cons c text ih =>
    rw [List.flatMap_cons, List.append_assoc, readItems_escape, ih]
    rfl

variable {n : Nat}

/-- A control character is no half of a pair. -/
theorem spell?_unit (h : n < 0x20) (items : List StringItem) :
    spell? (.unit n :: items) = (spell? items).map (Char.ofNat n :: ·) := by
  have hhigh : ¬0xD800 ≤ n := by omega
  have hlow : ¬0xDC00 ≤ n := by omega
  cases items with
  | nil => simp [spell?, hhigh]
  | cons item rest =>
    cases item with
    | char c => simp [spell?, hhigh]
    | unit low => simp [spell?, hhigh, hlow]

theorem spell?_map_itemOf (text : List Char) : spell? (text.map itemOf) = some text := by
  induction text with
  | nil => rfl
  | cons c text ih =>
    by_cases hunit : c.toNat < 0x20 ∧ c ∉ ['\x08', '\x0c', '\n', '\r', '\t']
    · have hitem : itemOf c = .unit c.toNat := if_pos hunit
      rw [List.map_cons, hitem, spell?_unit hunit.1, ih, Char.ofNat_toNat]
      rfl
    · have hitem : itemOf c = .char c := if_neg hunit
      rw [List.map_cons, hitem, spell?, ih]
      rfl

/-! ## Tokens -/

theorem tokens?_space (rest : List Char) : tokens? (' ' :: rest) = tokens? rest := by
  rw [tokens?]
  · rfl
  all_goals simp

theorem tokens?_newLine (level : Nat) (rest : List Char) :
    tokens? (newLine level ++ rest) = tokens? rest := by
  have hspaces : ∀ count, tokens? (List.replicate count ' ' ++ rest) = tokens? rest := by
    intro count
    induction count with
    | zero => rfl
    | succ count ih => rw [List.replicate_succ, List.cons_append, tokens?_space, ih]
  unfold newLine
  rw [List.cons_append, tokens?]
  · exact hspaces (2 * level)
  all_goals simp

theorem tokens?_quoted (text : String) (rest : List Char) :
    tokens? (quoted text ++ rest) = (tokens? rest).map (.string (some text) :: ·) := by
  unfold quoted
  simp only [List.cons_append, List.append_assoc, List.nil_append]
  rw [tokens?]
  split
  · next items after h =>
    rw [readItems_quoted] at h
    cases h
    rw [spell?_map_itemOf, Option.map_some, String.ofList_toList]
  · next h =>
    rw [readItems_quoted] at h
    cases h

/-- What follows a written value: nothing, a comma or the end of a line. -/
def Delimited (rest : List Char) : Prop :=
  ∀ c ∈ rest.head?, c = ',' ∨ c = '\n'

theorem Delimited.stops (h : Delimited rest) : rest.takeWhile Char.isDigit = [] ∧
    fractionLength? rest = some 0 ∧ exponentLength? rest = some 0 := by
  cases rest with
  | nil => exact ⟨rfl, rfl, rfl⟩
  | cons c rest =>
    rcases h c rfl with rfl | rfl
    · exact ⟨rfl, rfl, rfl⟩
    · exact ⟨rfl, rfl, rfl⟩

variable {digits : List Char}

/-- No numeral of a number but zero starts with a zero. -/
theorem eq_nil_of_toDigits (h : Nat.toDigits 10 n = '0' :: digits) : digits = [] := by
  induction n using Nat.strongRecOn generalizing digits with
  | ind n ih =>
    by_cases hsmall : n < 10
    · rw [Nat.toDigits_of_lt_base hsmall] at h
      exact (List.cons.inj h).2.symm
    · have hle : 10 ≤ n := Nat.not_lt.mp hsmall
      rw [Nat.toDigits_of_base_le (by decide) hle] at h
      obtain ⟨c, cs, htens, _, _, hv⟩ := Script.exists_digits (n / 10)
      rw [htens, List.cons_append] at h
      obtain ⟨rfl, _⟩ := List.cons.inj h
      obtain rfl := ih (n / 10) (by omega) htens
      have hzero : Decimal.ofDigits ['0'] = 0 := rfl
      omega

theorem numeralLength?_digits (h : Nat.toDigits 10 n = c :: digits) (hrest : Delimited rest) :
    numeralLength? (c :: digits ++ rest) = some (digits.length + 1) := by
  obtain ⟨d, ds, hdigits, hd, hds, _⟩ := Script.exists_digits n
  obtain ⟨rfl, rfl⟩ := List.cons.inj (h.symm.trans hdigits)
  obtain ⟨htake, hfraction, hexponent⟩ := hrest.stops
  have hcount : digitCount (c :: digits ++ rest) = digits.length + 1 := by
    unfold digitCount
    rw [List.takeWhile_append_of_pos (List.forall_mem_cons.mpr ⟨hd, hds⟩), htake,
      List.append_nil, List.length_cons]
  have hwhole : wholeLength? (c :: digits ++ rest) = some (digits.length + 1) := by
    by_cases hzero : c = '0'
    · subst hzero
      rw [eq_nil_of_toDigits h]
      rfl
    · rw [List.cons_append] at hcount ⊢
      rw [wholeLength?, hcount]
      · rfl
      · intro more heq
        exact hzero (List.cons.inj heq).1
  have hdrop : (c :: digits ++ rest).drop (digits.length + 1) = rest := List.drop_left
  have hunsigned : unsignedLength? (c :: digits ++ rest) = some (digits.length + 1) := by
    unfold unsignedLength?
    simp only [hwhole, hdrop, hfraction, hexponent, Option.bind_eq_bind,
      Option.bind_some, Nat.add_zero]
    rfl
  have hsign : c ≠ '-' := by
    rintro rfl
    cases hd
  rw [List.cons_append] at hunsigned ⊢
  rw [numeralLength?, hunsigned]
  intro more heq
  exact hsign (List.cons.inj heq).1

theorem tokens?_number (n : Nat) (hrest : Delimited rest) :
    tokens? ((toString n).toList ++ rest) = (tokens? rest).map (.number (toString n) :: ·) := by
  obtain ⟨c, cs, hdigits, hc, hcs, _⟩ := Script.exists_digits n
  have htext : (toString n).toList = c :: cs := Nat.toList_repr.trans hdigits
  have hlen := numeralLength?_digits hdigits hrest
  have hne : ∀ d : Char, d.isDigit = false → c ≠ d := by
    rintro d hd rfl
    rw [hc] at hd
    cases hd
  have hgap : isGap c = false := by
    simp [isGap, hne ' ' rfl, hne '\t' rfl, hne '\n' rfl, hne '\r' rfl]
  rw [htext, List.cons_append, tokens?]
  · have htake : (c :: cs ++ rest).take (cs.length + 1) = c :: cs := by simp
    have hdrop : (cs ++ rest).drop (cs.length + 1 - 1) = rest := List.drop_left
    rw [hgap, ← List.cons_append, hlen]
    simp only [Bool.false_eq_true, if_false, htake, hdrop]
    rw [← htext, String.ofList_toList]
  · exact hne '[' rfl
  · exact hne ']' rfl
  · exact hne '\x7b' rfl
  · exact hne '\x7d' rfl
  · exact hne ',' rfl
  · exact hne ':' rfl
  · exact fun _ hn _ => hne 'n' rfl hn
  · exact fun _ ht _ => hne 't' rfl ht
  · exact fun _ hf _ => hne 'f' rfl hf
  · exact hne '"' rfl

def TokensRead (json : Json) : Prop :=
  ∀ level rest, Delimited rest →
    tokens? (json.render level ++ rest) = (tokens? rest).map (json.tokens ++ ·)

theorem delimited_newLine (level : Nat) (rest : List Char) : Delimited (newLine level ++ rest) := by
  intro c hc
  exact .inr (Option.some.inj (Option.mem_def.mp hc)).symm

theorem delimited_renderItems (level : Nat) (items : List Json)
    (h : Delimited rest) : Delimited (renderItems level items ++ rest) := by
  cases items with
  | nil => exact h
  | cons first others =>
    intro c hc
    exact .inl (Option.some.inj (Option.mem_def.mp hc)).symm

theorem delimited_renderMembers (level : Nat) (members : List (Option String × Json))
    (h : Delimited rest) : Delimited (renderMembers level members ++ rest) := by
  cases members with
  | nil => exact h
  | cons first others =>
    intro c hc
    exact .inl (Option.some.inj (Option.mem_def.mp hc)).symm

theorem tokens?_comma (rest : List Char) :
    tokens? (',' :: rest) = (tokens? rest).map (.comma :: ·) := by
  rw [tokens?]

theorem tokens?_key (key : String) (rest : List Char) :
    tokens? (quoted key ++ ':' :: ' ' :: rest) =
      (tokens? rest).map (.string (some key) :: .colon :: ·) := by
  rw [tokens?_quoted, tokens?, tokens?_space, Option.map_map]
  rfl

theorem tokens?_renderItems (h : ∀ item ∈ items, item.TokensRead)
    (level : Nat) (hrest : Delimited rest) :
    tokens? (renderItems level items ++ rest) = (tokens? rest).map (itemTokens items ++ ·) := by
  induction items with
  | nil => simp [renderItems, itemTokens]
  | cons first others ih =>
    obtain ⟨hfirst, hothers⟩ := forall_mem_cons.mp h
    have hnext := delimited_renderItems level others hrest
    simp only [renderItems, itemTokens, cons_append, append_assoc]
    rw [tokens?_comma, tokens?_newLine, hfirst level _ hnext, ih hothers]
    simp only [Option.map_map, Function.comp_def]

variable {fields : List (String × Json)}

theorem tokens?_renderMembers
    (h : ∀ field ∈ fields, field.2.TokensRead) (level : Nat) (hrest : Delimited rest) :
    tokens? (renderMembers level (fields.map fun field => (some field.1, field.2)) ++ rest) =
      (tokens? rest).map (memberTokens (fields.map fun field => (some field.1, field.2)) ++ ·) := by
  induction fields with
  | nil => simp [renderMembers, memberTokens]
  | cons first others ih =>
    obtain ⟨hfirst, hothers⟩ := forall_mem_cons.mp h
    have hnext := delimited_renderMembers level
      (others.map fun field => (some field.1, field.2)) hrest
    simp only [map_cons, renderMembers, memberTokens, cons_append,
      append_assoc, nil_append, Option.getD_some]
    rw [tokens?_comma, tokens?_newLine, tokens?_key, hfirst level _ hnext, ih hothers]
    simp only [Option.map_map, Function.comp_def]

theorem tokensRead_array (h : ∀ item ∈ items, item.TokensRead) : (array items).TokensRead := by
  intro level rest hrest
  cases items with
  | nil =>
    simp only [render, tokens, cons_append, nil_append]
    rw [tokens?, tokens?, Option.map_map]
    rfl
  | cons first others =>
    obtain ⟨hfirst, hothers⟩ := forall_mem_cons.mp h
    have hend := delimited_newLine level (']' :: rest)
    have hnext := delimited_renderItems (level + 1) others hend
    simp only [render, tokens, cons_append, append_assoc, nil_append]
    rw [tokens?, tokens?_newLine, hfirst (level + 1) _ hnext,
      tokens?_renderItems hothers (level + 1) hend, tokens?_newLine, tokens?]
    simp only [Option.map_map, Function.comp_def]

theorem tokensRead_record
    (h : ∀ field ∈ fields, field.2.TokensRead) : (record fields).TokensRead := by
  intro level rest hrest
  unfold record
  cases fields with
  | nil =>
    simp only [map_nil, render, tokens, cons_append, nil_append]
    rw [tokens?, tokens?, Option.map_map]
    rfl
  | cons first others =>
    obtain ⟨hfirst, hothers⟩ := forall_mem_cons.mp h
    have hend := delimited_newLine level ('\x7d' :: rest)
    have hnext := delimited_renderMembers (level + 1)
      (others.map fun field => (some field.1, field.2)) hend
    simp only [map_cons, render, tokens, cons_append, append_assoc, nil_append, Option.getD_some]
    rw [tokens?, tokens?_newLine, tokens?_key, hfirst (level + 1) _ hnext,
      tokens?_renderMembers hothers (level + 1) hend, tokens?_newLine, tokens?]
    simp only [Option.map_map, Function.comp_def]

theorem Plain.tokensRead (h : json.Plain) : json.TokensRead := by
  induction h with
  | null =>
    intro level rest _
    change tokens? ('n' :: 'u' :: 'l' :: 'l' :: rest) = _
    rw [tokens?]
    rfl
  | bool v =>
    intro level rest _
    cases v with
    | true =>
      change tokens? ('t' :: 'r' :: 'u' :: 'e' :: rest) = _
      rw [tokens?]
      rfl
    | false =>
      change tokens? ('f' :: 'a' :: 'l' :: 's' :: 'e' :: rest) = _
      rw [tokens?]
      rfl
  | ofNat n => exact fun level rest hrest => tokens?_number n hrest
  | ofString text => exact fun level rest _ => tokens?_quoted text rest
  | array _ ih => exact tokensRead_array ih
  | record _ ih => exact tokensRead_record ih

/-! ## Values -/

def ValueRead (json : Json) : Prop :=
  ∀ rest, ∃ shorter, readValue (json.tokens ++ rest) = some ⟨json, rest, shorter⟩

/-- No value starts with a closing bracket. -/
theorem tokens_starts (json : Json) :
    ∃ token others, json.tokens = token :: others ∧ token ≠ .rightBracket := by
  cases json with
  | array items =>
    cases items with
    | nil | cons first others => exact ⟨_, _, rfl, by simp⟩
  | object members =>
    cases members with
    | nil | cons first others => exact ⟨_, _, rfl, by simp⟩
  | _ => exact ⟨_, _, rfl, by simp⟩

theorem readArray_items (hfirst : first.ValueRead)
    (h : ∀ item ∈ items, item.ValueRead) (rest : List JsonToken) :
    ∃ shorter, readArray (first.tokens ++ (itemTokens items ++ .rightBracket :: rest)) =
      some ⟨first :: items, rest, shorter⟩ := by
  induction items generalizing first with
  | nil =>
    obtain ⟨_, hread⟩ := hfirst (.rightBracket :: rest)
    rw [itemTokens, nil_append, readArray, hread]
    exact ⟨_, rfl⟩
  | cons second others ih =>
    obtain ⟨hsecond, hothers⟩ := forall_mem_cons.mp h
    obtain ⟨_, hread⟩ := hfirst
      (.comma :: (second.tokens ++ (itemTokens others ++ .rightBracket :: rest)))
    obtain ⟨_, hitems⟩ := ih hsecond hothers
    have hts : itemTokens (second :: others) ++ .rightBracket :: rest =
        .comma :: (second.tokens ++ (itemTokens others ++ .rightBracket :: rest)) := by
      simp [itemTokens]
    rw [hts, readArray, hread]
    dsimp only
    rw [hitems]
    exact ⟨_, rfl⟩

theorem readObject_members {key : Option String} (hfirst : first.ValueRead)
    (h : ∀ member ∈ members, member.2.ValueRead) (rest : List JsonToken) :
    ∃ shorter, readObject (.string key :: .colon ::
        (first.tokens ++ (memberTokens members ++ .rightBrace :: rest))) =
      some ⟨(key, first) :: members, rest, shorter⟩ := by
  induction members generalizing key first with
  | nil =>
    obtain ⟨_, hread⟩ := hfirst (.rightBrace :: rest)
    rw [memberTokens, nil_append, readObject, hread]
    exact ⟨_, rfl⟩
  | cons second others ih =>
    obtain ⟨name, v⟩ := second
    obtain ⟨hsecond, hothers⟩ := forall_mem_cons.mp h
    obtain ⟨_, hread⟩ := hfirst (.comma :: .string name :: .colon ::
      (v.tokens ++ (memberTokens others ++ .rightBrace :: rest)))
    obtain ⟨_, hmembers⟩ := @ih v name hsecond hothers
    have hts : memberTokens ((name, v) :: others) ++ .rightBrace :: rest =
        .comma :: .string name :: .colon ::
          (v.tokens ++ (memberTokens others ++ .rightBrace :: rest)) := by
      simp [memberTokens]
    rw [hts, readObject, hread]
    dsimp only
    rw [hmembers]
    exact ⟨_, rfl⟩

theorem valueRead_array (h : ∀ item ∈ items, item.ValueRead) : (array items).ValueRead := by
  intro rest
  cases items with
  | nil =>
    have hts : (array []).tokens ++ rest = .leftBracket :: .rightBracket :: rest := by
      simp [tokens]
    rw [hts, readValue]
    exact ⟨_, rfl⟩
  | cons first others =>
    obtain ⟨hfirst, hothers⟩ := forall_mem_cons.mp h
    obtain ⟨_, hitems⟩ := readArray_items hfirst hothers rest
    obtain ⟨token, more, hstart, hbracket⟩ := tokens_starts first
    have hts : (array (first :: others)).tokens ++ rest =
        .leftBracket :: (first.tokens ++ (itemTokens others ++ .rightBracket :: rest)) := by
      simp [tokens]
    rw [hts, readValue, hitems]
    · exact ⟨_, rfl⟩
    · intro tail heq
      rw [hstart, cons_append] at heq
      exact hbracket (List.cons.inj heq).1

theorem valueRead_object (h : ∀ member ∈ members, member.2.ValueRead) :
    (object members).ValueRead := by
  intro rest
  cases members with
  | nil =>
    have hts : (object []).tokens ++ rest = .leftBrace :: .rightBrace :: rest := by
      simp [tokens]
    rw [hts, readValue]
    exact ⟨_, rfl⟩
  | cons first others =>
    obtain ⟨key, v⟩ := first
    obtain ⟨hfirst, hothers⟩ := forall_mem_cons.mp h
    obtain ⟨_, hmembers⟩ := @readObject_members v others key hfirst hothers rest
    have hts : (object ((key, v) :: others)).tokens ++ rest =
        .leftBrace :: .string key :: .colon ::
          (v.tokens ++ (memberTokens others ++ .rightBrace :: rest)) := by
      simp [tokens]
    rw [hts, readValue, hmembers]
    · exact ⟨_, rfl⟩
    · intro tail heq
      cases heq

theorem Plain.valueRead (h : json.Plain) : json.ValueRead := by
  induction h with
  | null =>
    intro rest
    change ∃ shorter, readValue (.null :: rest) = some ⟨.null, rest, shorter⟩
    rw [readValue]
    exact ⟨_, rfl⟩
  | bool v =>
    intro rest
    change ∃ shorter, readValue (.bool v :: rest) = some ⟨.bool v, rest, shorter⟩
    rw [readValue]
    exact ⟨_, rfl⟩
  | ofNat n =>
    intro rest
    change ∃ shorter, readValue (.number (toString n) :: rest) =
      some ⟨.number (toString n), rest, shorter⟩
    rw [readValue]
    exact ⟨_, rfl⟩
  | ofString text =>
    intro rest
    change ∃ shorter, readValue (.string (some text) :: rest) =
      some ⟨.string (some text), rest, shorter⟩
    rw [readValue]
    exact ⟨_, rfl⟩
  | array _ ih => exact valueRead_array ih
  | @record fields _ ih =>
    apply valueRead_object
    intro member hmember
    obtain ⟨field, hfield, rfl⟩ := mem_map.mp hmember
    exact ih field hfield

/-- A written value is read back. -/
theorem Plain.parse?_text (h : json.Plain) : parse? json.text = some json := by
  have hdelimited : Delimited [] := by
    intro c hc
    cases hc
  have hts : tokens? (json.render 0) = some (json.tokens ++ []) := by
    have hread := h.tokensRead 0 [] hdelimited
    rw [append_nil, tokens?] at hread
    exact hread
  obtain ⟨_, hv⟩ := h.valueRead []
  rw [parse?, text, String.toList_ofList, hts, Option.bind_eq_bind, Option.bind_some, hv]
  rfl

end KernelIL.Json
