import FlowTyping.Json.Token

/-!
The spelling of tokens is scanned back. A numeral is recognised where nothing follows that would
extend it; every other token ends by itself.
-/

namespace FlowTyping

/-- The numerals that have a spelling in the grammar: digits below ten, and no zero in front of
other digits. -/
structure Numeral.WellFormed (n : Numeral) : Prop where
  whole_ne_nil : n.whole ≠ []
  whole_lt : ∀ d ∈ n.whole, d < 10
  leading : n.whole.head? = some 0 → n.whole = [0]
  fraction_lt : ∀ d ∈ n.fraction, d < 10

theorem Numeral.ofDigits_digitsOf (n : Nat) : Numeral.ofDigits (Numeral.digitsOf n) = n := by
  rw [Numeral.ofDigits, Numeral.digitsOf, List.foldl_map]
  exact Nat.ofDigitChars_ten_toDigits

namespace Json

namespace Token

theorem isDigit_digitChar : ∀ d < 10, isDigit (Nat.digitChar d) = true := by decide

/-- No digit of a numeral can follow. -/
def EndsDigits (rest : List Char) : Prop := ∀ c ∈ rest.head?, isDigit c = false

/-- No part of a numeral can follow. -/
def EndsNumeral (rest : List Char) : Prop :=
  ∀ c ∈ rest.head?, isDigit c = false ∧ c ≠ '.' ∧ c ≠ 'e' ∧ c ≠ 'E'

theorem EndsNumeral.digits {rest : List Char} (h : EndsNumeral rest) : EndsDigits rest :=
  fun c hc => (h c hc).1

section Digits

variable {digits : List Nat} {rest : List Char}

theorem all_isDigit (hlt : ∀ d ∈ digits, d < 10) :
    ∀ c ∈ Numeral.digitText digits, isDigit c = true := by
  intro c hc
  obtain ⟨d, hd, rfl⟩ := List.mem_map.mp hc
  exact isDigit_digitChar d (hlt d hd)

theorem digitValues_digitText (hlt : ∀ d ∈ digits, d < 10) :
    digitValues (Numeral.digitText digits) = digits := by
  simp only [digitValues, Numeral.digitText, List.map_map]
  conv => rhs; rw [← List.map_id digits]
  refine List.map_congr_left fun d hd => ?_
  exact Nat.toNat_digitChar_sub_48_of_lt_ten (hlt d hd)

theorem EndsDigits.takeWhile (h : EndsDigits rest) : rest.takeWhile isDigit = [] := by
  cases rest with
  | nil => rfl
  | cons c more => simp [h c rfl]

theorem EndsDigits.dropWhile (h : EndsDigits rest) : rest.dropWhile isDigit = rest := by
  cases rest with
  | nil => rfl
  | cons c more => simp [h c rfl]

theorem readDigits_append {cs : List Char} (hne : cs ≠ []) (hall : ∀ c ∈ cs, isDigit c = true)
    (hrest : EndsDigits rest) : readDigits (cs ++ rest) = some (digitValues cs, rest) := by
  have htake : (cs ++ rest).takeWhile isDigit = cs := by
    rw [List.takeWhile_append_of_pos hall, hrest.takeWhile, List.append_nil]
  have hdrop : (cs ++ rest).dropWhile isDigit = rest := by
    rw [List.dropWhile_append_of_pos hall, hrest.dropWhile]
  unfold readDigits
  rw [htake, hdrop]
  split
  · exact absurd rfl hne
  · rfl

theorem readDigits_digitText (hne : digits ≠ []) (hlt : ∀ d ∈ digits, d < 10)
    (hrest : EndsDigits rest) :
    readDigits (Numeral.digitText digits ++ rest) = some (digits, rest) := by
  have hnil : Numeral.digitText digits ≠ [] := fun h => hne (List.map_eq_nil_iff.mp h)
  rw [readDigits_append hnil (all_isDigit hlt) hrest, digitValues_digitText hlt]

theorem readWhole_digitText (hne : digits ≠ []) (hlt : ∀ d ∈ digits, d < 10)
    (hleading : digits.head? = some 0 → digits = [0]) (hrest : EndsDigits rest) :
    readWhole (Numeral.digitText digits ++ rest) = some (digits, rest) := by
  cases digits with
  | nil => exact absurd rfl hne
  | cons d more =>
      by_cases hd : d = 0
      · subst hd
        obtain rfl : more = [] := List.cons.inj (hleading rfl) |>.2
        rfl
      · unfold readWhole
        split
        · rename_i heq
          have hchar : Nat.digitChar d = '0' := (List.cons.inj heq).1
          exact absurd (Nat.digitChar_eq_zero.mp hchar) hd
        · exact readDigits_digitText hne hlt hrest

/-- The digits after the point as they are spelled. -/
def fractionText : List Nat → List Char
  | [] => []
  | digits => '.' :: Numeral.digitText digits

theorem readFraction_text (hlt : ∀ d ∈ digits, d < 10) (hrest : EndsDigits rest)
    (hpoint : ∀ c ∈ rest.head?, c ≠ '.') :
    readFraction (fractionText digits ++ rest) = some (digits, rest) := by
  cases digits with
  | nil =>
      show readFraction rest = some ([], rest)
      unfold readFraction
      split
      · exact absurd rfl (hpoint '.' rfl)
      · rfl
  | cons d more => exact readDigits_digitText (List.cons_ne_nil d more) hlt hrest

end Digits

theorem isDigit_of_mem_toDigits {n : Nat} {c : Char} (hc : c ∈ Nat.toDigits 10 n) :
    isDigit c = true := by
  have hdigit := Nat.isDigit_of_mem_toDigits (by decide) (by decide) hc
  simpa [Char.isDigit, isDigit, Char.le_def] using hdigit

/-- The exponent as it is spelled. -/
def exponentText : Option Int → List Char
  | none => []
  | some e => 'e' :: (if e < 0 then ['-'] else []) ++ Nat.toDigits 10 e.natAbs

section Numerals

variable {rest : List Char} {e : Option Int} {n : Numeral}

theorem EndsNumeral.head_exponentText (hrest : EndsNumeral rest) :
    ∀ c ∈ (exponentText e ++ rest).head?, isDigit c = false ∧ c ≠ '.' := by
  intro c hc
  cases e with
  | none => exact ⟨(hrest c hc).1, (hrest c hc).2.1⟩
  | some e =>
      obtain rfl : 'e' = c := Option.some.inj hc
      decide

theorem readExponent_exponentText (hrest : EndsNumeral rest) :
    readExponent (exponentText e ++ rest) = some (e, rest) := by
  cases e with
  | none =>
      cases rest with
      | nil => rfl
      | cons c more =>
          obtain ⟨-, -, hlower, hupper⟩ := hrest c rfl
          simp [exponentText, readExponent, hlower, hupper]
  | some e =>
      have hdigits : readDigits (Nat.toDigits 10 e.natAbs ++ rest) =
          some (Numeral.digitsOf e.natAbs, rest) :=
        readDigits_append Nat.toDigits_ne_nil (fun c => isDigit_of_mem_toDigits) hrest.digits
      by_cases hneg : e < 0
      · have habs : -((Numeral.ofDigits (Numeral.digitsOf e.natAbs) : Nat) : Int) = e := by
          rw [Numeral.ofDigits_digitsOf]
          omega
        simp [exponentText, readExponent, hneg, hdigits, habs]
      · obtain ⟨c, cs, hcs⟩ := List.exists_cons_of_ne_nil
          (Nat.toDigits_ne_nil (n := e.natAbs) (b := 10))
        have hc : isDigit c = true := isDigit_of_mem_toDigits (hcs ▸ List.mem_cons_self)
        have hminus : c ≠ '-' := fun h => absurd (h ▸ hc) (by decide)
        have hplus : c ≠ '+' := fun h => absurd (h ▸ hc) (by decide)
        have habs : ((Numeral.ofDigits (Numeral.digitsOf e.natAbs) : Nat) : Int) = e := by
          rw [Numeral.ofDigits_digitsOf]
          omega
        rw [hcs] at hdigits
        rw [List.cons_append] at hdigits
        simp [exponentText, readExponent, hneg, hcs, hminus, hplus, hdigits, habs]

theorem readNumeral_text (hn : n.WellFormed) (hrest : EndsNumeral rest) :
    readNumeral n.negative (Numeral.digitText n.whole ++
      (fractionText n.fraction ++ (exponentText n.exponent ++ rest))) = some (n, rest) := by
  have hexponent := readExponent_exponentText (e := n.exponent) hrest
  have hhead := hrest.head_exponentText (e := n.exponent)
  have hfraction := readFraction_text hn.fraction_lt (fun c hc => (hhead c hc).1)
    (fun c hc => (hhead c hc).2)
  have hends : EndsDigits (fractionText n.fraction ++ (exponentText n.exponent ++ rest)) := by
    cases n.fraction with
    | nil => exact fun c hc => (hhead c hc).1
    | cons d more =>
        intro c hc
        obtain rfl : '.' = c := Option.some.inj hc
        decide
  have hwhole := readWhole_digitText hn.whole_ne_nil hn.whole_lt hn.leading hends
  simp only [readNumeral, hwhole, hfraction, hexponent, Option.bind_eq_bind, Option.bind_some]
  rfl

end Numerals

section Texts

attribute [local simp] readParts joinParts

theorem hexDigit?_digitChar : ∀ d < 16, hexDigit? (Nat.digitChar d) = some d := by decide

theorem hexUnit?_digitChar {n : Nat} (hn : n < 32) :
    hexUnit? '0' '0' (Nat.digitChar (n / 16)) (Nat.digitChar (n % 16)) = some n := by
  have hhigh := hexDigit?_digitChar (n / 16) (by omega)
  have hlow := hexDigit?_digitChar (n % 16) (by omega)
  have hzero : hexDigit? '0' = some 0 := rfl
  simp only [hexUnit?, hzero, hhigh, hlow, Option.bind_eq_bind, Option.bind_some, Option.pure_def,
    Option.some.injEq]
  omega

/-- What an escaped character is read as. -/
def partOf (c : Char) : Part :=
  if c.toNat < 0x20 ∧ c ∉ ['\x08', '\x0c', '\n', '\r', '\t'] then .unit c.toNat else .char c

theorem readParts_escaped {c d : Char} (rest : List Char) (hd : d ≠ 'u')
    (hc : escaped? d = some c) :
    readParts ('\\' :: d :: rest) = (readParts rest).map fun r => (.char c :: r.1, r.2) := by
  rw [readParts, hc]
  · cases readParts rest with
    | none => rfl
    | some r => rfl
  · intro a b c e rest h
    exact absurd h hd

theorem readParts_unit {n : Nat} (hn : n < 32) (rest : List Char) :
    readParts
        ('\\' :: 'u' :: '0' :: '0' :: Nat.digitChar (n / 16) :: Nat.digitChar (n % 16) :: rest) =
      (readParts rest).map fun r => (.unit n :: r.1, r.2) := by
  rw [readParts, hexUnit?_digitChar hn]
  cases readParts rest with
  | none => rfl
  | some r => rfl

theorem readParts_plain {c : Char} (rest : List Char) (hquote : c ≠ '"') (hslash : c ≠ '\\')
    (hc : ¬ c.toNat < 0x20) :
    readParts (c :: rest) = (readParts rest).map fun r => (.char c :: r.1, r.2) := by
  rw [readParts]
  · simp only [hc, hslash, decide_false, Bool.or_self, Bool.false_eq_true, if_false]
    cases readParts rest with
    | none => rfl
    | some r => rfl
  · exact hquote
  · intro a b c e rest h
    exact absurd h hslash
  · intro d rest h
    exact absurd h hslash

theorem readParts_escapeChar (c : Char) (rest : List Char) :
    readParts (escapeChar c ++ rest) = (readParts rest).map fun r => (partOf c :: r.1, r.2) := by
  unfold escapeChar
  split
  · rename_i h
    subst h
    exact readParts_escaped rest (by decide) rfl
  split
  · rename_i h
    subst h
    exact readParts_escaped rest (by decide) rfl
  split
  · rename_i h
    subst h
    exact readParts_escaped rest (by decide) rfl
  split
  · rename_i h
    subst h
    exact readParts_escaped rest (by decide) rfl
  split
  · rename_i h
    subst h
    exact readParts_escaped rest (by decide) rfl
  split
  · rename_i h
    subst h
    exact readParts_escaped rest (by decide) rfl
  split
  · rename_i h
    subst h
    exact readParts_escaped rest (by decide) rfl
  split
  · rename_i hquote hslash hb hf hn hr ht hlt
    have hpart : partOf c = .unit c.toNat := by simp [partOf, hlt, hb, hf, hn, hr, ht]
    rw [hpart]
    exact readParts_unit hlt rest
  · rename_i hquote hslash hb hf hn hr ht hlt
    have hpart : partOf c = .char c := by simp [partOf, hlt]
    rw [hpart]
    exact readParts_plain rest hquote hslash hlt

theorem joinParts_unit {n : Nat} (hn : n < 32) (parts : List Part) :
    joinParts (.unit n :: parts) = (joinParts parts).map (Char.ofNat n :: ·) := by
  have hleading : isLeading n = false := by
    simp only [isLeading, Bool.and_eq_false_iff, decide_eq_false_iff_not]
    omega
  have htrailing : isTrailing n = false := by
    simp only [isTrailing, Bool.and_eq_false_iff, decide_eq_false_iff_not]
    omega
  cases parts with
  | nil => simp [hleading, htrailing]
  | cons part more =>
      cases part with
      | char c => simp [hleading, htrailing]
      | unit low => simp [hleading, htrailing]

theorem joinParts_partOf (c : Char) (parts : List Part) :
    joinParts (partOf c :: parts) = (joinParts parts).map (c :: ·) := by
  unfold partOf
  split
  · rename_i h
    rw [joinParts_unit h.1, Char.ofNat_toNat]
  · rw [joinParts]

theorem readParts_flatMap (cs rest : List Char) :
    readParts (cs.flatMap escapeChar ++ '"' :: rest) = some (cs.map partOf, rest) := by
  induction cs with
  | nil => rfl
  | cons c more ih =>
      rw [List.flatMap_cons, List.append_assoc, readParts_escapeChar, ih]
      rfl

theorem joinParts_map (cs : List Char) : joinParts (cs.map partOf) = some cs := by
  induction cs with
  | nil => rfl
  | cons c more ih =>
      rw [List.map_cons, joinParts_partOf, ih]
      rfl

end Texts

section Scanning

variable {t : Token} {rest s : List Char} {ts : List Token}

/-- The token is spelled in the grammar, and what follows does not extend it. -/
def Ends (t : Token) (rest : List Char) : Prop :=
  ∀ n, t = .num n → n.WellFormed ∧ EndsNumeral rest

theorem text_eq (n : Numeral) : n.text = (if n.negative then ['-'] else []) ++
    (Numeral.digitText n.whole ++ (fractionText n.fraction ++ exponentText n.exponent)) := by
  obtain ⟨negative, whole, fraction, exponent⟩ := n
  cases fraction with
  | nil => cases exponent <;> simp [Numeral.text, exponentText, fractionText]
  | cons d more => cases exponent <;> simp [Numeral.text, exponentText, fractionText]

theorem next?_digit {c : Char} (hc : isDigit c = true) :
    next? (c :: rest) = (readNumeral false (c :: rest)).map fun r => (.num r.1, r.2) := by
  rw [next?]
  · exact List.cons_ne_nil c rest
  all_goals
    intro more h
    obtain ⟨rfl, -⟩ := List.cons.inj h
    exact absurd hc (by decide)

theorem next?_spelling (ht : t.Ends rest) : next? (t.spelling ++ rest) = some (t, rest) := by
  cases t with
  | num n =>
      obtain ⟨hn, hrest⟩ := ht n rfl
      have hread := readNumeral_text hn hrest
      rw [spelling, text_eq]
      cases hneg : n.negative with
      | true =>
          rw [hneg] at hread
          simp [next?, hread]
      | false =>
          obtain ⟨d, more, hwhole⟩ := List.exists_cons_of_ne_nil hn.whole_ne_nil
          have hdigit := isDigit_digitChar d (hn.whole_lt d (hwhole ▸ List.mem_cons_self))
          rw [hneg] at hread
          simp only [hwhole, Numeral.digitText, List.map_cons, List.cons_append] at hread
          simp [hwhole, Numeral.digitText, next?_digit hdigit, hread]
  | text content =>
      cases content with
      | none =>
          have hunit : hexUnit? 'd' '8' '0' '0' = some 0xD800 := by decide
          have hjoin : joinParts [.unit 0xD800] = none := by decide
          simp [spelling, next?, readParts, hunit, hjoin]
      | some content =>
          have hparts := readParts_flatMap content.toList rest
          simp [spelling, quote, next?, hparts, joinParts_map]
  | bool b => cases b <;> rfl
  | _ => rfl

theorem exists_cons_spelling (t : Token) (ht : t.Ends rest) :
    ∃ c cs, t.spelling = c :: cs ∧ isBlank c = false := by
  cases t with
  | num n =>
      obtain ⟨hn, -⟩ := ht n rfl
      rw [spelling, text_eq]
      cases hneg : n.negative with
      | true => exact ⟨'-', _, rfl, rfl⟩
      | false =>
          obtain ⟨d, more, hwhole⟩ := List.exists_cons_of_ne_nil hn.whole_ne_nil
          have hdigit : ∀ d < 10, isBlank (Nat.digitChar d) = false := by decide
          rw [hwhole]
          exact ⟨_, _, rfl, hdigit d (hn.whole_lt d (hwhole ▸ List.mem_cons_self))⟩
  | text content =>
      cases content with
      | none => exact ⟨_, _, rfl, rfl⟩
      | some content => exact ⟨_, _, rfl, rfl⟩
  | bool b => cases b <;> exact ⟨_, _, rfl, rfl⟩
  | _ => exact ⟨_, _, rfl, rfl⟩

/-- The text has these tokens, however much room is left to scan it. -/
def Scans (s : List Char) (ts : List Token) : Prop :=
  ∀ fuel, s.length ≤ fuel → scanWithin fuel s = some ts

theorem Scans.scan_eq (h : Scans s ts) : scan s = some ts := h s.length (Nat.le_refl _)

theorem Scans.nil : Scans [] [] := by
  intro fuel _
  cases fuel with
  | zero => rfl
  | succ fuel => rfl

theorem Scans.blank {c : Char} (hc : isBlank c = true) (h : Scans s ts) : Scans (c :: s) ts := by
  intro fuel hfuel
  cases fuel with
  | zero => simp at hfuel
  | succ fuel =>
      rw [scanWithin, if_pos hc]
      exact h fuel (Nat.le_of_succ_le_succ hfuel)

theorem Scans.token (ht : t.Ends rest) (h : Scans rest ts) :
    Scans (t.spelling ++ rest) (t :: ts) := by
  intro fuel hfuel
  obtain ⟨c, cs, hspelling, hblank⟩ := exists_cons_spelling t ht
  have hnext := next?_spelling ht
  rw [hspelling] at hfuel hnext ⊢
  cases fuel with
  | zero => simp at hfuel
  | succ fuel =>
      have hrest : rest.length ≤ fuel := by
        simp only [List.cons_append, List.length_cons, List.length_append] at hfuel
        omega
      rw [List.cons_append] at hnext ⊢
      rw [scanWithin, if_neg (by rw [hblank]; exact Bool.false_ne_true), hnext]
      simp [h fuel hrest]

end Scanning

end Token

end Json

end FlowTyping
