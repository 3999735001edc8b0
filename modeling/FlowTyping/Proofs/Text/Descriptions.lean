import FlowTyping.Checker.Basic
import Mathlib

/-!
Descriptions tell apart what they describe. A quoted text is read back one character at a time, and
the description of a pattern shows its kind, and its source, bounds, literal or syntax kind.
-/

namespace FlowTyping

/-- Texts that agree also agree up to their first mark, and after it. -/
theorem append_mark_inj {α : Type} {x : α} {a b r s : List α} (ha : x ∉ a)
    (hb : x ∉ b) (h : a ++ x :: r = b ++ x :: s) : a = b ∧ r = s := by
  induction a generalizing b with
  | nil =>
      cases b with
      | nil => exact ⟨rfl, (List.cons.inj h).2⟩
      | cons y b => exact absurd (List.cons.inj h).1 fun heq => hb (heq ▸ List.mem_cons_self)
  | cons y a ih =>
      cases b with
      | nil => exact absurd (List.cons.inj h).1 fun heq => ha (heq ▸ List.mem_cons_self)
      | cons z b =>
          obtain ⟨rfl, hrest⟩ := List.cons.inj h
          obtain ⟨rfl, rfl⟩ := ih (fun hx => ha (List.mem_cons_of_mem _ hx))
            (fun hx => hb (List.mem_cons_of_mem _ hx)) hrest
          exact ⟨rfl, rfl⟩

namespace Text

theorem mem_toDigits_hex {n : Nat} {c : Char} (hc : c ∈ Nat.toDigits 16 n) :
    ∃ d < 16, c = Nat.digitChar d := by
  induction n using Nat.strongRecOn with
  | ind n ih =>
      rcases Nat.lt_or_ge n 16 with hn | hn
      · rw [Nat.toDigits_of_lt_base hn] at hc
        exact ⟨n, hn, List.mem_singleton.mp hc⟩
      · rw [Nat.toDigits_of_base_le (by decide) hn] at hc
        rcases List.mem_append.mp hc with hc | hc
        · exact ih (n / 16) (Nat.div_lt_self (by omega) (by decide)) hc
        · exact ⟨n % 16, Nat.mod_lt n (by decide), List.mem_singleton.mp hc⟩

theorem hexValue_concat (digits : List Char) {d : Nat} (hd : d < 16) :
    hexValue (digits ++ [Nat.digitChar d]) = 16 * hexValue digits + d := by
  have hlast : ∀ d < 16, (if (Nat.digitChar d).isDigit then (Nat.digitChar d).toNat - '0'.toNat
      else (Nat.digitChar d).toNat - 'a'.toNat + 10) = d := by decide
  rw [hexValue, List.foldl_append, List.foldl_cons, List.foldl_nil, hlast d hd, hexValue]

theorem hexValue_toDigits (n : Nat) : hexValue (Nat.toDigits 16 n) = n := by
  induction n using Nat.strongRecOn with
  | ind n ih =>
      rcases Nat.lt_or_ge n 16 with hn | hn
      · rw [Nat.toDigits_of_lt_base hn]
        exact (hexValue_concat [] hn).trans (Nat.zero_add n)
      · rw [Nat.toDigits_of_base_le (by decide) hn, hexValue_concat _ (Nat.mod_lt n (by decide)),
          ih (n / 16) (Nat.div_lt_self (by omega) (by decide))]
        exact Nat.div_add_mod n 16

/-- The character that a text between double quotes begins with, and what follows it. -/
def unescape? : List Char → Option (Char × List Char)
  | '\\' :: '0' :: rest => some ('\x00', rest)
  | '\\' :: 't' :: rest => some ('\t', rest)
  | '\\' :: 'n' :: rest => some ('\n', rest)
  | '\\' :: 'r' :: rest => some ('\r', rest)
  | '\\' :: 'u' :: '\x7b' :: rest =>
      some (Char.ofNat (hexValue (rest.takeWhile (· ≠ '\x7d'))),
        (rest.dropWhile (· ≠ '\x7d')).drop 1)
  | '\\' :: c :: rest => some (c, rest)
  | c :: rest => some (c, rest)
  | [] => none

theorem unescape?_code (c : Char) (rest : List Char) :
    unescape? ('\\' :: 'u' :: '\x7b' :: (Nat.toDigits 16 c.toNat ++ '\x7d' :: rest)) =
      some (c, rest) := by
  have hends : ∀ n < 16, decide (Nat.digitChar n ≠ '\x7d') = true := by decide
  have hdigits : ∀ d ∈ Nat.toDigits 16 c.toNat, decide (d ≠ '\x7d') = true := by
    intro d hd
    obtain ⟨n, hn, rfl⟩ := mem_toDigits_hex hd
    exact hends n hn
  rw [unescape?, List.takeWhile_append_of_pos hdigits, List.dropWhile_append_of_pos hdigits]
  simp [hexValue_toDigits]

theorem unescape?_plain {c : Char} (hc : c ≠ '\\') (rest : List Char) :
    unescape? (c :: rest) = some (c, rest) := by
  rw [unescape?]
  all_goals
    intros
    contradiction

/-- Every escaped character is read back, whatever follows it. -/
theorem unescape?_escape (c : Char) (rest : List Char) :
    unescape? (escape '"' c ++ rest) = some (c, rest) := by
  unfold escape
  split
  · rename_i h
    exact h ▸ rfl
  split
  · rename_i h
    exact h ▸ rfl
  split
  · rename_i h
    exact h ▸ rfl
  split
  · rename_i h
    exact h ▸ rfl
  split
  · rename_i h
    rcases Bool.or_eq_true_iff.mp h with h | h
    · cases of_decide_eq_true h
      rfl
    · cases of_decide_eq_true h
      rfl
  · rename_i hspecial
    split
    · have hform : ['\\', 'u', '\x7b'] ++ Nat.toDigits 16 c.toNat ++ ['\x7d'] ++ rest =
          '\\' :: 'u' :: '\x7b' :: (Nat.toDigits 16 c.toNat ++ '\x7d' :: rest) := by simp
      exact (congrArg unescape? hform).trans (unescape?_code c rest)
    · exact unescape?_plain (fun h => hspecial (by simp [h])) rest

theorem flatMap_escape_inj {s t : List Char}
    (h : s.flatMap (escape '"') = t.flatMap (escape '"')) : s = t := by
  induction s generalizing t with
  | nil =>
      cases t with
      | nil => rfl
      | cons d t =>
          have hread := unescape?_escape d (t.flatMap (escape '"'))
          rw [← List.flatMap_cons, ← h] at hread
          cases hread
  | cons c s ih =>
      have hread := unescape?_escape c (s.flatMap (escape '"'))
      rw [← List.flatMap_cons, h] at hread
      cases t with
      | nil => cases hread
      | cons d t =>
          rw [List.flatMap_cons, unescape?_escape, Option.some_inj, Prod.mk.injEq] at hread
          rw [hread.1, ih hread.2.symm]

/-- Different texts are quoted differently. -/
theorem quoted_inj {s t : String} : quoted s = quoted t ↔ s = t := by
  refine ⟨fun h => ?_, fun h => h ▸ rfl⟩
  have hlists := (List.cons.inj (String.ofList_inj.mp h)).2
  exact String.toList_inj.mp (flatMap_escape_inj (List.append_cancel_right hlists))

theorem comma_not_mem_toString (n : Int) : ',' ∉ (toString n).toList := by
  have hdigits (m : Nat) : ',' ∉ m.repr.toList := by
    rw [Nat.repr_eq_ofList_toDigits, String.toList_ofList]
    intro hmem
    have hdigit := Nat.isDigit_of_mem_toDigits (by decide) (by decide) hmem
    exact absurd hdigit (by decide)
  rw [Int.toString_eq_repr, Int.repr_eq_if]
  split
  · exact hdigits _
  · rw [String.toList_append, List.mem_append, not_or]
    exact ⟨by decide, hdigits _⟩

end Text

namespace LiteralKind

theorem find?_label (k : LiteralKind) : all.find? (fun x => x.label = k.label) = some k := by
  cases k <;> rfl

theorem label_inj {k k' : LiteralKind} : k.label = k'.label ↔ k = k' := by
  refine ⟨fun h => ?_, fun h => h ▸ rfl⟩
  rw [← Option.some_inj, ← find?_label k, ← find?_label k', h]

end LiteralKind

namespace SyntaxKind

theorem find?_label (k : SyntaxKind) : all.find? (fun x => x.label = k.label) = some k := by
  cases k <;> rfl

theorem label_inj {k k' : SyntaxKind} : k.label = k'.label ↔ k = k' := by
  refine ⟨fun h => ?_, fun h => h ▸ rfl⟩
  rw [← Option.some_inj, ← find?_label k, ← find?_label k', h]

end SyntaxKind

namespace RulePattern

/-- What a pattern is declared by: its kind, and its source, bounds, literal or syntax kind. -/
def declaration : RulePattern → PatternDeclaration
  | fullMatch source _ => .fullMatch source
  | intRange low high => .intRange low high
  | literal kind => .literal kind
  | element kind => .element kind
  | any => .any

/-- The patterns are declared alike. -/
def Same (p q : RulePattern) : Prop := p.declaration = q.declaration

instance : DecidableRel Same := fun p q =>
  inferInstanceAs (Decidable (p.declaration = q.declaration))

/-- The letter that the description of a pattern begins with. -/
def initial : RulePattern → Char
  | fullMatch _ _ => 's'
  | intRange _ _ => 'i'
  | literal _ => 'l'
  | element _ => 'e'
  | any => 'a'

theorem head?_text (p : RulePattern) : p.text.toList.head? = some p.initial := by
  have hstart {s : String} {c : Char} (hs : s.toList.head? = some c) (rest : String) :
      (s ++ rest).toList.head? = some c := by
    rw [String.toList_append, List.head?_append, hs, Option.some_or]
  cases p with
  | fullMatch _ _ =>
      have hs : "string_pattern(".toList.head? = some 's' := rfl
      exact hstart (hstart hs _) _
  | intRange _ _ =>
      have hs : "int_range(".toList.head? = some 'i' := rfl
      exact hstart (hstart (hstart (hstart hs _) _) _) _
  | literal _ =>
      have hs : "literal(".toList.head? = some 'l' := rfl
      exact hstart (hstart hs _) _
  | element _ =>
      have hs : "element(".toList.head? = some 'e' := rfl
      exact hstart (hstart hs _) _
  | any => rfl

theorem text_fullMatch_inj {source source' : String} {regex regex' : Regex} :
    (fullMatch source regex).text = (fullMatch source' regex').text ↔ source = source' := by
  change "string_pattern(" ++ Text.quoted source ++ ")" =
    "string_pattern(" ++ Text.quoted source' ++ ")" ↔ _
  rw [String.append_left_inj, String.append_right_inj, Text.quoted_inj]

theorem text_intRange_inj {low high low' high' : Int} :
    (intRange low high).text = (intRange low' high').text ↔ low = low' ∧ high = high' := by
  refine ⟨fun h => ?_, fun ⟨hlow, hhigh⟩ => hlow ▸ hhigh ▸ rfl⟩
  change "int_range(" ++ toString low ++ ", " ++ toString high ++ ")" =
    "int_range(" ++ toString low' ++ ", " ++ toString high' ++ ")" at h
  rw [String.append_left_inj, String.append_assoc, String.append_assoc, String.append_assoc,
    String.append_assoc, String.append_right_inj, ← String.toList_inj] at h
  have hlists : (toString low).toList ++ ',' :: ' ' :: (toString high).toList =
      (toString low').toList ++ ',' :: ' ' :: (toString high').toList := by
    simpa using h
  obtain ⟨hlow, hhigh⟩ := append_mark_inj (Text.comma_not_mem_toString low)
    (Text.comma_not_mem_toString low') hlists
  have hhigh := (List.cons.inj hhigh).2
  rw [String.toList_inj, Int.toString_eq_repr, Int.toString_eq_repr, Int.repr_inj] at hlow hhigh
  exact ⟨hlow, hhigh⟩

theorem text_literal_inj {kind kind' : LiteralKind} :
    (literal kind).text = (literal kind').text ↔ kind = kind' := by
  change "literal(" ++ kind.label ++ ")" = "literal(" ++ kind'.label ++ ")" ↔ _
  rw [String.append_left_inj, String.append_right_inj, LiteralKind.label_inj]

theorem text_element_inj {kind kind' : SyntaxKind} :
    (element kind).text = (element kind').text ↔ kind = kind' := by
  change "element(" ++ kind.label ++ ")" = "element(" ++ kind'.label ++ ")" ↔ _
  rw [String.append_left_inj, String.append_right_inj, SyntaxKind.label_inj]

theorem not_same_of_initial_ne {p q : RulePattern} (h : p.initial ≠ q.initial) : ¬ p.Same q := by
  intro hsame
  cases p <;> cases q <;> first | exact h rfl | exact nomatch hsame

/-- Two patterns have one description exactly when they are the same pattern. -/
theorem text_eq_iff {p q : RulePattern} : p.text = q.text ↔ p.Same q := by
  have hkinds (h : p.initial ≠ q.initial) : p.text = q.text ↔ p.Same q := by
    refine iff_of_false (fun htext => h ?_) (not_same_of_initial_ne h)
    rw [← Option.some_inj, ← head?_text, ← head?_text, htext]
  cases p with
  | fullMatch _ _ =>
      cases q with
      | fullMatch _ _ => exact text_fullMatch_inj.trans (by simp [Same, declaration])
      | _ => exact hkinds (by simp [initial])
  | intRange _ _ =>
      cases q with
      | intRange _ _ => exact text_intRange_inj.trans (by simp [Same, declaration])
      | _ => exact hkinds (by simp [initial])
  | literal _ =>
      cases q with
      | literal _ => exact text_literal_inj.trans (by simp [Same, declaration])
      | _ => exact hkinds (by simp [initial])
  | element _ =>
      cases q with
      | element _ => exact text_element_inj.trans (by simp [Same, declaration])
      | _ => exact hkinds (by simp [initial])
  | any =>
      cases q with
      | any => exact ⟨fun _ => rfl, fun _ => rfl⟩
      | _ => exact hkinds (by simp [initial])

end RulePattern

end FlowTyping
