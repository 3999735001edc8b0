import FlowTyping.Checker.Implicit
import FlowTyping.Proofs.Pattern.Readers

/-!
Which parts of a text an expression matches, and what string patterns match. Following the positions
reached in a text finds all matches: a position is reached from others exactly where some match
leads from one of them to it. The source of a pattern is put between the anchors of a whole text
before it is read. Where the source is an expression on its own, the anchors stand around that
expression, and the pattern matches what the expression spans. A source that is none can close the
group around it, and then each anchor stands at a part of it only.
-/

namespace FlowTyping

namespace Regex

/-- So many steps of a relation one after the other. -/
def Steps (R : Nat → Nat → Prop) : Nat → Nat → Nat → Prop
  | 0, p, q => p = q
  | n + 1, p, q => ∃ m, R p m ∧ Steps R n m q

/-- The expression matches the part of a text between two positions. A repetition takes its least
number of rounds, and after them up to as many as its bounds are apart. -/
def Matches (text : Array Char) : Regex → Nat → Nat → Prop
  | empty, p, q => p = q
  | chars members, p, q => q = p + 1 ∧ ∃ c, text[p]? = some c ∧ members.mem c = true
  | look condition, p, q =>
      p = q ∧ condition.holds (if p = 0 then none else text[p - 1]?) text[p]? = true
  | cat a b, p, q => ∃ m, Matches text a p m ∧ Matches text b m q
  | alt a b, p, q => Matches text a p q ∨ Matches text b p q
  | repeated body least most, p, q =>
      ∃ n, least ≤ n ∧ (∀ m ∈ most, n - least ≤ m - least) ∧ Steps (Matches text body) n p q

/-- Some match of the expression is the whole text. -/
def Spans (r : Regex) (text : String) : Prop :=
  r.Matches text.toList.toArray 0 text.toList.length

/-- Positions only grow, and not beyond the end of a text. -/
def Advances (size : Nat) (R : Nat → Nat → Prop) : Prop :=
  ∀ p q, R p q → p ≤ q ∧ (p = q ∨ q ≤ size)

variable {R : Nat → Nat → Prop} {round : List Nat → List Nat} {text : Array Char} {r : Regex}
  {ps : List Nat} {n p q : Nat}

theorem Advances.steps {size : Nat} (hR : Advances size R) (n : Nat) :
    Advances size (Steps R n) := by
  induction n with
  | zero =>
      rintro p q rfl
      exact ⟨Nat.le_refl p, .inl rfl⟩
  | succ n ih =>
      rintro p q ⟨m, hpm, hmq⟩
      obtain ⟨hle, hsize⟩ := hR p m hpm
      obtain ⟨hle', hsize'⟩ := ih m q hmq
      omega

theorem advances_matches (text : Array Char) (r : Regex) :
    Advances text.size (r.Matches text) := by
  induction r with
  | empty =>
      rintro p q rfl
      exact ⟨Nat.le_refl p, .inl rfl⟩
  | chars members =>
      rintro p q ⟨rfl, c, hc, -⟩
      have hlt := (Array.getElem?_eq_some_iff.mp hc).1
      omega
  | look condition =>
      rintro p q ⟨rfl, -⟩
      exact ⟨Nat.le_refl p, .inl rfl⟩
  | cat a b iha ihb =>
      rintro p q ⟨m, hpm, hmq⟩
      obtain ⟨hle, hsize⟩ := iha p m hpm
      obtain ⟨hle', hsize'⟩ := ihb m q hmq
      omega
  | alt a b iha ihb =>
      rintro p q (h | h)
      · exact iha p q h
      · exact ihb p q h
  | repeated body least most ih =>
      rintro p q ⟨n, -, -, hsteps⟩
      exact ih.steps n p q hsteps

/-- Rounds that do not advance can be left out. -/
theorem Steps.shorten {size : Nat} (hR : Advances size R) (h : Steps R n p q) :
    ∃ m ≤ n, m ≤ size ∧ Steps R m p q := by
  have hshort : ∃ m ≤ n, m ≤ q - p ∧ Steps R m p q := by
    induction n generalizing p with
    | zero => exact ⟨0, Nat.le_refl 0, Nat.zero_le _, h⟩
    | succ n ih =>
        obtain ⟨x, hpx, hxq⟩ := h
        obtain ⟨m, hm, hmq, hsteps⟩ := ih hxq
        have hle := (hR p x hpx).1
        have hle' := (hR.steps n x q hxq).1
        by_cases heq : p = x
        · subst heq
          exact ⟨m, by omega, hmq, hsteps⟩
        · exact ⟨m + 1, by omega, by omega, x, hpx, hsteps⟩
  obtain ⟨m, hm, hmq, hsteps⟩ := hshort
  refine ⟨m, hm, ?_, hsteps⟩
  rcases (hR.steps m p q hsteps).2 with heq | hle
  · omega
  · omega

theorem mem_mergePositions {a b : List Nat} : q ∈ mergePositions a b ↔ q ∈ a ∨ q ∈ b := by
  simp only [mergePositions, List.mem_append, List.mem_filter, Bool.not_eq_true',
    List.contains_eq_mem, decide_eq_false_iff_not]
  by_cases hq : q ∈ a
  · simp [hq]
  · simp [hq]

theorem mem_iterate (hround : ∀ ps q, q ∈ round ps ↔ ∃ p ∈ ps, R p q) :
    q ∈ iterate round n ps ↔ ∃ p ∈ ps, Steps R n p q := by
  induction n generalizing ps with
  | zero => simp [iterate, Steps]
  | succ n ih =>
      rw [iterate]
      split
      · rename_i hempty
        simp [List.isEmpty_iff.mp hempty]
      · rw [ih]
        constructor
        · rintro ⟨m, hm, hsteps⟩
          obtain ⟨p, hp, hpm⟩ := (hround ps m).mp hm
          exact ⟨p, hp, m, hpm, hsteps⟩
        · rintro ⟨p, hp, m, hpm, hsteps⟩
          exact ⟨m, (hround ps m).mpr ⟨p, hp, hpm⟩, hsteps⟩

theorem mem_saturate (hround : ∀ ps q, q ∈ round ps ↔ ∃ p ∈ ps, R p q) :
    q ∈ saturate round n ps ↔ ∃ m ≤ n, ∃ p ∈ ps, Steps R m p q := by
  induction n generalizing ps with
  | zero => simp [saturate, Steps]
  | succ n ih =>
      rw [saturate, ih]
      constructor
      · rintro ⟨m, hm, p, hp, hsteps⟩
        rcases mem_mergePositions.mp hp with hp | hp
        · exact ⟨m, by omega, p, hp, hsteps⟩
        · obtain ⟨x, hx, hxp⟩ := (hround ps p).mp hp
          exact ⟨m + 1, by omega, x, hx, p, hxp, hsteps⟩
      · rintro ⟨m, hm, p, hp, hsteps⟩
        cases m with
        | zero => exact ⟨0, Nat.zero_le n, p, mem_mergePositions.mpr (.inl hp), hsteps⟩
        | succ m =>
            obtain ⟨x, hpx, hsteps⟩ := hsteps
            have hx : x ∈ round ps := (hround ps x).mpr ⟨p, hp, hpx⟩
            exact ⟨m, by omega, x, mem_mergePositions.mpr (.inr hx), hsteps⟩

theorem Steps.trans {m x : Nat} (h : Steps R n p x) (h' : Steps R m x q) :
    Steps R (n + m) p q := by
  induction n generalizing p with
  | zero =>
      cases h
      rwa [Nat.zero_add]
  | succ n ih =>
      obtain ⟨y, hpy, hsteps⟩ := h
      rw [Nat.add_right_comm]
      exact ⟨y, hpy, ih hsteps⟩

theorem Steps.split {m : Nat} (h : Steps R (n + m) p q) : ∃ x, Steps R n p x ∧ Steps R m x q := by
  induction n generalizing p with
  | zero => exact ⟨p, rfl, by rwa [Nat.zero_add] at h⟩
  | succ n ih =>
      rw [Nat.add_right_comm] at h
      obtain ⟨y, hpy, hsteps⟩ := h
      obtain ⟨x, hyx, hxq⟩ := ih hsteps
      exact ⟨x, ⟨y, hpy, hyx⟩, hxq⟩

/-- Following positions finds exactly what the expression matches. -/
theorem mem_ends : q ∈ ends text r ps ↔ ∃ p ∈ ps, r.Matches text p q := by
  induction r generalizing ps q with
  | empty => simp [ends, Matches]
  | chars members =>
      simp only [ends, List.mem_filterMap, Matches]
      refine exists_congr fun p => and_congr_right fun _ => ?_
      cases text[p]? with
      | none => simp
      | some c =>
          simp only [Option.ite_none_right_eq_some, Option.some.injEq, exists_eq_left']
          exact and_comm.trans (and_congr_left fun _ => eq_comm)
  | look condition =>
      simp only [ends, List.mem_filter, Matches]
      constructor
      · exact fun ⟨hq, hholds⟩ => ⟨q, hq, rfl, hholds⟩
      · rintro ⟨p, hp, rfl, hholds⟩
        exact ⟨hp, hholds⟩
  | cat a b iha ihb =>
      simp only [ends, ihb, iha, Matches]
      constructor
      · rintro ⟨m, ⟨p, hp, hpm⟩, hmq⟩
        exact ⟨p, hp, m, hpm, hmq⟩
      · rintro ⟨p, hp, m, hpm, hmq⟩
        exact ⟨m, ⟨p, hp, hpm⟩, hmq⟩
  | alt a b iha ihb =>
      simp only [ends, mem_mergePositions, iha, ihb, Matches, and_or_left, exists_or]
  | repeated body least most ih =>
      have hround : ∀ ps q, q ∈ ends text body ps ↔ ∃ p ∈ ps, body.Matches text p q :=
        fun ps q => ih
      have hbound (bound : Nat) :
          q ∈ saturate (ends text body) bound (iterate (ends text body) least ps) ↔
            ∃ p ∈ ps, ∃ n, n ≤ bound ∧ Steps (body.Matches text) (least + n) p q := by
        rw [mem_saturate hround]
        constructor
        · rintro ⟨n, hn, x, hx, hxq⟩
          obtain ⟨p, hp, hpx⟩ := (mem_iterate hround).mp hx
          exact ⟨p, hp, n, hn, hpx.trans hxq⟩
        · rintro ⟨p, hp, n, hn, hsteps⟩
          obtain ⟨x, hpx, hxq⟩ := hsteps.split
          exact ⟨n, hn, x, (mem_iterate hround).mpr ⟨p, hp, hpx⟩, hxq⟩
      have hshorten {n p : Nat} (hsteps : Steps (body.Matches text) (least + n) p q) :
          ∃ m ≤ n, m ≤ text.size ∧ Steps (body.Matches text) (least + m) p q := by
        obtain ⟨x, hpx, hxq⟩ := hsteps.split
        obtain ⟨m, hm, hsize, hsteps⟩ := hxq.shorten (advances_matches text body)
        exact ⟨m, hm, hsize, hpx.trans hsteps⟩
      simp only [Matches]
      cases most with
      | none =>
          rw [ends, hbound]
          refine exists_congr fun p => and_congr_right fun _ => ⟨?_, ?_⟩
          · rintro ⟨n, -, hsteps⟩
            exact ⟨least + n, Nat.le_add_right least n, nofun, hsteps⟩
          · rintro ⟨n, hn, -, hsteps⟩
            obtain ⟨k, rfl⟩ := Nat.exists_eq_add_of_le hn
            obtain ⟨m, -, hsize, hsteps⟩ := hshorten hsteps
            exact ⟨m, by omega, hsteps⟩
      | some most =>
          rw [ends, hbound]
          refine exists_congr fun p => and_congr_right fun _ => ⟨?_, ?_⟩
          · rintro ⟨n, hn, hsteps⟩
            refine ⟨least + n, Nat.le_add_right least n, ?_, hsteps⟩
            rintro m ⟨⟩
            omega
          · rintro ⟨n, hn, hmost, hsteps⟩
            have hmost := hmost most rfl
            obtain ⟨k, rfl⟩ := Nat.exists_eq_add_of_le hn
            obtain ⟨m, hm, hsize, hsteps⟩ := hshorten hsteps
            exact ⟨m, by omega, hsteps⟩

/-- An expression matches in a text where it matches some part of it. -/
theorem isMatch_iff {text : String} : r.isMatch text = true ↔
    ∃ p ≤ text.toList.length, ∃ q, r.Matches text.toList.toArray p q := by
  simp only [isMatch, Bool.not_eq_true', List.isEmpty_eq_false_iff_exists_mem, mem_ends,
    List.mem_range, List.size_toArray, Nat.lt_succ_iff]
  constructor
  · rintro ⟨q, p, hp, hpq⟩
    exact ⟨p, hp, q, hpq⟩
  · rintro ⟨p, hp, q, hpq⟩
    exact ⟨q, p, hp, hpq⟩

/-- Between the conditions for the start and the end of a text stands what spans it. -/
theorem isMatch_anchored (r : Regex) (text : String) :
    (cat (cat (look .textStart) r) (look .textEnd)).isMatch text = true ↔ r.Spans text := by
  rw [isMatch_iff]
  have hget (i : Nat) : text.toList.toArray[i]?.isNone = true ↔ text.toList.length ≤ i := by simp
  simp only [Matches, Look.holds, Spans]
  constructor
  · rintro ⟨p, hp, q, m, ⟨x, ⟨hpx, hstart⟩, hxm⟩, -, hend⟩
    subst hpx
    have hzero : p = 0 := by
      by_contra hne
      rw [if_neg hne, hget] at hstart
      omega
    subst hzero
    have hle := (hget m).mp hend
    have hadvances := (advances_matches _ r 0 m hxm).2
    rw [List.size_toArray] at hadvances
    have heq : m = text.toList.length := by omega
    rwa [← heq]
  · intro hspans
    exact ⟨0, Nat.zero_le _, _, _, ⟨0, ⟨rfl, rfl⟩, hspans⟩, rfl, (hget _).mpr (Nat.le_refl _)⟩

end Regex

namespace Pattern

variable {n : Nat} {pieces : List Piece} {branches : List (Regex × Nat)}
  {rest : List Char} {names : List (List Char)} {source : String} {r r' : Regex}

theorem run_readBranches_textStart :
    (readBranches (n + 1) pieces branches).run ⟨'^' :: rest, names, {}⟩ =
      (readBranches n (⟨.look .textStart, 0, true⟩ :: pieces) branches).run ⟨rest, names, {}⟩ :=
  rfl

theorem run_readBranches_textEnd :
    (readBranches (n + 1) pieces branches).run ⟨'$' :: rest, names, {}⟩ =
      (readBranches n (⟨.look .textEnd, 0, true⟩ :: pieces) branches).run ⟨rest, names, {}⟩ :=
  rfl

theorem run_readBranches_nil :
    (readBranches (n + 1) pieces branches).run ⟨[], names, {}⟩ =
      some (choiceOf (sequenceOf pieces :: branches), ⟨[], names, {}⟩) :=
  rfl

theorem run_readBranches_group :
    (readBranches (n + 1) pieces branches).run ⟨'(' :: '?' :: ':' :: rest, names, {}⟩ =
      StateT.run (do
        let (regex, depth) ← readBranches n [] []
        if (← current) ≠ ')' then failure
        pass
        setFlags {}
        readBranches n (⟨regex, depth + 1, true⟩ :: pieces) branches) ⟨rest, names, {}⟩ :=
  rfl

theorem readBranches_of_read? (h : read? source = some r) : ∃ depth c,
    (readBranches (source.toList.length + 1) [] []).run ⟨source.toList, [], {}⟩ =
      some ((r, depth), c) ∧ c.rest = [] := by
  obtain ⟨⟨⟨r', depth⟩, c⟩, hrun, hlimits⟩ := Option.bind_eq_some_iff.mp h
  obtain ⟨hlimits, heq⟩ := Option.ite_none_right_eq_some.mp hlimits
  cases heq
  simp only [Bool.and_eq_true, List.isEmpty_iff] at hlimits
  exact ⟨depth, c, hrun, hlimits.1.1⟩

/-- An expression is read between the anchors as it is read alone. -/
theorem read?_anchored (h : read? source = some r)
    (h' : read? (RulePattern.anchored source) = some r') :
    r' = .cat (.cat (.look .textStart) r) (.look .textEnd) := by
  obtain ⟨depth, c, hrun, hc⟩ := readBranches_of_read? h
  obtain ⟨depth', c', hrun', -⟩ := readBranches_of_read? h'
  have htext : (RulePattern.anchored source).toList =
      '^' :: '(' :: '?' :: ':' :: (source.toList ++ [')', '$']) := by
    simp [RulePattern.anchored]
  have hextends : Cursor.Extends ⟨source.toList, [], {}⟩ ⟨source.toList ++ [')', '$'], [], {}⟩ :=
    ⟨⟨_, .inr rfl, rfl⟩, rfl, rfl⟩
  obtain ⟨⟨rest, names, flags⟩, hgroup, hcd⟩ := readBranches_follows (m := source.toList.length + 5)
    hextends (by omega) [] [] _ c hrun trivial
  have hlength : (source.toList ++ [')', '$']).length + 1 + 1 + 1 + 1 + 1 =
      source.toList.length + 5 + 1 + 1 := by simp
  simp only [htext, List.length_cons, hlength] at hrun'
  rw [run_readBranches_textStart, run_readBranches_group, StateT.run_bind, hgroup] at hrun'
  obtain ⟨more, rfl | rfl, hrest⟩ := hcd.rest
  · -- What closes the group was part of a comment.
    rw [hc] at hrest
    cases hrest
    cases hrun'
  · rw [hc] at hrest
    cases hrest
    change (readBranches (source.toList.length + 5) _ []).run ⟨['$'], names, {}⟩ = _ at hrun'
    rw [run_readBranches_textEnd, run_readBranches_nil] at hrun'
    cases hrun'
    rfl

end Pattern

/-- The text that a string pattern is asked about. -/
def Subject.text? : Subject → Option String
  | .literal (.string s) => some s
  | .literal (.char c) => some (String.singleton c)
  | _ => none

namespace RulePattern

variable {source : String} {p : RulePattern} {r : Regex}

theorem isMatch_fullMatch (source : String) (regex : Regex) (subject : Subject) :
    (fullMatch source regex).isMatch subject = true ↔
      ∃ text ∈ subject.text?, regex.isMatch text = true := by
  rcases subject with (_ | _) | _ <;> simp [isMatch, Subject.text?]

theorem ofSource_of_read? {regex : Regex} (h : Pattern.read? (anchored source) = some regex) :
    ofSource source = .ok (fullMatch source regex) := by
  rw [ofSource, h]

/-- A pattern whose source is an expression on its own matches the string and character literals
whose whole text the expression matches, and nothing else. -/
theorem isMatch_ofSource_iff (hp : ofSource source = .ok p) (hr : Pattern.read? source = some r)
    (subject : Subject) :
    p.isMatch subject = true ↔ ∃ text ∈ subject.text?, r.Spans text := by
  rw [ofSource] at hp
  split at hp
  · rename_i regex hregex
    cases hp
    rw [isMatch_fullMatch, Pattern.read?_anchored hr hregex]
    simp only [Regex.isMatch_anchored]
  · cases hp

theorem isMatch_choice_iff : ∃ p r, ofSource "a|bc" = .ok p ∧ Pattern.read? "a|bc" = some r ∧
    p.isMatch (.literal (.string "bc")) = true ∧ p.isMatch (.literal (.string "ab")) = false ∧
    ∀ subject, p.isMatch subject = true ↔ ∃ text ∈ subject.text?, r.Spans text := by
  let a := Regex.chars (.single 'a')
  let bc := Regex.cat (.chars (.single 'b')) (.chars (.single 'c'))
  let regex := Regex.cat (.cat (.look .textStart) (.alt a bc)) (.look .textEnd)
  have hp : ofSource "a|bc" = .ok (fullMatch "a|bc" regex) :=
    ofSource_of_read? (by decide +kernel)
  have hr : Pattern.read? "a|bc" = some (.alt a bc) := by decide +kernel
  exact ⟨_, _, hp, hr, by decide +kernel, by decide +kernel, isMatch_ofSource_iff hp hr⟩

/-- A source that is no expression on its own can put each anchor to one of its parts, and then
matches what only begins or only ends as it should. -/
theorem isMatch_of_closing_source : ∃ p, ofSource "a)|(?:b" = .ok p ∧
    Pattern.read? "a)|(?:b" = none ∧
    p.isMatch (.literal (.string "ax")) = true ∧ p.isMatch (.literal (.string "xb")) = true := by
  let regex := Regex.alt (.cat (.look .textStart) (.chars (.single 'a')))
    (.cat (.chars (.single 'b')) (.look .textEnd))
  have hp : ofSource "a)|(?:b" = .ok (fullMatch "a)|(?:b" regex) :=
    ofSource_of_read? (by decide +kernel)
  exact ⟨_, hp, by decide +kernel, by decide +kernel, by decide +kernel⟩

end RulePattern

end FlowTyping
