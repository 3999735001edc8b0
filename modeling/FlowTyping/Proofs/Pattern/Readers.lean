import FlowTyping.Proofs.Pattern.Continued

/-!
Every part of the grammar is read from a source as from the same source with its tail. The readers
that look ahead can only see the tail where the source is used up: then they fail, or find neither
what they look for in the source nor in the tail.
-/

namespace FlowTyping

namespace Pattern

variable {α : Type} {P : Cursor → Prop} {more : List Char} {c d : Cursor} {x : Char}
  {xs : List Char}

theorem charOfHex_follows (h : c.Extends d) (digits : List Char) :
    Follows c d (charOfHex digits) (charOfHex digits) := by
  rw [charOfHex]
  split
  · exact .orElse fun _ => .pure h _
  · exact .fails

theorem setLiteral_follows (h : c.Extends d) (flags : Flags) (atom : Atom) :
    Follows c d (setLiteral flags atom) (setLiteral flags atom) := by
  cases atom with
  | literal x => exact .ite (fun _ => .fails) fun _ => .pure h x
  | byte x => exact .ite (fun _ => .fails) fun _ => .pure h x
  | members members => exact .fails
  | condition l => exact .fails

theorem atomRegex_follows (h : c.Extends d) (flags : Flags) (atom : Atom) :
    Follows c d (atomRegex flags atom) (atomRegex flags atom) := by
  cases atom with
  | literal x => exact .pure h _
  | byte x => exact .ite (fun _ => .fails) fun _ => .pure h _
  | members members => exact .ite (fun _ => .fails) fun _ => .pure h _
  | condition l => exact .pure h _

/-- The expression of a dot is found without reading on. -/
theorem dotRegex_bind {flags : Flags} {k k' : Regex → Reading α}
    (hk : ∀ regex, FollowsIf P c d (k regex) (k' regex)) :
    FollowsIf P c d (dotRegex flags >>= k) (dotRegex flags >>= k') := by
  rw [dotRegex]
  split
  · exact .fails_bind
  · rw [pure_bind]
    exact hk _

theorem readHexDigits_follows (h : c.Extends d) (n : Nat) :
    Follows c d (readHexDigits n) (readHexDigits n) := by
  induction n generalizing c d with
  | zero => exact .pure h []
  | succ n ih =>
      refine .current h fun x xs hx => .bind (.step h hx) fun _ c d h => ?_
      exact .bind_pure (ih h) _

theorem readHex_follows (h : c.Extends d) : Follows c d readHex readHex := by
  refine .current h fun kind xs hkind => .bind (.step h hkind) fun _ c d h => ?_
  refine .current h fun x xs hx => .ite (fun _ => ?_) fun _ => ?_
  · refine .bind (.step h hx) fun _ c d h => ?_
    refine .bind_current (takeAll_within h) fun digits x xs c d h hx => ?_
    refine .orElse fun _ => .bind (.step h hx) fun _ c d h => ?_
    exact .bind_pure (charOfHex_follows h digits) _
  · refine .bind (readHexDigits_follows h _) fun digits c d h => ?_
    exact .bind_pure (charOfHex_follows h digits) _

theorem propertyMembers_follows (h : c.Extends d) (negated : Bool) (found : Option CharClass) :
    Follows c d (propertyMembers negated found) (propertyMembers negated found) := by
  refine .flags h ?_
  cases found with
  | none => exact .fails
  | some members => exact .orElse fun _ => .pure h _

theorem readProperty_follows (h : c.Extends d) : Follows c d readProperty readProperty := by
  refine .current h fun kind xs hkind => .bind (.step h hkind) fun _ c d h => ?_
  refine .current h fun x xs hx => .ite (fun _ => ?_) fun _ => ?_
  · refine .bind (.step h hx) fun _ c d h => ?_
    refine .bind_current (takeAll_within h) fun name x xs c d h hx => ?_
    refine .orElse fun _ => .bind (.pass h hx) fun _ c d h => ?_
    split
    · exact propertyMembers_follows h _ _
    · exact propertyMembers_follows h _ _
  · refine .orElse fun _ => .bind (.step h hx) fun _ c d h => ?_
    exact propertyMembers_follows h _ _

theorem readBoundary_follows (h : c.Extends d) : Follows c d readBoundary readBoundary := by
  refine .flags h (.get (.peek ?_))
  simp only [ne_eq, h.head?_eq_some_iff (x := '\x7b') (by decide)]
  refine .ite (fun _ => .pure h _) fun hbrace => ?_
  obtain ⟨xs, hc⟩ := List.head?_eq_some_iff.mp (Decidable.not_not.mp hbrace)
  refine .bind (.step h hc) fun _ c' d' h' => .current h' fun x xs hx => ?_
  refine .ite (fun _ => ?_) fun _ => ?_
  · exact .bind (.set h c' d') fun _ _ _ h => .pure h _
  · refine .bind_current (takeAll_within h') fun name x xs c d h hx => ?_
    refine .orElse fun _ => .bind (.pass h hx) fun _ c d h => ?_
    split
    all_goals first | exact .pure h _ | exact .fails

theorem readEscape_follows (h : c.Extends d) (hc : c.rest = x :: xs) :
    Follows c d readEscape readEscape := by
  refine .bind (.pass h hc) fun _ c d h => .current h fun x xs hx => .flags h ?_
  refine .ite (fun _ => readHex_follows h) fun _ => .ite (fun _ => ?_) fun _ => ?_
  · exact .bind_pure (readProperty_follows h) _
  · refine .bind (.pass h hx) fun _ c d h => ?_
    split
    · exact .pure h _
    · refine .ite (fun _ => .pure h _) fun _ => ?_
      split
      all_goals first
        | exact .pure h _
        | exact readBoundary_follows h
        | exact .fails

theorem readSetAtom_follows (h : c.Extends d) : Follows c d readSetAtom readSetAtom := by
  refine .current h fun x xs hx => .ite (fun _ => readEscape_follows h hx) fun _ => ?_
  exact .bind (.pass h hx) fun _ _ _ h => .pure h _

/-- What stands after the next character is the same, unless that is the tail's first character. -/
theorem peekAfter_bind (h : c.Extends d) (hc : c.rest = x :: xs)
    {k k' : Option Char → Reading α}
    (hk : ∀ y y', (∀ z ≠ ')', y' = some z ↔ y = some z) → FollowsIf P c d (k y) (k' y')) :
    FollowsIf P c d (peekAfter >>= k) (peekAfter >>= k') := by
  obtain ⟨more, hmore, hd⟩ := h.rest_eq hc
  have hafter : ∃ more', IsTail more' ∧
      (if c.flags.extended then dropBlanks false (xs ++ more) else xs ++ more) =
        (if c.flags.extended then dropBlanks false xs else xs) ++ more' := by
    split
    · exact dropBlanks_append hmore false xs
    · exact ⟨more, hmore, rfl⟩
  obtain ⟨more', hmore', hafter⟩ := hafter
  refine .get (hk _ _ fun z hz => ?_)
  simp only [hd, hc, h.flags, List.drop_succ_cons, List.drop_zero, hafter]
  exact hmore'.head?_append hz _

theorem readSetItem_follows (h : c.Extends d) : Follows c d readSetItem readSetItem := by
  refine .bind (readSetAtom_follows h) fun first c d h => .bind (.passBlanks h) fun _ c d h => ?_
  refine .flags h (.current h fun x xs hx => peekAfter_bind h hx fun y y' hy => ?_)
  simp only [hy ']' (by decide), hy '-' (by decide)]
  refine .ite (fun _ => ?_) fun _ => ?_
  · split
    · exact .pure h _
    · exact .bind_pure (setLiteral_follows h _ _) _
  · refine .bind (.step h hx) fun _ c d h => .discard_current h fun x xs hx => ?_
    refine .bind (readSetAtom_follows h) fun last c d h => ?_
    refine .bind (setLiteral_follows h _ first) fun low c d h => ?_
    refine .bind (setLiteral_follows h _ last) fun high c d h => ?_
    exact .orElse fun _ => .pure h _

/-- Hyphens are passed alike, unless the source ends with them. -/
theorem passHyphens_within {n m : Nat} (h : c.Extends d) (hn : c.rest.length ≤ n) (hnm : n ≤ m)
    (items : CharClass) : FollowsWithin c d (passHyphens n items) (passHyphens m items) := by
  induction n generalizing m c d items with
  | zero =>
      rintro found c' hrun hleft
      cases hrun
      exact absurd (List.eq_nil_of_length_eq_zero (Nat.le_zero.mp hn)) hleft
  | succ n ih =>
      obtain ⟨m, rfl⟩ := Nat.exists_eq_add_of_lt hnm
      refine .current h fun x xs hx => .ite (fun _ => ?_) fun _ => .pure h items
      rw [hx, List.length_cons] at hn
      exact .step_bind h hx fun c' d' h hlength => ih h (by omega) (by omega) _

theorem readSetOpen_follows (h : c.Extends d) (hc : c.rest = x :: xs) :
    Follows c d readSetOpen readSetOpen := by
  refine .bind (.step h hc) fun _ c d h => .current h fun x xs hx => ?_
  refine .optional h (fun _ => .step h hx) fun c d h => .discard_current h fun x xs hx => ?_
  refine .remaining (.bind_current (passHyphens_within h (Nat.le_refl _) h.length_le _) ?_)
  refine fun items x xs c d h hx => .ite (fun _ => ?_) fun _ => .pure h _
  refine .bind (.step h hx) fun _ c d h => .discard_current h fun x xs hx => ?_
  exact .pure h _

theorem namedClass?_append (hmore : IsTail more) (negated : Bool) (rest : List Char) :
    namedClass? negated (rest ++ more) =
      (namedClass? negated rest).map fun found => (found.1, found.2 ++ more) := by
  have hnone : more.dropWhile (· ≠ ':') = [] := by
    rcases hmore with rfl | rfl <;> rfl
  rw [namedClass?, namedClass?, List.dropWhile_append]
  cases hdrop : rest.dropWhile (· ≠ ':') with
  | nil =>
      rw [hnone]
      rfl
  | cons x xs =>
      have htake : (rest ++ more).takeWhile (· ≠ ':') = rest.takeWhile (· ≠ ':') := by
        rw [List.takeWhile_append, if_neg]
        intro hlength
        have hsplit := List.takeWhile_append_dropWhile (p := (· ≠ ':')) (l := rest)
        have hsum := congrArg List.length hsplit
        rw [List.length_append, hdrop, hlength, List.length_cons] at hsum
        omega
      rw [htake, List.isEmpty_cons, if_neg Bool.false_ne_true]
      by_cases hmark : ∃ after, x :: xs = ':' :: ']' :: after
      · obtain ⟨after, rfl, rfl⟩ := hmark
        cases CharClass.ofAsciiName? (String.ofList (rest.takeWhile (· ≠ ':'))) <;> rfl
      · split
        · rename_i h
          have hno (after : List Char) : x :: xs ≠ ':' :: ']' :: after := fun h => hmark ⟨after, h⟩
          exact absurd h (hmore.ne_cons_cons (by decide) hno _)
        · split
          · rename_i h
            exact absurd ⟨_, h⟩ hmark
          · rfl

theorem asciiClass?_append (hmore : IsTail more) (rest : List Char) :
    asciiClass? (rest ++ more) =
      (asciiClass? rest).map fun found => (found.1, found.2 ++ more) := by
  fun_cases asciiClass? rest with
  | case1 rest => exact namedClass?_append hmore true rest
  | case2 rest hnegated =>
      rw [← namedClass?_append hmore false rest, List.cons_append, List.cons_append, asciiClass?]
      intro tail htail
      have hno (tail : List Char) : ':' :: rest ≠ ':' :: '^' :: tail :=
        fun h => hnegated tail (List.cons.inj h).2
      exact hmore.ne_cons_cons (by decide) hno tail (by rw [htail])
  | case3 _ _ hno =>
      cases rest with
      | nil => rcases hmore with rfl | rfl <;> rfl
      | cons x xs =>
          rw [List.cons_append, asciiClass?.eq_def]
          split
          · rename_i hopen
            exact absurd hopen (hmore.ne_cons_cons (by decide) hno _)
          · rename_i hopen
            exact absurd hopen (hmore.ne_cons_cons (by decide) hno _)
          · rfl

theorem readSetRest_follows {n m : Nat} (h : c.Extends d) (hnm : n ≤ m) (negated : Bool)
    (items : CharClass) (pending : Option (SetOp × CharClass)) :
    Follows c d (readSetRest n negated items pending) (readSetRest m negated items pending) := by
  induction n generalizing m c d negated items pending with
  | zero => exact .fails
  | succ n ih =>
      obtain ⟨m, rfl⟩ := Nat.exists_eq_add_of_lt hnm
      refine .bind (.passBlanks h) fun _ c d h => .flags h (.get ?_)
      have hnm : n ≤ n + m := Nat.le_add_right n m
      cases hc : c.rest with
      | nil => exact .fails
      | cons x xs =>
          obtain ⟨more, hmore, hd⟩ := h.rest_eq hc
          rw [hd]
          split
          · contradiction
          · rename_i heq
            cases heq
            have hclass := asciiClass?_append hmore ('[' :: xs)
            rw [List.cons_append] at hclass
            dsimp only
            rw [hclass]
            cases asciiClass? ('[' :: xs) with
            | none =>
                refine .bind (readSetOpen_follows h hc) fun opened c d h => ?_
                exact .bind (ih h hnm _ _ _) fun inner c d h => ih h hnm _ _ _
            | some found =>
                refine .bind (.set (h.withRest ⟨more, hmore, rfl⟩) c d) fun _ c d h => ?_
                exact ih h hnm _ _ _
          · rename_i heq
            cases heq
            exact .bind (.pass h hc) fun _ c d h => .orElse fun _ => .pure h _
          iterate 3
            · rename_i heq
              cases heq
              exact .bind (.modify (h.drop (by simp [hc]))) fun _ c d h => ih h hnm _ _ _
          · -- What is no mark in the source is none before the tail.
            rename_i hopen hclose hboth hless heither
            split
            · contradiction
            · rename_i heq
              exact absurd (congrArg (· :: xs) (List.cons.inj heq).1) (hopen xs)
            · rename_i heq
              exact absurd (congrArg (· :: xs) (List.cons.inj heq).1) (hclose xs)
            · rename_i heq
              exact absurd heq (hmore.ne_cons_cons (by decide) hboth _)
            · rename_i heq
              exact absurd heq (hmore.ne_cons_cons (by decide) hless _)
            · rename_i heq
              exact absurd heq (hmore.ne_cons_cons (by decide) heither _)
            · exact .bind (readSetItem_follows h) fun item c d h => ih h hnm _ _ _

theorem readSet_follows (h : c.Extends d) (hc : c.rest = x :: xs) :
    Follows c d readSet readSet := by
  have hlength : c.rest.length ≤ d.rest.length := h.length_le
  refine .remaining (.bind (readSetOpen_follows h hc) fun opened c d h => ?_)
  exact readSetRest_follows h hlength _ _ _

theorem readFlags_follows {n m : Nat} (h : c.Extends d) (hnm : n ≤ m) (seen : List Char)
    (flags : Flags) : Follows c d (readFlags n seen flags) (readFlags m seen flags) := by
  induction n generalizing m c d seen flags with
  | zero => exact .fails
  | succ n ih =>
      obtain ⟨m, rfl⟩ := Nat.exists_eq_add_of_lt hnm
      have hnm : n ≤ n + m := Nat.le_add_right n m
      refine .current h fun x xs hx => .ite (fun _ => ?_) fun _ => ?_
      · exact .orElse fun _ => .pure h _
      · refine .orElse fun _ => .bind (.pass h hx) fun _ c d h => .ite (fun _ => ih h hnm _ _) ?_
        intro _
        split
        · exact ih h hnm _ _
        · exact .fails

theorem readName_follows (h : c.Extends d) : Follows c d readName readName := by
  obtain ⟨more, hmore, hd⟩ := h.rest
  refine .get ?_
  by_cases hlength : (c.rest.takeWhile (· ≠ '>')).length = c.rest.length
  · -- The name is not closed.
    simp only [hlength, decide_true, Bool.or_true, if_true]
    exact .fails_bind
  · have htake : d.rest.takeWhile (· ≠ '>') = c.rest.takeWhile (· ≠ '>') := by
      rw [hd, List.takeWhile_append, if_neg hlength]
    have hle := (List.takeWhile_prefix (l := c.rest) (· ≠ '>')).length_le
    have hne := Nat.ne_of_lt (Nat.lt_of_lt_of_le (Nat.lt_of_le_of_ne hle hlength) h.length_le)
    simp only [htake, h.names, hlength, hne]
    refine .orElse fun _ => .set ?_ c d
    exact ⟨(h.drop (Nat.succ_le_of_lt (Nat.lt_of_le_of_ne hle hlength))).rest, rfl, h.flags⟩

theorem readOpening_follows (h : c.Extends d) (hc : c.rest = x :: xs) :
    Follows c d readOpening readOpening := by
  refine .bind (.step h hc) fun _ c d h => ?_
  refine .bind (.forIn h fun form hform c d h => .get ?_) fun _ c d h => ?_
  · obtain ⟨more, hmore, hd⟩ := h.rest
    have hclose : ')' ∉ form.toList := by revert form; decide
    rw [hd, isPrefixOf_append hmore hclose]
    exact .orElse fun _ => .pure h _
  · refine .bind (.passIf h (by decide)) fun named c d h => .ite
      (fun _ => .bind (.pure h _) fun named c d h => ?_)
      fun _ => .bind (.passIf h (by decide)) fun named c d h => ?_
    all_goals
      refine .ite (fun _ => .bind (readName_follows h) fun _ _ _ h => .pure h _) fun _ => ?_
      refine .bind (.passIf h (by decide)) fun marked c d h => ?_
      refine .ite (fun _ => ?_) fun _ => .pure h _
      have hlength := Nat.succ_le_succ h.length_le
      refine .remaining (.flags h (.bind (readFlags_follows h hlength _ _) fun read c d h => ?_))
      refine .current h fun x xs hx => .bind (.pass h hx) fun _ c d h => .orElse fun _ => ?_
      exact .bind (.setFlags h _) fun _ _ _ h => .pure h _

theorem Cursor.Extends.dropWhile_isWhiteSpace (h : c.Extends d) :
    Cursor.Extends { c with rest := c.rest.dropWhile Text.isWhiteSpace }
      { d with rest := d.rest.dropWhile Text.isWhiteSpace } := by
  obtain ⟨more, hmore, hd⟩ := h.rest
  refine h.withRest ⟨more, hmore, ?_⟩
  rw [hd, List.dropWhile_append]
  split
  · rename_i hempty
    rw [List.isEmpty_iff.mp hempty, hmore.dropWhile_isWhiteSpace, List.nil_append]
  · rfl

theorem Cursor.Extends.isWhiteSpace_head? (h : c.Extends d) :
    (d.rest.head?.map Text.isWhiteSpace).getD false =
      (c.rest.head?.map Text.isWhiteSpace).getD false := by
  cases hc : c.rest with
  | nil =>
      obtain ⟨more, rfl | rfl, hd⟩ := h.rest
      · rw [hd, hc, List.append_nil]
      · rw [hd, hc]
        decide
  | cons x xs => rw [h.head?_eq hc, List.head?_cons]

theorem readCount_follows (h : c.Extends d) : Follows c d readCount readCount := by
  refine .bind (.modify h.dropWhile_isWhiteSpace) fun _ c d h => ?_
  refine .bind (takeAll_follows h (by decide)) fun digits c d h => ?_
  refine .bind (.modify ?_) fun _ c d h => .bind (.passBlanks h) fun _ c d h => ?_
  · rw [h.isWhiteSpace_head?]
    split
    · exact h.dropWhile_isWhiteSpace
    · exact h
  · exact .orElse fun _ => .pure h _

theorem readBounds_follows (h : c.Extends d) (hc : c.rest = x :: xs) :
    Follows c d readBounds readBounds := by
  refine .bind (.step h hc) fun _ c d h => .discard_current h fun x xs hx => ?_
  refine .bind (readCount_follows h) fun least c d h => .current h fun x xs hx => ?_
  -- Each of the three ways to the upper bound goes on alike.
  refine .ite (fun _ => .bind (.step h hx) fun _ c d h => .current h fun x xs hx => .ite
    (fun _ => .bind (.pure h _) fun most c d h => ?_)
    fun _ => .bind (readCount_follows h) fun _ c d h => .bind (.pure h _) fun most c d h => ?_)
    fun _ => .bind (.pure h _) fun most c d h => ?_
  all_goals
    refine .current h fun x xs hx => .orElse fun _ => .bind (.step h hx) fun _ c d h => ?_
    split
    · exact .orElse fun _ => .pure h _
    · exact .pure h _

theorem readRepetition_follows (h : c.Extends d) (hc : c.rest = x :: xs) :
    Follows c d readRepetition readRepetition := by
  refine .peek ?_
  rw [h.head?_eq hc, hc, List.head?_cons]
  split
  case' h_4 => refine .bind (readBounds_follows h hc) fun _ c d h => ?_
  case' h_1 | h_2 | h_3 => refine .bind (.pass h hc) fun _ c d h => ?_
  all_goals
    refine .bind (.pure h _) fun bounds c d h => ?_
    exact .optional h (fun _ => .discard (.passIf h (by decide))) fun c d h => .pure h _

/-- Where there is no repetition, nothing has been read. -/
theorem eq_of_run_readRepetition {c' : Cursor} (h : readRepetition.run c = some (none, c')) :
    c' = c := by
  simp only [readRepetition, peek, StateT.run_bind, StateT.run_get, Option.pure_def,
    Option.bind_eq_bind, Option.bind_some, StateT.run_pure, pure_bind] at h
  split at h
  · simp [pass] at h
  · simp [pass] at h
  · simp [pass] at h
  · simp [Option.bind_eq_some_iff] at h
  · simpa [eq_comm] using h

/-- The branches of a source are read alike before its tail, with any more fuel. -/
theorem readBranches_follows {n m : Nat} (h : c.Extends d) (hnm : n ≤ m) (pieces : List Piece)
    (branches : List (Regex × Nat)) :
    Follows c d (readBranches n pieces branches) (readBranches m pieces branches) := by
  induction n generalizing m c d pieces branches with
  | zero => exact .fails
  | succ n ih =>
      obtain ⟨m, rfl⟩ := Nat.exists_eq_add_of_lt hnm
      have hnm : n ≤ n + m := Nat.le_add_right n m
      refine .bind (.passBlanks h) fun _ c d h => .peek ?_
      cases hc : c.rest with
      | nil =>
          obtain ⟨more, rfl | rfl, hd⟩ := h.rest
          · rw [hd, hc]
            exact .pure h _
          · rw [hd, hc]
            exact .pure h _
      | cons x xs =>
          rw [h.head?_eq hc, List.head?_cons]
          split
          · contradiction
          · exact .pure h _
          · exact .bind (.pass h hc) fun _ c d h => ih h hnm _ _
          · refine .flags h (.bind (readOpening_follows h hc) fun opening c d h => ?_)
            split
            · exact ih h hnm _ _
            · refine .bind (ih h hnm _ _) fun group c d h => .current h fun x xs hx => ?_
              refine .orElse fun _ => .bind (.pass h hx) fun _ c d h => ?_
              exact .bind (.setFlags h _) fun _ c d h => ih h hnm _ _
          · exact .bind (readSet_follows h hc) fun members c d h => ih h hnm _ _
          · refine .flags h (dotRegex_bind fun regex => .bind (.pass h hc) fun _ c d h => ?_)
            exact ih h hnm _ _
          · exact .bind (.pass h hc) fun _ c d h => .flags h (ih h hnm _ _)
          · exact .bind (.pass h hc) fun _ c d h => .flags h (ih h hnm _ _)
          · refine .bind (readEscape_follows h hc) fun atom c d h => .flags h ?_
            exact .bind (atomRegex_follows h _ _) fun regex c d h => ih h hnm _ _
          · refine .bind_run (readRepetition_follows h hc) fun bounds c' d' hrun h => ?_
            split
            · split
              · exact .orElse fun _ => ih h hnm _ _
              · exact .fails
            · rw [← eq_of_run_readRepetition hrun] at hc
              refine .bind (.pass h hc) fun _ c d h => .flags h ?_
              exact .bind (atomRegex_follows h _ _) fun regex c d h => ih h hnm _ _

end Pattern

end FlowTyping
