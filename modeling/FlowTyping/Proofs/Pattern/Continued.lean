import FlowTyping.Pattern.Read
import Mathlib.Data.List.Basic

/-!
Two readings side by side: one of a source, and one of the same source with what closes a group and
the text after it. The second follows the first as long as it meets the same characters. Only where
blanks are ignored can the two texts come to differ, since a comment at the end of the source also
takes what stands after it.
-/

namespace FlowTyping

namespace Pattern

variable {α β : Type} {more : List Char} {c d : Cursor} {x : Char} {xs : List Char}

/-- What may stand after a source: nothing, or what closes the group around it and the text. -/
def IsTail (more : List Char) : Prop := more = [] ∨ more = [')', '$']

theorem IsTail.head?_append (h : IsTail more) (hx : x ≠ ')') (rest : List Char) :
    (rest ++ more).head? = some x ↔ rest.head? = some x := by
  cases rest with
  | nil =>
      rcases h with rfl | rfl
      · rfl
      · simpa using hx.symm
  | cons y ys => rw [List.cons_append, List.head?_cons, List.head?_cons]

/-- Two characters begin a source with its tail only if they begin the source, unless the second one
closes. -/
theorem IsTail.ne_cons_cons (h : IsTail more) {y z : Char} (hz : z ≠ ')')
    (hxs : ∀ tail, x :: xs ≠ y :: z :: tail) (tail : List Char) :
    x :: (xs ++ more) ≠ y :: z :: tail := by
  intro heq
  obtain ⟨rfl, hrest⟩ := List.cons.inj heq
  obtain ⟨ws, rfl⟩ : ∃ ws, xs = z :: ws := by
    rw [← List.head?_eq_some_iff, ← h.head?_append hz, hrest, List.head?_cons]
  exact hxs ws rfl

theorem IsTail.dropWhile_isWhiteSpace (h : IsTail more) :
    more.dropWhile Text.isWhiteSpace = more := by
  rcases h with rfl | rfl
  · rfl
  · rw [List.dropWhile_cons_of_neg (by decide)]

/-- The second cursor stands where the first one does, in a source that may go on. -/
structure Cursor.Extends (c d : Cursor) : Prop where
  rest : ∃ more, IsTail more ∧ d.rest = c.rest ++ more
  names : d.names = c.names
  flags : d.flags = c.flags

theorem Cursor.Extends.rest_eq (h : c.Extends d) (hc : c.rest = x :: xs) :
    ∃ more, IsTail more ∧ d.rest = x :: (xs ++ more) := by
  obtain ⟨more, hmore, hrest⟩ := h.rest
  exact ⟨more, hmore, by rw [hrest, hc, List.cons_append]⟩

theorem Cursor.Extends.length_le (h : c.Extends d) : c.rest.length ≤ d.rest.length := by
  obtain ⟨more, -, hd⟩ := h.rest
  rw [hd, List.length_append]
  exact Nat.le_add_right _ _

theorem Cursor.Extends.head?_eq (h : c.Extends d) (hc : c.rest = x :: xs) :
    d.rest.head? = some x := by
  obtain ⟨more, -, hrest⟩ := h.rest_eq hc
  rw [hrest, List.head?_cons]

theorem Cursor.Extends.head?_eq_some_iff (h : c.Extends d) (hx : x ≠ ')') :
    d.rest.head? = some x ↔ c.rest.head? = some x := by
  obtain ⟨more, hmore, hd⟩ := h.rest
  rw [hd, hmore.head?_append hx]

/-- Cursors that differ from these in what is left of the source only. -/
theorem Cursor.Extends.withRest (h : c.Extends d) {rest rest' : List Char}
    (hrest : ∃ more, IsTail more ∧ rest' = rest ++ more) :
    Cursor.Extends { c with rest := rest } { d with rest := rest' } :=
  ⟨hrest, h.names, h.flags⟩

theorem Cursor.Extends.drop (h : c.Extends d) {n : Nat} (hn : n ≤ c.rest.length) :
    Cursor.Extends { c with rest := c.rest.drop n } { d with rest := d.rest.drop n } := by
  obtain ⟨more, hmore, hd⟩ := h.rest
  exact h.withRest ⟨more, hmore, by rw [hd, List.drop_append_of_le_length hn]⟩

theorem Cursor.Extends.withFlags (h : c.Extends d) (flags : Flags) :
    Cursor.Extends { c with flags := flags } { d with flags := flags } :=
  ⟨h.rest, h.names, rfl⟩

theorem run_peek : peek.run c = some (c.rest.head?, c) := rfl

theorem run_current_nil (hc : c.rest = []) : current.run c = none := by
  simp only [current, peek, StateT.run_bind, StateT.run_get, StateT.run_pure, Option.pure_def,
    Option.bind_eq_bind, Option.bind_some, hc]
  rfl

theorem run_current_cons (hc : c.rest = x :: xs) : current.run c = some (x, c) := by
  simp only [current, peek, StateT.run_bind, StateT.run_get, StateT.run_pure, Option.pure_def,
    Option.bind_eq_bind, Option.bind_some, hc, List.head?_cons]

/-- Where the first reading gives a value and ends in a cursor with the property, the second one
gives the same value, and ends in a cursor that extends the one where the first ends. -/
def FollowsIf (P : Cursor → Prop) (c d : Cursor) (f g : Reading α) : Prop :=
  ∀ a c', f.run c = some (a, c') → P c' → ∃ d', g.run d = some (a, d') ∧ c'.Extends d'

/-- The second reading follows the first wherever that ends. -/
abbrev Follows (c d : Cursor) (f g : Reading α) : Prop := FollowsIf (fun _ => True) c d f g

/-- The second reading follows the first unless that one uses up the source. -/
abbrev FollowsWithin (c d : Cursor) (f g : Reading α) : Prop :=
  FollowsIf (fun c' => c'.rest ≠ []) c d f g

variable {P : Cursor → Prop} {f f' : Reading α} {g g' : α → Reading β} {p : Prop} [Decidable p]
  {A A' B B' : Reading β}

namespace FollowsIf

theorem pure (h : c.Extends d) (a : α) : FollowsIf P c d (pure a) (pure a) := by
  rintro b c' hrun -
  cases hrun
  exact ⟨d, rfl, h⟩

theorem fails : FollowsIf P c d (failure : Reading α) f' := nofun

/-- A reading before another one has to be followed to those ends only from which the other gets
on. -/
theorem bind_if {Q : Cursor → Prop} (hf : FollowsIf Q c d f f')
    (hQ : ∀ a c' b c'', (g a).run c' = some (b, c'') → P c'' → Q c')
    (hg : ∀ a c' d', f.run c = some (a, c') → c'.Extends d' → FollowsIf P c' d' (g a) (g' a)) :
    FollowsIf P c d (f >>= g) (f' >>= g') := by
  intro b c'' hrun hP
  rw [StateT.run_bind] at hrun
  obtain ⟨⟨a, c'⟩, hfc, hgc⟩ := Option.bind_eq_some_iff.mp hrun
  obtain ⟨d', hfd, hcd'⟩ := hf a c' hfc (hQ a c' b c'' hgc hP)
  obtain ⟨d'', hgd, hcd''⟩ := hg a c' d' hfc hcd' b c'' hgc hP
  refine ⟨d'', ?_, hcd''⟩
  rw [StateT.run_bind, hfd]
  exact hgd

theorem bind_run (hf : Follows c d f f')
    (hg : ∀ a c' d', f.run c = some (a, c') → c'.Extends d' → FollowsIf P c' d' (g a) (g' a)) :
    FollowsIf P c d (f >>= g) (f' >>= g') :=
  bind_if hf (fun _ _ _ _ _ _ => trivial) hg

theorem bind (hf : Follows c d f f')
    (hg : ∀ a c' d', c'.Extends d' → FollowsIf P c' d' (g a) (g' a)) :
    FollowsIf P c d (f >>= g) (f' >>= g') :=
  bind_run hf fun a c' d' _ => hg a c' d'

theorem bind_pure (hf : FollowsIf P c d f f') (t : α → β) :
    FollowsIf P c d (do return t (← f)) (do return t (← f')) := by
  refine bind_if hf (fun a c' b c'' hrun hP => ?_) fun _ _ _ _ h => pure h _
  cases hrun
  exact hP

theorem fails_bind : FollowsIf P c d ((failure : Reading α) >>= g) A := nofun

theorem ite (hA : p → FollowsIf P c d A A') (hB : ¬p → FollowsIf P c d B B') :
    FollowsIf P c d (if p then A else B) (if p then A' else B') := by
  by_cases hp : p
  · rw [if_pos hp, if_pos hp]
    exact hA hp
  · rw [if_neg hp, if_neg hp]
    exact hB hp

/-- A reading that gives up under a condition is followed where the rest of it is. -/
theorem orElse (hA : ¬p → FollowsIf P c d A A') {k k' : α → Reading β} :
    FollowsIf P c d (if p then failure >>= k else A) (if p then failure >>= k' else A') :=
  ite (fun _ => fails_bind) hA

/-- A step that is taken under a condition, before what is read in any case. -/
theorem optional {u u' : Reading Unit} {k k' : Unit → Reading β} (h : c.Extends d)
    (hu : p → Follows c d u u')
    (hk : ∀ c' d', c'.Extends d' → FollowsIf P c' d' (k ()) (k' ())) :
    FollowsIf P c d (if p then u >>= k else k ()) (if p then u' >>= k' else k' ()) :=
  ite (fun hp => bind (hu hp) fun _ => hk) fun _ => hk c d h

/-- A loop whose rounds are followed from wherever they begin. -/
theorem forIn (h : c.Extends d) {items : List β} {body : β → PUnit → Reading (ForInStep PUnit)}
    (hbody : ∀ item ∈ items, ∀ c d, c.Extends d → Follows c d (body item ⟨⟩) (body item ⟨⟩)) :
    Follows c d (forIn items PUnit.unit body) (forIn items PUnit.unit body) := by
  induction items generalizing c d with
  | nil => exact pure h _
  | cons item items ih =>
      rw [List.forIn_cons]
      refine bind (hbody item List.mem_cons_self c d h) fun next c d h => ?_
      cases next with
      | done _ => exact pure h _
      | yield _ => exact ih h fun item hitem => hbody item (List.mem_cons_of_mem _ hitem)

theorem get {k k' : Cursor → Reading β} (hk : FollowsIf P c d (k c) (k' d)) :
    FollowsIf P c d (get >>= k) (get >>= k') := hk

theorem peek {k k' : Option Char → Reading β}
    (hk : FollowsIf P c d (k c.rest.head?) (k' d.rest.head?)) :
    FollowsIf P c d (peek >>= k) (peek >>= k') := hk

theorem remaining {k k' : Nat → Reading β}
    (hk : FollowsIf P c d (k c.rest.length) (k' d.rest.length)) :
    FollowsIf P c d (remaining >>= k) (remaining >>= k') := hk

theorem flags (h : c.Extends d) {k k' : Flags → Reading β}
    (hk : FollowsIf P c d (k c.flags) (k' c.flags)) :
    FollowsIf P c d (flags >>= k) (flags >>= k') := by
  intro b c' hrun hP
  obtain ⟨d', hd, hcd'⟩ := hk b c' hrun hP
  refine ⟨d', ?_, hcd'⟩
  rw [← h.flags] at hd
  exact hd

/-- The next character is the same, and the first reading fails where there is none. -/
theorem current (h : c.Extends d) {k k' : Char → Reading β}
    (hk : ∀ x xs, c.rest = x :: xs → FollowsIf P c d (k x) (k' x)) :
    FollowsIf P c d (current >>= k) (current >>= k') := by
  intro b c' hrun hP
  rw [StateT.run_bind] at hrun
  cases hc : c.rest with
  | nil =>
      rw [run_current_nil hc] at hrun
      cases hrun
  | cons x xs =>
      obtain ⟨more, -, hd⟩ := h.rest_eq hc
      rw [run_current_cons hc] at hrun
      rw [StateT.run_bind, run_current_cons hd]
      exact hk x xs hc b c' hrun hP

theorem discard (hf : FollowsIf P c d f f') : FollowsIf P c d (discard f) (discard f') := by
  have hdiscard (f : Reading α) : Functor.discard f = do return (fun _ => ()) (← f) :=
    map_eq_pure_bind _ f
  rw [hdiscard, hdiscard]
  exact bind_pure hf _

theorem discard_current (h : c.Extends d) {k k' : Unit → Reading β}
    (hk : ∀ x xs, c.rest = x :: xs → FollowsIf P c d (k ()) (k' ())) :
    FollowsIf P c d (Functor.discard Pattern.current >>= k)
      (Functor.discard Pattern.current >>= k') := by
  have hdiscard (j : Unit → Reading β) :
      Functor.discard Pattern.current >>= j = Pattern.current >>= fun _ => j () := by
    rw [Functor.discard, map_const, Function.comp_apply, seq_bind_eq]
    rfl
  rw [hdiscard, hdiscard]
  exact current h hk

/-- What looks at the next character after a reading need only be followed where there is one. -/
theorem bind_current (hf : FollowsWithin c d f f') {k k' : α → Char → Reading β}
    (hk : ∀ a x xs c' d', c'.Extends d' → c'.rest = x :: xs →
      FollowsIf P c' d' (k a x) (k' a x)) :
    FollowsIf P c d (f >>= fun a => Pattern.current >>= k a)
      (f' >>= fun a => Pattern.current >>= k' a) := by
  refine bind_if hf (fun a c' b c'' hrun _ hnil => ?_)
    fun a c' d' _ h => current h (hk a · · c' d' h ·)
  rw [StateT.run_bind, run_current_nil hnil] at hrun
  cases hrun

theorem modify {t t' : Cursor → Cursor} (h : (t c).Extends (t' d)) :
    FollowsIf P c d (modify t) (modify t') := by
  rintro ⟨⟩ c' hrun -
  cases hrun
  exact ⟨t' d, rfl, h⟩

theorem set (h : c.Extends d) (b b' : Cursor) : FollowsIf P b b' (set c) (set d) := by
  rintro ⟨⟩ c' hrun -
  cases hrun
  exact ⟨d, rfl, h⟩

theorem setFlags (h : c.Extends d) (flags : Flags) :
    FollowsIf P c d (setFlags flags) (setFlags flags) :=
  modify (h.withFlags flags)

theorem pass (h : c.Extends d) (hc : c.rest = x :: xs) : FollowsIf P c d pass pass :=
  modify (h.drop (by simp [hc]))

end FollowsIf

theorem dropBlanks_append (h : IsTail more) (inComment : Bool) (rest : List Char) :
    ∃ more', IsTail more' ∧
      dropBlanks inComment (rest ++ more) = dropBlanks inComment rest ++ more' := by
  induction inComment, rest using dropBlanks.induct with
  | case1 inComment =>
      -- In a comment the tail is part of it.
      rcases h with rfl | rfl
      · exact ⟨[], .inl rfl, by simp [dropBlanks]⟩
      · cases inComment with
        | true => exact ⟨[], .inl rfl, by decide⟩
        | false => exact ⟨_, .inr rfl, by decide⟩
  | case2 c rest ih => simpa [dropBlanks] using ih
  | case3 c rest hwhite ih => simpa [dropBlanks, hwhite] using ih
  | case4 rest hwhite ih => simpa [dropBlanks, hwhite] using ih
  | case5 c rest hwhite hmark => exact ⟨more, h, by simp [dropBlanks, hwhite, hmark]⟩

theorem length_dropBlanks_le (inComment : Bool) (rest : List Char) :
    (dropBlanks inComment rest).length ≤ rest.length := by
  induction inComment, rest using dropBlanks.induct with
  | case1 inComment => simp [dropBlanks]
  | case2 c rest ih => simpa [dropBlanks] using Nat.le_succ_of_le ih
  | case3 c rest hwhite ih => simpa [dropBlanks, hwhite] using Nat.le_succ_of_le ih
  | case4 rest hwhite ih => simpa [dropBlanks, hwhite] using Nat.le_succ_of_le ih
  | case5 c rest hwhite hmark => simp [dropBlanks, hwhite, hmark]

theorem isPrefixOf_append (h : IsTail more) {expected : List Char} (hexpected : ')' ∉ expected)
    (rest : List Char) : expected.isPrefixOf (rest ++ more) = expected.isPrefixOf rest := by
  induction expected generalizing rest with
  | nil => rfl
  | cons y ys ih =>
      rw [List.mem_cons, not_or] at hexpected
      cases rest with
      | nil =>
          rcases h with rfl | rfl
          · rfl
          · have hne : (y == ')') = false := beq_eq_false_iff_ne.mpr (Ne.symm hexpected.1)
            simp [List.isPrefixOf, hne]
      | cons z zs => rw [List.cons_append, List.isPrefixOf, List.isPrefixOf, ih hexpected.2]

theorem length_of_run_step (hc : c.rest = x :: xs) {c' : Cursor}
    (h : step.run c = some ((), c')) : c'.rest.length ≤ xs.length := by
  cases h
  dsimp only
  split
  · simpa [hc] using length_dropBlanks_le false xs
  · simp [hc]

namespace FollowsIf

theorem passBlanks (h : c.Extends d) : FollowsIf P c d passBlanks passBlanks := by
  refine modify ?_
  obtain ⟨more, hmore, hd⟩ := h.rest
  have hflag : d.flags.extended = c.flags.extended := congrArg Flags.extended h.flags
  rw [hflag, hd]
  split
  · exact h.withRest (dropBlanks_append hmore false c.rest)
  · exact h

theorem step (h : c.Extends d) (hc : c.rest = x :: xs) : FollowsIf P c d step step :=
  bind (pass h hc) fun _ _ _ h => passBlanks h

theorem passIf (h : c.Extends d) {expected : List Char} (hexpected : ')' ∉ expected) :
    FollowsIf P c d (passIf expected) (passIf expected) := by
  obtain ⟨more, hmore, hd⟩ := h.rest
  refine get ?_
  rw [hd, isPrefixOf_append hmore hexpected]
  refine ite (fun hprefix => ?_) fun _ => pure h false
  have hlength := (List.isPrefixOf_iff_prefix.mp hprefix).length_le
  rw [← hd]
  exact bind (set (h.drop hlength) c d) fun _ _ _ h => pure h true

theorem step_bind (h : c.Extends d) (hc : c.rest = x :: xs) {k k' : Unit → Reading β}
    (hk : ∀ c' d', c'.Extends d' → c'.rest.length ≤ xs.length →
      FollowsIf P c' d' (k ()) (k' ())) :
    FollowsIf P c d (Pattern.step >>= k) (Pattern.step >>= k') :=
  bind_run (step h hc) fun _ c' d' hrun h => hk c' d' h (length_of_run_step hc hrun)

end FollowsIf

/-- Nothing is taken where no character is left that may be taken. -/
theorem run_takeSteps_of_stop {keep : Char → Bool} (hstop : ∀ x ∈ c.rest.head?, keep x = false)
    (n : Nat) : (takeSteps keep n).run c = some ([], c) := by
  cases n with
  | zero => rfl
  | succ n =>
      rw [takeSteps, StateT.run_bind, run_peek]
      cases hhead : c.rest.head? with
      | none => rfl
      | some x => simp [hstop x hhead]

/-- With fuel for what is left of the source, characters of a kind are taken alike, up to one of
another kind. The tail can only be told from such characters where it is none of them. -/
theorem takeSteps_followsIf {keep : Char → Bool} {n m : Nat} (h : c.Extends d)
    (hn : c.rest.length ≤ n) (hnm : n ≤ m) :
    FollowsIf (fun c' => keep ')' = true → c'.rest ≠ []) c d (takeSteps keep n)
      (takeSteps keep m) := by
  have hdone {c d : Cursor} (h : c.Extends d) (n m : Nat) (hc : c.rest = []) :
      FollowsIf (fun c' => keep ')' = true → c'.rest ≠ []) c d (takeSteps keep n)
        (takeSteps keep m) := by
    intro taken c' hrun hleft
    rw [run_takeSteps_of_stop (by simp [hc])] at hrun
    cases hrun
    refine ⟨d, run_takeSteps_of_stop (fun x hx => ?_) m, h⟩
    by_contra hkeep
    have hclose : x = ')' := by
      by_contra hne
      have hnone := (h.head?_eq_some_iff hne).mp hx
      rw [hc] at hnone
      cases hnone
    subst hclose
    exact hleft (Bool.not_eq_false _ ▸ hkeep) hc
  induction n generalizing m c d with
  | zero => exact hdone h 0 m (List.eq_nil_of_length_eq_zero (Nat.le_zero.mp hn))
  | succ n ih =>
      cases hc : c.rest with
      | nil => exact hdone h (n + 1) m hc
      | cons x xs =>
          obtain ⟨m, rfl⟩ := Nat.exists_eq_add_of_lt hnm
          rw [hc, List.length_cons] at hn
          refine .peek ?_
          rw [h.head?_eq hc, hc, List.head?_cons]
          refine .ite (fun _ => .step_bind h hc fun c' d' hcd' hlength => ?_) fun _ =>
            .pure h []
          exact .bind_pure (ih hcd' (by omega) (by omega)) _

theorem takeAll_within {keep : Char → Bool} (h : c.Extends d) :
    FollowsWithin c d (takeAll keep) (takeAll keep) :=
  .remaining fun taken c' hrun hleft =>
    takeSteps_followsIf h (Nat.le_refl _) h.length_le taken c' hrun fun _ => hleft

theorem takeAll_follows {keep : Char → Bool} (h : c.Extends d) (hkeep : keep ')' = false) :
    Follows c d (takeAll keep) (takeAll keep) :=
  .remaining fun taken c' hrun _ =>
    takeSteps_followsIf h (Nat.le_refl _) h.length_le taken c' hrun fun hclose =>
      absurd hclose (by simp [hkeep])

end Pattern

end FlowTyping
