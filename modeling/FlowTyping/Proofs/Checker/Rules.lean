import FlowTyping.Proofs.Graph.Valid
import FlowTyping.Proofs.Text.Descriptions

/-!
Lists of implicit rules. One is accepted where the rules for each pattern agree, and refused for the
first rule that disagrees with the first one for its pattern; an accepted one gives a subject the
qualifier of the first rule that matches, so rules that only repeat others decide nothing.
-/

namespace FlowTyping

namespace RulePattern

variable {p q r : RulePattern}

theorem Same.refl (p : RulePattern) : p.Same p := rfl

theorem Same.symm (h : p.Same q) : q.Same p := Eq.symm h

theorem Same.trans (h : p.Same q) (h' : q.Same r) : p.Same r := Eq.trans h h'

/-- A pattern that has a source is what the source is compiled to. -/
def Compiled : RulePattern → Prop
  | fullMatch source regex => ofSource source = .ok (fullMatch source regex)
  | _ => True

theorem compiled_of_resolvePattern {d : PatternDeclaration}
    (h : Checker.resolvePattern d = .ok p) : p.Compiled := by
  cases d with
  | fullMatch source =>
      rw [Checker.resolvePattern, ofSource] at h
      split at h
      · rename_i regex hread
        cases h
        rw [Compiled, ofSource, hread]
      · cases h
  | intRange low high =>
      rw [Checker.resolvePattern, ofRange] at h
      split at h
      · cases h
      · cases h
        trivial
  | literal _ | element _ | any =>
      cases h
      trivial

/-- What a pattern is declared by decides the pattern, and so what it matches. -/
theorem Same.eq (h : p.Same q) (hp : p.Compiled) (hq : q.Compiled) : p = q := by
  cases p <;> cases q <;> cases h
  case fullMatch.fullMatch.refl => exact Except.ok.inj (Eq.trans (Eq.symm hp) hq)
  all_goals rfl

end RulePattern

/-- Leaving out elements that are like earlier ones does not change what is found first, if what is
looked for does not tell them apart. -/
theorem find?_eraseDupsBy {α : Type} {r : α → α → Bool} {p : α → Bool} (l : List α)
    (h : ∀ a ∈ l, ∀ b ∈ l, r b a = true → p b = p a) : (l.eraseDupsBy r).find? p = l.find? p := by
  induction hn : l.length using Nat.strongRecOn generalizing l with
  | ind n ih =>
      cases l with
      | nil => rfl
      | cons a rest =>
          have hsub := List.filter_sublist (p := fun b => decide (r b a = false)) (l := rest)
          have hlt : (rest.filter fun b => decide (r b a = false)).length < n :=
            hn ▸ Nat.lt_succ_of_le hsub.length_le
          have hrest := ih _ hlt _ (fun b hb c hc => h b (List.mem_cons_of_mem a (hsub.subset hb)) c
            (List.mem_cons_of_mem a (hsub.subset hc))) rfl
          rw [List.eraseDupsBy_cons, List.find?_cons, List.find?_cons, hrest]
          cases ha : p a with
          | true => rfl
          | false =>
              -- What is left out is like `a`, which is not what is looked for.
              rw [List.find?_filter]
              refine List.find?_congr fun b hb => ?_
              cases hba : r b a with
              | true =>
                  have hb := h a List.mem_cons_self b (List.mem_cons_of_mem a hb) hba
                  simp [hb, ha]
              | false => simp

namespace ImplicitRules

variable {rules earlier before after rest : List ImplicitRule} {first rule : ImplicitRule}

/-- The first rule of a list that has the pattern of a rule. -/
def firstLike? (rules : List ImplicitRule) (rule : ImplicitRule) : Option ImplicitRule :=
  rules.find? fun r => r.pattern.Same rule.pattern

/-- The first rule of a list that has the pattern of a rule has its qualifier, too. -/
def Agrees (rules : List ImplicitRule) (rule : ImplicitRule) : Prop :=
  ∀ first ∈ firstLike? rules rule, first.qualifier = rule.qualifier

/-- Any two rules of one pattern have one qualifier, wherever they stand. -/
def Consistent (rules : List ImplicitRule) : Prop :=
  ∀ r ∈ rules, ∀ r' ∈ rules, r.pattern.Same r'.pattern → r.qualifier = r'.qualifier

/-- The rules without those whose pattern an earlier rule has. -/
def withoutRepeats (r : ImplicitRules) : ImplicitRules :=
  { r with rules := r.rules.eraseDupsBy fun later earlier => later.pattern.Same earlier.pattern }

theorem firstLike?_eq_text (rules : List ImplicitRule) (rule : ImplicitRule) :
    firstLike? rules rule = rules.find? fun r => r.pattern.text = rule.pattern.text :=
  List.find?_congr fun _ _ => decide_eq_decide.mpr RulePattern.text_eq_iff.symm

theorem firstLike?_some (h : firstLike? rules rule = some first) :
    first ∈ rules ∧ first.pattern.Same rule.pattern := by
  rw [firstLike?] at h
  exact ⟨List.mem_of_find?_eq_some h, by simpa using List.find?_some h⟩

theorem exists_firstLike? (h : rule ∈ rules) : ∃ first, firstLike? rules rule = some first := by
  cases hfound : firstLike? rules rule with
  | some first => exact ⟨first, rfl⟩
  | none =>
      have hnot := List.find?_eq_none.mp hfound rule h
      exact absurd (decide_eq_true (RulePattern.Same.refl rule.pattern)) hnot

theorem firstLike?_congr {rule' : ImplicitRule} (h : rule.pattern.Same rule'.pattern) :
    firstLike? rules rule = firstLike? rules rule' :=
  List.find?_congr fun _ _ => decide_eq_decide.mpr ⟨(·.trans h), (·.trans h.symm)⟩

/-- Up to a rule that disagrees with the first one for its pattern, that one has been met. -/
theorem firstLike?_append_cons (h : first.qualifier ≠ rule.qualifier) :
    firstLike? (before ++ rule :: after) rule = some first ↔
      firstLike? before rule = some first := by
  have hself := decide_eq_true (RulePattern.Same.refl rule.pattern)
  rw [firstLike?, firstLike?, List.find?_append, List.find?_cons, hself, Option.or_eq_some_iff]
  refine ⟨fun hfound => ?_, .inl⟩
  rcases hfound with hbefore | ⟨-, hself⟩
  · exact hbefore
  · cases hself
    exact absurd rfl h

/-- It is enough that every rule agrees with the first one for its pattern. -/
theorem consistent_iff_agrees : Consistent rules ↔ ∀ rule ∈ rules, Agrees rules rule := by
  constructor
  · intro h rule hrule first hfirst
    obtain ⟨hmem, hsame⟩ := firstLike?_some hfirst
    exact h first hmem rule hrule hsame
  · intro h r hr r' hr' hsame
    obtain ⟨first, hfirst⟩ := exists_firstLike? hr
    have hfirst' := (firstLike?_congr hsame).symm.trans hfirst
    exact (h r hr first hfirst).symm.trans (h r' hr' first hfirst')

theorem Consistent.concat_iff (h : Consistent earlier) :
    Consistent (earlier ++ [rule]) ↔ Agrees earlier rule := by
  constructor
  · intro hall first hfirst
    obtain ⟨hmem, hsame⟩ := firstLike?_some hfirst
    exact hall first (List.mem_append_left _ hmem) rule (by simp) hsame
  · intro hagrees
    have hlast {r : ImplicitRule} (hr : r ∈ earlier) (hsame : r.pattern.Same rule.pattern) :
        r.qualifier = rule.qualifier := by
      obtain ⟨first, hfirst⟩ := exists_firstLike? hr
      obtain ⟨hmem, hlike⟩ := firstLike?_some hfirst
      have hrule := hagrees first ((firstLike?_congr hsame).symm.trans hfirst)
      exact (h r hr first hmem hlike.symm).trans hrule
    intro r hr r' hr' hsame
    rcases List.mem_append.mp hr with hr | hr <;> rcases List.mem_append.mp hr' with hr' | hr'
    · exact h r hr r' hr' hsame
    · cases List.mem_singleton.mp hr'
      exact hlast hr hsame
    · cases List.mem_singleton.mp hr
      exact (hlast hr' hsame.symm).symm
    · cases List.mem_singleton.mp hr
      cases List.mem_singleton.mp hr'
      rfl

theorem contradiction?_of_agrees (h : Agrees earlier rule) :
    contradiction? earlier (rule :: rest) = contradiction? (earlier ++ [rule]) rest := by
  rw [Agrees, firstLike?_eq_text] at h
  rw [contradiction?]
  split
  · rename_i first hfirst
    exact if_pos (h first hfirst)
  · rfl

theorem contradiction?_of_disagrees (hfirst : firstLike? earlier rule = some first)
    (h : first.qualifier ≠ rule.qualifier) :
    contradiction? earlier (rule :: rest) = some (first, rule) := by
  rw [firstLike?_eq_text] at hfirst
  rw [contradiction?, hfirst]
  exact if_neg h

theorem agrees_or_exists (earlier : List ImplicitRule) (rule : ImplicitRule) :
    Agrees earlier rule ∨
      ∃ first, firstLike? earlier rule = some first ∧ first.qualifier ≠ rule.qualifier := by
  by_cases h : Agrees earlier rule
  · exact .inl h
  · simp only [Agrees, not_forall, exists_prop] at h
    exact .inr h

/-- The search stops at the first rule that disagrees, or else all rules agree. -/
theorem contradiction?_cases (h : Consistent earlier) (rules : List ImplicitRule) :
    (contradiction? earlier rules = none ∧ Consistent (earlier ++ rules)) ∨
      ∃ before rule after first, rules = before ++ rule :: after ∧
        Consistent (earlier ++ before) ∧ firstLike? (earlier ++ before) rule = some first ∧
        first.qualifier ≠ rule.qualifier ∧ contradiction? earlier rules = some (first, rule) := by
  induction rules generalizing earlier with
  | nil => exact .inl ⟨rfl, by simpa using h⟩
  | cons rule rest ih =>
      rcases agrees_or_exists earlier rule with hagrees | ⟨first, hfirst, hne⟩
      · rw [contradiction?_of_agrees hagrees]
        rcases ih (h.concat_iff.mpr hagrees) with hnone | ⟨before, found, after, first, heq, hall⟩
        · exact .inl (by simpa using hnone)
        · exact .inr ⟨rule :: before, found, after, first, by rw [heq, List.cons_append],
            by simpa using hall⟩
      · exact .inr ⟨[], rule, rest, first, rfl, by simpa using h, by simpa using hfirst, hne,
          contradiction?_of_disagrees hfirst hne⟩

/-- A rule disagrees with the first one for its pattern, and no rule before it does. -/
structure Clashes (rules : List ImplicitRule) (first rule : ImplicitRule) : Prop where
  earliest : ∃ before after, rules = before ++ rule :: after ∧ ∀ r ∈ before, Agrees rules r
  isFirst : firstLike? rules rule = some first
  ne : first.qualifier ≠ rule.qualifier

theorem agrees_append_iff {more : List ImplicitRule} (h : rule ∈ rules) :
    Agrees (rules ++ more) rule ↔ Agrees rules rule := by
  obtain ⟨first, hfirst⟩ := exists_firstLike? h
  have hmore : firstLike? (rules ++ more) rule = some first := by
    rw [firstLike?, List.find?_append, ← firstLike?, hfirst, Option.some_or]
  rw [Agrees, Agrees, hfirst, hmore]

theorem Clashes.not_consistent (h : Clashes rules first rule) : ¬ Consistent rules := by
  intro hall
  obtain ⟨hmem, hsame⟩ := firstLike?_some h.isFirst
  obtain ⟨before, after, rfl, -⟩ := h.earliest
  exact h.ne (hall first hmem rule (by simp) hsame)

/-- The rules agree, or else one of them is the first to clash. -/
theorem contradiction?_spec (rules : List ImplicitRule) :
    (contradiction? [] rules = none ∧ Consistent rules) ∨
      ∃ first rule, contradiction? [] rules = some (first, rule) ∧ Clashes rules first rule := by
  have hempty : Consistent [] := by simp [Consistent]
  rcases contradiction?_cases hempty rules with
    hnone | ⟨before, rule, after, first, rfl, hbefore, hfirst, hne, hfound⟩
  · exact .inl hnone
  · refine .inr ⟨first, rule, hfound, ⟨before, after, rfl, fun r hr => ?_⟩, ?_, hne⟩
    · exact (agrees_append_iff hr).mpr (consistent_iff_agrees.mp hbefore r hr)
    · exact (firstLike?_append_cons hne).mpr hfirst

/-- No two rules are the first to clash. -/
theorem Clashes.unique {first' rule' : ImplicitRule} (h : Clashes rules first rule)
    (h' : Clashes rules first' rule') : first = first' ∧ rule = rule' := by
  obtain ⟨before, after, rfl, hagree⟩ := h.earliest
  obtain ⟨before', after', heq, hagree'⟩ := h'.earliest
  have hnot (hmem : rule ∈ before') : False := h.ne (hagree' rule hmem first h.isFirst)
  have hnot' (hmem : rule' ∈ before) : False := h'.ne (hagree rule' hmem first' h'.isFirst)
  have hrule : rule = rule' := by
    rcases List.append_eq_append_iff.mp heq with ⟨more, hbefore', hrest⟩ | ⟨more, hbefore, hrest⟩
    · cases more with
      | nil => exact (List.cons.inj hrest).1
      | cons r more =>
          obtain ⟨rfl, -⟩ := List.cons.inj hrest
          exact (hnot (hbefore' ▸ by simp)).elim
    · cases more with
      | nil => exact (List.cons.inj hrest).1.symm
      | cons r more =>
          obtain ⟨rfl, -⟩ := List.cons.inj hrest
          exact (hnot' (hbefore ▸ by simp)).elim
  subst hrule
  exact ⟨Option.some.inj (h.isFirst.symm.trans h'.isFirst), rfl⟩

theorem find?_eq_some_iff {accepted : ImplicitRules} {s : Subject} {q : Qualifier} :
    accepted.find? s = some q ↔ ∃ before rule after, accepted.rules = before ++ rule :: after ∧
      (∀ r ∈ before, r.pattern.isMatch s = false) ∧ rule.pattern.isMatch s = true ∧
      rule.qualifier = q := by
  rw [find?, Option.map_eq_some_iff]
  constructor
  · rintro ⟨rule, hfound, rfl⟩
    obtain ⟨hmatch, before, after, heq, hbefore⟩ := List.find?_eq_some_iff_append.mp hfound
    exact ⟨before, rule, after, heq, by simpa using hbefore, hmatch, rfl⟩
  · rintro ⟨before, rule, after, heq, hbefore, hmatch, rfl⟩
    refine ⟨rule, List.find?_eq_some_iff_append.mpr ⟨hmatch, before, after, heq, ?_⟩, rfl⟩
    simpa using hbefore

theorem find?_eq_none_iff {accepted : ImplicitRules} {s : Subject} :
    accepted.find? s = none ↔ ∀ rule ∈ accepted.rules, rule.pattern.isMatch s = false := by
  simp [find?]

/-- Rules that repeat the pattern of an earlier rule decide nothing. -/
theorem find?_withoutRepeats {accepted : ImplicitRules}
    (h : ∀ rule ∈ accepted.rules, rule.pattern.Compiled) (s : Subject) :
    accepted.withoutRepeats.find? s = accepted.find? s := by
  rw [find?, find?, withoutRepeats, find?_eraseDupsBy]
  intro a ha b hb hsame
  rw [(of_decide_eq_true hsame).eq (h b hb) (h a ha)]

/-- What the rules of a list decide, and when they are refused. -/
structure Decisive (rules : List ImplicitRule) (h : Hierarchy) : Prop where
  described (p q : RulePattern) : p.text = q.text ↔ p.Same q
  compiled {d : PatternDeclaration} {p : RulePattern} (hok : Checker.resolvePattern d = .ok p) :
    p.Compiled
  alike {p q : RulePattern} (hp : p.Compiled) (hq : q.Compiled) (htext : p.text = q.text)
    (s : Subject) : p.isMatch s = q.isMatch s
  accepted : (∃ accepted, build rules h = .ok accepted) ↔ Consistent rules
  refused (e : DeclarationError) : build rules h = .error e ↔ ∃ first rule,
    Clashes rules first rule ∧ e = .contradictoryRules rule.pattern.text (h.name first.qualifier)
      (h.name rule.qualifier)
  found {accepted : ImplicitRules} (hok : build rules h = .ok accepted) (s : Subject)
    (q : Qualifier) : accepted.find? s = some q ↔ ∃ before rule after,
      rules = before ++ rule :: after ∧ (∀ r ∈ before, r.pattern.isMatch s = false) ∧
      rule.pattern.isMatch s = true ∧ rule.qualifier = q
  default {accepted : ImplicitRules} (hok : build rules h = .ok accepted) (s : Subject) :
    accepted.find? s = none ↔ ∀ rule ∈ rules, rule.pattern.isMatch s = false
  repeats {accepted : ImplicitRules} (hok : build rules h = .ok accepted)
    (hcompiled : ∀ rule ∈ rules, rule.pattern.Compiled) (s : Subject) :
    accepted.withoutRepeats.find? s = accepted.find? s

theorem build_of_clashes {h : Hierarchy} (hc : Clashes rules first rule) :
    build rules h = .error (.contradictoryRules rule.pattern.text (h.name first.qualifier)
      (h.name rule.qualifier)) := by
  rcases contradiction?_spec rules with ⟨-, hall⟩ | ⟨first', rule', hfound, hc'⟩
  · exact absurd hall hc.not_consistent
  · obtain ⟨rfl, rfl⟩ := hc.unique hc'
    rw [build, hfound]

theorem build_of_consistent {h : Hierarchy} (hall : Consistent rules) :
    build rules h = .ok ⟨rules, h.top⟩ := by
  rcases contradiction?_spec rules with ⟨hnone, -⟩ | ⟨first, rule, -, hc⟩
  · rw [build, hnone]
  · exact absurd hall hc.not_consistent

theorem rules_of_build {h : Hierarchy} {accepted : ImplicitRules}
    (hok : build rules h = .ok accepted) : accepted.rules = rules := by
  rw [build] at hok
  split at hok
  · cases hok
  · cases hok
    rfl

theorem build_cases (rules : List ImplicitRule) (h : Hierarchy) :
    (Consistent rules ∧ build rules h = .ok ⟨rules, h.top⟩) ∨ ∃ first rule,
      Clashes rules first rule ∧ build rules h = .error (.contradictoryRules rule.pattern.text
        (h.name first.qualifier) (h.name rule.qualifier)) := by
  rcases contradiction?_spec rules with ⟨-, hall⟩ | ⟨first, rule, -, hc⟩
  · exact .inl ⟨hall, build_of_consistent hall⟩
  · exact .inr ⟨first, rule, hc, build_of_clashes hc⟩

/-- Every list of rules is accepted where it is consistent, is refused for the first clash
otherwise, and gives a subject the qualifier of the first rule that matches. -/
theorem build_decisive (rules : List ImplicitRule) (h : Hierarchy) : Decisive rules h where
  described _ _ := RulePattern.text_eq_iff
  compiled := RulePattern.compiled_of_resolvePattern
  alike hp hq htext s := by rw [(RulePattern.text_eq_iff.mp htext).eq hp hq]
  accepted := by
    rcases build_cases rules h with ⟨hall, hok⟩ | ⟨first, rule, hc, herror⟩
    · exact iff_of_true ⟨_, hok⟩ hall
    · refine iff_of_false ?_ hc.not_consistent
      rintro ⟨accepted, hok⟩
      rw [herror] at hok
      cases hok
  refused e := by
    constructor
    · intro he
      rcases build_cases rules h with ⟨-, hok⟩ | ⟨first, rule, hc, herror⟩
      · rw [hok] at he
        cases he
      · exact ⟨first, rule, hc, Except.error.inj (he.symm.trans herror)⟩
    · rintro ⟨first, rule, hc, rfl⟩
      exact build_of_clashes hc
  found {accepted} hok s q := by
    rw [find?_eq_some_iff, rules_of_build hok]
  default {accepted} hok s := by
    rw [find?_eq_none_iff, rules_of_build hok]
  repeats {accepted} hok hcompiled s := by
    exact find?_withoutRepeats (fun rule hrule => hcompiled rule (rules_of_build hok ▸ hrule)) s

/-- A rule that stands twice, with another one in between. -/
theorem lettersAndDigits_decisive : ∃ h letters digits accepted,
    Hierarchy.build ["Any", "Known"] [("Known", "Any")] = .ok h ∧
    RulePattern.ofSource "a|bc" = .ok letters ∧ RulePattern.ofRange 0 9 = .ok digits ∧
    build [⟨letters, ⟨1⟩⟩, ⟨digits, ⟨0⟩⟩, ⟨letters, ⟨1⟩⟩] h = .ok accepted ∧
    accepted.find? (.literal (.string "bc")) = some ⟨1⟩ ∧
    accepted.withoutRepeats.rules = [⟨letters, ⟨1⟩⟩, ⟨digits, ⟨0⟩⟩] ∧
    (∀ s, accepted.withoutRepeats.find? s = accepted.find? s) ∧
    (∃ e, build [⟨letters, ⟨1⟩⟩, ⟨digits, ⟨0⟩⟩, ⟨letters, ⟨0⟩⟩] h = .error e) := by
  let regex := Regex.cat (.cat (.look .textStart) (.alt (.chars (.single 'a'))
    (.cat (.chars (.single 'b')) (.chars (.single 'c'))))) (.look .textEnd)
  have hread : Pattern.read? (RulePattern.anchored "a|bc") = some regex := by decide +kernel
  have hletters : RulePattern.ofSource "a|bc" = .ok (.fullMatch "a|bc" regex) := by
    rw [RulePattern.ofSource, hread]
  have hdigits : RulePattern.ofRange 0 9 = .ok (.intRange 0 9) := rfl
  have hbuilt : (Hierarchy.build ["Any", "Known"] [("Known", "Any")]).toOption.isSome = true := by
    decide +kernel
  obtain ⟨h, hh⟩ := Option.isSome_iff_exists.mp hbuilt
  let rules : List ImplicitRule := [⟨.fullMatch "a|bc" regex, ⟨1⟩⟩, ⟨.intRange 0 9, ⟨0⟩⟩,
    ⟨.fullMatch "a|bc" regex, ⟨1⟩⟩]
  have hdecisive := build_decisive rules h
  have hcompiled : ∀ rule ∈ rules, rule.pattern.Compiled := by
    have hfull := hdecisive.compiled (d := .fullMatch "a|bc") hletters
    have hrange := hdecisive.compiled (d := .intRange 0 9) hdigits
    simp [rules, hfull, hrange]
  obtain ⟨accepted, hok⟩ := hdecisive.accepted.mpr (by unfold Consistent; decide +kernel)
  have hrules := rules_of_build hok
  refine ⟨h, _, _, accepted, ok_of_toOption hh, hletters, hdigits, hok, ?_, ?_,
    hdecisive.repeats hok hcompiled, ?_⟩
  · exact (hdecisive.found hok _ _).mpr ⟨[], _, _, rfl, by simp, by decide +kernel, rfl⟩
  · have hwithout : rules.eraseDupsBy (fun later earlier => later.pattern.Same earlier.pattern) =
        [⟨.fullMatch "a|bc" regex, ⟨1⟩⟩, ⟨.intRange 0 9, ⟨0⟩⟩] := by decide +kernel
    exact (congrArg _ hrules).trans hwithout
  · have hclash : Clashes [⟨.fullMatch "a|bc" regex, ⟨1⟩⟩, ⟨.intRange 0 9, ⟨0⟩⟩,
        ⟨.fullMatch "a|bc" regex, ⟨0⟩⟩] ⟨.fullMatch "a|bc" regex, ⟨1⟩⟩
        ⟨.fullMatch "a|bc" regex, ⟨0⟩⟩ := by
      refine ⟨⟨[⟨.fullMatch "a|bc" regex, ⟨1⟩⟩, ⟨.intRange 0 9, ⟨0⟩⟩], [], rfl, ?_⟩, ?_, ?_⟩
      · unfold Agrees
        decide +kernel
      · decide +kernel
      · decide +kernel
    exact ⟨_, build_of_clashes hclash⟩

end ImplicitRules

end FlowTyping
