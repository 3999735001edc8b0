import FlowTyping.Checker.Hierarchy
import FlowTyping.Literal
import FlowTyping.Pattern.Read

/-!
Implicit rules: what qualifies syntax that names no qualifier. The first rule that
matches decides, and two rules for one pattern have to agree.
-/

namespace FlowTyping

/-- What a rule is asked about. -/
inductive Subject where
  | literal (value : Literal)
  | element (kind : SyntaxKind)
  deriving DecidableEq, Repr

inductive RulePattern where
  | fullMatch (source : String) (regex : Regex)
  | intRange (low high : Int)
  | literal (kind : LiteralKind)
  | element (kind : SyntaxKind)
  | any
  deriving DecidableEq, Repr

namespace RulePattern

/-- A source between the anchors of a whole text. The source is taken as text, so it
may close the group around it. -/
def anchored (source : String) : String := "^(?:" ++ source ++ ")$"

def ofSource (source : String) : Except DeclarationError RulePattern :=
  match Pattern.read? (anchored source) with
  | some regex => .ok (fullMatch source regex)
  | none => .error (.invalidPattern source)

def ofRange (low high : Int) : Except DeclarationError RulePattern :=
  if high < low then .error (.emptyRange low high) else .ok (intRange low high)

def isMatch : RulePattern → Subject → Bool
  | any, _ => true
  | fullMatch _ regex, .literal (.string s) => regex.isMatch s
  | fullMatch _ regex, .literal (.char c) => regex.isMatch (String.singleton c)
  | intRange low high, .literal (.int n) => low ≤ n && n ≤ high
  | literal kind, .literal value => value.kind = kind
  | element kind, .element found => kind = found
  | _, _ => false

def text : RulePattern → String
  | fullMatch source _ => s!"string_pattern({Text.quoted source})"
  | intRange low high => s!"int_range({low}, {high})"
  | literal kind => s!"literal({kind.label})"
  | element kind => s!"element({kind.label})"
  | any => "any"

end RulePattern

structure ImplicitRule where
  pattern : RulePattern
  qualifier : Qualifier
  deriving DecidableEq, Repr

/-- Accepted rules in their order, and the qualifier of what none of them matches. -/
structure ImplicitRules where
  rules : List ImplicitRule
  top : Qualifier
  deriving DecidableEq, Repr

namespace ImplicitRules

/-- The first rule that disagrees with the first one of the same text, after it. -/
def contradiction? : List ImplicitRule → List ImplicitRule → Option (ImplicitRule × ImplicitRule)
  | _, [] => none
  | earlier, rule :: rest =>
      match earlier.find? fun r => r.pattern.text = rule.pattern.text with
      | some first =>
          if first.qualifier = rule.qualifier then contradiction? (earlier ++ [rule]) rest
          else some (first, rule)
      | none => contradiction? (earlier ++ [rule]) rest

def build (rules : List ImplicitRule) (h : Hierarchy) : Except DeclarationError ImplicitRules :=
  match contradiction? [] rules with
  | some (first, rule) =>
      .error (.contradictoryRules rule.pattern.text (h.name first.qualifier)
        (h.name rule.qualifier))
  | none => .ok ⟨rules, h.top⟩

/-- The qualifier of the first rule that matches. -/
def find? (r : ImplicitRules) (s : Subject) : Option Qualifier :=
  (r.rules.find? fun rule => rule.pattern.isMatch s).map ImplicitRule.qualifier

def evaluate (r : ImplicitRules) (s : Subject) : Qualifier := (r.find? s).getD r.top

def size (r : ImplicitRules) : Nat := r.rules.length

def isEmpty (r : ImplicitRules) : Bool := r.rules.isEmpty

end ImplicitRules

end FlowTyping
