import FlowTyping.Batch.Report
import FlowTyping.Checker.Basic
import FlowTyping.Laws.Check
import FlowTyping.Proofs.Json.Documents
import FlowTyping.Settings

/-!
Declarations, settings and reports are read back from what is written of them.
-/

namespace FlowTyping

open Json (ReadsBack required defaulted nullable optional? list? record?)

/-- The whole numbers of 64 bits. -/
def Word (n : Nat) : Prop := n < 18446744073709551616

instance (n : Nat) : Decidable (Word n) := inferInstanceAs (Decidable (n < 18446744073709551616))

section Parts

variable {n : Nat}

theorem LiteralKind.readsBack (k : LiteralKind) : ReadsBack read? write n k :=
  Json.readsBack_name (by cases k <;> rfl)

theorem SyntaxKind.readsBack (k : SyntaxKind) : ReadsBack read? write n k :=
  Json.readsBack_name (by cases k <;> rfl)

theorem QualifierDeclaration.readsBack (d : QualifierDeclaration) :
    ReadsBack read? write (n + 2) d where
  fits := by simp [write, (ReadsBack.strs d.supertypes).fits]
  read_write := by
    simp [read?, write, record?, required, defaulted, Json.string?,
      (ReadsBack.strs (n := 0) d.supertypes).read_write]

/-- The bounds of a range are whole numbers of 64 bits with sign. -/
def PatternDeclaration.Representable : PatternDeclaration → Prop
  | intRange low high =>
      -9223372036854775808 ≤ low ∧ low ≤ 9223372036854775807 ∧
        -9223372036854775808 ≤ high ∧ high ≤ 9223372036854775807
  | _ => True

theorem PatternDeclaration.readsBack {p : PatternDeclaration} (h : p.Representable) :
    ReadsBack read? write (n + 2) p := by
  cases p with
  | fullMatch source => exact ⟨by simp [write], rfl⟩
  | intRange low high =>
      obtain ⟨hlow, hlow', hhigh, hhigh'⟩ := h
      have hfrom := Json.signed?_int hlow hlow'
      have hto := Json.signed?_int hhigh hhigh'
      exact ⟨by simp [write], by
        simp [read?, write, Json.tagged, Json.choice?, record?, defaulted, hfrom, hto]⟩
  | literal kind =>
      have hkind := kind.readsBack (n := n + 1)
      exact ⟨by simpa [write] using hkind.fits, by
        simp [read?, write, Json.tagged, Json.choice?, hkind.read_write]⟩
  | element kind =>
      have hkind := kind.readsBack (n := n + 1)
      exact ⟨by simpa [write] using hkind.fits, by
        simp [read?, write, Json.tagged, Json.choice?, hkind.read_write]⟩
  | any => exact ⟨by simp [write], rfl⟩

theorem RuleDeclaration.readsBack {d : RuleDeclaration} (h : d.pattern.Representable) :
    ReadsBack read? write (n + 3) d := by
  have hpattern := PatternDeclaration.readsBack (n := n) h
  exact ⟨by simp [write, hpattern.fits], by
    simp [read?, write, record?, required, Json.string?, hpattern.read_write]⟩

/-- The place of the argument is a whole number of 64 bits. -/
def PostconditionTarget.Representable : PostconditionTarget → Prop
  | receiver => True
  | argument index => Word index

theorem PostconditionTarget.readsBack {t : PostconditionTarget} (h : t.Representable) :
    ReadsBack read? write (n + 1) t := by
  cases t with
  | receiver => exact ⟨by simp [write], rfl⟩
  | argument index =>
      exact ⟨by simp [write], by
        simp [read?, write, Json.tagged, Json.choice?, Json.unsigned?_nat h]⟩

theorem Postcondition.readsBack {p : Postcondition String} (h : p.target.Representable) :
    ReadsBack read? write (n + 2) p := by
  have htarget := PostconditionTarget.readsBack (n := n) h
  exact ⟨by simp [write, htarget.fits], by
    simp [read?, write, record?, required, Json.string?, htarget.read_write]⟩

theorem ConditionalPostcondition.readsBack {p : ConditionalPostcondition String}
    (h : p.target.Representable) : ReadsBack read? write (n + 2) p := by
  have htarget := PostconditionTarget.readsBack (n := n) h
  exact ⟨by simp [write, htarget.fits], by
    simp [read?, write, record?, required, Json.string?, Json.bool?, htarget.read_write]⟩

/-- All arguments that postconditions name have places of 64 bits. -/
def MethodSignature.Representable (s : MethodSignature String) : Prop :=
  (∀ p ∈ s.ensures, p.target.Representable) ∧ ∀ p ∈ s.ensuresIf, p.target.Representable

theorem MethodSignature.readsBack {s : MethodSignature String} (h : s.Representable) :
    ReadsBack read? write (n + 4) s := by
  have hparams := ReadsBack.ofList s.params (n := n + 2)
    fun p _ => ReadsBack.optionalStr p
  have hreceiver := ReadsBack.optionalStr (n := n + 3) s.receiver
  have hreturns := ReadsBack.optionalStr (n := n + 3) s.returns
  have hensures := ReadsBack.ofList s.ensures (n := n + 2)
    fun p hp => Postcondition.readsBack (h.1 p hp)
  have hensuresIf := ReadsBack.ofList s.ensuresIf (n := n + 2)
    fun p hp => ConditionalPostcondition.readsBack (h.2 p hp)
  constructor
  · simp [write, hparams.fits, hreceiver.fits, hreturns.fits, hensures.fits, hensuresIf.fits]
  · simp [read?, write, record?, required, defaulted, nullable, Json.string?, Json.bool?,
      hparams.read_write, hreceiver.read_write, hreturns.read_write, hensures.read_write,
      hensuresIf.read_write]

theorem FieldDeclaration.readsBack (d : FieldDeclaration) : ReadsBack read? write (n + 1) d where
  fits := by simp [write]
  read_write := by simp [read?, write, record?, required, Json.string?]

end Parts

namespace CheckerDeclaration

/-- All whole numbers of the declaration have 64 bits. -/
structure Representable (d : CheckerDeclaration) : Prop where
  implicit : ∀ r ∈ d.implicit, r.pattern.Representable
  signatures : ∀ s ∈ d.signatures, s.Representable

theorem readsBack {d : CheckerDeclaration} (h : d.Representable) :
    ReadsBack read? write Json.nestingLimit d := by
  have hname := ReadsBack.optionalStr (n := 5) d.name
  have hqualifiers := ReadsBack.ofList d.qualifiers (n := 4)
    fun q _ => QualifierDeclaration.readsBack q
  have himplicit := ReadsBack.ofList d.implicit (n := 4)
    fun r hr => RuleDeclaration.readsBack (h.implicit r hr)
  have hsignatures := ReadsBack.ofList d.signatures (n := 4)
    fun s hs => MethodSignature.readsBack (h.signatures s hs)
  have hfields := ReadsBack.ofList d.fields (n := 4)
    fun f _ => FieldDeclaration.readsBack f
  refine ReadsBack.mono (n := 6) ⟨?_, ?_⟩ (by decide)
  · simp [write, hname.fits, hqualifiers.fits, himplicit.fits, hsignatures.fits, hfields.fits]
  · simp [read?, write, readRefinement?, record?, required, defaulted, nullable, Json.bool?,
      hname.read_write, hqualifiers.read_write, himplicit.read_write, hsignatures.read_write,
      hfields.read_write]

end CheckerDeclaration

namespace AnalysisSettings

/-- The limit has 64 bits. -/
def Representable (s : AnalysisSettings) : Prop := ∀ limit ∈ s.maxBlockVisits, Word limit

theorem readsBack {s : AnalysisSettings} (h : s.Representable) {n : Nat} :
    ReadsBack read? write (n + 1) s := by
  have hlimit := ReadsBack.ofOption (n := n) (o := s.maxBlockVisits)
    (fun limit hlimit => ReadsBack.nat (h limit hlimit)) nofun
  constructor
  · simp [write, hlimit.fits]
  · simp [read?, write, record?, defaulted, nullable, Json.bool?, hlimit.read_write]

end AnalysisSettings

theorem BatchSettings.readsBack {s : BatchSettings} (h : s.analysis.Representable) :
    ReadsBack read? write Json.nestingLimit s := by
  have hanalysis := AnalysisSettings.readsBack h (n := 0)
  refine ReadsBack.mono (n := 2) ⟨?_, ?_⟩ (by decide)
  · simp [write, hanalysis.fits]
  · simp [read?, write, record?, defaulted, Json.bool?, hanalysis.read_write]

namespace Diagnostic

/-- The block and the node have numbers of 64 bits. -/
def Representable (d : Diagnostic) : Prop := Word d.block ∧ Word d.node

theorem readsBack {d : Diagnostic} (h : d.Representable) {n : Nat} :
    ReadsBack read? write (n + 1) d := by
  have hkind : ReadsBack DiagnosticKind.read? DiagnosticKind.write n d.kind :=
    Json.readsBack_name (by cases d.kind <;> rfl)
  constructor
  · simp [write, hkind.fits]
  · simp [read?, write, record?, Json.required, Json.string?, hkind.read_write,
      Json.unsigned?_nat h.1, Json.unsigned?_nat h.2]

end Diagnostic

section Laws

variable {n : Nat}

theorem LatticeProperty.readsBack (p : LatticeProperty) : ReadsBack read? write n p :=
  Json.readsBack_name (by cases p <;> rfl)

theorem PropertyStatus.readsBack (s : PropertyStatus) : ReadsBack read? write (n + 3) s := by
  cases s with
  | proven => exact ⟨by simp [write], rfl⟩
  | unfalsified => exact ⟨by simp [write], rfl⟩
  | violated witness =>
      have hwitness := ReadsBack.strs (n := n) witness
      exact ⟨by simp [write, hwitness.fits], by
        simp [read?, write, Json.tagged, Json.choice?, record?, required, hwitness.read_write]⟩

theorem CheckMethod.readsBack (m : CheckMethod) : ReadsBack read? write n m := by
  cases m <;> exact ⟨by simp [write], rfl⟩

theorem CheckResult.readsBack {r : CheckResult} (h : Word r.cases) :
    ReadsBack read? write (n + 4) r := by
  have hproperty := r.property.readsBack (n := n + 3)
  have hstatus := r.status.readsBack (n := n)
  have hmethod := r.method.readsBack (n := n + 3)
  constructor
  · simp [write, hproperty.fits, hstatus.fits, hmethod.fits]
  · simp [read?, write, record?, required, hproperty.read_write, hstatus.read_write,
      hmethod.read_write, Json.unsigned?_nat h]

end Laws

section Reports

variable {n : Nat}

/-- The counts have 64 bits. -/
structure VisitDistribution.Representable (d : VisitDistribution) : Prop where
  singlePass : Word d.singlePass
  few : Word d.few
  many : Word d.many
  excessive : Word d.excessive

theorem VisitDistribution.readsBack {d : VisitDistribution} (h : d.Representable) :
    ReadsBack read? write (n + 1) d where
  fits := by simp [write]
  read_write := by
    simp [read?, write, record?, required, Json.unsigned?_nat h.singlePass,
      Json.unsigned?_nat h.few, Json.unsigned?_nat h.many, Json.unsigned?_nat h.excessive]

/-- The seconds of a duration have 64 bits. -/
theorem Duration.readsBack {d : Duration} (h : Word d.seconds) :
    ReadsBack read? write (n + 1) d := by
  have hrest : d.remainder < 1000000000 := Nat.mod_lt _ (by decide)
  have hseconds : d.seconds + d.remainder / 1000000000 < Nat.pow 2 64 := by
    rw [Nat.div_eq_of_lt hrest]
    exact h
  have hword : d.remainder < Nat.pow 2 32 := Nat.lt_trans hrest (by decide)
  have hwhole : d.seconds * 1000000000 + d.remainder = d.nanoseconds :=
    Nat.div_add_mod' d.nanoseconds 1000000000
  constructor
  · simp [write]
  · have hremainder := Json.unsigned?_nat (Nat.lt_trans hrest (by decide))
    simp [read?, write, record?, required, Json.unsigned?_nat h, hremainder, hseconds, hword,
      hwhole]

/-- The counts and the seconds have 64 bits. -/
structure BatchMetrics.Representable (m : BatchMetrics) : Prop where
  units : Word m.units
  succeeded : Word m.succeeded
  failed : Word m.failed
  blocks : Word m.blocks
  nodes : Word m.nodes
  unreachableBlocks : Word m.unreachableBlocks
  blockVisits : Word m.blockVisits
  diagnostics : Word m.diagnostics
  elapsed : Word m.elapsed.seconds
  visits : m.visits.Representable

theorem BatchMetrics.readsBack {m : BatchMetrics} (h : m.Representable) :
    ReadsBack read? write (n + 2) m := by
  have helapsed := Duration.readsBack (n := n) h.elapsed
  have hvisits := VisitDistribution.readsBack (n := n) h.visits
  constructor
  · simp [write, helapsed.fits, hvisits.fits]
  · simp [read?, write, record?, required, Json.unsigned?_nat h.units,
      Json.unsigned?_nat h.succeeded, Json.unsigned?_nat h.failed, Json.unsigned?_nat h.blocks,
      Json.unsigned?_nat h.nodes, Json.unsigned?_nat h.unreachableBlocks,
      Json.unsigned?_nat h.blockVisits, Json.unsigned?_nat h.diagnostics, helapsed.read_write,
      hvisits.read_write]

/-- The counts have 64 bits, those of the diagnostics included. -/
structure UnitSummary.Representable (s : UnitSummary) : Prop where
  blocks : Word s.blocks
  visits : Word s.visits
  diagnostics : ∀ d ∈ s.diagnostics, d.Representable

theorem UnitSummary.readsBack {s : UnitSummary} (h : s.Representable) :
    ReadsBack read? write (n + 3) s := by
  obtain ⟨name, error, blocks, visits, diagnostics⟩ := s
  have hdiagnostics := ReadsBack.ofList diagnostics (n := n + 1)
    fun d hd => Diagnostic.readsBack (h.diagnostics d hd)
  cases error with
  | none =>
      constructor
      · simp [write, hdiagnostics.fits]
      · simp [read?, write, record?, required, defaulted, nullable, Json.string?,
          Json.unsigned?_nat h.blocks, Json.unsigned?_nat h.visits, hdiagnostics.read_write]
  | some error =>
      constructor
      · simp [write, hdiagnostics.fits]
      · simp [read?, write, record?, required, defaulted, nullable, optional?, Json.string?,
          Json.unsigned?_nat h.blocks, Json.unsigned?_nat h.visits, hdiagnostics.read_write]

/-- All counts of the summary have 64 bits. -/
structure ReportSummary.Representable (s : ReportSummary) : Prop where
  units : ∀ u ∈ s.units, u.Representable
  metrics : s.metrics.Representable

theorem ReportSummary.readsBack {s : ReportSummary} (h : s.Representable) :
    ReadsBack read? write Json.nestingLimit s := by
  have hunits := ReadsBack.ofList s.units (n := 3)
    fun u hu => UnitSummary.readsBack (h.units u hu)
  have hmetrics := BatchMetrics.readsBack (n := 2) h.metrics
  refine ReadsBack.mono (n := 5) ⟨?_, ?_⟩ (by decide)
  · simp [write, hunits.fits, hmetrics.fits]
  · simp [read?, write, record?, required, hunits.read_write, hmetrics.read_write]

end Reports

/-- Declarations, settings and reports of which the whole numbers have 64 bits are read back from
what is written of them. The checker of a declaration, or the error, is that of its text. -/
theorem written_records_read_back :
    (∀ d : CheckerDeclaration, d.Representable → ∀ text, Json.Spells text d.write →
      declared CheckerDeclaration.read? text = .ok d ∧
        Checker.ofText text = Checker.ofDeclaration d) ∧
    (∀ s : AnalysisSettings, s.Representable → ∀ text, Json.Spells text s.write →
      declared AnalysisSettings.read? text = .ok s) ∧
    (∀ s : BatchSettings, s.analysis.Representable → ∀ text, Json.Spells text s.write →
      declared BatchSettings.read? text = .ok s) ∧
    (∀ d : Diagnostic, d.Representable → ∀ text, Json.Spells text d.write →
      declared Diagnostic.read? text = .ok d) ∧
    (∀ results : List CheckResult, (∀ r ∈ results, Word r.cases) →
      ∀ text, Json.Spells text (Json.ofList CheckResult.write results) →
        declared (list? CheckResult.read?) text = .ok results) ∧
    (∀ s : ReportSummary, s.Representable → ∀ text, Json.Spells text s.write →
      declared ReportSummary.read? text = .ok s) := by
  refine ⟨?checker, ?analysis, ?batch, ?diagnostic, ?laws, ?report⟩
  case checker =>
    intro d hd text htext
    have hread := (CheckerDeclaration.readsBack hd).declared_spelled htext
    refine ⟨hread, ?_⟩
    rw [Checker.ofText, hread]
    rfl
  case analysis =>
    intro s hs text htext
    exact (AnalysisSettings.readsBack hs (n := 126)).declared_spelled htext
  case batch =>
    intro s hs text htext
    exact (BatchSettings.readsBack hs).declared_spelled htext
  case diagnostic =>
    intro d hd text htext
    exact (Diagnostic.readsBack hd (n := 126)).declared_spelled htext
  case laws =>
    intro results hresults text htext
    have hlist := ReadsBack.ofList results (n := 126) fun r hr =>
      CheckResult.readsBack (n := 122) (hresults r hr)
    exact hlist.declared_spelled htext
  case report =>
    intro s hs text htext
    exact (ReportSummary.readsBack hs).declared_spelled htext

/-- A declaration with the widest range, and with an argument past every list. -/
private def widestDeclaration : CheckerDeclaration :=
  { name := none
    qualifiers := [⟨"MaybeNull", []⟩, ⟨"Present", ["MaybeNull"]⟩]
    implicit := [⟨.intRange PatternDeclaration.widest.1 PatternDeclaration.widest.2, "Present"⟩]
    signatures := [⟨"find", [none, some "Present"], none, some "Present", true, [],
      [⟨true, .argument 18446744073709551615, "Present"⟩]⟩]
    fields := [⟨"next", "MaybeNull"⟩]
    refinesEquality := false }

/-- A report on a unit that failed and on one with a diagnostic, after the longest time. -/
private def widestReport : ReportSummary :=
  { units := [⟨"loop", some "fixpoint not reached after 1 block visits", 0, 0, []⟩,
      ⟨"leaky", none, 18446744073709551615, 3, [⟨.argument, 0, 1, "MaybeNull", "Present", "a"⟩]⟩]
    metrics := { BatchMetrics.start ⟨18446744073709551615999999999⟩ with
      units := 2, succeeded := 1, failed := 1, diagnostics := 1, visits := ⟨1, 0, 0, 0⟩ } }

/-- The widest numbers are read back: bounds of a range, places, limits, counts and seconds. -/
theorem widest_records_read_back :
    declared CheckerDeclaration.read? widestDeclaration.write.pretty = .ok widestDeclaration ∧
      Checker.ofText widestDeclaration.write.pretty = Checker.ofDeclaration widestDeclaration ∧
      declared AnalysisSettings.read? (AnalysisSettings.write
        ⟨some 18446744073709551615, true, false⟩).compact =
          .ok ⟨some 18446744073709551615, true, false⟩ ∧
      declared BatchSettings.read? (BatchSettings.write ⟨false, .standard⟩).compact =
        .ok ⟨false, .standard⟩ ∧
      declared Diagnostic.read? (Diagnostic.write
        ⟨.cast, 0, 18446744073709551615, "MaybeNull", "Present", "cast"⟩).compact =
          .ok ⟨.cast, 0, 18446744073709551615, "MaybeNull", "Present", "cast"⟩ ∧
      declared (list? CheckResult.read?) (Json.ofList CheckResult.write
        [⟨.absorption, .violated ["Present"], .sampled, 18446744073709551615⟩]).pretty =
          .ok [⟨.absorption, .violated ["Present"], .sampled, 18446744073709551615⟩] ∧
      declared ReportSummary.read? widestReport.write.pretty = .ok widestReport := by
  obtain ⟨hchecker, hanalysis, hbatch, hdiagnostic, hlaws, hreport⟩ := written_records_read_back
  have hwidest : widestDeclaration.Representable := by
    constructor
    · simp [widestDeclaration, PatternDeclaration.Representable, PatternDeclaration.widest]
    · simp [widestDeclaration, MethodSignature.Representable, PostconditionTarget.Representable,
        Word]
  have hwritten := hchecker widestDeclaration hwidest _ (.inr rfl)
  refine ⟨hwritten.1, hwritten.2, hanalysis _ ?_ _ (.inl rfl), hbatch _ ?_ _ (.inl rfl),
    hdiagnostic _ ?_ _ (.inl rfl), hlaws _ ?_ _ (.inr rfl), hreport _ ?_ _ (.inr rfl)⟩
  · simp [AnalysisSettings.Representable, Word]
  · simp [AnalysisSettings.Representable, AnalysisSettings.standard]
  · simp [Diagnostic.Representable, Word]
  · simp [Word]
  · constructor
    · intro u hu
      simp only [widestReport, List.mem_cons, List.not_mem_nil, or_false] at hu
      obtain rfl | rfl := hu
      · exact ⟨by decide, by decide, fun d hd => absurd hd List.not_mem_nil⟩
      · exact ⟨by decide, by decide, by simp [Diagnostic.Representable, Word]⟩
    · exact ⟨by decide, by decide, by decide, by decide, by decide, by decide, by decide, by decide,
        by decide, ⟨by decide, by decide, by decide, by decide⟩⟩

end FlowTyping
