import FlowTyping.Proofs.Lowering.Effects
import Mathlib.Data.List.Forall2

/-!
Leaving regions: a way out is a chain of copies of the final bodies on it, made when it
is first asked for and shared afterwards.
-/

namespace FlowTyping

/-- The regions were opened in scopes around those of a state, and send control to
blocks of it. -/
def Building.Fits (b : Building) (regions : List Region) : Prop :=
  ∀ r ∈ regions, r.scopes <:+ b.scopes.tail ∧ ∀ t : Nat, t ∈ r.targets → t < b.drafts.size

/-- What a construction does when it succeeds: what it needs of a state, what it makes
of the scopes, what it gives, and what then stands between two places. -/
structure Spec (α : Type) where
  needs : Building → Prop
  after : Scopes → Scopes
  gives : α → Building → Prop
  placed : Layout → Scopes → Option Point → α → Option Point → Prop

def Spec.ofPlacement (place : Placement) : Spec Unit where
  needs _ := True
  after σ := σ
  gives _ _ := True
  placed D σ p _ q := place D σ p q

/-- A construction inside some regions does what a specification says, whenever the
final bodies of a registry are known. -/
structure Meets {α : Type} (R : Registry) (regions : List Region) (m : Build α)
    (spec : Spec α) : Prop where
  run : ∀ {R₁ : Registry} {b b' : Building} {a : α}, R <+: R₁ → b.Coherent R₁ →
    b.Fits regions → spec.needs b → m.run b = .ok (a, b') →
    ∃ R₂, Building.Advances [] R₁ b R₂ b' ∧ b'.scopes = spec.after b.scopes ∧
      spec.gives a b' ∧ ∀ D, b'.Completes D → spec.placed D b.scopes b.here a b'.here

/-- A crossing makes copies of a final body. -/
structure Copies (R : Registry) (regions : List Region) (crossing : Crossing)
    (final : FinalCopy) : Prop where
  known : R[crossing.id]? = some final
  meets : Meets R regions crossing.copy (.ofPlacement final.place)

/-- The frames of a construction stand for regions. -/
inductive Matches (R : Registry) : List Frame → List Region → Prop
  | nil : Matches R [] []
  | loop (scopes : Scopes) {label : Option String} {continueTarget breakTarget : BlockId}
      {frames : List Frame} {regions : List Region} (outer : Matches R frames regions) :
      Matches R (.loop label continueTarget breakTarget :: frames)
        (.loop scopes label continueTarget breakTarget :: regions)
  | handlers (scopes : Scopes) {targets : List (String × BlockId)} {frames : List Frame}
      {regions : List Region} (outer : Matches R frames regions) :
      Matches R (.handlers targets :: frames) (.handlers scopes targets :: regions)
  | finalBody {id : Nat} {copy : Build Unit} {final : FinalCopy} {frames : List Frame}
      {regions : List Region} (copies : Copies R regions ⟨id, copy⟩ final)
      (outer : Matches R frames regions) :
      Matches R (.finalBody id copy :: frames) (.finalBody final :: regions)

section

variable {α : Type} {R R' : Registry} {regions outer : List Region} {m : Build α}
  {spec : Spec α} {crossing : Crossing} {final : FinalCopy} {frames : List Frame}

theorem Building.Fits.of_subset {b : Building} (h : b.Fits regions)
    (hsub : ∀ r ∈ outer, r ∈ regions) : b.Fits outer :=
  fun r hr => h r (hsub r hr)

/-- Declarations in the innermost scope do not matter. -/
theorem Building.Fits.advance_tail {b b' : Building} (h : b.Fits regions)
    (hscopes : b'.scopes.tail = b.scopes.tail) (hsize : b.drafts.size ≤ b'.drafts.size) :
    b'.Fits regions := by
  intro r hr
  obtain ⟨hsuffix, htargets⟩ := h r hr
  refine ⟨hscopes ▸ hsuffix, fun t ht => ?_⟩
  exact Nat.lt_of_lt_of_le (htargets t ht) hsize

theorem Building.Fits.advance {b b' : Building} (h : b.Fits regions)
    (hscopes : b'.scopes = b.scopes) (hsize : b.drafts.size ≤ b'.drafts.size) :
    b'.Fits regions :=
  h.advance_tail (by rw [hscopes]) hsize

theorem Meets.extend (h : Meets R regions m spec) (hR : R <+: R') : Meets R' regions m spec :=
  ⟨fun hR₁ hc hfits hneeds hrun => h.run (hR.trans hR₁) hc hfits hneeds hrun⟩

theorem Meets.widen (h : Meets R outer m spec) (hsub : ∀ r ∈ outer, r ∈ regions) :
    Meets R regions m spec :=
  ⟨fun hR₁ hc hfits hneeds hrun => h.run hR₁ hc (hfits.of_subset hsub) hneeds hrun⟩

theorem getElem?_of_isPrefix {β : Type} {l l' : List β} {i : Nat} {a : β} (h : l <+: l')
    (hi : l[i]? = some a) : l'[i]? = some a := by
  obtain ⟨rest, rfl⟩ := h
  rw [List.getElem?_append_left (List.getElem?_eq_some_iff.mp hi).1, hi]

theorem mapM_of_isPrefix {β : Type} {l l' : List β} {ids : List Nat} {found : List β}
    (h : l <+: l') (hids : ids.mapM (l[·]?) = some found) : ids.mapM (l'[·]?) = some found := by
  induction ids generalizing found with
  | nil => exact hids
  | cons id rest ih =>
      simp only [List.mapM_cons, Option.bind_eq_bind, Option.bind_eq_some_iff] at hids ⊢
      obtain ⟨first, hfirst, others, hothers, hfound⟩ := hids
      exact ⟨first, getElem?_of_isPrefix h hfirst, others, ih hothers, hfound⟩

theorem Copies.extend (h : Copies R regions crossing final) (hR : R <+: R') :
    Copies R' regions crossing final :=
  ⟨getElem?_of_isPrefix hR h.known, h.meets.extend hR⟩

theorem Copies.widen (h : Copies R outer crossing final) (hsub : ∀ r ∈ outer, r ∈ regions) :
    Copies R regions crossing final :=
  ⟨h.known, h.meets.widen hsub⟩

theorem Matches.extend (h : Matches R frames regions) (hR : R <+: R') :
    Matches R' frames regions := by
  induction h with
  | nil => exact .nil
  | loop scopes _ ih => exact .loop scopes ih
  | handlers scopes _ ih => exact .handlers scopes ih
  | finalBody copies _ ih => exact .finalBody (copies.extend hR) ih

end

namespace Build

open Building

variable {R R₁ : Registry} {regions : List Region} {b b' : Building} {u : Unit}
  {crossings : List Crossing} {finals : List FinalCopy}

/-- The ids of a chain of final bodies name them in the registry. -/
theorem mapM_known (h : List.Forall₂ (Copies R regions) crossings finals) :
    (crossings.map Crossing.id).mapM (R[·]?) = some finals := by
  induction h with
  | nil => rfl
  | cons hcopies _ ih => simp [hcopies.known, ih]

theorem forM_copy_spec (h : List.Forall₂ (Copies R regions) crossings finals)
    (hR : R <+: R₁) (hc : b.Coherent R₁) (hfits : b.Fits regions)
    (hrun : (crossings.forM Crossing.copy).run b = .ok (u, b')) :
    ∃ R₂, Advances [] R₁ b R₂ b' ∧ b'.scopes = b.scopes ∧
      ∀ D target, b'.Completes D → D.Flows b'.here (.startOf target) →
        D.LeadsThrough b.scopes target finals b.here := by
  induction h generalizing R₁ b with
  | nil =>
      obtain ⟨-, rfl⟩ := run_pure.mp hrun
      exact ⟨R₁, ⟨List.prefix_rfl, hc, .refl [] b⟩, rfl, fun D target _ hflow => hflow⟩
  | cons hcopies _ ih =>
      rw [List.forM, run_bind] at hrun
      obtain ⟨_, b₁, h₁, h₂⟩ := hrun
      obtain ⟨R₂, ha₁, hs₁, -, hplace⟩ := hcopies.meets.run hR hc hfits trivial h₁
      obtain ⟨R₃, ha₂, hs₂, hleads⟩ := ih (hR.trans ha₁.registry) ha₁.coherent
        (hfits.advance hs₁ ha₁.grows.size_le) h₂
      refine ⟨R₃, ha₁.trans ha₂, hs₂.trans hs₁, fun D target hD hflow => ?_⟩
      refine ⟨b₁.here, hplace D (ha₂.grows.completes hD), ?_⟩
      have hscopes : b₁.scopes = b.scopes := hs₁
      exact hscopes ▸ hleads D target hD hflow

theorem makePath_spec {target first : Nat} {b₁ b₂ b₃ b₄ : Building}
    (h : List.Forall₂ (Copies R regions) crossings finals) (hR : R <+: R₁)
    (hc : b.Coherent R₁) (hfits : b.Fits regions)
    (hscopes : ∀ final ∈ finals, final.scopes <:+ b.scopes) (ht : target < b.drafts.size)
    (h₁ : newBlock.run b = .ok (first, b₁))
    (h₂ : (setCurrent (some first)).run b₁ = .ok ((), b₂))
    (h₃ : (crossings.forM Crossing.copy).run b₂ = .ok ((), b₃))
    (h₄ : (closeWith target).run b₃ = .ok ((), b₄))
    (hb : b' = { b₄ with
      current := b.current
      finalPaths := ((crossings.map Crossing.id, target), first) :: b₄.finalPaths }) :
    ∃ R₂, Advances [] R₁ b R₂ b' ∧ b'.scopes = b.scopes ∧ b'.current = b.current ∧
      b'.here = b.here ∧ first < b'.drafts.size ∧
      ∀ D, b'.Completes D → D.Leaves finals target first := by
  obtain ⟨ha₁, hs₁, -, hw₁, hfirst, hsize₁⟩ := newDraft_spec hc (by simp [Exits.targets]) h₁
  obtain ⟨ha₂, hs₂, hh₂, hsize₂⟩ := setCurrent_spec ha₁.coherent hw₁ h₂
  obtain ⟨R₂, ha₃, hs₃, hleads⟩ := forM_copy_spec h hR ha₂.coherent
    (hfits.advance (hs₂.trans hs₁) (by omega)) h₃
  have hsize₃ := ha₃.grows.size_le
  obtain ⟨ha₄, hs₄, -, hsize₄, hflow⟩ := closeWith_spec ha₃.coherent (by omega) h₄
  have hadvance := (ha₁.enter ha₂ (by omega)).trans (ha₃.trans ha₄)
  have hscopes' : b₂.scopes = b.scopes := hs₂.trans hs₁
  -- The copies leave the current block of the request alone.
  have hkept : ∀ c : Nat, b.current = some c → b₄.drafts[c]? = b.drafts[c]? := by
    intro c hcur
    obtain ⟨d, hd, -⟩ := hc.current c hcur
    have hlt := (Array.getElem?_eq_some_iff.mp hd).1
    obtain ⟨hdrafts, hcur₂⟩ : b₂.drafts = b.drafts.push ⟨[], .openEnd⟩ ∧
        b₂.current = some first := by
      rw [newBlock, run_newDraft] at h₁
      cases h₁
      rw [run_setCurrent] at h₂
      cases h₂
      exact ⟨rfl, rfl⟩
    have hne : c ≠ b.drafts.size := Nat.ne_of_lt hlt
    rw [(ha₃.trans ha₄).grows.kept c (by omega) (by simp [hcur₂]; omega) (by simp), hdrafts]
    simp [Array.getElem?_push, hne]
  have hdone : ∀ D, b₄.Completes D → D.Leaves finals target first := by
    intro D hD
    refine .inr ⟨b.scopes, hscopes, ?_⟩
    have hleads' := hleads D target (ha₄.grows.completes hD) (hflow D hD)
    rwa [hscopes', hh₂] at hleads'
  subst hb
  refine ⟨R₂, ⟨hadvance.registry, ?_, ?_⟩, hs₄.trans (hs₃.trans hscopes'), rfl, ?_, ?_, ?_⟩
  · refine (ha₄.coherent.setCurrent (t := b.current) fun c hcur => ?_).remember
      (e := (_, first)) ?_ ?_
    · obtain ⟨d, hd, hpending⟩ := hc.current c hcur
      exact ⟨d, (hkept c hcur).trans hd, hpending⟩
    · show first < b₄.drafts.size
      omega
    · exact ⟨finals, mapM_known (h.imp fun _ _ hcopies => hcopies.extend
        (hR.trans hadvance.registry)), fun D hD => hdone D ⟨hD.draft, hD.node⟩⟩
  · exact hadvance.grows.restore rfl rfl rfl
  · exact here_eq rfl hkept
  · show first < b₄.drafts.size
    omega
  · exact fun D hD => hdone D ⟨hD.draft, hD.node⟩

theorem leaveThrough_spec {target first : Nat}
    (h : List.Forall₂ (Copies R regions) crossings finals) (hR : R <+: R₁)
    (hc : b.Coherent R₁) (hfits : b.Fits regions)
    (hscopes : ∀ final ∈ finals, final.scopes <:+ b.scopes) (ht : target < b.drafts.size)
    (hrun : (leaveThrough crossings target).run b = .ok (first, b')) :
    ∃ R₂, Advances [] R₁ b R₂ b' ∧ b'.scopes = b.scopes ∧ b'.current = b.current ∧
      b'.here = b.here ∧ first < b'.drafts.size ∧
      ∀ D, b'.Completes D → D.Leaves finals target first := by
  have hsame : Advances [] R₁ b R₁ b := ⟨List.prefix_rfl, hc, .refl [] b⟩
  unfold leaveThrough at hrun
  split at hrun
  · rename_i hempty
    obtain ⟨rfl, rfl⟩ := run_pure.mp hrun
    obtain rfl : crossings = [] := by simpa using hempty
    cases h
    exact ⟨R₁, hsame, rfl, rfl, rfl, ht, fun D _ => .inl ⟨rfl, rfl⟩⟩
  · rw [run_bind] at hrun
    obtain ⟨b₀, b₁, h₁, hrun⟩ := hrun
    obtain ⟨rfl, rfl⟩ := run_get.mp h₁
    split at hrun
    · rename_i path hpath
      obtain ⟨rfl, rfl⟩ := run_pure.mp hrun
      obtain ⟨hlt, crossed, hids, hleaves⟩ := hc.paths path (List.mem_of_find?_eq_some hpath)
      have hkey : path.1 = (crossings.map Crossing.id, target) := by
        simpa using List.find?_some hpath
      rw [hkey, mapM_known (h.imp fun _ _ hcopies => hcopies.extend hR)] at hids
      cases hids
      refine ⟨R₁, hsame, rfl, rfl, rfl, hlt, fun D hD => ?_⟩
      have := hleaves D hD
      rwa [hkey] at this
    · simp only [run_bind, run_get, run_modify, run_pure] at hrun
      obtain ⟨_, _, ⟨rfl, rfl⟩, _, b₁, h₁, _, b₂, h₂, _, b₃, h₃, _, b₄, h₄, _, b₅, h₅, _, b₆,
        rfl, rfl, rfl⟩ := hrun
      rw [run_setCurrent] at h₅
      cases h₅
      exact makePath_spec h hR hc hfits hscopes ht h₁ h₂ h₃ h₄ rfl

end Build

end FlowTyping
