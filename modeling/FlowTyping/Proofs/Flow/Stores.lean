import FlowTyping.Flow.Store
import FlowTyping.Proofs.Checker.Lattice

/-!
Stores as functions from keys to qualifiers: what the operations do to the qualifier of
each key, and the order of stores with its join.
-/

namespace FlowTyping

namespace Store

variable {h : Hierarchy} {a b c s : Store} {key k : FlowKey} {q : Qualifier}

theorem find?_insertEntry (key : FlowKey) (q : Qualifier) (entries : List (FlowKey × Qualifier))
    (k : FlowKey) : (insertEntry key q entries).find? (fun e => e.1 = k) =
      if k = key then some (key, q) else entries.find? fun e => e.1 = k := by
  induction entries with
  | nil =>
      by_cases hk : k = key
      · simp [insertEntry, hk]
      · simp [insertEntry, hk, Ne.symm hk]
  | cons entry rest ih =>
      rw [insertEntry]
      split
      · by_cases hk : k = key
        · simp [hk]
        · simp [hk, Ne.symm hk]
      · rename_i heq
        have hentry := (FlowKey.compare_eq_iff key entry.1).mp heq
        by_cases hk : k = key
        · simp [hk]
        · simp [hk, Ne.symm hk, ← hentry]
      · rename_i hgt
        have hne : key ≠ entry.1 := by
          intro heq
          rw [(FlowKey.compare_eq_iff key entry.1).mpr heq] at hgt
          cases hgt
        rw [List.find?_cons, ih]
        by_cases hentry : entry.1 = k
        · simp [hentry, show k ≠ key from fun hk => hne (hk.symm.trans hentry.symm)]
        · simp [hentry]

theorem get?_insert : (s.insert key q).get? k =
    if k = key ∧ key.isRefinable = true then some q else s.get? k := by
  unfold insert get?
  by_cases hkey : key.isRefinable = true
  · rw [if_pos hkey, find?_insertEntry]
    by_cases hk : k = key
    · simp [hk, hkey]
    · simp [hk]
  · simp [hkey]

theorem get?_retain (keep : FlowKey → Bool) :
    (s.retain keep).get? k = if keep k then s.get? k else none := by
  unfold retain get?
  induction s.entries with
  | nil => simp
  | cons entry rest ih =>
      by_cases hentry : entry.1 = k
      · subst hentry
        cases hkeep : keep entry.1 with
        | true => simp [hkeep]
        | false => simpa [hkeep] using ih
      · cases hkeep : keep entry.1 with
        | true => simpa [hkeep, hentry] using ih
        | false => simpa [hkeep, hentry] using ih

theorem get?_eq_none : s.get? k = none ↔ k ∉ s.keys := by
  simp only [get?, keys, Option.map_eq_none_iff, List.find?_eq_none, List.mem_map, not_exists,
    not_and, decide_eq_true_eq]

theorem find?_foldl_insertEntry (top : Qualifier) (keys : List FlowKey)
    (found : List (FlowKey × Qualifier)) :
    ((keys.foldl (fun found key => insertEntry key top found) found).find? fun e => e.1 = k) =
      if k ∈ keys then some (k, top) else found.find? fun e => e.1 = k := by
  induction keys generalizing found with
  | nil => simp
  | cons key rest ih =>
      rw [List.foldl_cons, ih, find?_insertEntry]
      by_cases hrest : k ∈ rest
      · simp [hrest]
      · by_cases hk : k = key
        · simp [hk]
        · simp [hrest, hk]

theorem get?_join (ha : a.reachable = true) (hb : b.reachable = true) :
    (a.join h b).get? k =
      if k ∈ a.keys ++ b.keys then some (joinValue h (a.get? k) (b.get? k)) else none := by
  have hfind := find?_foldl_insertEntry (k := k) h.top (a.keys ++ b.keys) []
  simp only [join, ha, hb, Bool.not_true, Bool.false_eq_true, if_false, get?, List.find?_map,
    Function.comp_def, hfind]
  split
  · rfl
  · rfl

theorem reachable_join : (a.join h b).reachable = (a.reachable || b.reachable) := by
  unfold join
  cases ha : a.reachable with
  | false => simp
  | true =>
      cases hb : b.reachable with
      | false => simp [ha]
      | true => simp

/-- The store is one over a hierarchy. -/
structure Wf (h : Hierarchy) (s : Store) : Prop where
  top : s.top = h.top
  has : ∀ e ∈ s.entries, h.Has e.2

theorem Wf.has_of_get? (hs : s.Wf h) (hq : s.get? k = some q) : h.Has q := by
  obtain ⟨e, he, rfl⟩ := Option.map_eq_some_iff.mp hq
  exact hs.has e (List.mem_of_find?_eq_some he)

theorem Wf.has_valueOrTop (hh : h.Lawful) (hs : s.Wf h) (k : FlowKey) :
    h.Has (s.valueOrTop k) := by
  unfold valueOrTop
  cases hq : s.get? k with
  | none => exact hs.top ▸ hh.has_top
  | some q => exact hs.has_of_get? hq

theorem valueOrTop_of_not_mem (hs : s.Wf h) (hk : k ∉ s.keys) : s.valueOrTop k = h.top := by
  rw [valueOrTop, get?_eq_none.mpr hk]
  exact hs.top

theorem mem_insertEntry {key : FlowKey} {q : Qualifier} {entries : List (FlowKey × Qualifier)}
    {e : FlowKey × Qualifier} (he : e ∈ insertEntry key q entries) :
    e = (key, q) ∨ e ∈ entries := by
  induction entries with
  | nil => simpa [insertEntry] using he
  | cons entry rest ih =>
      rw [insertEntry] at he
      split at he
      · simpa using he
      · rcases List.mem_cons.mp he with he | he
        · exact .inl he
        · exact .inr (List.mem_cons_of_mem _ he)
      · rcases List.mem_cons.mp he with rfl | he
        · exact .inr (List.mem_cons_self ..)
        · exact (ih he).imp_right fun he => List.mem_cons_of_mem _ he

theorem wf_new (h : Hierarchy) : (new h).Wf h := ⟨rfl, nofun⟩

theorem Wf.insert (hs : s.Wf h) (hq : h.Has q) : (s.insert key q).Wf h := by
  unfold Store.insert
  split
  · refine ⟨hs.top, fun e he => ?_⟩
    rcases mem_insertEntry he with rfl | he
    · exact hq
    · exact hs.has e he
  · exact hs

theorem Wf.retain (hs : s.Wf h) (keep : FlowKey → Bool) : (s.retain keep).Wf h :=
  ⟨hs.top, fun e he => hs.has e (List.mem_filter.mp he).1⟩

theorem Wf.refine (hh : h.Lawful) (hs : s.Wf h) (hq : h.Has q) : (s.refine h key q).Wf h :=
  hs.insert (hh.has_of_le (hh.meet_le_left (hs.has_valueOrTop hh key) hq)).1

theorem has_joinValue (hh : h.Lawful) {x y : Option Qualifier} (hx : ∀ q, x = some q → h.Has q)
    (hy : ∀ q, y = some q → h.Has q) : h.Has (joinValue h x y) := by
  match x, y with
  | some a, some b => exact (hh.has_of_le (hh.le_join_left (hx a rfl) (hy b rfl))).2
  | some _, none => exact hh.has_top
  | none, _ => exact hh.has_top

theorem Wf.join (hh : h.Lawful) (ha : a.Wf h) (hb : b.Wf h) : (a.join h b).Wf h := by
  unfold Store.join
  split
  · exact hb
  split
  · exact ha
  refine ⟨ha.top, fun e he => ?_⟩
  obtain ⟨e', -, rfl⟩ := List.mem_map.mp he
  exact has_joinValue hh (fun _ => ha.has_of_get?) (fun _ => hb.has_of_get?)

/-- The qualifiers of a join are the joins of the qualifiers. -/
theorem valueOrTop_join (hh : h.Lawful) (ha : a.Wf h) (hb : b.Wf h) (hra : a.reachable = true)
    (hrb : b.reachable = true) (k : FlowKey) :
    (a.join h b).valueOrTop k = h.join (a.valueOrTop k) (b.valueOrTop k) := by
  have htop {x y : Qualifier} (hx : h.Has x) (hy : h.Has y) (hxy : x = h.top ∨ y = h.top) :
      h.join x y = h.top := by
    have hle := hh.le_top (hh.has_of_le (hh.le_join_left hx hy)).2
    rcases hxy with rfl | rfl
    · exact hh.le_antisymm hle (hh.le_join_left hx hy)
    · exact hh.le_antisymm hle (hh.le_join_right hx hy)
  have hjoin : (a.join h b).top = h.top := (ha.join hh hb).top
  have hva := ha.has_valueOrTop hh k
  have hvb := hb.has_valueOrTop hh k
  rw [valueOrTop, get?_join hra hrb, hjoin]
  by_cases hka : k ∈ a.keys
  · by_cases hkb : k ∈ b.keys
    · rw [if_pos (by simp [hka])]
      cases hqa : a.get? k with
      | none => exact absurd hka (get?_eq_none.mp hqa)
      | some x =>
          cases hqb : b.get? k with
          | none => exact absurd hkb (get?_eq_none.mp hqb)
          | some y => simp [joinValue, valueOrTop, hqa, hqb]
    · rw [if_pos (by simp [hka]), htop hva hvb (.inr (valueOrTop_of_not_mem hb hkb)),
        get?_eq_none.mpr hkb]
      cases a.get? k <;> rfl
  · rw [htop hva hvb (.inl (valueOrTop_of_not_mem ha hka)), get?_eq_none.mpr hka]
    split <;> rfl

theorem valueOrTop_insert : (s.insert key q).valueOrTop k =
    if k = key ∧ key.isRefinable = true then q else s.valueOrTop k := by
  have htop : (s.insert key q).top = s.top := by
    unfold insert
    split <;> rfl
  rw [valueOrTop, get?_insert, htop]
  split <;> rfl

theorem valueOrTop_retain (keep : FlowKey → Bool) : (s.retain keep).valueOrTop k =
    if keep k then s.valueOrTop k else s.top := by
  rw [valueOrTop, get?_retain]
  split <;> rfl

theorem reachable_insert : (s.insert key q).reachable = s.reachable := by
  unfold insert
  split <;> rfl

/-- The order of stores: every qualifier of a reached store is at or below the one in the
store above it. -/
def Le (h : Hierarchy) (a b : Store) : Prop :=
  a.reachable = true →
    b.reachable = true ∧ ∀ k, h.isSubtype (a.valueOrTop k) (b.valueOrTop k) = true

theorem isSubsumedBy_iff (hh : h.Lawful) (ha : a.Wf h) (hb : b.Wf h) :
    a.isSubsumedBy h b = true ↔ a.Le h b := by
  simp only [isSubsumedBy, Le, Bool.or_eq_true, Bool.not_eq_true', Bool.and_eq_true,
    List.all_eq_true, ← Bool.not_eq_true, ← imp_iff_not_or]
  refine imp_congr_right fun _ => and_congr_right fun _ =>
    ⟨fun hall k => ?_, fun hall k _ => hall k⟩
  by_cases hk : k ∈ b.keys ++ a.keys
  · exact hall k hk
  · rw [List.mem_append, not_or] at hk
    rw [valueOrTop_of_not_mem ha hk.2, valueOrTop_of_not_mem hb hk.1]
    exact hh.le_refl hh.has_top

theorem same_iff (ha : a.Wf h) (hb : b.Wf h) : a.same b = true ↔
    a.reachable = b.reachable ∧ ∀ k, a.valueOrTop k = b.valueOrTop k := by
  simp only [same, Bool.and_eq_true, decide_eq_true_eq, List.all_eq_true]
  refine and_congr_right fun _ => ⟨fun hall k => ?_, fun hall k _ => hall k⟩
  by_cases hk : k ∈ a.keys ++ b.keys
  · exact hall k hk
  · rw [List.mem_append, not_or] at hk
    rw [valueOrTop_of_not_mem ha hk.1, valueOrTop_of_not_mem hb hk.2]

theorem le_refl (hh : h.Lawful) (ha : a.Wf h) : a.Le h a :=
  fun hr => ⟨hr, fun k => hh.le_refl (ha.has_valueOrTop hh k)⟩

theorem Le.trans (hh : h.Lawful) (hab : a.Le h b) (hbc : b.Le h c) : a.Le h c := by
  intro hr
  obtain ⟨hrb, hle⟩ := hab hr
  obtain ⟨hrc, hle'⟩ := hbc hrb
  exact ⟨hrc, fun k => hh.le_trans (hle k) (hle' k)⟩

theorem le_join_left (hh : h.Lawful) (ha : a.Wf h) (hb : b.Wf h) : a.Le h (a.join h b) := by
  intro hr
  refine ⟨by rw [reachable_join, hr, Bool.true_or], fun k => ?_⟩
  cases hrb : b.reachable with
  | false =>
      simp only [join, hr, hrb, Bool.not_true, Bool.not_false, Bool.false_eq_true, if_false,
        if_true]
      exact hh.le_refl (ha.has_valueOrTop hh k)
  | true =>
      rw [valueOrTop_join hh ha hb hr hrb]
      exact hh.le_join_left (ha.has_valueOrTop hh k) (hb.has_valueOrTop hh k)

theorem le_join_right (hh : h.Lawful) (ha : a.Wf h) (hb : b.Wf h) : b.Le h (a.join h b) := by
  intro hr
  refine ⟨by rw [reachable_join, hr, Bool.or_true], fun k => ?_⟩
  cases hra : a.reachable with
  | false =>
      simp only [join, hra, Bool.not_false, if_true]
      exact hh.le_refl (hb.has_valueOrTop hh k)
  | true =>
      rw [valueOrTop_join hh ha hb hra hr]
      exact hh.le_join_right (ha.has_valueOrTop hh k) (hb.has_valueOrTop hh k)

theorem join_le (hh : h.Lawful) (ha : a.Wf h) (hb : b.Wf h) (hac : a.Le h c)
    (hbc : b.Le h c) : (a.join h b).Le h c := by
  cases hra : a.reachable with
  | false => simpa [join, hra] using hbc
  | true =>
      cases hrb : b.reachable with
      | false => simpa [join, hra, hrb] using hac
      | true =>
          intro _
          refine ⟨(hac hra).1, fun k => ?_⟩
          rw [valueOrTop_join hh ha hb hra hrb]
          exact hh.join_le ((hac hra).2 k) ((hbc hrb).2 k)

/-- Reached stores that are at or below each other say the same. -/
theorem same_of_le (hh : h.Lawful) (ha : a.Wf h) (hb : b.Wf h) (hra : a.reachable = true)
    (hab : a.Le h b) (hba : b.Le h a) : a.same b = true := by
  obtain ⟨hrb, hle⟩ := hab hra
  exact (same_iff ha hb).mpr
    ⟨hra.trans hrb.symm, fun k => hh.le_antisymm (hle k) ((hba hrb).2 k)⟩

theorem le_of_same (hh : h.Lawful) (ha : a.Wf h) (hb : b.Wf h) (hsame : a.same b = true) :
    a.Le h b ∧ b.Le h a := by
  obtain ⟨hr, hval⟩ := (same_iff ha hb).mp hsame
  refine ⟨fun hra => ⟨hr ▸ hra, fun k => ?_⟩, fun hrb => ⟨hr ▸ hrb, fun k => ?_⟩⟩
  · exact hval k ▸ hh.le_refl (ha.has_valueOrTop hh k)
  · exact hval k ▸ hh.le_refl (ha.has_valueOrTop hh k)

theorem Le.insert {q q' : Qualifier} (hab : a.Le h b) (hq : h.isSubtype q q' = true) :
    (a.insert key q).Le h (b.insert key q') := by
  intro hr
  obtain ⟨hrb, hle⟩ := hab (reachable_insert ▸ hr)
  refine ⟨reachable_insert.trans hrb, fun k => ?_⟩
  rw [valueOrTop_insert, valueOrTop_insert]
  split
  · exact hq
  · exact hle k

theorem Le.retain (hh : h.Lawful) (ha : a.Wf h) (hb : b.Wf h) (hab : a.Le h b)
    (keep : FlowKey → Bool) : (a.retain keep).Le h (b.retain keep) := by
  intro hr
  obtain ⟨hrb, hle⟩ := hab hr
  refine ⟨hrb, fun k => ?_⟩
  rw [valueOrTop_retain, valueOrTop_retain]
  split
  · exact hle k
  · rw [ha.top, hb.top]
    exact hh.le_refl hh.has_top

theorem Le.refine (hh : h.Lawful) (ha : a.Wf h) (hra : a.reachable = true) (hab : a.Le h b)
    {q q' : Qualifier} (hq : h.isSubtype q q' = true) :
    (a.refine h key q).Le h (b.refine h key q') := by
  have hkey := (hab hra).2 key
  have hle := hh.has_of_le hq
  have hmeet := ha.has_valueOrTop hh key
  refine hab.insert (hh.le_meet ?_ ?_)
  · exact hh.le_trans (hh.meet_le_left hmeet hle.1) hkey
  · exact hh.le_trans (hh.meet_le_right hmeet hle.1) hq

end Store

end FlowTyping

/-!
Transfer results as a join semilattice: results are compared outcome by outcome, and a
split one lies below collapsed ones only.
-/

namespace FlowTyping

namespace TransferResult

variable {h : Hierarchy} {a b c : TransferResult}

def isSplit : TransferResult → Bool
  | regular _ => false
  | split _ _ => true

/-- The result is one over a hierarchy. -/
structure Wf (h : Hierarchy) (r : TransferResult) : Prop where
  thenStore : r.thenStore.Wf h
  elseStore : r.elseStore.Wf h

/-- Both outcomes are reached. -/
structure Live (r : TransferResult) : Prop where
  thenStore : r.thenStore.reachable = true
  elseStore : r.elseStore.reachable = true

/-- One result says at least what another one does, for each outcome of the test. -/
structure Le (h : Hierarchy) (a b : TransferResult) : Prop where
  thenStore : a.thenStore.Le h b.thenStore
  elseStore : a.elseStore.Le h b.elseStore
  split : b.isSplit = true → a.isSplit = true

/-- The order of results as it is computed. -/
def isBelow (h : Hierarchy) (a b : TransferResult) : Bool :=
  a.isSubsumedBy h b && (!b.isSplit || a.isSplit)

theorem isBelow_iff (hh : h.Lawful) (ha : a.Wf h) (hb : b.Wf h) :
    a.isBelow h b = true ↔ a.Le h b := by
  simp only [isBelow, isSubsumedBy, Bool.and_eq_true, Bool.or_eq_true, Bool.not_eq_true',
    ← Bool.not_eq_true, ← imp_iff_not_or,
    Store.isSubsumedBy_iff hh ha.thenStore hb.thenStore,
    Store.isSubsumedBy_iff hh ha.elseStore hb.elseStore]
  exact ⟨fun hle => ⟨hle.1.1, hle.1.2, hle.2⟩, fun hle => ⟨⟨hle.1, hle.2⟩, hle.3⟩⟩

theorem wf_regular {s : Store} (hs : s.Wf h) : (regular s).Wf h := ⟨hs, hs⟩

theorem live_regular {s : Store} (hs : s.reachable = true) : (regular s).Live := ⟨hs, hs⟩

theorem regular_le {s s' : Store} (hle : s.Le h s') : (regular s).Le h (regular s') :=
  ⟨hle, hle, id⟩

theorem le_refl (hh : h.Lawful) (ha : a.Wf h) : a.Le h a :=
  ⟨Store.le_refl hh ha.thenStore, Store.le_refl hh ha.elseStore, id⟩

theorem Le.trans (hh : h.Lawful) (hab : a.Le h b) (hbc : b.Le h c) : a.Le h c :=
  ⟨hab.thenStore.trans hh hbc.thenStore, hab.elseStore.trans hh hbc.elseStore,
    fun hc => hab.split (hbc.split hc)⟩

theorem Wf.collapse (hh : h.Lawful) (ha : a.Wf h) : (a.collapse h).Wf h := by
  cases a with
  | regular s => exact ha.thenStore
  | split t e => exact ha.thenStore.join hh ha.elseStore

theorem Live.collapse (ha : a.Live) : (a.collapse h).reachable = true := by
  cases a with
  | regular s => exact ha.thenStore
  | split t e =>
      rw [TransferResult.collapse, Store.reachable_join,
        show t.reachable = true from ha.thenStore, Bool.true_or]

theorem thenStore_le_collapse (hh : h.Lawful) (ha : a.Wf h) :
    a.thenStore.Le h (a.collapse h) := by
  cases a with
  | regular s => exact Store.le_refl hh ha.thenStore
  | split t e => exact Store.le_join_left hh ha.thenStore ha.elseStore

theorem elseStore_le_collapse (hh : h.Lawful) (ha : a.Wf h) :
    a.elseStore.Le h (a.collapse h) := by
  cases a with
  | regular s => exact Store.le_refl hh ha.thenStore
  | split t e => exact Store.le_join_right hh ha.thenStore ha.elseStore

theorem collapse_le (hh : h.Lawful) (ha : a.Wf h) {s : Store} (ht : a.thenStore.Le h s)
    (he : a.elseStore.Le h s) : (a.collapse h).Le h s := by
  cases a with
  | regular s => exact ht
  | split t e => exact Store.join_le hh ha.thenStore ha.elseStore ht he

theorem Le.collapse (hh : h.Lawful) (ha : a.Wf h) (hb : b.Wf h) (hab : a.Le h b) :
    (a.collapse h).Le h (b.collapse h) :=
  collapse_le hh ha (hab.thenStore.trans hh (thenStore_le_collapse hh hb))
    (hab.elseStore.trans hh (elseStore_le_collapse hh hb))

theorem Wf.swap (ha : a.Wf h) : a.swap.Wf h := by
  cases a with
  | regular s => exact ha
  | split t e => exact ⟨ha.elseStore, ha.thenStore⟩

theorem Live.swap (ha : a.Live) : a.swap.Live := by
  cases a with
  | regular s => exact ha
  | split t e => exact ⟨ha.elseStore, ha.thenStore⟩

theorem thenStore_swap (a : TransferResult) : a.swap.thenStore = a.elseStore := by
  cases a <;> rfl

theorem elseStore_swap (a : TransferResult) : a.swap.elseStore = a.thenStore := by
  cases a <;> rfl

theorem isSplit_swap (a : TransferResult) : a.swap.isSplit = a.isSplit := by
  cases a <;> rfl

theorem Le.swap (hab : a.Le h b) : a.swap.Le h b.swap where
  thenStore := by simpa only [thenStore_swap] using hab.elseStore
  elseStore := by simpa only [elseStore_swap] using hab.thenStore
  split := by simpa only [isSplit_swap] using hab.split

/-- Two results both split, or their join is that of their collapses. -/
theorem join_cases (h : Hierarchy) (a b : TransferResult) :
    (∃ t e t' e', a = split t e ∧ b = split t' e') ∨
      (¬ (a.isSplit = true ∧ b.isSplit = true) ∧
        a.join h b = regular ((a.collapse h).join h (b.collapse h))) := by
  cases a with
  | regular s => exact .inr ⟨nofun, rfl⟩
  | split t e =>
      cases b with
      | regular s => exact .inr ⟨nofun, rfl⟩
      | split t' e' => exact .inl ⟨t, e, t', e', rfl, rfl⟩

theorem Wf.join (hh : h.Lawful) (ha : a.Wf h) (hb : b.Wf h) : (a.join h b).Wf h := by
  rcases join_cases h a b with ⟨t, e, t', e', rfl, rfl⟩ | ⟨-, heq⟩
  · exact ⟨ha.thenStore.join hh hb.thenStore, ha.elseStore.join hh hb.elseStore⟩
  · rw [heq]
    exact wf_regular ((ha.collapse hh).join hh (hb.collapse hh))

theorem Live.join (ha : a.Live) (hb : b.Live) : (a.join h b).Live := by
  rcases join_cases h a b with ⟨t, e, t', e', rfl, rfl⟩ | ⟨-, heq⟩
  · have ht : (t.join h t').reachable = true := by
      rw [Store.reachable_join, show t.reachable = true from ha.thenStore, Bool.true_or]
    have he : (e.join h e').reachable = true := by
      rw [Store.reachable_join, show e.reachable = true from ha.elseStore, Bool.true_or]
    exact ⟨ht, he⟩
  · rw [heq]
    exact live_regular (by rw [Store.reachable_join, ha.collapse, Bool.true_or])

theorem le_join_left (hh : h.Lawful) (ha : a.Wf h) (hb : b.Wf h) : a.Le h (a.join h b) := by
  rcases join_cases h a b with ⟨t, e, t', e', rfl, rfl⟩ | ⟨-, heq⟩
  · exact ⟨Store.le_join_left hh ha.thenStore hb.thenStore,
      Store.le_join_left hh ha.elseStore hb.elseStore, fun _ => rfl⟩
  · have hle := Store.le_join_left hh (ha.collapse hh) (hb.collapse hh)
    rw [heq]
    exact ⟨(thenStore_le_collapse hh ha).trans hh hle, (elseStore_le_collapse hh ha).trans hh hle,
      nofun⟩

theorem le_join_right (hh : h.Lawful) (ha : a.Wf h) (hb : b.Wf h) : b.Le h (a.join h b) := by
  rcases join_cases h a b with ⟨t, e, t', e', rfl, rfl⟩ | ⟨-, heq⟩
  · exact ⟨Store.le_join_right hh ha.thenStore hb.thenStore,
      Store.le_join_right hh ha.elseStore hb.elseStore, fun _ => rfl⟩
  · have hle := Store.le_join_right hh (ha.collapse hh) (hb.collapse hh)
    rw [heq]
    exact ⟨(thenStore_le_collapse hh hb).trans hh hle, (elseStore_le_collapse hh hb).trans hh hle,
      nofun⟩

theorem join_le (hh : h.Lawful) (ha : a.Wf h) (hb : b.Wf h) (hac : a.Le h c) (hbc : b.Le h c) :
    (a.join h b).Le h c := by
  rcases join_cases h a b with ⟨t, e, t', e', rfl, rfl⟩ | ⟨hsplit, heq⟩
  · exact ⟨Store.join_le hh ha.thenStore hb.thenStore hac.thenStore hbc.thenStore,
      Store.join_le hh ha.elseStore hb.elseStore hac.elseStore hbc.elseStore, fun _ => rfl⟩
  · rw [heq]
    cases c with
    | split t e => exact absurd ⟨hac.split rfl, hbc.split rfl⟩ hsplit
    | regular s =>
        exact regular_le (Store.join_le hh (ha.collapse hh) (hb.collapse hh)
          (collapse_le hh ha hac.thenStore hac.elseStore)
          (collapse_le hh hb hbc.thenStore hbc.elseStore))

/-- A result above a reached one is reached. -/
theorem Live.of_le (ha : a.Live) (hab : a.Le h b) : b.Live :=
  ⟨(hab.thenStore ha.thenStore).1, (hab.elseStore ha.elseStore).1⟩

theorem same_iff : a.same b = true ↔ a.isSplit = b.isSplit ∧
    a.thenStore.same b.thenStore = true ∧ a.elseStore.same b.elseStore = true := by
  cases a <;> cases b <;> simp [same, isSplit, thenStore, elseStore]

theorem Le.isSplit_eq (hab : a.Le h b) (hba : b.Le h a) : a.isSplit = b.isSplit :=
  Bool.eq_iff_iff.mpr ⟨hba.split, hab.split⟩

theorem same_of_le (hh : h.Lawful) (ha : a.Wf h) (hb : b.Wf h) (hlive : a.Live)
    (hab : a.Le h b) (hba : b.Le h a) : a.same b = true := by
  have ht := Store.same_of_le hh ha.thenStore hb.thenStore hlive.thenStore hab.thenStore
    hba.thenStore
  have he := Store.same_of_le hh ha.elseStore hb.elseStore hlive.elseStore hab.elseStore
    hba.elseStore
  exact same_iff.mpr ⟨hab.isSplit_eq hba, ht, he⟩

theorem le_of_same (hh : h.Lawful) (ha : a.Wf h) (hb : b.Wf h) (hsame : a.same b = true) :
    a.Le h b ∧ b.Le h a := by
  obtain ⟨hsplit, ht, he⟩ := same_iff.mp hsame
  obtain ⟨htle, htge⟩ := Store.le_of_same hh ha.thenStore hb.thenStore ht
  obtain ⟨hele, hege⟩ := Store.le_of_same hh ha.elseStore hb.elseStore he
  exact ⟨⟨htle, hele, hsplit.trans⟩, ⟨htge, hege, hsplit.symm.trans⟩⟩

end TransferResult

end FlowTyping
