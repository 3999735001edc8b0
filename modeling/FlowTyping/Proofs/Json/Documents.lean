import FlowTyping.Checker.Declaration
import FlowTyping.Proofs.Number.Shortest

/-!
Documents are read back from their texts, from the one on a single line and from the indented one.
What nests past the limit is unreadable then; nothing else is lost.
-/

namespace FlowTyping

namespace Json

open Token (Scans EndsNumeral)

mutual

/-- All numerals of the document have a spelling. -/
def WellFormed : Json → Prop
  | .num n => n.WellFormed
  | .arr items => ItemsWellFormed items
  | .obj fields => FieldsWellFormed fields
  | _ => True

def ItemsWellFormed : List Json → Prop
  | [] => True
  | v :: rest => WellFormed v ∧ ItemsWellFormed rest

def FieldsWellFormed : List (String × Json) → Prop
  | [] => True
  | (_, v) :: rest => WellFormed v ∧ FieldsWellFormed rest

end

section Scanning

variable {rest : List Char} {ts : List Token}

attribute [local simp] WellFormed tokens itemTokens fieldTokens prettyAt prettyItems prettyFields
  Token.spelling

theorem endsNumeral_cons {c : Char} (hc : Token.isDigit c = false ∧ c ≠ '.' ∧ c ≠ 'e' ∧ c ≠ 'E') :
    EndsNumeral (c :: rest) := by
  intro d hd
  obtain rfl := Option.some.inj hd
  exact hc

theorem ends_of_ne_num {t : Token} (ht : ∀ n, t ≠ .num n) : t.Ends rest :=
  fun n hn => absurd hn (ht n)

/-- A token that is no numeral is scanned whatever follows. -/
theorem scans_mark (t : Token) (ht : ∀ n, t ≠ .num n) (h : Scans rest ts) :
    Scans (t.spelling ++ rest) (t :: ts) :=
  h.token (ends_of_ne_num ht)

mutual

theorem scans_tokens : (v : Json) → v.WellFormed → ∀ {r : List Char} {ts : List Token},
    EndsNumeral r → Scans r ts → Scans (v.tokens.flatMap Token.spelling ++ r) (v.tokens ++ ts)
  | .null, _, _, _, _, h => scans_mark .null nofun h
  | .bool b, _, _, _, _, h => by simpa using scans_mark (.bool b) nofun h
  | .num n, hv, _, _, hr, h => by
      have hn : n.WellFormed := by simpa using hv
      simpa using Scans.token (t := .num n) (fun m hm => by cases hm; exact ⟨hn, hr⟩) h
  | .str s, _, _, _, _, h => by simpa using scans_mark (.text (some s)) nofun h
  | .unreadable, _, _, _, _, h => by simpa using scans_mark (.text none) nofun h
  | .arr items, hv, r, _, _, h => by
      have hitems := scans_itemTokens items (by simpa using hv)
        (r := ']' :: r) (endsNumeral_cons (by decide)) (scans_mark .closeBracket nofun h)
      simpa using scans_mark .openBracket nofun hitems
  | .obj fields, hv, r, _, _, h => by
      have hfields := scans_fieldTokens fields (by simpa using hv)
        (r := '\x7d' :: r) (endsNumeral_cons (by decide)) (scans_mark .closeBrace nofun h)
      simpa using scans_mark .openBrace nofun hfields

theorem scans_itemTokens : (items : List Json) → ItemsWellFormed items →
    ∀ {r : List Char} {ts : List Token}, EndsNumeral r → Scans r ts →
      Scans ((itemTokens items).flatMap Token.spelling ++ r) (itemTokens items ++ ts)
  | [], _, _, _, _, h => h
  | [v], hv, _, _, hr, h => scans_tokens v hv.1 hr h
  | v :: w :: more, hv, _, _, hr, h => by
      have hmore := scans_mark .comma nofun (scans_itemTokens (w :: more) hv.2 hr h)
      simpa using scans_tokens v hv.1 (endsNumeral_cons (by decide)) hmore

theorem scans_fieldTokens : (fields : List (String × Json)) → FieldsWellFormed fields →
    ∀ {r : List Char} {ts : List Token}, EndsNumeral r → Scans r ts →
      Scans ((fieldTokens fields).flatMap Token.spelling ++ r) (fieldTokens fields ++ ts)
  | [], _, _, _, _, h => h
  | [(k, v)], hv, _, _, hr, h => by
      have hvalue := scans_mark .colon nofun (scans_tokens v hv.1 hr h)
      simpa using scans_mark (.text (some k)) nofun hvalue
  | (k, v) :: f :: more, hv, _, _, hr, h => by
      have hmore := scans_mark .comma nofun (scans_fieldTokens (f :: more) hv.2 hr h)
      have hvalue := scans_mark .colon nofun
        (scans_tokens v hv.1 (endsNumeral_cons (by decide)) hmore)
      simpa using scans_mark (.text (some k)) nofun hvalue

end

theorem scans_indent (depth : Nat) (h : Scans rest ts) : Scans (indent depth ++ rest) ts := by
  have hblanks (n : Nat) : Scans (List.replicate n ' ' ++ rest) ts := by
    induction n with
    | zero => exact h
    | succ n ih => exact ih.blank rfl
  exact (hblanks (2 * depth)).blank rfl

mutual

theorem scans_prettyAt : (v : Json) → v.WellFormed → ∀ {d : Nat} {r : List Char} {ts : List Token},
    EndsNumeral r → Scans r ts → Scans (prettyAt d v ++ r) (v.tokens ++ ts)
  | .null, _, _, _, _, _, h => by simpa using scans_mark .null nofun h
  | .bool b, _, _, _, _, _, h => by simpa using scans_mark (.bool b) nofun h
  | .num n, hv, _, _, _, hr, h => by
      have hn : n.WellFormed := by simpa using hv
      simpa using Scans.token (t := .num n) (fun m hm => by cases hm; exact ⟨hn, hr⟩) h
  | .str s, _, _, _, _, _, h => by simpa using scans_mark (.text (some s)) nofun h
  | .unreadable, _, _, _, _, _, h => by simpa using scans_mark (.text none) nofun h
  | .arr [], _, _, _, _, _, h => by
      simpa using scans_mark .openBracket nofun (scans_mark .closeBracket nofun h)
  | .arr (v :: more), hv, d, r, _, _, h => by
      have hclose := scans_indent d (scans_mark .closeBracket nofun h)
      have hitems := scans_prettyItems (v :: more) (by simpa using hv) (d := d + 1)
        (endsNumeral_cons (by decide)) hclose
      simpa [indent] using scans_mark .openBracket nofun hitems
  | .obj [], _, _, _, _, _, h => by
      simpa using scans_mark .openBrace nofun (scans_mark .closeBrace nofun h)
  | .obj (f :: more), hv, d, r, _, _, h => by
      have hclose := scans_indent d (scans_mark .closeBrace nofun h)
      have hfields := scans_prettyFields (f :: more) (by simpa using hv) (d := d + 1)
        (endsNumeral_cons (by decide)) hclose
      simpa [indent] using scans_mark .openBrace nofun hfields

theorem scans_prettyItems : (items : List Json) → ItemsWellFormed items →
    ∀ {d : Nat} {r : List Char} {ts : List Token}, EndsNumeral r → Scans r ts →
      Scans (prettyItems d items ++ r) (itemTokens items ++ ts)
  | [], _, _, _, _, _, h => h
  | [v], hv, d, _, _, hr, h => by simpa using scans_indent d (scans_prettyAt v hv.1 (d := d) hr h)
  | v :: w :: more, hv, d, _, _, hr, h => by
      have hmore := scans_mark .comma nofun (scans_prettyItems (w :: more) hv.2 (d := d) hr h)
      have hvalue := scans_prettyAt v hv.1 (d := d) (endsNumeral_cons (by decide)) hmore
      simpa using scans_indent d hvalue

theorem scans_prettyFields : (fields : List (String × Json)) → FieldsWellFormed fields →
    ∀ {d : Nat} {r : List Char} {ts : List Token}, EndsNumeral r → Scans r ts →
      Scans (prettyFields d fields ++ r) (fieldTokens fields ++ ts)
  | [], _, _, _, _, _, h => h
  | [(k, v)], hv, d, _, _, hr, h => by
      have hvalue := scans_mark .colon nofun
        ((scans_prettyAt v hv.1 (d := d) hr h).blank (c := ' ') rfl)
      simpa using scans_indent d (scans_mark (.text (some k)) nofun hvalue)
  | (k, v) :: f :: more, hv, d, _, _, hr, h => by
      have hmore := scans_mark .comma nofun (scans_prettyFields (f :: more) hv.2 (d := d) hr h)
      have hvalue := scans_mark .colon nofun
        ((scans_prettyAt v hv.1 (d := d) (endsNumeral_cons (by decide)) hmore).blank (c := ' ') rfl)
      simpa using scans_indent d (scans_mark (.text (some k)) nofun hvalue)

end

theorem scan_compact {v : Json} (hv : v.WellFormed) :
    Token.scan v.compact.toList = some v.tokens := by
  have h := scans_tokens v hv (r := []) nofun .nil
  simpa [compact] using h.scan_eq

theorem scan_pretty {v : Json} (hv : v.WellFormed) :
    Token.scan v.pretty.toList = some v.tokens := by
  have h := scans_prettyAt v hv (d := 0) (r := []) nofun .nil
  simpa [pretty] using h.scan_eq

end Scanning

section Reading

variable {frames outer : List Frame} {rest : List Token} {key : Option String}

attribute [local simp] tokens itemTokens fieldTokens run step startValue ofText

/-- Fields as they are kept while their object is open. -/
def named (fields : List (String × Json)) : List (Option String × Json) :=
  fields.map fun f => (some f.1, f.2)

theorem closeMembers_named (fields : List (String × Json)) :
    closeMembers (named fields).reverse = .obj fields := by
  have hall : (named fields).mapM (fun f => f.1.map (·, f.2)) = some fields := by
    induction fields with
    | nil => rfl
    | cons f more ih =>
        simp only [named, List.map_cons, List.mapM_cons] at ih ⊢
        rw [ih]
        rfl
  rw [closeMembers, List.reverse_reverse, hall]

/-- The first item of an array is read like any value. -/
theorem run_itemOrClose (v : Json) :
    run frames .itemOrClose (v.tokens ++ rest) = run frames .value (v.tokens ++ rest) := by
  cases v <;> simp

/-- The first name of an object is read like any name. -/
theorem run_keyOrClose :
    run frames .keyOrClose (.text key :: rest) = run frames .key (.text key :: rest) := by
  simp

mutual

theorem run_tokens : (v : Json) → ∀ (frames : List Frame) (rest : List Token),
    run frames .value (v.tokens ++ rest) = run frames (.after v) rest
  | .null, _, _ => by simp
  | .bool b, _, _ => by simp
  | .num n, _, _ => by simp
  | .str s, _, _ => by simp
  | .unreadable, _, _ => by simp
  | .arr items, frames, rest => by
      have hitems := run_itemTokens items [] frames rest
      cases items with
      | nil => simp
      | cons v more =>
          have hopen : run frames .value ((arr (v :: more)).tokens ++ rest) =
              run (.items [] :: frames) .itemOrClose
                (itemTokens (v :: more) ++ .closeBracket :: rest) := by
            simp
          have hfirst : run (.items [] :: frames) .itemOrClose
              (itemTokens (v :: more) ++ .closeBracket :: rest) =
                run (.items [] :: frames) .value
                  (itemTokens (v :: more) ++ .closeBracket :: rest) := by
            cases more with
            | nil => exact run_itemOrClose v
            | cons w more =>
                simp only [itemTokens, List.append_assoc]
                exact run_itemOrClose v
          rw [hopen, hfirst, hitems nofun]
          rfl
  | .obj fields, frames, rest => by
      have hfields := run_fieldTokens fields [] frames rest
      cases fields with
      | nil => simp [closeMembers]
      | cons f more =>
          have hopen : run frames .value ((obj (f :: more)).tokens ++ rest) =
              run (.members [] :: frames) .keyOrClose
                (fieldTokens (f :: more) ++ .closeBrace :: rest) := by
            simp
          have hfirst : run (.members [] :: frames) .keyOrClose
              (fieldTokens (f :: more) ++ .closeBrace :: rest) =
                run (.members [] :: frames) .key
                  (fieldTokens (f :: more) ++ .closeBrace :: rest) := by
            cases more with
            | nil => exact run_keyOrClose
            | cons g more => exact run_keyOrClose
          rw [hopen, hfirst, hfields nofun, List.append_nil, closeMembers_named]

/-- The items still to come are added to those that are done, and the array is closed. -/
theorem run_itemTokens : (items : List Json) → ∀ (done : List Json) (outer : List Frame)
    (rest : List Token), items ≠ [] →
      run (.items done :: outer) .value (itemTokens items ++ .closeBracket :: rest) =
        run outer (.after (.arr (done.reverse ++ items))) rest
  | [], _, _, _, hne => absurd rfl hne
  | [v], done, outer, rest, _ => by
      rw [itemTokens, run_tokens v]
      simp
  | v :: w :: more, done, outer, rest, _ => by
      have hmore := run_itemTokens (w :: more) (v :: done) outer rest nofun
      simp only [itemTokens, List.append_assoc, List.cons_append]
      rw [run_tokens v]
      simp [hmore]

/-- The fields still to come are added to those that are done, and the object is closed. -/
theorem run_fieldTokens : (fields : List (String × Json)) →
    ∀ (done : List (Option String × Json)) (outer : List Frame) (rest : List Token), fields ≠ [] →
      run (.members done :: outer) .key (fieldTokens fields ++ .closeBrace :: rest) =
        run outer (.after (closeMembers ((named fields).reverse ++ done))) rest
  | [], _, _, _, hne => absurd rfl hne
  | [(k, v)], done, outer, rest, _ => by
      have hvalue := run_tokens v (.member done (some k) :: outer) (.closeBrace :: rest)
      simp [named, hvalue]
  | (k, v) :: f :: more, done, outer, rest, _ => by
      have hmore := run_fieldTokens (f :: more) ((some k, v) :: done) outer rest nofun
      have hvalue := run_tokens v (.member done (some k) :: outer)
        (.comma :: (fieldTokens (f :: more) ++ .closeBrace :: rest))
      simp [named, hvalue] at hmore ⊢
      exact hmore

end

theorem ofTokens?_tokens (v : Json) : ofTokens? v.tokens = some v := by
  have h := run_tokens v [] []
  rw [List.append_nil] at h
  rw [ofTokens?, h]
  rfl

end Reading

section Texts

variable {v : Json}

theorem parse?_compact (hv : v.WellFormed) : parse? v.compact = some v := by
  rw [parse?, scan_compact hv]
  exact ofTokens?_tokens v

theorem parse?_pretty (hv : v.WellFormed) : parse? v.pretty = some v := by
  rw [parse?, scan_pretty hv]
  exact ofTokens?_tokens v

theorem read?_compact (hv : v.WellFormed) : read? v.compact = some (v.within nestingLimit) := by
  rw [read?, parse?_compact hv]
  rfl

theorem read?_pretty (hv : v.WellFormed) : read? v.pretty = some (v.within nestingLimit) := by
  rw [read?, parse?_pretty hv]
  rfl

end Texts

section Nesting

mutual

/-- Nothing is cut from a document that is no deeper than the limit. -/
theorem within_of_depth_le : (v : Json) → ∀ {limit : Nat}, v.depth ≤ limit → within limit v = v
  | .null, limit, _ => by cases limit <;> rfl
  | .bool _, limit, _ => by cases limit <;> rfl
  | .num _, limit, _ => by cases limit <;> rfl
  | .str _, limit, _ => by cases limit <;> rfl
  | .unreadable, limit, _ => by cases limit <;> rfl
  | .arr items, 0, h => by simp [depth] at h
  | .arr items, limit + 1, h => by
      rw [within, itemsWithin_of_depth_le items (Nat.le_of_succ_le_succ h)]
  | .obj fields, 0, h => by simp [depth] at h
  | .obj fields, limit + 1, h => by
      rw [within, fieldsWithin_of_depth_le fields (Nat.le_of_succ_le_succ h)]

theorem itemsWithin_of_depth_le : (items : List Json) → ∀ {limit : Nat},
    itemsDepth items ≤ limit → itemsWithin limit items = items
  | [], _, _ => rfl
  | v :: more, _, h => by
      have hv := within_of_depth_le v (Nat.le_trans (Nat.le_max_left _ _) h)
      have hmore := itemsWithin_of_depth_le more (Nat.le_trans (Nat.le_max_right _ _) h)
      rw [itemsWithin, hv, hmore]

theorem fieldsWithin_of_depth_le : (fields : List (String × Json)) → ∀ {limit : Nat},
    fieldsDepth fields ≤ limit → fieldsWithin limit fields = fields
  | [], _, _ => rfl
  | (k, v) :: more, _, h => by
      have hv := within_of_depth_le v (Nat.le_trans (Nat.le_max_left _ _) h)
      have hmore := fieldsWithin_of_depth_le more (Nat.le_trans (Nat.le_max_right _ _) h)
      rw [fieldsWithin, hv, hmore]

end

end Nesting

end Json

end FlowTyping

/-!
Typed values that are read back from their documents. A format is a reader with a writer; that it
loses nothing is shown for the parts of a value first and then for the value.
-/

namespace FlowTyping

namespace Json

variable {n : Nat} {v : Json}

theorem itemsWellFormed_iff {items : List Json} :
    ItemsWellFormed items ↔ ∀ v ∈ items, v.WellFormed := by
  induction items with
  | nil => simp [ItemsWellFormed]
  | cons v more ih => simp [ItemsWellFormed, ih]

theorem fieldsWellFormed_iff {fields : List (String × Json)} :
    FieldsWellFormed fields ↔ ∀ f ∈ fields, f.2.WellFormed := by
  induction fields with
  | nil => simp [FieldsWellFormed]
  | cons f more ih => simp [FieldsWellFormed, ih]

theorem itemsDepth_le_iff {items : List Json} :
    itemsDepth items ≤ n ↔ ∀ v ∈ items, v.depth ≤ n := by
  induction items with
  | nil => simp [itemsDepth]
  | cons v more ih => simp [itemsDepth, ih]

theorem fieldsDepth_le_iff {fields : List (String × Json)} :
    fieldsDepth fields ≤ n ↔ ∀ f ∈ fields, f.2.depth ≤ n := by
  induction fields with
  | nil => simp [fieldsDepth]
  | cons f more ih => simp [fieldsDepth, ih]

/-- A text of a document, on one line or indented. -/
def Spells (text : String) (v : Json) : Prop := text = v.compact ∨ text = v.pretty

theorem Spells.read?_eq {text : String} (htext : Spells text v) (h : v.WellFormed) :
    read? text = some (v.within nestingLimit) := by
  obtain rfl | rfl := htext
  · exact read?_compact h
  · exact read?_pretty h

/-- A document that can be spelled and is at most `n` deep. -/
structure Fits (n : Nat) (v : Json) : Prop where
  wellFormed : v.WellFormed
  depth_le : v.depth ≤ n

namespace Fits

@[simp] theorem null : Fits n .null := ⟨by simp [WellFormed], by simp [depth]⟩

@[simp] theorem bool (b : Bool) : Fits n (.bool b) := ⟨by simp [WellFormed], by simp [depth]⟩

@[simp] theorem str (s : String) : Fits n (.str s) := ⟨by simp [WellFormed], by simp [depth]⟩

@[simp] theorem int (k : Int) : Fits n (.int k) :=
  ⟨by simpa [Json.int, WellFormed] using Numeral.ofInt_wellFormed k, by simp [Json.int, depth]⟩

@[simp] theorem nat (k : Nat) : Fits n (.nat k) := int k

@[simp] theorem arr {items : List Json} : Fits (n + 1) (.arr items) ↔ ∀ v ∈ items, Fits n v := by
  constructor
  · rintro ⟨hspelled, hdepth⟩ v hv
    rw [WellFormed, itemsWellFormed_iff] at hspelled
    rw [depth, Nat.add_le_add_iff_right, itemsDepth_le_iff] at hdepth
    exact ⟨hspelled v hv, hdepth v hv⟩
  · intro h
    constructor
    · rw [WellFormed, itemsWellFormed_iff]
      exact fun v hv => (h v hv).wellFormed
    · rw [depth, Nat.add_le_add_iff_right, itemsDepth_le_iff]
      exact fun v hv => (h v hv).depth_le

@[simp] theorem obj {fields : List (String × Json)} :
    Fits (n + 1) (.obj fields) ↔ ∀ f ∈ fields, Fits n f.2 := by
  constructor
  · rintro ⟨hspelled, hdepth⟩ f hf
    rw [WellFormed, fieldsWellFormed_iff] at hspelled
    rw [depth, Nat.add_le_add_iff_right, fieldsDepth_le_iff] at hdepth
    exact ⟨hspelled f hf, hdepth f hf⟩
  · intro h
    constructor
    · rw [WellFormed, fieldsWellFormed_iff]
      exact fun f hf => (h f hf).wellFormed
    · rw [depth, Nat.add_le_add_iff_right, fieldsDepth_le_iff]
      exact fun f hf => (h f hf).depth_le

@[simp] theorem tagged {name : String} : Fits (n + 1) (.tagged name v) ↔ Fits n v := by
  simp [Json.tagged]

theorem mono {m : Nat} (h : Fits n v) (hnm : n ≤ m) : Fits m v :=
  ⟨h.wellFormed, Nat.le_trans h.depth_le hnm⟩

theorem read?_spelled {text : String} (h : Fits nestingLimit v) (htext : Spells text v) :
    read? text = some v := by
  rw [htext.read?_eq h.wellFormed, within_of_depth_le v h.depth_le]

end Fits

theorem optional?_of_ne_null {α : Type} {read : Json → Option α} (h : v ≠ .null) :
    optional? read v = (read v).map some := by
  cases v <;> simp_all [optional?]

/-- `read` gives a value back from the document that `write` makes of it. The document can be
spelled and is at most `n` deep. -/
structure ReadsBack {α : Type} (read : Json → Option α) (write : α → Json) (n : Nat) (a : α) :
    Prop where
  fits : (write a).Fits n
  read_write : read (write a) = some a

namespace ReadsBack

variable {α : Type} {read : Json → Option α} {write : α → Json} {a : α}

theorem ofList (as : List α) (h : ∀ a ∈ as, ReadsBack read write n a) :
    ReadsBack (list? read) (Json.ofList write) (n + 1) as where
  fits := by
    rw [Json.ofList, Fits.arr]
    intro v hv
    obtain ⟨a, ha, rfl⟩ := List.mem_map.mp hv
    exact (h a ha).fits
  read_write := by
    rw [Json.ofList, list?]
    induction as with
    | nil => rfl
    | cons a more ih =>
        rw [List.forall_mem_cons] at h
        rw [List.map_cons, List.mapM_cons, h.1.read_write, ih h.2]
        rfl

theorem optional?_write (h : ReadsBack read write n a) (hnull : write a ≠ .null) :
    optional? read (write a) = some (some a) := by
  rw [optional?_of_ne_null hnull, h.read_write]
  rfl

theorem ofOption {o : Option α} (h : ∀ a, o = some a → ReadsBack read write n a)
    (hnull : ∀ a, write a ≠ .null) : ReadsBack (optional? read) (Json.ofOption write) n o := by
  cases o with
  | none => exact ⟨Fits.null, rfl⟩
  | some a =>
      have ha := h a rfl
      exact ⟨ha.fits, ha.optional?_write (hnull a)⟩

theorem mono {m : Nat} (h : ReadsBack read write n a) (hnm : n ≤ m) : ReadsBack read write m a :=
  ⟨h.fits.mono hnm, h.read_write⟩

theorem str (s : String) : ReadsBack string? .str n s := ⟨Fits.str s, rfl⟩

theorem nat {k : Nat} (hk : k < 18446744073709551616) : ReadsBack unsigned? .nat n k :=
  ⟨Fits.nat k, unsigned?_nat hk⟩

theorem strs (ss : List String) : ReadsBack (list? string?) (Json.ofList .str) (n + 1) ss :=
  ofList ss fun s _ => str s

theorem optionalStr (s : Option String) :
    ReadsBack (optional? string?) (Json.ofOption .str) n s :=
  ofOption (fun s _ => str s) nofun

theorem declared_spelled (h : ReadsBack read write nestingLimit a) {text : String}
    (htext : Spells text (write a)) : declared read text = .ok a := by
  rw [declared, h.fits.read?_spelled htext, Option.bind_some, h.read_write]

end ReadsBack

/-- A choice among bare names: each is read back if no other member has its name. -/
theorem readsBack_name {α : Type} [DecidableEq α] {all : List α} {tag : α → String} {a : α}
    (hfind : (all.map fun b => (tag b, b)).find? (fun b => b.1 = tag a) = some (tag a, a)) :
    ReadsBack (name? (all.map fun b => (tag b, b))) (fun a => .str (tag a)) n a := by
  refine ⟨Fits.str _, ?_⟩
  simp only [name?, choice?, Option.bind_eq_bind, Option.bind_some, hfind]
  rfl

end Json

end FlowTyping
