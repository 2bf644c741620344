import LiveDoc.Proofs.Spelling
import LiveDoc.Proofs.VariantChoice

/-! # The order of tags

The tags of a key are read one after the other. On each dimension the least of the values stays that the
tags give it, so that the tags may stand in any order.
-/

namespace LiveDoc

/-! ## Parts of a text -/

namespace Text

variable {sep : Char}

theorem splitChars_ne_nil (sep : Char) (cs : List Char) : splitChars sep cs ≠ [] := by
  intro h
  have hhead := head?_splitChars sep cs
  rw [h] at hhead
  cases hhead

theorem split_ne_nil (sep : Char) (s : String) : split sep s ≠ [] := by
  rw [split, ne_eq, List.map_eq_nil_iff]
  exact splitChars_ne_nil sep s.toList

theorem splitChars_append_cons (cs ds : List Char) :
    splitChars sep (cs ++ sep :: ds) = splitChars sep cs ++ splitChars sep ds := by
  induction cs with
  | nil => simp [splitChars]
  | cons c cs ih =>
    by_cases hc : c = sep
    · simp [splitChars, hc, ih]
    · obtain ⟨part, parts, hs⟩ := List.exists_cons_of_ne_nil (splitChars_ne_nil sep cs)
      simp [splitChars, hc, ih, hs]

theorem split_append (s t : String) :
    split sep (s ++ String.singleton sep ++ t) = split sep s ++ split sep t := by
  simp only [split, String.toList_append, String.toList_singleton, List.append_assoc,
    List.singleton_append, splitChars_append_cons, List.map_append]

/-- Texts that are joined by the separator are split each on its own. -/
theorem split_intercalate (sep : Char) (s : String) (ts : List String) :
    split sep ((String.singleton sep).intercalate (s :: ts)) = (s :: ts).flatMap (split sep) := by
  induction ts generalizing s with
  | nil => rw [String.intercalate_singleton, List.flatMap_cons, List.flatMap_nil, List.append_nil]
  | cons t ts ih =>
    rw [String.intercalate_cons_cons, List.flatMap_cons, ← ih]
    exact split_append s _

theorem flatMap_split_of_not_mem {ts : List String} (h : ∀ t ∈ ts, sep ∉ t.toList) :
    ts.flatMap (split sep) = ts := by
  induction ts with
  | nil => rfl
  | cons t ts ih =>
    obtain ⟨ht, hts⟩ := List.forall_mem_cons.1 h
    rw [List.flatMap_cons, split_of_not_mem ht, ih hts, List.singleton_append]

end Text

namespace VariantKey

/-! ## Tags of one dimension -/

/-- The values that tags give to a dimension. -/
def given (d : Dimension) (ts : List Tag) : List String :=
  (ts.filter (·.dimension = d)).map (·.value)

variable {dimensions : Table Dimension String} {t : Tag} {ts ts' : List Tag} {d : Dimension}

theorem given_cons_self (ts : List Tag) (h : t.dimension = d) :
    given d (t :: ts) = t.value :: given d ts := by
  simp [given, h]

theorem given_cons_of_ne (ts : List Tag) (h : t.dimension ≠ d) : given d (t :: ts) = given d ts := by
  simp [given, h]

theorem get?_addTag_self : (addTag dimensions t).get? t.dimension =
    some ((dimensions.get? t.dimension).elim t.value (min · t.value)) := by
  unfold addTag
  split
  · next h => simp [Table.get?_insert, h]
  · next old h =>
    rw [h, Option.elim_some, min_comm, min_def_lt]
    split
    · next hc => simp [Table.get?_insert, compare_lt_iff_lt.1 hc]
    · next hc => simp [h, mt compare_lt_iff_lt.2 hc]

theorem get?_addTag_of_ne (h : t.dimension ≠ d) : (addTag dimensions t).get? d = dimensions.get? d := by
  have hd : d ≠ t.dimension := Ne.symm h
  unfold addTag
  split
  · rw [Table.get?_insert, if_neg hd]
  · split
    · rw [Table.get?_insert, if_neg hd]
    · rfl

/-- Of the values that are there and those that are added the least stays. -/
theorem get?_foldl_addTag (dimensions : Table Dimension String) (ts : List Tag) (d : Dimension) :
    (ts.foldl addTag dimensions).get? d = ((dimensions.get? d).toList ++ given d ts).min? := by
  induction ts generalizing dimensions with
  | nil => cases h : dimensions.get? d <;> simp [given, h]
  | cons t ts ih =>
    rw [List.foldl_cons, ih]
    by_cases h : t.dimension = d
    · subst h
      rw [get?_addTag_self, given_cons_self ts rfl]
      cases dimensions.get? t.dimension with
      | none => rfl
      | some old =>
        simp only [Option.elim_some, Option.toList_some, List.singleton_append, List.min?_cons',
          List.foldl_cons]
    · rw [get?_addTag_of_ne h, given_cons_of_ne ts h]

theorem min?_eq_of_perm {vs ws : List String} (h : vs.Perm ws) : vs.min? = ws.min? := by
  apply Option.ext
  intro v
  simp only [List.min?_eq_some_iff, h.mem_iff]

theorem foldl_addTag_perm (h : ts.Perm ts') :
    ts.foldl addTag dimensions = ts'.foldl addTag dimensions := by
  apply Table.ext_get?
  intro d
  rw [get?_foldl_addTag, get?_foldl_addTag]
  apply min?_eq_of_perm
  exact ((h.filter _).map _).append_left _

/-- A key gives a dimension the least of the values that its tags do. -/
theorem get?_ofParts (expression : Bool) (base : String) (tags : List String) (d : Dimension) :
    (ofParts expression base tags).dimensions.get? d =
      (given d ((tags.filter (· != "")).map Tag.parse)).min? := by
  rw [ofParts, get?_foldl_addTag, Table.get?_empty]
  rfl

theorem ofParts_perm {tags tags' : List String} (expression : Bool) (base : String)
    (h : tags.Perm tags') : ofParts expression base tags = ofParts expression base tags' := by
  rw [ofParts, ofParts, foldl_addTag_perm ((h.filter _).map _)]

/-! ## Written keys -/

/-- A key as it is written. -/
def spell (marked : Bool) (base : String) (tags : List String) : String :=
  let name := ":".intercalate (base :: tags)
  if marked then mark name else name

theorem text_eq_spell (k : VariantKey) : k.text = spell k.expression k.base (k.tags.map Tag.text) :=
  rfl

theorem unmark?_append {base : String} (rest : String) (h : base = "" → unmark? rest = none) :
    unmark? (base ++ rest) = (unmark? base).map (· ++ rest) := by
  unfold unmark? Text.stripHead? at *
  rw [String.toList_append]
  cases hb : base.toList with
  | nil =>
    have hempty : base = "" := String.toList_eq_nil_iff.1 hb
    simpa using h hempty
  | cons c cs =>
    by_cases hc : c = marker
    · simp [hc, String.ofList_append]
    · simp [hc]

theorem unmark?_intercalate (base : String) (tags : List String) :
    unmark? (":".intercalate (base :: tags)) =
      (unmark? base).map fun name => ":".intercalate (name :: tags) := by
  cases tags with
  | nil => simp
  | cons t ts =>
    simp only [String.intercalate_cons_cons, String.append_assoc]
    apply unmark?_append
    intro _
    simp [unmark?, Text.stripHead?, marker]

variable {marked : Bool} {base name : String} {tags before : List String}

theorem isMarked_spell (marked : Bool) (base : String) (tags : List String) :
    isMarked (spell marked base tags) = (marked || isMarked base) := by
  cases marked with
  | true => exact isMarked_mark _
  | false => simp [spell, isMarked, unmark?_intercalate]

theorem unmark_spell (marked : Bool) (base : String) (tags : List String) :
    unmark (spell marked base tags) =
      ":".intercalate ((if marked then base else unmark base) :: tags) := by
  cases marked with
  | true => exact unmark_mark _
  | false =>
    simp only [spell, unmark, Bool.false_eq_true, if_false, unmark?_intercalate]
    cases unmark? base <;> rfl

/-- What is read of a written key. -/
theorem parse_spell (h : Text.split ':' (if marked then base else unmark base) = name :: before)
    (tags : List String) : parse (spell marked base tags) =
      ofParts (marked || isMarked base) name (before ++ tags.flatMap (Text.split ':')) := by
  have hsplit : Text.split ':' (":".intercalate ((if marked then base else unmark base) :: tags)) =
      name :: (before ++ tags.flatMap (Text.split ':')) := by
    refine (Text.split_intercalate ':' (if marked then base else unmark base) tags).trans ?_
    rw [List.flatMap_cons, h, List.cons_append]
  simp only [parse, unmark_spell, isMarked_spell, hsplit]

theorem parse_spell_of_not_mem (hb : ':' ∉ base.toList) (ht : ∀ t ∈ tags, ':' ∉ t.toList)
    (hm : marked = false → isMarked base = false) :
    parse (spell marked base tags) = ofParts marked base tags := by
  have hname : (if marked then base else unmark base) = base := by
    cases marked with
    | true => rfl
    | false => exact unmark_of_not_marked (hm rfl)
  have hmarked : (marked || isMarked base) = marked := by
    cases marked with
    | true => rfl
    | false => exact hm rfl
  have hsplit : Text.split ':' (if marked then base else unmark base) = [base] := by
    rw [hname, Text.split_of_not_mem hb]
  rw [parse_spell hsplit, hmarked, Text.flatMap_split_of_not_mem ht, List.nil_append]

/-- A key whose tags are in another order is read as the same key, so that it scores the same, has as many
tags that are not wanted, and is as plain. On each dimension it has the least of the values given. -/
theorem parse_permuted (marked : Bool) (base : String) {tags tags' : List String}
    (h : tags.Perm tags') :
    parse (spell marked base tags') = parse (spell marked base tags) ∧
    (∀ requested,
      let c := Candidate.ofKey requested (spell marked base tags)
      let c' := Candidate.ofKey requested (spell marked base tags')
      c'.score = c.score ∧ c'.extras = c.extras ∧ c'.plain = c.plain) ∧
    ((marked = false → isMarked base = false) → ':' ∉ base.toList → (∀ t ∈ tags, ':' ∉ t.toList) →
      ∀ d, (parse (spell marked base tags)).dimensions.get? d =
        (given d ((tags.filter (· != "")).map Tag.parse)).min?) := by
  have hparse : parse (spell marked base tags') = parse (spell marked base tags) := by
    obtain ⟨name, before, hsplit⟩ := List.exists_cons_of_ne_nil
      (Text.split_ne_nil ':' (if marked then base else unmark base))
    rw [parse_spell hsplit, parse_spell hsplit]
    apply ofParts_perm
    exact (h.symm.flatMap_right _).append_left before
  refine ⟨hparse, ?_, ?_⟩
  · intro requested
    simp only [Candidate.ofKey_eq, Candidate.rated, hparse, and_self]
  · intro hm hb ht d
    rw [parse_spell_of_not_mem hb ht hm, get?_ofParts]

/-- Two languages, two genders and two values of `x`, from the last to the first. -/
theorem conflicting_tags_permuted :
    let tags := ["fr", "lang=ES", "gender=N", "x=2", "F", "", "x=1"]
    let key := ".k:fr:lang=ES:gender=N:x=2:F::x=1"
    spell true "k" tags = key ∧ tags.Perm tags.reverse ∧
      parse (spell true "k" tags.reverse) = parse key ∧
      (Candidate.ofKey (Context.requested (.single "lang" "es"))
        (spell true "k" tags.reverse)).score = 1000 ∧
      (parse key).dimensions.get? .gender = some "f" := by
  intro tags key
  have hkey : spell true "k" tags = key := by decide
  have hperm : tags.Perm tags.reverse := tags.reverse_perm.symm
  obtain ⟨hparse, hscore, hleast⟩ := parse_permuted true "k" hperm
  rw [hkey] at hparse hscore hleast
  refine ⟨hkey, hperm, hparse, ?_, ?_⟩
  · rw [(hscore _).1]
    decide +kernel
  · rw [hleast nofun (by decide) (by decide)]
    decide

end VariantKey

end LiveDoc
