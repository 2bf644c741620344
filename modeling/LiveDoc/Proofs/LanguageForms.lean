import LiveDoc.Proofs.TagOrder

/-! # Canonical forms of language tags

The canonical form of a language tag is a tag again, and its own canonical form. It has letters, digits
and hyphens alone, and is no word for a gender or a formality.
-/

namespace LiveDoc

/-! ## Letters -/

namespace Text

variable {c : Char} {s : String}

/-- What holds of the letters from A to Z, one after the other, holds of every letter. -/
theorem forall_isAlpha {P : Char → Prop} (hup : ∀ n < 26, P (Char.ofNat (65 + n)))
    (hlow : ∀ n < 26, P (Char.ofNat (97 + n))) (hc : c.isAlpha) : P c := by
  have hcases : (65 ≤ c.toNat ∧ c.toNat ≤ 90) ∨ 97 ≤ c.toNat ∧ c.toNat ≤ 122 := by
    simpa [Char.isAlpha, Char.isUpper, Char.isLower, UInt32.le_iff_toNat_le] using hc
  rcases hcases with ⟨hge, hle⟩ | ⟨hge, hle⟩
  · have h := hup (c.toNat - 65) (by omega)
    rwa [Nat.add_sub_cancel' hge, Char.ofNat_toNat] at h
  · have h := hlow (c.toNat - 97) (by omega)
    rwa [Nat.add_sub_cancel' hge, Char.ofNat_toNat] at h

theorem isAlpha_toLower (hc : c.isAlpha) : c.toLower.isAlpha :=
  forall_isAlpha (P := fun c => c.toLower.isAlpha) (by decide) (by decide) hc

theorem isAlpha_toUpper (hc : c.isAlpha) : c.toUpper.isAlpha :=
  forall_isAlpha (P := fun c => c.toUpper.isAlpha) (by decide) (by decide) hc

theorem toUpper_of_isDigit (hc : c.isDigit) : c.toUpper = c := by
  have hle : c.toNat ≤ 57 := by
    have h : 48 ≤ c.toNat ∧ c.toNat ≤ 57 := by
      simpa [Char.isDigit, UInt32.le_iff_toNat_le] using hc
    exact h.2
  rw [Char.toUpper, dif_neg]
  simp only [UInt32.le_iff_toNat_le, not_and]
  intro hge
  exact absurd (hge.trans hle) (by decide)

theorem length_lowerAscii (s : String) : (lowerAscii s).length = s.length := by
  rw [lowerAscii, String.length_ofList, List.length_map, String.length_toList]

theorem lowerAscii_lowerAscii (s : String) : lowerAscii (lowerAscii s) = lowerAscii s := by
  simp [lowerAscii, Function.comp_def]

theorem upperAscii_upperAscii (s : String) : upperAscii (upperAscii s) = upperAscii s := by
  simp [upperAscii, Function.comp_def]

theorem mem_intercalate (sep : Char) {ts : List String}
    (h : c ∈ ((String.singleton sep).intercalate (s :: ts)).toList) :
    c = sep ∨ ∃ t ∈ s :: ts, c ∈ t.toList := by
  induction ts generalizing s with
  | nil =>
    rw [String.intercalate_singleton] at h
    exact .inr ⟨s, List.mem_cons_self, h⟩
  | cons t ts ih =>
    rw [String.intercalate_cons_cons, String.toList_append, String.toList_append,
      String.toList_singleton, List.append_assoc, List.singleton_append] at h
    rcases List.mem_append.1 h with h | h
    · exact .inr ⟨s, List.mem_cons_self, h⟩
    · rcases List.mem_cons.1 h with h | h
      · exact .inl h
      · exact (ih h).imp_right fun ⟨u, hu, hc⟩ => ⟨u, List.mem_cons_of_mem s hu, hc⟩

end Text

namespace LanguageTag

variable {s : String} {t : LanguageTag}

theorem isLanguage_iff : isLanguage s ↔ (s.length = 2 ∨ s.length = 3) ∧ ∀ c ∈ s.toList, c.isAlpha := by
  simp [isLanguage]

theorem isScript_iff : isScript s ↔ s.length = 4 ∧ ∀ c ∈ s.toList, c.isAlpha := by
  simp [isScript]

theorem isRegion_iff : isRegion s ↔ (s.length = 2 ∧ ∀ c ∈ s.toList, c.isAlpha) ∨
    s.length = 3 ∧ ∀ c ∈ s.toList, c.isDigit := by
  simp [isRegion]

theorem isLanguage_lowerAscii (h : isLanguage s) : isLanguage (Text.lowerAscii s) := by
  rw [isLanguage_iff] at *
  refine ⟨by rw [Text.length_lowerAscii]; exact h.1, ?_⟩
  simp only [Text.lowerAscii, String.toList_ofList, List.forall_mem_map]
  exact fun c hc => Text.isAlpha_toLower (h.2 c hc)

theorem length_title (s : String) : (title s).length = s.length := by
  rw [title, ← String.length_toList (s := s)]
  split
  · next hs => rw [hs]; rfl
  · next c rest hs => rw [hs, String.length_ofList, List.length_cons, List.length_map, List.length_cons]

theorem title_title (s : String) : title (title s) = title s := by
  unfold title
  cases s.toList <;> simp [Function.comp_def]

theorem isScript_title (h : isScript s) : isScript (title s) := by
  rw [isScript_iff] at *
  refine ⟨by rw [length_title, h.1], ?_⟩
  rw [title]
  split
  · simp
  · next c rest hs =>
    rw [hs] at h
    obtain ⟨hc, hrest⟩ := List.forall_mem_cons.1 h.2
    simp only [String.toList_ofList, List.forall_mem_cons, List.forall_mem_map]
    exact ⟨Text.isAlpha_toUpper hc, fun d hd => Text.isAlpha_toLower (hrest d hd)⟩

theorem isRegion_upperAscii (h : isRegion s) : isRegion (Text.upperAscii s) := by
  have hlength : (Text.upperAscii s).length = s.length := by
    rw [Text.upperAscii, String.length_ofList, List.length_map, String.length_toList]
  rw [isRegion_iff] at *
  rw [hlength]
  simp only [Text.upperAscii, String.toList_ofList, List.forall_mem_map]
  refine h.imp (And.imp_right fun hall c hc => Text.isAlpha_toUpper (hall c hc))
    (And.imp_right fun hall c hc => ?_)
  rw [Text.toUpper_of_isDigit (hall c hc)]
  exact hall c hc

theorem not_isScript_of_isRegion (h : isRegion s) : isScript s = false := by
  rw [Bool.eq_false_iff, ne_eq, isScript_iff]
  rcases isRegion_iff.1 h with ⟨h, -⟩ | ⟨h, -⟩ <;> omega

/-- The parts are written as the canonical form writes them. -/
structure Canonical (t : LanguageTag) : Prop where
  language : isLanguage t.language ∧ Text.lowerAscii t.language = t.language
  script : ∀ s ∈ t.script, isScript s ∧ title s = s
  region : ∀ r ∈ t.region, isRegion r ∧ Text.upperAscii r = r

theorem canonical_of_parse? {tag : String} (h : parse? tag = some t) : t.Canonical := by
  have hscript {s : String} (hs : isScript s) : ∀ s' ∈ some (title s), isScript s' ∧ title s' = s' := by
    rintro s' ⟨⟩
    exact ⟨isScript_title hs, title_title s⟩
  have hregion {r : String} (hr : isRegion r) :
      ∀ r' ∈ some (Text.upperAscii r), isRegion r' ∧ Text.upperAscii r' = r' := by
    rintro r' ⟨⟩
    exact ⟨isRegion_upperAscii hr, Text.upperAscii_upperAscii r⟩
  unfold parse? at h
  split at h
  · cases h
  · next first tail hs =>
    split at h
    · next hl =>
      have hlanguage := And.intro (isLanguage_lowerAscii hl) (Text.lowerAscii_lowerAscii first)
      unfold ofTail? at h
      split at h
      · cases h
        exact ⟨hlanguage, nofun, nofun⟩
      · split at h
        · next hs =>
          cases h
          exact ⟨hlanguage, hscript hs, nofun⟩
        · split at h
          · next hr =>
            cases h
            exact ⟨hlanguage, nofun, hregion hr⟩
          · cases h
      · split at h
        · next hsr =>
          cases h
          rw [Bool.and_eq_true] at hsr
          exact ⟨hlanguage, hscript hsr.1, hregion hsr.2⟩
        · cases h
      · cases h
    · cases h

variable (h : t.Canonical)

include h

theorem Canonical.isAlphanum_parts :
    ∀ p ∈ t.language :: (t.script.toList ++ t.region.toList), ∀ c ∈ p.toList, c.isAlphanum := by
  have hletters {p : String} (hp : ∀ c ∈ p.toList, c.isAlpha) : ∀ c ∈ p.toList, c.isAlphanum :=
    fun c hc => by rw [Char.isAlphanum, hp c hc, Bool.true_or]
  intro p hp
  rcases List.mem_cons.1 hp with rfl | hp
  · exact hletters (isLanguage_iff.1 h.language.1).2
  · rcases List.mem_append.1 hp with hp | hp
    · exact hletters (isScript_iff.1 (h.script p (Option.mem_toList.1 hp)).1).2
    · rcases isRegion_iff.1 (h.region p (Option.mem_toList.1 hp)).1 with ⟨-, hall⟩ | ⟨-, hall⟩
      · exact hletters hall
      · exact fun c hc => by rw [Char.isAlphanum, hall c hc, Bool.or_true]

theorem Canonical.split_text :
    Text.split '-' t.text = t.language :: (t.script.toList ++ t.region.toList) := by
  have hparts : ∀ p ∈ t.language :: (t.script.toList ++ t.region.toList), '-' ∉ p.toList := by
    intro p hp hc
    have hyphen := h.isAlphanum_parts p hp '-' hc
    revert hyphen
    decide
  rw [← Text.flatMap_split_of_not_mem hparts]
  exact Text.split_intercalate '-' t.language (t.script.toList ++ t.region.toList)

/-- A canonical form is read as what it is the form of. -/
theorem Canonical.parse?_text : parse? t.text = some t := by
  obtain ⟨language, script, region⟩ := t
  obtain ⟨hlanguage, hlower⟩ := h.language
  rw [parse?, h.split_text]
  simp only [hlanguage, hlower, if_true]
  cases script with
  | none =>
    cases region with
    | none => rfl
    | some r =>
      obtain ⟨hr, hupper⟩ := h.region r rfl
      simp [ofTail?, not_isScript_of_isRegion hr, hr, hupper]
  | some s =>
    obtain ⟨hs, htitle⟩ := h.script s rfl
    cases region with
    | none => simp [ofTail?, hs, htitle]
    | some r =>
      obtain ⟨hr, hupper⟩ := h.region r rfl
      simp [ofTail?, hs, htitle, hr, hupper]

/-- Without further parts a canonical form has two or three letters. -/
theorem Canonical.hyphen_or_short : '-' ∈ t.text.toList ∨ t.text.length = 2 ∨ t.text.length = 3 := by
  cases htail : t.script.toList ++ t.region.toList with
  | nil =>
    have htext : t.text = t.language := by
      rw [text, List.cons_append, htail, String.intercalate_singleton]
    rw [htext]
    exact .inr (isLanguage_iff.1 h.language.1).1
  | cons p ps =>
    refine .inl ?_
    rw [text, List.cons_append, htail, String.intercalate_cons_cons]
    simp

/-- A canonical form has letters, digits and hyphens alone. -/
theorem Canonical.mem_text {c : Char} (hc : c ∈ t.text.toList) : c = '-' ∨ c.isAlphanum := by
  rcases Text.mem_intercalate '-' hc with rfl | ⟨p, hp, hc⟩
  · exact .inl rfl
  · exact .inr (h.isAlphanum_parts p hp c hc)

end LanguageTag

/-- The words for genders and formalities. -/
def Tag.settled : List String :=
  ["m", "f", "n"] ++ ["formal", "informal"]

section

variable {tag language : String} (h : canonicalLanguage? tag = some language)

include h

theorem exists_canonical : ∃ t : LanguageTag, t.Canonical ∧ t.text = language := by
  rw [canonicalLanguage?, Option.map_eq_some_iff] at h
  obtain ⟨t, ht, rfl⟩ := h
  exact ⟨t, LanguageTag.canonical_of_parse? ht, rfl⟩

/-- A canonical form is its own canonical form. -/
theorem canonicalLanguage?_self : canonicalLanguage? language = some language := by
  obtain ⟨t, ht, rfl⟩ := exists_canonical h
  rw [canonicalLanguage?, ht.parse?_text, Option.map_some]

theorem not_mem_canonicalLanguage {c : Char} (hc : c ≠ '-') (hn : c.isAlphanum = false) :
    c ∉ language.toList := by
  obtain ⟨t, ht, rfl⟩ := exists_canonical h
  intro hmem
  rcases ht.mem_text hmem with rfl | halnum
  · exact hc rfl
  · rw [hn] at halnum
    cases halnum

/-- No word for a gender or a formality is a language tag. -/
theorem lowerAscii_canonicalLanguage_not_mem :
    Text.lowerAscii language ∉ Tag.settled := by
  obtain ⟨t, ht, rfl⟩ := exists_canonical h
  intro hmem
  rcases ht.hyphen_or_short with hyphen | hshort
  · have hyphen : '-' ∈ (Text.lowerAscii t.text).toList := by
      rw [Text.lowerAscii, String.toList_ofList]
      exact List.mem_map_of_mem (f := Char.toLower) hyphen
    have hnone : ∀ w ∈ Tag.settled, '-' ∉ w.toList := by decide
    exact hnone _ hmem hyphen
  · have hlong : ∀ w ∈ Tag.settled, ¬ (w.length = 2 ∨ w.length = 3) := by decide
    apply hlong _ hmem
    rwa [Text.length_lowerAscii]

end

end LiveDoc
