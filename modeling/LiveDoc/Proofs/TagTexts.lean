import LiveDoc.Proofs.ContextLayers
import LiveDoc.Proofs.LanguageForms

/-! # Texts of tags

A tag is written without the name of its dimension unless this is a custom one. It is read back from its
text if the text alone tells the dimension. Else reading makes it a tag with a shorter text.
-/

namespace LiveDoc

/-! ## Texts with a separator -/

namespace Text

variable {sep c : Char} {s : String}

theorem cut?_of_not_mem (h : sep ∉ s.toList) : cut? sep s = none := by
  have hdrop : s.toList.dropWhile (· != sep) = [] := by
    rw [List.dropWhile_eq_nil_iff]
    intro c hc
    rw [bne_iff_ne]
    rintro rfl
    exact h hc
  simp only [cut?, hdrop]

theorem cut?_append (h : sep ∉ s.toList) (t : String) :
    cut? sep (s ++ String.singleton sep ++ t) = some (s, t) := by
  have hbefore : ∀ c ∈ s.toList, (c != sep) = true := by
    intro c hc
    rw [bne_iff_ne]
    rintro rfl
    exact h hc
  have hlist : (s ++ String.singleton sep ++ t).toList = s.toList ++ sep :: t.toList := by simp
  simp only [cut?, hlist, List.dropWhile_append_of_pos hbefore, List.takeWhile_append_of_pos hbefore]
  simp

/-- A text without the separator, or with a first one. -/
theorem not_mem_or_append (sep : Char) (s : String) :
    sep ∉ s.toList ∨ ∃ a b, sep ∉ a.toList ∧ s = a ++ String.singleton sep ++ b := by
  by_cases h : sep ∈ s.toList
  · obtain ⟨a, b, hs, ha⟩ := List.eq_append_cons_of_mem h
    refine .inr ⟨String.ofList a, String.ofList b, by rwa [String.toList_ofList], ?_⟩
    apply String.toList_injective
    simp [hs]
  · exact .inl h

theorem mem_lowerAscii (hc : c.isAlpha = false) (h : c ∈ (lowerAscii s).toList) : c ∈ s.toList := by
  rw [lowerAscii, String.toList_ofList] at h
  obtain ⟨d, hd, rfl⟩ := List.mem_map.1 h
  have hsame : d.toLower = d := by
    by_contra hne
    have hupper : d.isAlpha := by
      by_contra hn
      apply hne
      rw [Char.toLower, dif_neg]
      simp only [Char.isAlpha, Char.isUpper, Bool.or_eq_true, decide_eq_true_eq, not_or] at hn
      exact hn.1
    rw [isAlpha_toLower hupper] at hc
    cases hc
  rwa [hsame]

end Text

namespace Tag

variable {t : Tag} {value word : String}

/-! ## How tags are read -/

theorem parse_of_not_mem (h : '=' ∉ word.toList) : parse word = ofWord word := by
  rw [parse, Text.cut?_of_not_mem h]

theorem parse_append {name : String} (h : '=' ∉ name.toList) (value : String) :
    parse (name ++ "=" ++ value) = ofEntry name value := by
  have hcut : Text.cut? '=' (name ++ "=" ++ value) = some (name, value) := Text.cut?_append h value
  rw [parse, hcut]

/-- A tag is a word or an entry. -/
theorem parse_cases (word : String) : ('=' ∉ word.toList ∧ parse word = ofWord word) ∨
    ∃ name value, '=' ∉ name.toList ∧ word = name ++ "=" ++ value ∧ parse word = ofEntry name value := by
  rcases Text.not_mem_or_append '=' word with h | ⟨name, value, h, rfl⟩
  · exact .inl ⟨h, parse_of_not_mem h⟩
  · exact .inr ⟨name, value, h, rfl, parse_append h value⟩

theorem ofWord_cases (word : String) :
    (Text.lowerAscii word ∈ ["m", "f", "n"] ∧ ofWord word = ⟨.gender, Text.lowerAscii word⟩) ∨
    (Text.lowerAscii word ∈ ["formal", "informal"] ∧
      ofWord word = ⟨.formality, Text.lowerAscii word⟩) ∨
    (∃ language, canonicalLanguage? word = some language ∧ ofWord word = ⟨.language, language⟩) ∨
    Text.lowerAscii word ∉ settled ∧ canonicalLanguage? word = none ∧
      ofWord word = ⟨.custom word, word⟩ := by
  by_cases hgender : Text.lowerAscii word ∈ ["m", "f", "n"]
  · exact .inl ⟨hgender, by rw [ofWord, if_pos hgender]⟩
  by_cases hformality : Text.lowerAscii word ∈ ["formal", "informal"]
  · exact .inr (.inl ⟨hformality, by rw [ofWord, if_neg hgender, if_pos hformality]⟩)
  right; right
  cases hl : canonicalLanguage? word with
  | some language =>
    refine .inl ⟨language, rfl, ?_⟩
    rw [ofWord, if_neg hgender, if_neg hformality]
    simp only [hl]
  | none =>
    refine .inr ⟨?_, rfl, ?_⟩
    · rw [settled, List.mem_append, not_or]
      exact ⟨hgender, hformality⟩
    · rw [ofWord, if_neg hgender, if_neg hformality]
      simp only [hl]

theorem length_lt_append (name value : String) : value.length < (name ++ "=" ++ value).length := by
  have hone : "=".length = 1 := rfl
  rw [String.length_append, String.length_append]
  omega

/-- A value on the dimension of languages is put into its canonical form, or left as it is. -/
theorem normalize_language (value : String) :
    (∃ l, canonicalLanguage? value = some l ∧ Dimension.language.normalize value = l) ∨
      canonicalLanguage? value = none ∧ Dimension.language.normalize value = value := by
  cases hl : canonicalLanguage? value with
  | some l => exact .inl ⟨l, rfl, by rw [Dimension.normalize, hl, Option.getD_some]⟩
  | none => exact .inr ⟨rfl, by rw [Dimension.normalize, hl, Option.getD_none]⟩

/-! ## What a text tells -/

/-- The dimension of a tag can be told from what is written for it. -/
def Telling (t : Tag) : Prop :=
  match t.dimension with
  | .language => canonicalLanguage? t.value = some t.value
  | .gender => t.value ∈ ["m", "f", "n"]
  | .formality => t.value ∈ ["formal", "informal"]
  | .custom name => name = t.value →
    name ≠ "" ∧ Text.lowerAscii name ∉ settled ∧ canonicalLanguage? name = none

instance : DecidablePred Telling := fun t => by
  unfold Telling
  split <;> infer_instance

/-- The name of a custom dimension is no name of another one, or it is the tag itself. -/
def Named (t : Tag) : Prop :=
  ∀ name, t.dimension = .custom name →
    '=' ∉ name.toList ∧ (name ≠ t.value → Dimension.ofName name = .custom name)

theorem named_parse (word : String) : (parse word).Named := by
  intro n hn
  rcases parse_cases word with ⟨hw, hp⟩ | ⟨name, value, hname, rfl, hp⟩
  · rcases ofWord_cases word with ⟨-, ho⟩ | ⟨-, ho⟩ | ⟨l, -, ho⟩ | ⟨-, -, ho⟩
    all_goals
      rw [hp, ho] at hn
      cases hn
    rw [hp, ho]
    exact ⟨hw, fun hne => absurd rfl hne⟩
  · rw [hp] at hn
    obtain rfl : name = n := Dimension.eq_of_ofName_eq_custom hn
    exact ⟨hname, fun _ => hn⟩

/-- A tag that is told from its text is read from it. -/
theorem Telling.parse_text (h : t.Telling) (hn : t.Named) : t.text ≠ "" ∧ parse t.text = t := by
  obtain ⟨d, v⟩ := t
  cases d with
  | language =>
    have hl : canonicalLanguage? v = some v := h
    have hword : '=' ∉ v.toList := not_mem_canonicalLanguage hl (by decide) (by decide)
    have hparse : parse v = ofWord v := parse_of_not_mem hword
    rcases ofWord_cases v with ⟨hm, -⟩ | ⟨hm, -⟩ | ⟨l, hl', ho⟩ | ⟨-, hl', -⟩
    · exact absurd (List.mem_append_left _ hm) (lowerAscii_canonicalLanguage_not_mem hl)
    · exact absurd (List.mem_append_right ["m", "f", "n"] hm) (lowerAscii_canonicalLanguage_not_mem hl)
    · obtain rfl := Option.some.inj (hl.symm.trans hl')
      refine ⟨?_, hparse.trans ho⟩
      rintro (rfl : v = "")
      cases hl
    · rw [hl] at hl'
      cases hl'
  | gender =>
    have hall : ∀ v ∈ ["m", "f", "n"], v ≠ "" ∧ parse v = ⟨.gender, v⟩ := by decide
    exact hall v h
  | formality =>
    have hall : ∀ v ∈ ["formal", "informal"], v ≠ "" ∧ parse v = ⟨.formality, v⟩ := by decide
    exact hall v h
  | custom name =>
    obtain ⟨hname, hof⟩ := hn name rfl
    by_cases hv : name = v
    · subst hv
      obtain ⟨hne, hw, hl⟩ := h rfl
      have htext : text ⟨.custom name, name⟩ = name := if_pos rfl
      rw [htext, parse_of_not_mem hname]
      refine ⟨hne, ?_⟩
      rcases ofWord_cases name with ⟨hm, -⟩ | ⟨hm, -⟩ | ⟨l, hl', -⟩ | ⟨-, -, ho⟩
      · exact absurd (List.mem_append_left _ hm) hw
      · exact absurd (List.mem_append_right ["m", "f", "n"] hm) hw
      · rw [hl] at hl'
        cases hl'
      · exact ho
    · have htext : text ⟨.custom name, v⟩ = name ++ "=" ++ v := if_neg hv
      rw [htext, parse_append hname, ofEntry, hof hv]
      refine ⟨?_, rfl⟩
      intro hempty
      have hlength := length_lt_append name v
      rw [hempty] at hlength
      cases hlength

/-- What is read from a word is told from its text. -/
theorem telling_ofWord (hne : word ≠ "") : (ofWord word).Telling := by
  rcases ofWord_cases word with ⟨hm, he⟩ | ⟨hm, he⟩ | ⟨l, hl, he⟩ | ⟨hw, hl, he⟩
  · rw [he]
    exact hm
  · rw [he]
    exact hm
  · rw [he]
    exact canonicalLanguage?_self hl
  · rw [he]
    exact fun _ => ⟨hne, hw, hl⟩

/-- What is read from a text and cannot be told from its own text has a shorter one. -/
theorem telling_or_shorter (hne : word ≠ "") :
    (parse word).Telling ∨ (parse word).text.length < word.length := by
  rcases parse_cases word with ⟨-, hp⟩ | ⟨name, value, -, rfl, hp⟩
  · rw [hp]
    exact .inl (telling_ofWord hne)
  · have hlt := length_lt_append name value
    rw [hp, ofEntry]
    cases hd : Dimension.ofName name with
    | language =>
      rcases normalize_language value with ⟨l, hl, hv⟩ | ⟨-, hv⟩
      · rw [hv]
        exact .inl (canonicalLanguage?_self hl)
      · rw [hv]
        exact .inr hlt
    | gender | formality =>
      right
      exact (Text.length_lowerAscii value).trans_lt hlt
    | custom n =>
      obtain rfl := Dimension.eq_of_ofName_eq_custom hd
      by_cases hv : name = value
      · right
        have htext : text ⟨.custom name, value⟩ = value := if_pos hv
        exact (congrArg String.length htext).trans_lt hlt
      · exact .inl fun he => absurd he hv

/-- The text of a tag has no colon where it was read from none. -/
theorem not_mem_text_parse (h : ':' ∉ word.toList) : ':' ∉ (parse word).text.toList := by
  rcases parse_cases word with ⟨-, hp⟩ | ⟨name, value, -, rfl, hp⟩
  · rcases ofWord_cases word with ⟨-, he⟩ | ⟨-, he⟩ | ⟨l, hl, he⟩ | ⟨-, -, he⟩
    · rw [hp, he]
      exact fun hm => h (Text.mem_lowerAscii (by decide) hm)
    · rw [hp, he]
      exact fun hm => h (Text.mem_lowerAscii (by decide) hm)
    · rw [hp, he]
      exact not_mem_canonicalLanguage hl (by decide) (by decide)
    · have htext : text ⟨.custom word, word⟩ = word := if_pos rfl
      rwa [hp, he, htext]
  · have hvalue : ':' ∉ value.toList := fun hm => h (by simp [hm])
    rw [hp, ofEntry]
    cases hd : Dimension.ofName name with
    | language =>
      rcases normalize_language value with ⟨l, hl, hv⟩ | ⟨-, hv⟩
      · rw [hv]
        exact not_mem_canonicalLanguage hl (by decide) (by decide)
      · rwa [hv]
    | gender | formality => exact fun hm => hvalue (Text.mem_lowerAscii (by decide) hm)
    | custom n =>
      obtain rfl := Dimension.eq_of_ofName_eq_custom hd
      by_cases hv : name = value
      · have htext : text ⟨.custom name, value⟩ = value := if_pos hv
        rwa [Dimension.normalize, htext]
      · have htext : text ⟨.custom name, value⟩ = name ++ "=" ++ value := if_neg hv
        rwa [Dimension.normalize, htext]

end Tag

end LiveDoc
