import LiveDoc.Proofs.PathTexts

/-! # Texts of paths

A text is that of a path if it is empty, or if it does not end in a dot and nowhere leaves two parts between
dots empty in a row. It then has one path, and that path is written as the text; the paths that come from
texts are those of words, with or without a marker in front.
-/

namespace LiveDoc

namespace Path

variable {key text : String} {parts segments : List String} {p : Path} {c : Char} {cs : List Char}

/-! ## Segments -/

/-- What a segment of a text can be, by its characters. -/
theorem legible_iff : Legible key ↔ key ≠ "" ∧ key ≠ "." ∧ '.' ∉ key.toList.tail := by
  constructor
  · rintro (⟨hne, hdot⟩ | ⟨s, ⟨hne, hdot⟩, rfl⟩)
    · refine ⟨hne, ?_, fun h => hdot (List.mem_of_mem_tail h)⟩
      rintro rfl
      simp at hdot
    · refine ⟨?_, ?_, ?_⟩
      · simp [mark, ← String.toList_inj]
      · rw [mark, Ne, ← String.toList_inj, String.toList_ofList]
        simpa [marker] using hne
      · simpa [mark] using hdot
  · rintro ⟨hne, hdot, htail⟩
    cases hk : key.toList with
    | nil => exact absurd (String.toList_eq_nil_iff.1 hk) hne
    | cons c cs =>
      rw [hk, List.tail_cons] at htail
      by_cases hc : c = '.'
      · subst hc
        have hcs : cs ≠ [] := by
          rintro rfl
          exact hdot (String.toList_inj.1 hk)
        refine .inr ⟨String.ofList cs, ⟨by simpa using hcs, by simpa using htail⟩, ?_⟩
        rw [mark, String.toList_ofList, ← String.toList_inj, String.toList_ofList, hk]
        rfl
      · exact .inl ⟨hne, by simp [hk, Ne.symm hc, htail]⟩

/-- The segments that parts are read as consist of these parts; an empty part stands before a marked one. -/
theorem flatMap_split_of_ofParts? {marked : Bool} (hp : ∀ part ∈ parts, '.' ∉ part.toList)
    (h : ofParts? marked parts = some segments) :
    segments.flatMap (Text.split '.') = if marked then "" :: parts else parts := by
  induction parts generalizing marked segments with
  | nil =>
    cases marked with
    | true => cases h
    | false =>
      cases h
      rfl
  | cons part rest ih =>
    obtain ⟨hpart, hrest⟩ := List.forall_mem_cons.1 hp
    rw [ofParts?] at h
    split at h
    · next hempty =>
      cases marked with
      | true => cases h
      | false => simpa [hempty] using ih hrest h
    · obtain ⟨more, hm, rfl⟩ := Option.map_eq_some_iff.1 h
      have hmore := ih hrest hm
      rw [if_neg Bool.false_ne_true] at hmore
      cases marked with
      | true => simp [split_mark hpart, hmore]
      | false => simp [Text.split_of_not_mem hpart, hmore]

/-- A path that is read from a text is written as this text. -/
theorem text_of_parse? (h : parse? text = some p) : p.text = text := by
  unfold parse? at h
  split at h
  · next hempty =>
    cases h
    rw [hempty]
    rfl
  · obtain ⟨segments, hs, rfl⟩ := Option.map_eq_some_iff.1 h
    have hparts := flatMap_split_of_ofParts? (fun part hm => Text.not_mem_of_mem_split hm) hs
    rw [if_neg Bool.false_ne_true] at hparts
    have hne : segments ≠ [] := by
      rintro rfl
      exact Text.split_ne_nil '.' text hparts.symm
    have hsplit : Text.split '.' (Path.text ⟨segments⟩) = Text.split '.' text :=
      (split_text (p := ⟨segments⟩) hne).trans hparts
    rw [← Text.intercalate_split '.' text, ← hsplit, Text.intercalate_split]

theorem parse_eq_ok : parse text = .ok p ↔ parse? text = some p := by
  unfold parse
  cases parse? text <;> simp

/-! ## Accepted texts -/

/-- Characters that do not end in a dot and never have three dots in a row. -/
def Spaced (cs : List Char) : Prop :=
  ¬ ['.'] <:+ cs ∧ ¬ ['.', '.', '.'] <:+: cs

theorem spaced_behind_dots (front : List Char) (hf : front ∈ [[], ['.'], ['.', '.']]) (hc : c ≠ '.') :
    Spaced (front ++ c :: cs) ↔ Spaced cs := by
  simp only [List.mem_cons, List.not_mem_nil, or_false] at hf
  rcases hf with rfl | rfl | rfl <;>
    simp [Spaced, List.suffix_cons_iff, List.infix_cons_iff, Ne.symm hc]

/-- Which characters are read from within a part, from the start of one, and from behind an empty one: those
that are well spaced behind no dot, one dot or two. -/
theorem isSome_ofParts?_iff (cs : List Char) :
    ((ofParts? false ((Text.splitChars '.' cs).tail.map String.ofList)).isSome ↔ Spaced cs) ∧
      ((ofParts? false ((Text.splitChars '.' cs).map String.ofList)).isSome ↔ Spaced ('.' :: cs)) ∧
      ((ofParts? true ((Text.splitChars '.' cs).map String.ofList)).isSome ↔
        Spaced ('.' :: '.' :: cs)) := by
  induction cs with
  | nil => simp [Text.splitChars, ofParts?, Spaced, List.infix_cons_iff]
  | cons c rest ih =>
    obtain ⟨within, start, behind⟩ := ih
    by_cases hc : c = '.'
    · -- A dot ends a part: from within, reading goes on at a start, and from a start behind an empty part.
      subst hc
      rw [Text.splitChars, if_pos rfl]
      refine ⟨start, by simpa [ofParts?] using behind, ?_⟩
      simp [ofParts?, Spaced, List.infix_cons_iff]
    · obtain ⟨part, parts, hs⟩ := List.exists_cons_of_ne_nil (Text.splitChars_ne_nil '.' rest)
      rw [hs, List.tail_cons] at within
      rw [Text.splitChars, if_neg hc, hs]
      have hpart : String.ofList (c :: part) ≠ "" := by simp
      refine ⟨?_, ?_, ?_⟩
      · rw [List.tail_cons, within]
        exact (spaced_behind_dots [] (by simp) hc).symm
      · rw [List.map_cons, ofParts?, if_neg hpart, Option.isSome_map, within]
        exact (spaced_behind_dots ['.'] (by simp) hc).symm
      · rw [List.map_cons, ofParts?, if_neg hpart, Option.isSome_map, within]
        exact (spaced_behind_dots ['.', '.'] (by simp) hc).symm

/-- A text is read exactly if it is empty or it does not end in a dot, does not start with two and has no
three in a row; it is read as the path that is written as this text and has only segments that are not
empty, not a dot alone, and free of dots but for one in front. -/
theorem parse_ok_iff :
    (∀ text, (∃ p, parse text = .ok p) ↔ text = "" ∨ ¬ ['.'] <:+ text.toList ∧
      ¬ ['.', '.'] <+: text.toList ∧ ¬ ['.', '.', '.'] <:+: text.toList) ∧
    ∀ text p, parse text = .ok p ↔ p.text = text ∧
      ∀ s ∈ p.segments, s ≠ "" ∧ s ≠ "." ∧ '.' ∉ s.toList.tail := by
  constructor
  · intro text
    have hread := (isSome_ofParts?_iff text.toList).2.1
    simp only [parse_eq_ok, ← Option.isSome_iff_exists, parse?]
    split
    · next hempty => simp [hempty]
    · next hne =>
      rw [Option.isSome_map, Text.split, hread]
      simp [Spaced, List.suffix_cons_iff, List.infix_cons_iff, hne]
  · intro text p
    simp only [← legible_iff]
    constructor
    · intro h
      rw [parse_eq_ok] at h
      exact ⟨text_of_parse? h, legible_of_parse? h⟩
    · rintro ⟨rfl, hlegible⟩
      exact parse_eq_ok.2 (parse?_text hlegible)

end Path

end LiveDoc
