import LiveDoc.Proofs.TagTexts

/-! # Texts of variant keys

A key written out is read as the same key if each of its tags is told from its text. Where one is not, the
tags that are read are others, or fewer.
-/

namespace LiveDoc

/-! ## Parts joined again -/

namespace Text

theorem intercalate_splitChars (sep : Char) (cs : List Char) :
    [sep].intercalate (splitChars sep cs) = cs := by
  induction cs with
  | nil => rfl
  | cons c cs ih =>
    obtain ⟨part, parts, hs⟩ := List.exists_cons_of_ne_nil (splitChars_ne_nil sep cs)
    rw [hs] at ih
    by_cases hc : c = sep
    · subst hc
      rw [splitChars, if_pos rfl, hs, List.intercalate_cons_cons, ih]
      rfl
    · rw [splitChars, if_neg hc, hs]
      cases parts with
      | nil => simpa using ih
      | cons next parts =>
        rw [List.intercalate_cons_cons] at ih ⊢
        rw [← ih]
        rfl

theorem intercalate_split (sep : Char) (s : String) :
    (String.singleton sep).intercalate (split sep s) = s := by
  apply String.toList_injective
  rw [String.toList_intercalate, String.toList_singleton, split, List.map_map]
  have hid : String.toList ∘ String.ofList = id := funext fun _ => String.toList_ofList
  rw [hid, List.map_id]
  exact intercalate_splitChars sep s.toList

theorem mem_intercalate_of_mem (sep : Char) {c : Char} {s t : String} {ts : List String}
    (ht : t ∈ s :: ts) (hc : c ∈ t.toList) :
    c ∈ ((String.singleton sep).intercalate (s :: ts)).toList := by
  induction ts generalizing s with
  | nil =>
    obtain rfl := List.mem_singleton.1 ht
    rwa [String.intercalate_singleton]
  | cons u ts ih =>
    rw [String.intercalate_cons_cons, String.toList_append, String.toList_append]
    rcases List.mem_cons.1 ht with rfl | ht
    · exact List.mem_append_left _ (List.mem_append_left _ hc)
    · exact List.mem_append_right _ (ih ht)

end Text

namespace VariantKey

theorem mem_spell {marked : Bool} {base tag : String} {tags : List String} {c : Char} (ht : tag ∈ tags)
    (hc : c ∈ tag.toList) : c ∈ (spell marked base tags).toList := by
  have hmem : c ∈ (":".intercalate (base :: tags)).toList :=
    Text.mem_intercalate_of_mem ':' (List.mem_cons_of_mem base ht) hc
  cases marked with
  | true =>
    simp only [spell, mark, if_true, String.toList_ofList]
    exact List.mem_cons_of_mem marker hmem
  | false => exact hmem

/-- Every key is written from its marker, a base name and tags. -/
theorem exists_spelled (key : String) : ∃ base tags, key = spell (isMarked key) base tags ∧
    ':' ∉ base.toList ∧ (∀ t ∈ tags, ':' ∉ t.toList) ∧ (isMarked key = false → isMarked base = false) := by
  obtain ⟨base, tags, hs⟩ := List.exists_cons_of_ne_nil (Text.split_ne_nil ':' (unmark key))
  have hjoin : ":".intercalate (base :: tags) = unmark key := by
    rw [← hs]
    exact Text.intercalate_split ':' (unmark key)
  have hspell : key = spell (isMarked key) base tags := by
    cases hm : isMarked key with
    | true =>
      obtain ⟨plain, hp⟩ := Option.isSome_iff_exists.1 hm
      rw [unmark, hp, Option.getD_some] at hjoin
      simp only [spell, if_true, hjoin, mark_of_unmark? hp]
    | false =>
      rw [unmark_of_not_marked hm] at hjoin
      simp only [spell, Bool.false_eq_true, if_false, hjoin]
  have hnone {p : String} (hp : p ∈ base :: tags) : ':' ∉ p.toList :=
    Text.not_mem_of_mem_split (hs ▸ hp)
  refine ⟨base, tags, hspell, hnone List.mem_cons_self, fun t ht => hnone (List.mem_cons_of_mem _ ht), ?_⟩
  intro hm
  have h := congrArg isMarked hspell
  rw [isMarked_spell, hm, Bool.false_or] at h
  exact h.symm

/-! ## Tags of a key -/

section

variable {ts : List Tag} {t : Tag} {d : Dimension} {v : String}

theorem given_of_mem (hn : (ts.map (·.dimension)).Nodup) (ht : t ∈ ts) :
    given t.dimension ts = [t.value] := by
  induction ts with
  | nil => cases ht
  | cons u ts ih =>
    rw [List.map_cons, List.nodup_cons] at hn
    rcases List.mem_cons.1 ht with rfl | ht
    · have hnone : given t.dimension ts = [] := by
        rw [given, List.map_eq_nil_iff, List.filter_eq_nil_iff]
        intro u hu
        rw [decide_eq_true_eq]
        intro he
        exact hn.1 (he ▸ List.mem_map_of_mem hu)
      rw [given_cons_self ts rfl, hnone]
    · have hne : u.dimension ≠ t.dimension := by
        intro he
        exact hn.1 (he ▸ List.mem_map_of_mem ht)
      rw [given_cons_of_ne ts hne, ih hn.2 ht]

theorem get?_foldl_of_mem (hn : (ts.map (·.dimension)).Nodup) (ht : t ∈ ts) :
    (ts.foldl addTag .empty).get? t.dimension = some t.value := by
  rw [get?_foldl_addTag, Table.get?_empty, given_of_mem hn ht]
  rfl

theorem mem_of_get?_foldl (h : (ts.foldl addTag .empty).get? d = some v) : ⟨d, v⟩ ∈ ts := by
  rw [get?_foldl_addTag, Table.get?_empty] at h
  obtain ⟨t, ht, rfl⟩ := List.mem_map.1 (List.min?_mem h)
  obtain ⟨ht, hd⟩ := List.mem_filter.1 ht
  rw [decide_eq_true_eq] at hd
  exact hd ▸ ht

/-- Where no more tags make the same table as those of a key, they are those. -/
theorem perm_of_foldl {us : List Tag} (hn : (ts.map (·.dimension)).Nodup) (hlen : us.length ≤ ts.length)
    (h : us.foldl addTag .empty = ts.foldl addTag .empty) : us.Perm ts := by
  have hsub : ts ⊆ us := by
    intro t ht
    have hget := get?_foldl_of_mem hn ht
    rw [← h] at hget
    exact mem_of_get?_foldl hget
  exact ((List.subperm_of_subset hn.of_map hsub).perm_of_length_le hlen).symm

end

variable {k : VariantKey} {t : Tag} {key : String}

theorem mem_tags : t ∈ k.tags ↔ k.dimensions.get? t.dimension = some t.value := by
  rw [Table.get?_eq_some_iff, tags]
  simp only [List.mem_map, Prod.exists]
  constructor
  · rintro ⟨d, v, hm, rfl⟩
    exact hm
  · intro hm
    exact ⟨_, _, hm, rfl⟩

theorem nodup_tags (k : VariantKey) : (k.tags.map (·.dimension)).Nodup := by
  rw [tags, List.map_map]
  exact k.dimensions.nodup_keys

theorem foldl_addTag_tags (k : VariantKey) : k.tags.foldl addTag .empty = k.dimensions := by
  apply Table.ext_get?
  intro d
  apply Option.ext
  intro v
  constructor
  · intro h
    exact mem_tags.1 (mem_of_get?_foldl h)
  · intro h
    exact get?_foldl_of_mem k.nodup_tags (mem_tags.2 h : ⟨d, v⟩ ∈ k.tags)

/-- The tags of a key are read from what is written in it. -/
theorem exists_of_mem_tags (h : t ∈ (parse key).tags) : ∃ word, word ≠ "" ∧ ':' ∉ word.toList ∧
    (∀ c ∈ word.toList, c ∈ key.toList) ∧ Tag.parse word = t := by
  obtain ⟨base, words, hkey, hb, hw, hm⟩ := exists_spelled key
  have hin : ∀ word ∈ words, ∀ c ∈ word.toList, c ∈ key.toList := by
    intro word hword c hc
    rw [hkey]
    exact mem_spell hword hc
  rw [hkey, parse_spell_of_not_mem hb hw hm, mem_tags] at h
  obtain ⟨word, hword, hp⟩ := List.mem_map.1 (mem_of_get?_foldl h)
  obtain ⟨hmem, hne⟩ := List.mem_filter.1 hword
  exact ⟨word, bne_iff_ne.1 hne, hw word hmem, hin word hmem, hp⟩

/-- What is read from the text of a key. -/
theorem parse_text (key : String) : parse (parse key).text =
    ofParts (parse key).expression (parse key).base ((parse key).tags.map Tag.text) := by
  obtain ⟨base, words, hkey, hb, hw, hm⟩ := exists_spelled key
  have hparse : parse key = ofParts (isMarked key) base words := by
    conv_lhs => rw [hkey]
    exact parse_spell_of_not_mem hb hw hm
  have hbase : (parse key).base = base := by rw [hparse, ofParts]
  have hexpression : (parse key).expression = isMarked key := by rw [hparse, ofParts]
  rw [text_eq_spell, hbase, hexpression]
  apply parse_spell_of_not_mem hb _ hm
  intro s hs
  obtain ⟨t, ht, rfl⟩ := List.mem_map.1 hs
  obtain ⟨word, -, hword, -, rfl⟩ := exists_of_mem_tags ht
  exact Tag.not_mem_text_parse hword

/-! ## Reading back -/

/-- The tags that are read from the texts of tags. -/
def reread (ts : List Tag) : List Tag :=
  ((ts.map Tag.text).filter (· != "")).map Tag.parse

theorem parse_text_eq_iff (key : String) : parse (parse key).text = parse key ↔
    (reread (parse key).tags).foldl addTag .empty = (parse key).dimensions := by
  rw [parse_text]
  generalize parse key = k
  obtain ⟨base, expression, dimensions⟩ := k
  simp only [ofParts, reread, mk.injEq, true_and]

theorem reread_of_telling {ts : List Tag} (h : ∀ t ∈ ts, t.text ≠ "" ∧ Tag.parse t.text = t) :
    reread ts = ts := by
  have hall : ∀ s ∈ ts.map Tag.text, (s != "") = true := by
    intro s hs
    obtain ⟨t, ht, rfl⟩ := List.mem_map.1 hs
    exact bne_iff_ne.2 (h t ht).1
  have hself : ∀ t ∈ ts, (Tag.parse ∘ Tag.text) t = id t := fun t ht => (h t ht).2
  rw [reread, List.filter_eq_self.2 hall, List.map_map, List.map_congr_left hself, List.map_id]

/-- Where rereading makes the same table, it only permutes the tags. -/
theorem perm_of_reread (h : (reread k.tags).foldl addTag .empty = k.dimensions) :
    (∀ t ∈ k.tags, t.text ≠ "") ∧ (k.tags.map fun t => Tag.parse t.text).Perm k.tags := by
  have hlength : (reread k.tags).length ≤ k.tags.length := by
    rw [reread, List.length_map]
    exact (List.length_filter_le _ _).trans (List.length_map _).le
  rw [← foldl_addTag_tags k] at h
  have hperm := perm_of_foldl k.nodup_tags hlength h
  have hall : ∀ s ∈ k.tags.map Tag.text, (s != "") = true := by
    rw [← List.length_filter_eq_length_iff, List.length_map, ← hperm.length_eq, reread, List.length_map]
  rw [reread, List.filter_eq_self.2 hall, List.map_map] at hperm
  exact ⟨fun t ht => bne_iff_ne.1 (hall _ (List.mem_map_of_mem ht)), hperm⟩

/-- A tag that is read from the text of another is told from its own text or has a shorter one. So where
rereading permutes the tags, each is told from its text, by induction on the length of this. -/
theorem telling_of_perm (h : ∀ t ∈ k.tags, t.text ≠ "")
    (hperm : (k.tags.map fun t => Tag.parse t.text).Perm k.tags) : ∀ t ∈ k.tags, t.Telling := by
  have hnodup : (k.tags.map fun t => Tag.parse t.text).Nodup :=
    hperm.nodup_iff.2 k.nodup_tags.of_map
  have hinj := List.inj_on_of_nodup_map hnodup
  have hmem : ∀ t ∈ k.tags, Tag.parse t.text ∈ k.tags := fun t ht =>
    hperm.mem_iff.1 (List.mem_map_of_mem ht)
  intro t
  induction hn : t.text.length using Nat.strongRecOn generalizing t with
  | ind n ih =>
    intro ht
    have htelling : (Tag.parse t.text).Telling := by
      rcases Tag.telling_or_shorter (h t ht) with htelling | hshort
      · exact htelling
      · exact ih _ (hn ▸ hshort) _ rfl (hmem t ht)
    have hself := (htelling.parse_text (Tag.named_parse t.text)).2
    rw [hinj (hmem t ht) ht hself] at htelling
    exact htelling

theorem parse_text_iff (key : String) : parse (parse key).text = parse key ↔
    ∀ t ∈ (parse key).tags, t.Telling := by
  rw [parse_text_eq_iff]
  constructor
  · intro h
    obtain ⟨hne, hperm⟩ := perm_of_reread h
    exact telling_of_perm hne hperm
  · intro h
    have htags : reread (parse key).tags = (parse key).tags := by
      apply reread_of_telling
      intro t ht
      obtain ⟨word, -, -, -, rfl⟩ := exists_of_mem_tags ht
      exact (h _ ht).parse_text (Tag.named_parse word)
    rw [htags, foldl_addTag_tags]

/-- Every tag of a key without equals signs is told from its text. -/
theorem telling_of_not_mem (h : '=' ∉ key.toList) : ∀ t ∈ (parse key).tags, t.Telling := by
  intro t ht
  obtain ⟨word, hne, -, hin, rfl⟩ := exists_of_mem_tags ht
  rw [Tag.parse_of_not_mem fun hm => h (hin '=' hm)]
  exact Tag.telling_ofWord hne

/-- A key is read back from its text exactly if each of its tags is told from what is written for it. This
is so where no tag names its dimension. Keys that are read back are equal if their texts are. -/
theorem read_back_iff (key : String) :
    (parse (parse key).text = parse key ↔ ∀ t ∈ (parse key).tags, t.Telling) ∧
    ('=' ∉ key.toList → parse (parse key).text = parse key) ∧
    ∀ other, (∀ t ∈ (parse key).tags, t.Telling) → (∀ t ∈ (parse other).tags, t.Telling) →
      ((parse key).text = (parse other).text ↔ parse key = parse other) := by
  refine ⟨parse_text_iff key, ?_, ?_⟩
  · intro h
    exact (parse_text_iff key).2 (telling_of_not_mem h)
  · intro other hk ho
    constructor
    · intro htext
      rw [← (parse_text_iff key).2 hk, htext, (parse_text_iff other).2 ho]
    · intro hkey
      rw [hkey]

/-- A language and a gender that are named are told from their texts, as is a custom tag with a name. -/
theorem read_back_named :
    let key := ".greet:gender=F:tier=gold:lang=ES"
    let other := ".greet:es:f:tier=gold"
    (∀ t ∈ (parse key).tags, t.Telling) ∧ (∀ t ∈ (parse other).tags, t.Telling) ∧
      parse (parse key).text = parse key ∧ (parse key).text = (parse other).text := by
  intro key other
  have hk : ∀ t ∈ (parse key).tags, t.Telling := by decide +kernel
  have ho : ∀ t ∈ (parse other).tags, t.Telling := by decide +kernel
  obtain ⟨hback, -, halike⟩ := read_back_iff key
  exact ⟨hk, ho, hback.2 hk, (halike other hk ho).2 (by decide +kernel)⟩

/-- A word that is no language is written for a language that is named, and is read as a tag of its own. -/
theorem named_language_misread :
    (parse "k:lang=beta").text = "k:beta" ∧ (parse "k:beta").text = "k:beta" ∧
      parse "k:beta" ≠ parse "k:lang=beta" := by
  decide

end VariantKey

end LiveDoc
