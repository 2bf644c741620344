import LiveDoc.Document.Write
import LiveDoc.Proofs.Selection

/-! # Segments as texts write them

A path text gives each segment one marker at most, so both spellings of a key fill one slot.
-/

namespace LiveDoc

/-- A segment as it is written in a path text: with at most one marker. -/
def Spelled (segment : String) : Prop :=
  isMarked (unmark segment) = false

instance (segment : String) : Decidable (Spelled segment) :=
  inferInstanceAs (Decidable (isMarked (unmark segment) = false))

theorem unmark?_mark (key : String) : unmark? (mark key) = some key := by
  simp [unmark?, mark, Text.stripHead?]

theorem isMarked_mark (key : String) : isMarked (mark key) = true := by
  rw [isMarked, unmark?_mark]
  rfl

theorem mark_ne (key : String) : mark key ≠ key := by
  intro h
  have hl : (mark key).toList.length = key.toList.length := by rw [h]
  simp [mark] at hl

theorem mark_inj {key key' : String} : mark key = mark key' ↔ key = key' := by
  refine ⟨fun h => ?_, congrArg mark⟩
  have hu : unmark? (mark key) = unmark? (mark key') := by rw [h]
  simpa only [unmark?_mark, Option.some.injEq] using hu

/-- A key with the marker is another key with the marker in front. -/
theorem mark_of_unmark? {key plain : String} (h : unmark? key = some plain) : mark plain = key := by
  unfold unmark? Text.stripHead? at h
  split at h
  · next c rest hs =>
    split at h
    · next hc =>
      cases h
      rw [mark, String.toList_ofList, ← hc, ← hs, String.ofList_toList]
    · cases h
  · cases h

theorem unmark_mark (key : String) : unmark (mark key) = key := by
  rw [unmark, unmark?_mark, Option.getD_some]

/-- A bare name with the marker belongs to the slot of the name. -/
theorem slotName_mark {name : String} (h : isExact name = false) : slotName (mark name) = name := by
  have hs := slotName_of_bare h
  rw [slotName, unmark_of_not_marked (isExact_eq_false h).2] at hs
  rw [slotName, unmark_mark, hs]

theorem parse_mark {name : String} (h : isExact name = false) :
    VariantKey.parse (mark name) = ⟨name, true, .empty⟩ := by
  rw [VariantKey.parse, unmark_mark, Text.split_of_not_mem (isExact_eq_false h).1, isMarked_mark]
  rfl

/-- The expression under a bare name stands in when no variant does. -/
theorem mark_not_mem_of_selectKey_eq_none {members : Members} {segment : String} {context : Context}
    (hb : isExact segment = false) (h : selectKey members segment context = none) :
    mark segment ∉ members.map (·.1) := by
  intro hk
  rw [selectKey, if_neg (Bool.eq_false_iff.1 hb)] at h
  have hplain := (resolveVariant_eq_none_iff.1 h _
    (mem_rankVariants.2 ⟨mark segment, hk, slotName_mark hb, rfl⟩)).2
  rw [Candidate.ofKey, parse_mark hb] at hplain
  cases hplain

theorem isMarked_eq_false_of_not_mem {key : String} (h : marker ∉ key.toList) :
    isMarked key = false := by
  unfold isMarked unmark? Text.stripHead?
  cases hs : key.toList with
  | nil => rfl
  | cons c rest =>
    rw [hs, List.mem_cons, not_or] at h
    simp [Ne.symm h.1]

theorem spelled_of_not_marked {key : String} (h : isMarked key = false) : Spelled key := by
  rwa [Spelled, unmark_of_not_marked h]

theorem spelled_of_not_mem {key : String} (h : marker ∉ key.toList) : Spelled key :=
  spelled_of_not_marked (isMarked_eq_false_of_not_mem h)

theorem spelled_mark {key : String} (h : marker ∉ key.toList) : Spelled (mark key) := by
  rw [Spelled, unmark, unmark?_mark, Option.getD_some, isMarked_eq_false_of_not_mem h]

theorem slotName_counterpart {segment : String} (h : Spelled segment) :
    slotName (counterpart segment) = slotName segment := by
  unfold counterpart
  cases hu : unmark? segment with
  | some plain =>
    have hp : unmark segment = plain := by rw [unmark, hu, Option.getD_some]
    rw [Spelled, hp] at h
    rw [Option.getD_some, slotName, slotName, hp, unmark_of_not_marked h]
  | none =>
    have hp : unmark segment = segment := by rw [unmark, hu, Option.getD_none]
    have hm : unmark (mark segment) = segment := by rw [unmark, unmark?_mark, Option.getD_some]
    rw [Option.getD_none, slotName, slotName, hp, hm]

theorem Text.not_mem_of_mem_splitChars {sep : Char} {cs part : List Char}
    (h : part ∈ splitChars sep cs) : sep ∉ part := by
  induction cs generalizing part with
  | nil => simp [List.mem_singleton.1 h]
  | cons c rest ih =>
    rw [splitChars] at h
    split at h
    · rcases List.mem_cons.1 h with rfl | h
      · exact List.not_mem_nil
      · exact ih h
    · next hc =>
      split at h
      · rw [List.mem_singleton.1 h, List.mem_singleton]
        exact Ne.symm hc
      · next part' parts hs =>
        rcases List.mem_cons.1 h with rfl | h
        · rw [List.mem_cons, not_or]
          exact ⟨Ne.symm hc, ih (hs ▸ List.mem_cons_self)⟩
        · exact ih (hs ▸ List.mem_cons_of_mem _ h)

theorem Text.not_mem_of_mem_split {sep : Char} {s part : String} (h : part ∈ split sep s) :
    sep ∉ part.toList := by
  obtain ⟨cs, hcs, rfl⟩ := List.mem_map.1 h
  rw [String.toList_ofList]
  exact not_mem_of_mem_splitChars hcs

namespace Path

theorem spelled_of_ofParts? {marked : Bool} {parts segments : List String}
    (hp : ∀ part ∈ parts, marker ∉ part.toList) (h : ofParts? marked parts = some segments) :
    ∀ s ∈ segments, Spelled s := by
  induction parts generalizing marked segments with
  | nil =>
    cases marked with
    | true => cases h
    | false =>
      cases h
      exact fun s hs => absurd hs List.not_mem_nil
  | cons part rest ih =>
    have hrest : ∀ part ∈ rest, marker ∉ part.toList :=
      fun part h => hp part (List.mem_cons_of_mem _ h)
    rw [ofParts?] at h
    split at h
    · split at h
      · cases h
      · exact ih hrest h
    · obtain ⟨more, hm, rfl⟩ := Option.map_eq_some_iff.1 h
      intro s hs
      rcases List.mem_cons.1 hs with rfl | hs
      · have hpart := hp part List.mem_cons_self
        split
        · exact spelled_mark hpart
        · exact spelled_of_not_mem hpart
      · exact ih hrest hm s hs

theorem follow?_plain {names : List String} (h : ∀ s ∈ names, s ≠ parentSegment)
    (place : List String) : follow? place names = some (place ++ names) := by
  induction names generalizing place with
  | nil => rw [follow?, List.append_nil]
  | cons s rest ih =>
    obtain ⟨hs, hrest⟩ := List.forall_mem_cons.1 h
    rw [follow?, if_neg hs, ih hrest, List.append_assoc, List.singleton_append]

theorem mem_of_follow? {place segments out : List String} (h : follow? place segments = some out)
    {s : String} (hs : s ∈ out) : s ∈ place ∨ s ∈ segments := by
  induction segments generalizing place with
  | nil =>
    cases h
    exact .inl hs
  | cons segment rest ih =>
    rw [follow?] at h
    split at h
    · split at h
      · cases h
      · exact (ih h).imp (fun hm => List.dropLast_subset place hm) (List.mem_cons_of_mem _)
    · rcases ih h with hm | hm
      · rcases List.mem_append.1 hm with hm | hm
        · exact .inl hm
        · exact .inr (List.mem_singleton.1 hm ▸ List.mem_cons_self)
      · exact .inr (List.mem_cons_of_mem _ hm)

/-- The segments of a path that a text names from the root. -/
theorem spelled_of_resolve {text : String} {path : Path} (h : root.resolve text = .ok path) :
    ∀ s ∈ path.segments, Spelled s := by
  unfold resolve parse at h
  cases hp : parse? text with
  | none => simp [hp, bind, Except.bind] at h
  | some relative =>
    simp only [hp, bind, Except.bind, join] at h
    cases hf : follow? root.segments relative.segments with
    | none => simp [hf] at h
    | some segments =>
      simp only [hf, Except.ok.injEq] at h
      subst h
      intro s hs
      have hrel := (mem_of_follow? hf hs).resolve_left List.not_mem_nil
      unfold parse? at hp
      split at hp
      · cases hp
        exact absurd hrel List.not_mem_nil
      · obtain ⟨parts, hparts, rfl⟩ := Option.map_eq_some_iff.1 hp
        exact spelled_of_ofParts? (fun part hm => Text.not_mem_of_mem_split hm) hparts s hrel

end Path

end LiveDoc
